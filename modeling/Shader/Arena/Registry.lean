import Shader.Arena.Tree

/-!
# Registries of structs

A registry gives each key at most one handle, so that one type has one struct in a tree.
-/

namespace Shader.Arena

/-- The types made so far, each under the name it is looked up by. -/
structure Registry where
  entries : List (String × Handle)
  deriving Repr, DecidableEq

namespace Registry

def empty : Registry := ⟨[]⟩

def lookup? (r : Registry) (key : String) : Option Handle :=
  (r.entries.find? (·.1 = key)).map (·.2)

def remove (r : Registry) (key : String) : Registry := ⟨r.entries.filter (·.1 ≠ key)⟩

def assign (r : Registry) (key : String) (h : Handle) : Registry :=
  ⟨(key, h) :: (r.remove key).entries⟩

def count (r : Registry) : Nat := r.entries.length

/-- The handle of a key. A key without one gets the given struct as a new node of the tree. -/
def getOrCreate (r : Registry) (t : Tree) (key : String) (decl : Struct) :
    Handle × Registry × Tree :=
  match r.lookup? key with
  | some h => (h, r, t)
  | none =>
    let (h, t) := t.add (.struct decl)
    (h, r.assign key h, t)

end Registry

end Shader.Arena
