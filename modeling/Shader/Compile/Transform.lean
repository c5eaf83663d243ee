import Shader.Arena.Tree
import Shader.Program.Node

/-!
# Transforms

Between the stages of a compilation, transforms may extend a program. A transform may only append
declarations, and at most one function of the result may be named `main`; both are checked.

The check of a program tree goes by the identity of declarations, so a declaration carries a key: a
declaration made by a transform has a key of its own, even if it looks like another. A transform
may also change the scope it was given. The check compares its result with that scope as the
transform left it.
-/

namespace Shader.Compile

open Arena

/-- A node with the key that tells it from an equal one. -/
structure Keyed where
  key : Nat
  node : Program.Node

/-- A program as a transform sees it: the nodes of its root have keys. -/
structure Draft where
  name : String
  children : List Keyed

namespace Draft

def ofScope (scope : Program.Scope) : Draft :=
  ⟨scope.name, scope.children.zipIdx.map fun (node, key) => ⟨key, node⟩⟩

def toScope (draft : Draft) : Program.Scope := ⟨draft.name, draft.children.map (·.node)⟩

/-- A key that no node has. -/
def freshKey (draft : Draft) : Nat := draft.children.foldl (fun n d => max n (d.key + 1)) 0

def append (draft : Draft) (nodes : List Program.Node) : Draft :=
  let base := draft.freshKey
  { draft with
    children := draft.children ++ nodes.zipIdx.map fun (node, i) => ⟨base + i, node⟩ }

end Draft

/-- What a transform has made of the draft that it was given, and what it returns. -/
structure Revision where
  given : Draft
  result : Option Draft

/-- A transform that runs before resolution. It is given the settings of the compilation's
transforms. -/
abbrev ProgramTransform := Draft → Option Program.Node → Except String Revision

/-- A change of a resolved tree, which may fail with a message or return no tree. -/
abbrev TreeTransform := Tree → Option Program.Node → Except String (Option Tree)

/-- The ways in which a transform can break the rule that it only adds. -/
inductive Breach where
  | notRoot
  | noTree
  | removed
  | replaced (index : Nat)
  | mains (count : Nat)
  deriving Repr, DecidableEq

def Breach.message (b : Breach) : String :=
  "transform broke the append-only contract: " ++
    match b with
    | .notRoot => "result is not a root scope"
    | .noTree => "nil tree"
    | .removed => "declarations removed"
    | .replaced index => "declaration " ++ index.repr ++ " replaced"
    | .mains count => count.repr ++ " functions named main"

/-- What was there before has to be the start of what is there afterwards. -/
def checkKept {α : Type} [DecidableEq α] (before after : List α) : Except Breach Unit :=
  if after.length < before.length then .error .removed
  else match (before.zip after).findIdx? fun (old, new) => old ≠ new with
    | some index => .error (.replaced index)
    | none => .ok ()

/-- At most one function may be named `main`. -/
def checkMains (count : Nat) : Except Breach Unit :=
  if 1 < count then .error (.mains count) else .ok ()

def isMain : Program.Node → Bool
  | .function name .. => name = "main"
  | _ => false

/-- Checks the result of a transform against the declarations of the scope it was given. -/
def checkDraft (before : List Keyed) (after : Option Draft) : Except Breach Draft :=
  match after with
  | none => .error .notRoot
  | some draft =>
    if draft.name ≠ Program.rootName then .error .notRoot
    else do
      checkKept (before.map (·.key)) (draft.children.map (·.key))
      checkMains (draft.children.countP (isMain ·.node))
      return draft

def isMainAt (t : Tree) (h : Handle) : Bool :=
  match t.function? h with
  | some decl => decl.name = "main"
  | none => false

/-- Checks the result of a transform against the children of the root before it. -/
def checkTree (before : List Handle) (after : Option Tree) : Except Breach Tree :=
  match after with
  | none => .error .noTree
  | some t => do
    checkKept before t.rootChildren
    checkMains (t.declarations.countP (isMainAt t))
    return t

/-- A transform fails by itself, or by what it returns. -/
inductive TransformError where
  | failed (text : String)
  | breach (b : Breach)
  deriving Repr, DecidableEq

def TransformError.message : TransformError → String
  | .failed text => text
  | .breach b => b.message

/-- Runs a transform of a program and checks what it returns. -/
def transformScope (f : ProgramTransform) (config : Option Program.Node)
    (scope : Program.Scope) : Except TransformError Program.Scope :=
  match f (Draft.ofScope scope) config with
  | .error text => .error (.failed text)
  | .ok revision =>
    match checkDraft revision.given.children revision.result with
    | .error b => .error (.breach b)
    | .ok draft => .ok draft.toScope

/-- Runs a transform of a tree and checks what it returns. -/
def transformTree (f : TreeTransform) (config : Option Program.Node) (t : Tree) :
    Except TransformError Tree :=
  match f t config with
  | .error text => .error (.failed text)
  | .ok after =>
    match checkTree t.rootChildren after with
    | .error b => .error (.breach b)
    | .ok t => .ok t

end Shader.Compile
