import Shader.Arena.Registry
import Shader.Program.TypeName
import Shader.Program.TypeTable
import Shader.Resolution.Error

/-!
# Resolution of types

A type name is resolved to one shared struct node. A struct is resolved with the types of its
fields when it is first needed; a root struct that is declared further down is not visible yet. An
instance `Outer<Inner>` is a struct whose template is `Outer` and whose argument is `Inner`; a
pointer as argument becomes an empty struct of its own.

Structs whose resolution is under way may not be entered again, so every resolution carries the
names that may still be entered, and ends because they become fewer.
-/

namespace Shader.Resolution

open Arena Program.TypeName

/-- The names declared in one block, the latest first. -/
abbrev Block := List (String × Handle)

/-- The tree made so far, and what is known while it is made. -/
structure State where
  tree : Tree
  registry : Registry
  /-- The root structs that have not been reached. -/
  pending : List String
  /-- The blocks around the current place, the innermost first. -/
  blocks : List Block

/-- Resolution changes the state, and stops at the first error. -/
abbrev ResolveM := StateT State (Except ResolveError)

/-- The computation, with its errors placed inside a part of the program. -/
def within {α : Type} (place : String) (act : ResolveM α) : ResolveM α := fun s =>
  match act s with
  | .ok r => .ok r
  | .error e => .error (.inside place e)

/-- Adds a node to the tree. -/
def addNode (node : Node) : ResolveM Handle := fun s =>
  let (h, tree) := s.tree.add node
  .ok (h, { s with tree })

/-- The struct of a key, which is added if there is none. -/
def sharedStruct (key : String) (decl : Struct) : ResolveM Handle := fun s =>
  let (h, registry, tree) := s.registry.getOrCreate s.tree key decl
  .ok (h, { s with registry, tree })

/-- Lets a further key stand for a struct. -/
def shareAs (key : String) (h : Handle) : ResolveM Unit :=
  modify fun s => { s with registry := s.registry.assign key h }

/-- The struct that a type name stands for at this point. A root struct that has not been reached
does not hide an intrinsic type of its name. -/
def visibleStruct? (table : Program.TypeTable) (s : State) (name : String) :
    Option Program.Struct :=
  if withoutStar name ∈ s.pending then Program.intrinsicType? name else table.lookup? name

/-- The structs that can be entered: those of the table and the intrinsic ones. -/
def structNames (table : Program.TypeTable) : List String :=
  table.structs.map (·.name) ++ Program.intrinsicTypes.map (·.name)

theorem length_filter_ne_lt {names : List String} {name : String} (h : name ∈ names) :
    (names.filter (· ≠ name)).length < names.length := by
  rw [List.length_filter_lt_length_iff_exists]
  exact ⟨name, h, by simp⟩

mutual

/-- The node of a struct. It is made, after the nodes of its fields, when it is first needed.
`names` are the structs that may be entered. -/
def structHandle (table : Program.TypeTable) (names : List String) (decl : Program.Struct) :
    ResolveM Handle := do
  match (← get).registry.lookup? decl.name with
  | some h => return h
  | none =>
    if _h : decl.name ∈ names then
      let fields ← within ("struct " ++ decl.name)
        (memberHandles table (names.filter (· ≠ decl.name)) decl.fields)
      let h ← sharedStruct decl.name ⟨decl.name, none, fields, []⟩
      shareAs (decl.name ++ "*") h
      return h
    else throw (.undefined (.selfContaining decl.name))
termination_by (names.length, 0, 0)
decreasing_by
  apply Prod.Lex.left
  exact length_filter_ne_lt (by assumption)

/-- The node of a type. An instance comes after its template and its argument. -/
def typeHandle (table : Program.TypeTable) (names : List String) (name : String) :
    ResolveM Handle := do
  match (← get).registry.lookup? name with
  | some h => return h
  | none =>
    match _h : splitInstance? name with
    | some (outer, inner) =>
      let template ← typeHandle table names outer
      let argument ←
        if isPointer inner then
          sharedStruct (outer ++ "<" ++ inner ++ ">#pointee") ⟨inner, template, [], []⟩
        else typeHandle table names inner
      sharedStruct name ⟨name, template, [], [argument]⟩
    | none =>
      match visibleStruct? table (← get) name with
      | some decl => structHandle table names decl
      | none => throw (.noSuchType name)
termination_by (names.length, 1, name.length)
decreasing_by
  · exact Prod.Lex.right _ (Prod.Lex.right _ (splitInstance?_lt (by assumption)).1)
  · exact Prod.Lex.right _ (Prod.Lex.right _ (splitInstance?_lt (by assumption)).2)
  · exact Prod.Lex.right _ (Prod.Lex.left _ _ (by omega))

/-- The nodes of a list of members, each after the node of its type. -/
def memberHandles (table : Program.TypeTable) (names : List String) :
    List Program.Member → ResolveM (List Handle)
  | [] => return []
  | m :: rest => do
    let type ← within ("member " ++ m.name) (typeHandle table names m.type)
    let h ← addNode (.member ⟨m.name, type, m.count, m.annotations⟩)
    let more ← memberHandles table names rest
    return h :: more
termination_by members => (names.length, 2, members.length)
decreasing_by
  · exact Prod.Lex.right _ (Prod.Lex.left _ _ (by omega))
  · exact Prod.Lex.right _ (Prod.Lex.right _ (by simp))

end

/-- The node of a type name. -/
def resolveType (table : Program.TypeTable) (name : String) : ResolveM Handle :=
  typeHandle table (structNames table) name

/-- The node of a declared struct, which may be in no table. -/
def resolveStruct (table : Program.TypeTable) (decl : Program.Struct) : ResolveM Handle :=
  structHandle table (decl.name :: structNames table) decl

def resolveMembers (table : Program.TypeTable) (members : List Program.Member) :
    ResolveM (List Handle) :=
  memberHandles table (structNames table) members

/-- The struct node of the type that a function returns, which is `void` if none is given. -/
def resolveReturn (table : Program.TypeTable) (name : String) : ResolveM Handle :=
  resolveType table (if name = "" then "void" else name)

end Shader.Resolution
