import Shader.Glsl.Error
import Shader.Glsl.Names

/-!
# Dependencies

A shader holds what its entry function needs, each declaration after those it depends on.

* `Catalog` is what a tree declares;
* `dependencies` are the declarations to which a declaration refers, in the order in which it
  refers to them first;
* `order` lists what an entry function needs, dependencies first. Where declarations depend on each
  other in a circle, the one that is reached first comes last.
-/

namespace Shader.Glsl

open Arena

/-- A tree with its declarations, and the names that its fragments introduce. -/
structure Catalog where
  tree : Tree
  declared : List Handle
  outputs : List String

namespace Catalog

def outputsOf : Node → List String
  | .fragment decl => decl.outputs
  | _ => []

def ofTree (tree : Tree) : Catalog :=
  ⟨tree, tree.declarations, tree.nodes.toList.flatMap outputsOf⟩

/-- The first declaration of a name. The empty name is not declared. -/
def byName? (c : Catalog) (name : String) : Option Handle :=
  if name = "" then none else c.declared.find? fun h => c.tree.name h = name

end Catalog

/-- What a walk through the body of a declaration has come across. -/
structure References where
  /-- The declarations, in the order of their first reference. -/
  found : List Handle
  /-- The parameters and variables declared so far. -/
  locals : List String
  deriving Repr, DecidableEq

namespace References

def none : References := ⟨[], []⟩

/-- Notes a reference. Only the first to each declaration counts. -/
def add (r : References) (h : Handle) : References :=
  if h.isNone || h ∈ r.found then r else { r with found := r.found ++ [h] }

/-- The reference of a field or parameter to its type. -/
def addTypeOf (r : References) (t : Tree) (h : Handle) : References :=
  match t.node? h with
  | some (.member decl) => r.add decl.type
  | some (.parameter _ type) => r.add type
  | _ => r

/-- Notes a name that a function declares itself. -/
def addLocal (r : References) (name : String) : References :=
  { r with locals := name :: r.locals }

/-- A reference by name. One that is resolved counts if it is to a declaration; one that is not
counts for the declaration of the name, unless the name is local. -/
def addNamed (r : References) (c : Catalog) (h : Handle) (name : String) : References :=
  if h.isSome then (if h ∈ c.declared then r.add h else r)
  else if name ∈ r.locals then r
  else match c.byName? name with
    | some decl => r.add decl
    | Option.none => r

/-- The names that a fragment reads. One that nothing explains is an error. -/
def addInputs (r : References) (c : Catalog) : List String → Except GenerateError References
  | [] => .ok r
  | name :: rest =>
    match c.byName? name with
    | some decl => (r.add decl).addInputs c rest
    | Option.none =>
      if name ∈ r.locals || name ∈ c.outputs || isBuiltin name ||
          (c.tree.findStruct? name).isSome then
        r.addInputs c rest
      else .error (.unresolvedSymbol name)

end References

def isName (t : Tree) (h : Handle) : Bool :=
  match t.node? h with
  | some (.ident ..) => true
  | _ => false

/-- The references of an expression, at most `depth` deep. A name on the right side of an access is
a field and refers to nothing. -/
def readExpr (c : Catalog) : Nat → Handle → References → Except GenerateError References
  | 0, _, _ => .error (.malformed .cyclic)
  | depth + 1, h, r =>
    match c.tree.node? h with
    | some (.ident name source) => .ok (r.addNamed c source name)
    | some (.access left right) => do
      let r ← readExpr c depth left r
      if isName c.tree right then return r else readExpr c depth right r
    | some (.call callee target args) =>
      let r := if (c.tree.struct? target).isSome then r.add target
        else r.addNamed c target callee
      args.foldlM (fun r a => readExpr c depth a r) r
    | some (.intrinsicCall _ elements) =>
      elements.foldlM (fun r e => readExpr c depth e r) r
    | some (.binary _ left right) => do
      let r ← readExpr c depth left r
      readExpr c depth right r
    | some (.localVar name type) => .ok ((r.add type).addLocal name)
    | some (.sequence elements) => elements.foldlM (fun r e => readExpr c depth e r) r
    | some (.ret value) => if value.isSome then readExpr c depth value r else .ok r
    | some (.fragment decl) => r.addInputs c decl.inputs
    | some (.constant _) => .ok r
    | some (.marker ..) => .ok r
    | some (.literal ..) => .ok r
    | some .placeholder => .ok r
    | none => .error (.malformed .danglingStatement)
    | some _ => .error (.malformed .declarationInStatement)

/-- The references of a function: types of parameters, result type, statements. -/
def readFunction (c : Catalog) (decl : Function) : Except GenerateError References :=
  let params := decl.params.foldl
    (fun r p => (r.addTypeOf c.tree p).addLocal (c.tree.name p)) References.none
  decl.statements.foldlM (fun r s => readExpr c (c.tree.size + 1) s r) (params.add decl.returns)

/-- The declarations that the declaration at a handle refers to. -/
def dependencies (c : Catalog) (h : Handle) : Except GenerateError (List Handle) :=
  let typesOf (members : List Handle) : References :=
    members.foldl (fun r m => r.addTypeOf c.tree m) References.none
  match c.tree.node? h with
  | some (.function decl) => (readFunction c decl).map (·.found)
  | some (.struct decl) => .ok (decl.types.foldl References.add (typesOf decl.fields)).found
  | some (.member decl) => .ok (References.none.add decl.type).found
  | some (.binding decl) => .ok (typesOf decl.members).found
  | some (.pushConstant members) => .ok (typesOf members).found
  | some (.specialization _ type) => .ok (References.none.add type).found
  | some (.fragment decl) => (References.none.addInputs c decl.inputs).map (·.found)
  | some _ => .ok []
  | none => .error (.malformed .danglingReference)

/-- The declarations that a depth-first walk has entered and those it has left. -/
structure Walk where
  entered : List Handle
  left : List Handle
  deriving Repr, DecidableEq

/-- Visits a declaration after what it depends on, at most the given number deep. -/
def walk (c : Catalog) : Nat → Handle → Walk → Except GenerateError Walk
  | 0, _, _ => .error (.malformed .cyclic)
  | depth + 1, h, w =>
    if h ∈ w.entered then .ok w
    else do
      let deps ← dependencies c h
      let w ← deps.foldlM (fun w d => walk c depth d w) { w with entered := h :: w.entered }
      return { w with left := w.left ++ [h] }

/-- What a declaration needs, itself included, dependencies first. No walk goes deeper than there
are nodes. -/
def order (c : Catalog) (entry : Handle) : Except GenerateError (List Handle) :=
  (walk c (c.tree.size + 1) entry ⟨[], []⟩).map (·.left)

end Shader.Glsl
