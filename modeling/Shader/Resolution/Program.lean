import Shader.Resolution.Expressions

/-!
# Resolution of programs

The declarations of a program are resolved in order, each seeing what stands before it.
-/

namespace Shader.Resolution

open Arena

/-- Adds a parameter and declares its name. -/
def resolveParameter (table : Program.TypeTable) (p : Program.Parameter) : ResolveM Handle := do
  let type ← within ("parameter " ++ p.name) (resolveType table p.type)
  let h ← addNode (.parameter p.name type)
  declare p.name h
  return h

/-- Adds a function after its parts. Its name is declared after its body. -/
def resolveFunction (table : Program.TypeTable) (name : String)
    (params : List Program.Parameter) (returns : String) (statements : List Program.Node)
    (annotations : List String) : ResolveM Handle := do
  let h ← within ("function " ++ name) do
    let returns ← resolveReturn table returns
    openBlock
    let params ← params.mapM (resolveParameter table)
    let statements ← resolveExprs table statements
    closeBlock
    addNode (.function ⟨name, params, returns, statements, annotations⟩)
  declare name h
  return h

/-- Adds an intrinsic, which is declared before its block is closed. -/
def resolveIntrinsic (table : Program.TypeTable) (name : String)
    (params : List Program.Parameter) (body : List Program.Node) (returns : String) :
    ResolveM Handle :=
  within ("intrinsic " ++ name) do
    let returns ← resolveReturn table returns
    openBlock
    let params ← params.mapM (resolveParameter table)
    let body ← resolveExprs table body
    let h ← addNode (.intrinsic ⟨name, params, body, returns⟩)
    declareOutside name h
    closeBlock
    return h

/-- The kind, members and format of a resource. -/
def resolveResource (table : Program.TypeTable) (name : String) :
    Option Program.Resource → ResolveM (BindingKind × List Handle × String)
  | some (.buffer members) => do
    let members ← within ("binding " ++ name) (resolveMembers table members)
    return (.buffer, members, "")
  | some (.image format) => return (.image, [], format)
  | some (.combinedImageSampler format) => return (.combinedImageSampler, [], format)
  | none => throw (.undefined (.noResource name))

/-- Adds a binding after the nodes of its members. -/
def resolveBinding (table : Program.TypeTable) (b : Program.Binding) : ResolveM Handle := do
  let (kind, members, format) ← resolveResource table b.name b.resource
  let h ← addNode
    (.binding ⟨b.name, kind, members, format, b.set, b.slot, b.read, b.write, b.count⟩)
  declare b.name h
  return h

/-- Adds a struct. From here on it is visible, and it takes the place of an intrinsic type of its
name. -/
def resolveStructDecl (table : Program.TypeTable) (decl : Program.Struct) : ResolveM Handle := do
  modify fun s => { s with
    pending := s.pending.filter (· ≠ decl.name)
    registry :=
      if Program.isIntrinsicType decl.name then
        (s.registry.remove decl.name).remove (decl.name ++ "*")
      else s.registry }
  let h ← resolveStruct table decl
  declare decl.name h
  return h

/-- Makes a node a child of a scope. -/
def adopt (scope child : Handle) : ResolveM Unit := fun s =>
  match s.tree.appendChild scope child with
  | .ok tree => .ok ((), { s with tree })
  | .error e => .error (.tree e)

mutual

/-- Resolves a declaration. A scope is added before what stands in it. -/
def resolveDeclaration (table : Program.TypeTable) : Program.Node → ResolveM Handle
  | .scope name children => do
    let h ← addNode (.scope name [])
    openBlock
    resolveChildren table (within ("scope " ++ name)) h children
    closeBlock
    return h
  | .struct decl => resolveStructDecl table decl
  | .member decl => do
    let type ← within ("member " ++ decl.name) (resolveType table decl.type)
    let h ← addNode (.member ⟨decl.name, type, decl.count, decl.annotations⟩)
    declare decl.name h
    return h
  | .function name params returns statements annotations =>
    resolveFunction table name params returns statements annotations
  | .binding decl => resolveBinding table decl
  | .pushConstant members => do
    let members ← within "push constant" (resolveMembers table members)
    let h ← addNode (.pushConstant members)
    declare Program.pushConstantName h
    return h
  | .specialization name type => do
    let type ← within ("specialization " ++ name) (resolveType table type)
    let h ← addNode (.specialization name type)
    declare name h
    return h
  | .fragment decl => resolveFragment decl
  | .intrinsic name params body returns => resolveIntrinsic table name params body returns
  | .literal name body => resolveLiteral name body
  | .parameter decl => resolveParameter table decl
  | .placeholder => addNode .placeholder
  | .missing => throw (.undefined .noDeclaration)
  | node => throw (.undefined (.notDeclaration (kindName node)))

/-- Resolves the declarations of a scope and adds each to it. The errors of a declaration are
placed by `place`. -/
def resolveChildren (table : Program.TypeTable) (place : ResolveM Handle → ResolveM Handle)
    (scope : Handle) : List Program.Node → ResolveM Unit
  | [] => return ()
  | node :: rest => do
    let child ← place (resolveDeclaration table node)
    adopt scope child
    resolveChildren table place scope rest

end

/-- The names of the structs at the root. -/
def declaredStructs (children : List Program.Node) : List String :=
  children.filterMap fun
    | .struct decl => some decl.name
    | _ => none

/-- An empty tree in which no struct has been reached. -/
def State.initial (children : List Program.Node) : State :=
  ⟨Tree.empty, Registry.empty, declaredStructs children, [[]]⟩

/-- Resolves a program into a tree. -/
def resolve (root : Option Program.Scope) (table : Program.TypeTable) :
    Except ResolveError Tree :=
  match root with
  | none => .error (.undefined .noRoot)
  | some scope =>
    match resolveChildren table id Tree.root scope.children (State.initial scope.children) with
    | .ok ((), s) => .ok s.tree
    | .error e => .error e

end Shader.Resolution
