import Shader.Resolution.Types

/-!
# Resolution of expressions

Names are looked up in the blocks around them, the innermost first. On the right side of an access
the fields of the left side come first. A call of an intrinsic becomes a copy of its body in which
the arguments stand for the parameters; parts without parameters are shared with the body.
-/

namespace Shader.Resolution

open Arena

/-! ## Names -/

/-- Declares a name in the innermost block. The empty name is not declared. -/
def declare (name : String) (h : Handle) : ResolveM Unit :=
  modify fun s =>
    if name = "" then s
    else match s.blocks with
      | block :: outer => { s with blocks := ((name, h) :: block) :: outer }
      | [] => s

/-- Declares a name in the block around the innermost one, whatever the name is. -/
def declareOutside (name : String) (h : Handle) : ResolveM Unit :=
  modify fun s =>
    match s.blocks with
    | inner :: block :: outer => { s with blocks := inner :: ((name, h) :: block) :: outer }
    | _ => s

/-- Starts a block without names. -/
def openBlock : ResolveM Unit := modify fun s => { s with blocks := [] :: s.blocks }

/-- Forgets the names of the innermost block. -/
def closeBlock : ResolveM Unit := modify fun s => { s with blocks := s.blocks.tail }

/-- The latest node declared under a name in the innermost block that declares it. -/
def State.lookup? (s : State) (name : String) : Option Handle :=
  s.blocks.findSome? fun block => (block.find? (·.1 = name)).map (·.2)

/-! ## Fields -/

/-- The argument of an instance with one argument; any other type is its own pointee. -/
def pointee (t : Tree) (h : Handle) : Handle :=
  match t.struct? h with
  | some decl =>
    match decl.types with
    | [argument] => if decl.isInstance then argument else h
    | _ => h
  | none => h

/-- The node whose fields an access on the node `h` can reach, found in at most `steps` steps. -/
def containerFrom (t : Tree) : Nat → Handle → Handle
  | 0, _ => none
  | steps + 1, h =>
    match t.node? h with
    | some (.ident _ source) => containerFrom t steps source
    | some (.access _ right) => containerFrom t steps right
    | some (.member decl) => pointee t decl.type
    | some (.localVar _ type) => type
    | some (.parameter _ type) => type
    | some (.specialization _ type) => type
    | some (.pushConstant _) => h
    | some (.binding _) => h
    | some (.struct _) => h
    | some (.call _ target _) =>
      match t.node? target with
      | some (.function decl) => decl.returns
      | some (.struct _) => target
      | _ => none
    | some (.intrinsicCall intrinsic _) =>
      match t.node? intrinsic with
      | some (.intrinsic decl) => decl.returns
      | _ => none
    | _ => none

/-- The node whose fields an access reaches. No chain is longer than the tree. -/
def containerOf (t : Tree) (h : Handle) : Handle := containerFrom t (t.size + 1) h

/-- The fields of a struct or block. -/
def membersOf (t : Tree) (container : Handle) : List Handle :=
  match t.node? container with
  | some (.struct decl) => decl.fields
  | some (.pushConstant members) => members
  | some (.binding decl) => decl.members
  | _ => []

/-- The first field of a name. -/
def fieldOf (t : Tree) (container : Handle) (name : String) : Handle :=
  ((membersOf t container).find? fun m => t.name m = name).getD none

/-- What a name refers to: a field of the container if there is one, else what the blocks say. -/
def State.source (s : State) (container : Handle) (name : String) : Handle :=
  (fieldOf s.tree container name).or ((s.lookup? name).getD none)

/-! ## Intrinsics -/

/-- The argument that stands for a parameter. -/
def argumentFor (args : List (Handle × Handle)) (source : Handle) : Option Handle :=
  (args.find? (·.1 = source)).map (·.2)

mutual

/-- A copy of the expression `h`, at most `depth` deep, in which the arguments stand for the
parameters. An expression without parameters is not copied. -/
def substitute (args : List (Handle × Handle)) : Nat → Handle → ResolveM Handle
  | 0, h => return h
  | depth + 1, h => do
    match (← get).tree.node? h with
    | some (.ident _ source) => return (argumentFor args source).getD h
    | some (.access left right) =>
      let left' ← substitute args depth left
      if left' = left then return h else addNode (.access left' right)
    | some (.binary op left right) =>
      let left' ← substitute args depth left
      let right' ← substitute args depth right
      if left' = left ∧ right' = right then return h else addNode (.binary op left' right')
    | some (.call callee target params) =>
      let params' ← substituteAll args depth params
      if params' = params then return h else addNode (.call callee target params')
    | some (.sequence elements) =>
      let elements' ← substituteAll args depth elements
      if elements' = elements then return h else addNode (.sequence elements')
    | some (.ret (some value)) =>
      let value' ← substitute args depth (some value)
      if value' = some value then return h else addNode (.ret value')
    | _ => return h

def substituteAll (args : List (Handle × Handle)) (depth : Nat) :
    List Handle → ResolveM (List Handle)
  | [] => return []
  | h :: rest => do
    let h' ← substitute args depth h
    let rest' ← substituteAll args depth rest
    return h' :: rest'

end

/-! ## Calls -/

/-- What a call refers to: a declared name, or a struct that is visible as a type. -/
def calleeHandle (table : Program.TypeTable) (callee : String) : ResolveM Handle := do
  let s ← get
  match s.lookup? callee with
  | some h => return h
  | none =>
    match visibleStruct? table s callee with
    | some decl => resolveStruct table decl
    | none => return none

/-- Adds the call of a name with resolved arguments. What is neither function, intrinsic nor struct
is taken to be built into the target language. -/
def resolveCall (table : Program.TypeTable) (callee : String) (args : List Handle) :
    ResolveM Handle := do
  let target ← calleeHandle table callee
  let tree := (← get).tree
  match tree.node? target with
  | some (.function decl) =>
    if decl.params.length = args.length then addNode (.call callee target args)
    else throw (.argumentCount callee decl.params.length args.length)
  | some (.intrinsic decl) =>
    if decl.params.length = args.length then
      let elements ← substituteAll (decl.params.zip args) (tree.size + 1) decl.body
      addNode (.intrinsicCall target elements)
    else throw (.argumentCount callee decl.params.length args.length)
  | some (.struct _) => addNode (.call callee target args)
  | _ => addNode (.call callee none args)

/-! ## Expressions -/

/-- Adds a fragment and declares the names that it introduces. -/
def resolveFragment (decl : Program.Fragment) : ResolveM Handle := do
  let h ← addNode (.fragment decl)
  decl.outputs.forM (declare · h)
  return h

/-- Adds a literal and declares its name. -/
def resolveLiteral (name body : String) : ResolveM Handle := do
  let h ← addNode (.literal name body)
  declare name h
  return h

mutual

/-- Resolves an expression. `container` is the node whose fields come first. -/
def resolveExpr (table : Program.TypeTable) (container : Handle) :
    Program.Node → ResolveM Handle
  | .ident name => do
    let s ← get
    addNode (.ident name (s.source container name))
  | .constant text => addNode (.constant text)
  | .access left right => do
    let left ← resolveExpr table container left
    let right ← resolveExpr table (containerOf (← get).tree left) right
    addNode (.access left right)
  | .call callee args => do
    let args ← within ("call to " ++ callee) (resolveExprs table args)
    resolveCall table callee args
  | .binary symbol left right =>
    match Operator.ofSymbol? symbol with
    | some op => do
      let left ← resolveExpr table none left
      let right ← resolveExpr table none right
      addNode (.binary op left right)
    | none => throw (.undefined (.unknownOperator symbol))
  | .localVar name type => do
    let type ← within ("variable " ++ name) (resolveType table type)
    let h ← addNode (.localVar name type)
    declare name h
    return h
  | .sequence elements => do
    let elements ← resolveExprs table elements
    addNode (.sequence elements)
  | .ret none => addNode (.ret none)
  | .ret (some value) => do
    let value ← resolveExpr table none value
    addNode (.ret value)
  | .marker name body => addNode (.marker name body)
  | .fragment decl => resolveFragment decl
  | .literal name body => resolveLiteral name body
  | .placeholder => addNode .placeholder
  | .missing => throw (.undefined .noExpression)
  | node => throw (.undefined (.notExpression (kindName node)))

def resolveExprs (table : Program.TypeTable) : List Program.Node → ResolveM (List Handle)
  | [] => return []
  | node :: rest => do
    let h ← resolveExpr table none node
    let more ← resolveExprs table rest
    return h :: more

end

end Shader.Resolution
