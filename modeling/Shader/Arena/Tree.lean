import Shader.Arena.Operator
import Shader.Program.Node

/-!
# Resolved trees

A resolved program is a tree kept in an arena: nodes refer to each other by handles, the indices of
the nodes in the order in which they were added. The first node is the root scope. Nodes are never
removed or changed, except that a scope may gain children at its end.
-/

namespace Shader.Arena

/-- A reference to a node: its index, or a reference to no node. Indices are natural numbers, on the
assumption that a tree has fewer than `2 ^ 32` nodes. -/
abbrev Handle := Option Nat

/-- The number that stands for a handle in messages: the index, or the largest word of 32 bits. -/
def Handle.number (h : Handle) : Nat := h.getD 4294967295

/-- A structure type. An instance of a generic type has a template and type arguments. -/
structure Struct where
  name : String
  template : Handle
  fields : List Handle
  types : List Handle
  deriving Repr, DecidableEq

def Struct.isInstance (s : Struct) : Bool := s.template.isSome

/-- A field of a struct or block, or a typed value, with its type resolved. -/
structure Member where
  name : String
  type : Handle
  count : UInt32
  annotations : List String
  deriving Repr, DecidableEq

/-- A function with the handles of its parameters, result and statements. -/
structure Function where
  name : String
  params : List Handle
  returns : Handle
  statements : List Handle
  annotations : List String
  deriving Repr, DecidableEq

/-- What kind of resource a binding gives access to. -/
inductive BindingKind where
  | buffer
  | image
  | combinedImageSampler
  | unknown (code : UInt8)
  deriving Repr, DecidableEq

namespace BindingKind

def ofCode (code : UInt8) : BindingKind :=
  if code = 0 then .buffer
  else if code = 1 then .image
  else if code = 2 then .combinedImageSampler
  else .unknown code

def text : BindingKind → String
  | .buffer => "buffer"
  | .image => "image"
  | .combinedImageSampler => "combined_image_sampler"
  | .unknown code => "BindingKind(" ++ code.toNat.repr ++ ")"

end BindingKind

/-- A resource of a descriptor set. Only a buffer has members, only an image a format. -/
structure Binding where
  name : String
  kind : BindingKind
  members : List Handle
  format : String
  set : UInt32
  slot : UInt32
  read : Bool
  write : Bool
  count : UInt32
  deriving Repr, DecidableEq

/-- A function whose calls are replaced by its body. -/
structure Intrinsic where
  name : String
  params : List Handle
  body : List Handle
  returns : Handle
  deriving Repr, DecidableEq

/-- The nodes of a resolved tree. What stands inside a node is referred to by handles. -/
inductive Node where
  | scope (name : String) (children : List Handle)
  | struct (decl : Struct)
  | member (decl : Member)
  | function (decl : Function)
  | parameter (name : String) (type : Handle)
  | binding (decl : Binding)
  | pushConstant (members : List Handle)
  | specialization (name : String) (type : Handle)
  | fragment (decl : Program.Fragment)
  | intrinsic (decl : Intrinsic)
  | literal (name body : String)
  | placeholder
  | sequence (elements : List Handle)
  | access (left right : Handle)
  /-- A name, with the node it refers to if that is known. -/
  | ident (name : String) (source : Handle)
  | constant (text : String)
  /-- A call, with the function or struct that is called if that is known. -/
  | call (callee : String) (target : Handle) (args : List Handle)
  /-- The body of an intrinsic with the arguments of a call in place of its parameters. -/
  | intrinsicCall (intrinsic : Handle) (elements : List Handle)
  | binary (op : Operator) (left right : Handle)
  | localVar (name : String) (type : Handle)
  | marker (name body : String)
  | ret (value : Handle)
  deriving Repr, DecidableEq, Inhabited

def Node.name : Node → String
  | .scope name _ => name
  | .struct decl => decl.name
  | .member decl => decl.name
  | .function decl => decl.name
  | .parameter name _ => name
  | .binding decl => decl.name
  | .pushConstant _ => Program.pushConstantName
  | .specialization name _ => name
  | .intrinsic decl => decl.name
  | .literal name _ => name
  | .localVar name _ => name
  | .ident name _ => name
  | .call callee .. => callee
  | .marker name _ => name
  | _ => ""

/-- The arena itself: the node of a handle is the one at its index. -/
structure Tree where
  nodes : Array Node
  deriving Repr, DecidableEq

/-- Why a child cannot be added to a scope. -/
inductive TreeError where
  | notScope (scope : Handle)
  | noSuchChild (child : Handle)
  deriving Repr, DecidableEq

def TreeError.message : TreeError → String
  | .notScope scope => "node " ++ (Handle.number scope).repr ++ " is not a scope"
  | .noSuchChild child => "invalid child handle " ++ (Handle.number child).repr

namespace Tree

def empty : Tree := ⟨#[.scope Program.rootName []]⟩

def root : Handle := some 0

def size (t : Tree) : Nat := t.nodes.size

def node? (t : Tree) (h : Handle) : Option Node := h.bind (t.nodes[·]?)

def add (t : Tree) (node : Node) : Handle × Tree := (some t.size, ⟨t.nodes.push node⟩)

def scope? (t : Tree) (h : Handle) : Option (String × List Handle) :=
  match t.node? h with
  | some (.scope name children) => some (name, children)
  | _ => none

def struct? (t : Tree) (h : Handle) : Option Struct :=
  match t.node? h with
  | some (.struct decl) => some decl
  | _ => none

def function? (t : Tree) (h : Handle) : Option Function :=
  match t.node? h with
  | some (.function decl) => some decl
  | _ => none

def name (t : Tree) (h : Handle) : String :=
  match t.node? h with
  | some node => node.name
  | none => ""

def rootChildren (t : Tree) : List Handle :=
  match t.scope? root with
  | some (_, children) => children
  | none => []

def appendChild (t : Tree) (scope child : Handle) : Except TreeError Tree :=
  match scope, t.scope? scope with
  | some i, some (name, children) =>
    if (t.node? child).isSome then
      .ok ⟨t.nodes.setIfInBounds i (.scope name (children ++ [child]))⟩
    else .error (.noSuchChild child)
  | _, _ => .error (.notScope scope)

/-- The declarations of a scope, with those of the scopes inside it in their place, down to the
given depth. -/
def declarationsIn (t : Tree) : Nat → Handle → List Handle
  | 0, _ => []
  | depth + 1, scope =>
    match t.scope? scope with
    | some (_, children) =>
      children.flatMap fun child =>
        if (t.scope? child).isSome then t.declarationsIn depth child else [child]
    | none => []

/-- The declarations of a tree in document order. Scopes cannot be nested deeper than there are
nodes. -/
def declarations (t : Tree) : List Handle := t.declarationsIn t.size root

def findIn? (t : Tree) (name : String) : Nat → Handle → Option Handle
  | 0, _ => none
  | depth + 1, scope =>
    match t.scope? scope with
    | some (_, children) =>
      children.findSome? fun child =>
        if (t.scope? child).isSome then t.findIn? name depth child
        else if t.name child = name then some child else none
    | none => none

def find? (t : Tree) (name : String) : Option Handle := t.findIn? name t.size root

def isStructNamed (name : String) : Node → Bool
  | .struct decl => decl.name = name
  | _ => false

/-- The first struct of the given name in the arena, declared or not. -/
def findStruct? (t : Tree) (name : String) : Option Handle :=
  (t.nodes.toList.findIdx? (isStructNamed name)).map some

end Tree

end Shader.Arena
