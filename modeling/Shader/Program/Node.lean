/-!
# Program trees

A program is a tree of declarations and expressions in which types and values are still referred
to by name. Trees come from program text, from a program description or from another tool, so a
node can stand anywhere, and a place can also be left empty (`Node.missing`).
-/

namespace Shader.Program

/-- A field of a struct or block, or a declaration of a typed value. The type may be an instance
such as `In<vec4f>`; the count is the length of an array, or zero for a single value. -/
structure Member where
  name : String
  type : String
  count : UInt32
  annotations : List String
  deriving Repr, DecidableEq

/-- A parameter with the name of its type. -/
structure Parameter where
  name : String
  type : String
  deriving Repr, DecidableEq

/-- A structure type as it is declared, its fields with the names of their types. -/
structure Struct where
  name : String
  fields : List Member
  annotations : List String
  deriving Repr, DecidableEq

/-- What a binding gives access to. -/
inductive Resource where
  | buffer (members : List Member)
  | image (format : String)
  | combinedImageSampler (format : String)
  deriving Repr, DecidableEq

/-- A resource of a descriptor set. -/
structure Binding where
  name : String
  resource : Option Resource
  set : UInt32
  slot : UInt32
  read : Bool
  write : Bool
  count : UInt32
  deriving Repr, DecidableEq

/-- Code of the target language. The inputs are names that it reads, the outputs names that it
introduces for later code. -/
structure Fragment where
  code : String
  inputs : List String
  outputs : List String
  deriving Repr, DecidableEq

/-- The nodes of a parsed program. Types and variables are referred to by name. -/
inductive Node where
  | scope (name : String) (children : List Node)
  | struct (decl : Struct)
  | member (decl : Member)
  | function (name : String) (params : List Parameter) (returns : String)
      (statements : List Node) (annotations : List String)
  | parameter (decl : Parameter)
  | binding (decl : Binding)
  | specialization (name type : String)
  | pushConstant (members : List Member)
  | fragment (decl : Fragment)
  | intrinsic (name : String) (params : List Parameter) (body : List Node) (returns : String)
  | literal (name body : String)
  | placeholder
  | sequence (elements : List Node)
  | access (left right : Node)
  | ident (name : String)
  | constant (text : String)
  | call (callee : String) (args : List Node)
  | binary (symbol : String) (left right : Node)
  | localVar (name type : String)
  | marker (name body : String)
  | ret (value : Option Node)
  | missing
  deriving Repr, Inhabited

def pushConstantName : String := "push_constant"

def rootName : String := "root"

def Node.name : Node → String
  | .scope name _ => name
  | .struct decl => decl.name
  | .member decl => decl.name
  | .function name .. => name
  | .parameter decl => decl.name
  | .binding decl => decl.name
  | .specialization name _ => name
  | .pushConstant _ => pushConstantName
  | .intrinsic name .. => name
  | .literal name _ => name
  | .localVar name _ => name
  | .ident name => name
  | .call callee _ => callee
  | .marker name _ => name
  | _ => ""

/-- A scope with its declarations; the root of a program is one. -/
structure Scope where
  name : String
  children : List Node
  deriving Repr, Inhabited

namespace Scope

def root (children : List Node) : Scope := ⟨rootName, children⟩

def append (scope : Scope) (nodes : List Node) : Scope :=
  { scope with children := scope.children ++ nodes }

def child? (scope : Scope) (name : String) : Option Node :=
  scope.children.find? (·.name = name)

def toNode (scope : Scope) : Node := .scope scope.name scope.children

end Scope

end Shader.Program
