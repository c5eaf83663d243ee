import Shader.Program.Node

/-!
# Type tables

The intrinsic types of the language, and tables that add the structs of a program to them. A table
is the sequence of the structs put into it. A struct answers to its name and, as the type of a
pointer, to its name with a star; the struct put in last answers first.
-/

namespace Shader.Program

def scalarType (name : String) : Struct := ⟨name, [], []⟩

def vectorType (name element : String) (size : Nat) : Struct :=
  ⟨name, (["x", "y", "z", "w"].take size).map fun axis => ⟨axis, element, 0, []⟩, []⟩

/-- The intrinsic types: scalars, vectors, matrices (as vectors of columns), textures and the
marks of stage inputs, stage outputs and push constants. -/
def intrinsicTypes : List Struct :=
  ["void", "bool", "u8", "u16", "u32", "i32", "f32"].map scalarType ++
  [vectorType "vec2f" "f32" 2, vectorType "vec2u" "u32" 2, vectorType "vec2i" "i32" 2,
   vectorType "vec2u16" "u16" 2, vectorType "vec3f" "f32" 3, vectorType "vec3u" "u32" 3,
   vectorType "vec3i" "i32" 3, vectorType "vec4f" "f32" 4, vectorType "vec4u" "u32" 4,
   vectorType "mat2f" "vec2f" 2, vectorType "mat3f" "vec3f" 3, vectorType "mat4f" "vec4f" 4] ++
  ["Texture2D", "ArrayTexture2D", "In", "Out", "PushConstant"].map scalarType

def intrinsicType? (name : String) : Option Struct :=
  intrinsicTypes.find? (·.name = name)

def isIntrinsicType (name : String) : Bool := (intrinsicType? name).isSome

def intrinsicTypeNames : List String :=
  (intrinsicTypes.map Struct.name).mergeSort (fun a b => !decide (b < a))

/-- Whether a struct answers to a type name: its own, or its own with a star. -/
def Struct.answers (decl : Struct) (name : String) : Bool :=
  decl.name = name || decl.name ++ "*" = name

/-- The structs that were put into a table, first to last. -/
structure TypeTable where
  structs : List Struct
  deriving Repr, DecidableEq

namespace TypeTable

def empty : TypeTable := ⟨[]⟩

def insert (table : TypeTable) (decl : Struct) : TypeTable := ⟨table.structs ++ [decl]⟩

theorem foldl_insert (table : TypeTable) (decls : List Struct) :
    decls.foldl insert table = ⟨table.structs ++ decls⟩ := by
  induction decls generalizing table with
  | nil => rw [List.foldl_nil, List.append_nil]
  | cons decl decls ih =>
    rw [List.foldl_cons, ih, insert, List.append_assoc, List.singleton_append]

/-- The last struct of the table that answers to a name. -/
def own? (table : TypeTable) (name : String) : Option Struct :=
  table.structs.reverse.find? (·.answers name)

/-- A struct of the table, or else an intrinsic one. -/
def lookup? (table : TypeTable) (name : String) : Option Struct :=
  (table.own? name).or (intrinsicType? name)

/-- The names of those structs whose name no earlier struct of the list or of `before` answers
to. -/
def newNames (before : List Struct) : List Struct → List String
  | [] => []
  | decl :: rest =>
    if before.any (·.answers decl.name) then newNames (before ++ [decl]) rest
    else decl.name :: newNames (before ++ [decl]) rest

def declared (table : TypeTable) : List String := newNames [] table.structs

end TypeTable

mutual

/-- The structs declared by a node, in document order: the node itself, or those of a scope. -/
def Node.structs : Node → List Struct
  | .struct decl => [decl]
  | .scope _ children => structsOfAll children
  | _ => []

def structsOfAll : List Node → List Struct
  | [] => []
  | node :: rest => node.structs ++ structsOfAll rest

end

theorem structsOfAll_append (nodes more : List Node) :
    structsOfAll (nodes ++ more) = structsOfAll nodes ++ structsOfAll more := by
  induction nodes with
  | nil => rfl
  | cons node nodes ih =>
    rw [List.cons_append, structsOfAll, structsOfAll, ih, List.append_assoc]

def Scope.table (scope : Scope) : TypeTable := ⟨structsOfAll scope.children⟩

end Shader.Program
