import Shader.Glsl.Declaration
import Shader.Glsl.Dependency
import Shader.Glsl.Options

/-!
# Shaders

The shader of a tree: a header, and the declarations that the entry function needs.
-/

namespace Shader.Glsl

open Arena

/-- What is reported of a text next to the text itself. -/
structure Info where
  entryPoint : String
  stage : Stage
  declarations : List String
  extensions : List String
  deriving Repr, DecidableEq

/-- A written shader. -/
structure Output where
  text : String
  info : Info
  deriving Repr, DecidableEq

/-! ## Header -/

def commonExtensions : List (String × String) :=
  [("GL_EXT_shader_16bit_storage", "require"),
   ("GL_EXT_shader_explicit_arithmetic_types", "require"),
   ("GL_EXT_nonuniform_qualifier", "require"),
   ("GL_EXT_scalar_block_layout", "require"),
   ("GL_EXT_buffer_reference", "enable"),
   ("GL_EXT_buffer_reference2", "enable"),
   ("GL_EXT_shader_image_load_formatted", "enable")]

/-- The extensions that only shaders of a stage have. -/
def stageExtensions : Stage → List (String × String)
  | .compute =>
    [("GL_KHR_shader_subgroup_basic", "enable"),
     ("GL_KHR_shader_subgroup_arithmetic", "enable"),
     ("GL_KHR_shader_subgroup_ballot", "enable"),
     ("GL_KHR_shader_subgroup_shuffle", "enable")]
  | .mesh => [("GL_EXT_mesh_shader", "require")]
  | _ => []

def extensions (stage : Stage) : List (String × String) :=
  commonExtensions ++ stageExtensions stage

def extensionLine (extension : String × String) : String :=
  "#extension " ++ extension.1 ++ ":" ++ extension.2 ++ "\n"

/-- The outputs of mesh shaders and the limits of their size. -/
def meshLines (o : Options) : String :=
  let vertices := o.maxVertices.toNat.repr
  let primitives := o.maxPrimitives.toNat.repr
  "layout(location=0) perprimitiveEXT out uint out_instance_index[" ++ primitives ++ "];\n" ++
  "layout(location=1) perprimitiveEXT out uint out_primitive_index[" ++ primitives ++ "];\n" ++
  "layout(triangles,max_vertices=" ++ vertices ++ ",max_primitives=" ++ primitives ++
    ") out;\n"

/-- A side of a work group, which is not written as zero. -/
def sideText (n : UInt32) : String := if n = 0 then "1" else n.toNat.repr

def localSizeLine (size : LocalSize) : String :=
  "layout(local_size_x=" ++ sideText size.x ++ ",local_size_y=" ++ sideText size.y ++
    ",local_size_z=" ++ sideText size.z ++ ") in;\n"

/-- What the header has for some stages only. -/
def stageLines (o : Options) : Stage → String
  | .compute => localSizeLine o.localSize
  | .mesh => meshLines o ++ localSizeLine o.localSize
  | _ => ""

/-- The text before the declarations. -/
def header (o : Options) (stage : Stage) : String :=
  let layout := o.matrixLayout.text
  "#version " ++ o.version.text ++ "\n" ++
  "#pragma shader_stage(" ++ stage.text ++ ")\n" ++
  String.join ((extensions stage).map extensionLine) ++
  stageLines o stage ++
  "layout(" ++ layout ++ ") uniform;layout(" ++ layout ++ ") buffer;\n" ++
  "const float PI = 3.14159265359;" ++ (if o.minify then "" else "\n")

/-! ## Entry function -/

def isFunctionNamed (t : Tree) (name : String) (h : Handle) : Bool :=
  match t.function? h with
  | some decl => decl.name = name
  | none => false

/-- The first function of the given name. -/
def findEntry (t : Tree) (name : String) : Except GenerateError Handle :=
  match t.declarations.find? (isFunctionNamed t name) with
  | some h => .ok h
  | none => .error (.missingEntryPoint name)

/-- The stage that a tag names. A tag cannot leave the choice open. -/
def annotatedStage? (tag : String) : Option Stage :=
  (Stage.ofText? tag).filter (· ≠ .auto)

/-- The stage of a shader: the chosen one, or the first that the annotations of the entry function
name, or the vertex stage. -/
def entryStage (t : Tree) (chosen : Stage) (entry : Handle) : Stage :=
  if chosen ≠ .auto then chosen
  else match t.function? entry with
    | some decl => (decl.annotations.findSome? annotatedStage?).getD .vertex
    | none => .vertex

/-! ## Shader -/

/-- The declarations that are written, in order, each with its name. -/
def writeDeclarations (t : Tree) (s : Spacing) (n : Numbering) :
    List Handle → Except GenerateError (List (String × String))
  | [] => .ok []
  | h :: rest => do
    let (lines, n) ← declarationLines t s n h
    let more ← writeDeclarations t s n rest
    match lines with
    | some lines => return (t.name h, renderLines s lines) :: more
    | none => return more

/-- Writes what the entry function needs, in the order of `order`. -/
def generate (tree : Option Tree) (options : Options) : Except GenerateError Output :=
  match tree with
  | none => .error (.malformed .noTree)
  | some t => do
    let o := options.completed
    let entry ← findEntry t o.entryPoint
    let stage := entryStage t o.stage entry
    let handles ← order (Catalog.ofTree t) entry
    let written ← writeDeclarations t ⟨o.minify⟩ .start handles
    return {
      text := header o stage ++ String.join (written.map (·.2))
      info := ⟨o.entryPoint, stage, written.map (·.1), (extensions stage).map (·.1)⟩ }

end Shader.Glsl
