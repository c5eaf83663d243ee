import Shader.Compile.Pipeline

/-!
# Settings

A compilation can be set up by a file: it names the version, the stage and the other options of
the shader, and declares resources that are appended to every program.
-/

namespace Shader.Settings

/-- A named and typed member; the count is zero unless it is an array. -/
structure Field where
  name : String
  type : String
  count : UInt32
  deriving Repr, DecidableEq

/-- A resource that is declared by the settings. -/
structure Binding where
  name : String
  kind : String
  set : UInt32
  slot : UInt32
  format : String
  read : Bool
  write : Bool
  count : UInt32
  members : List Field
  deriving Repr, DecidableEq

/-- A specialization constant that is declared by the settings. -/
structure Specialization where
  name : String
  type : String
  deriving Repr, DecidableEq

end Shader.Settings

namespace Shader

/-- The settings of a file. An empty text, an empty list and `none` mean that nothing is said. -/
structure Settings where
  version : String
  stage : String
  entryPoint : String
  localSize : List UInt32
  maxVertices : Option UInt32
  maxPrimitives : Option UInt32
  matrixLayout : String
  minify : Option Bool
  pushConstant : List Settings.Field
  bindings : List Settings.Binding
  specializations : List Settings.Specialization
  deriving Repr, DecidableEq

namespace Settings

open Glsl (NameError)

def empty : Settings := ⟨"", "", "", [], none, none, "", none, [], [], []⟩

/-! ## Validation -/

/-- Settings that can be read but have no meaning. -/
inductive Invalid where
  | dimensions (count : Nat)
  | matrixLayout (name : String)
  | bindingKind (binding kind : String)
  deriving Repr, DecidableEq

def Invalid.message : Invalid → String
  | .dimensions count => "local_size has " ++ count.repr ++ " dimensions, want at most 3"
  | .matrixLayout name => "invalid matrix_layout " ++ Text.quoted name
  | .bindingKind binding kind => "binding " ++ binding ++ ": invalid kind " ++ Text.quoted kind

def Binding.resource? (b : Binding) : Option Program.Resource :=
  match b.kind with
  | "buffer" => some (.buffer (b.members.map fun m => ⟨m.name, m.type, m.count, []⟩))
  | "image" => some (.image b.format)
  | "combined_image_sampler" => some (.combinedImageSampler b.format)
  | _ => none

/-- Checks the settings; of several faults the first is reported. -/
def validate (s : Settings) : Except Invalid Unit :=
  if 3 < s.localSize.length then .error (.dimensions s.localSize.length)
  else if !(["", "row_major", "column_major"].contains s.matrixLayout) then
    .error (.matrixLayout s.matrixLayout)
  else match s.bindings.find? fun b => b.resource?.isNone with
    | some b => .error (.bindingKind b.name b.kind)
    | none => .ok ()

/-! ## Options -/

def sides (sizes : List UInt32) : Glsl.LocalSize :=
  let side (i : Nat) : UInt32 := (sizes[i]?).getD 1
  ⟨side 0, side 1, side 2⟩

def named {α : Type} (parse : String → Except NameError α) (name : String) (otherwise : α) :
    Except NameError α :=
  if name = "" then .ok otherwise else parse name

def toOptions (s : Settings) : Except NameError Glsl.Options := do
  let base := Glsl.Options.default
  let version ← named Glsl.Version.parse s.version base.version
  let stage ← named Glsl.Stage.parse s.stage base.stage
  return {
    version
    stage
    entryPoint := if s.entryPoint = "" then base.entryPoint else s.entryPoint
    localSize := sides s.localSize
    maxVertices := s.maxVertices.getD base.maxVertices
    maxPrimitives := s.maxPrimitives.getD base.maxPrimitives
    matrixLayout := if s.matrixLayout = "column_major" then .columnMajor else base.matrixLayout
    minify := s.minify.getD base.minify }

/-- Choices that win over the settings of a file. An empty text and `none` choose nothing. -/
structure Overrides where
  stage : String
  entryPoint : String
  minify : Option Bool
  deriving Repr, DecidableEq

def merge (s : Settings) (choice : Overrides) : Except NameError Glsl.Options := do
  let options ← s.toOptions
  let stage ← named Glsl.Stage.parse choice.stage options.stage
  return { options with
    stage
    entryPoint := if choice.entryPoint = "" then options.entryPoint else choice.entryPoint
    minify := choice.minify.getD options.minify }

/-! ## Resources -/

def Binding.declaration (b : Binding) : Program.Node :=
  .binding ⟨b.name, b.resource?, b.set, b.slot, b.read, b.write, b.count⟩

def pushConstantDeclaration (fields : List Field) : List Program.Node :=
  if fields.isEmpty then []
  else [.pushConstant (fields.map fun m => ⟨m.name, m.type, m.count, []⟩)]

def declarations (s : Settings) : List Program.Node :=
  pushConstantDeclaration s.pushConstant ++
    s.bindings.map Binding.declaration ++
    s.specializations.map fun c => .specialization c.name c.type

end Settings

/-- The transform that appends the declared resources to a program. Without settings the program
stays as it is. -/
def resourceTransform (settings : Option Settings) : Compile.ProgramTransform := fun draft _ =>
  match settings with
  | none => .ok ⟨draft, some draft⟩
  | some s => .ok ⟨draft, some (draft.append s.declarations)⟩

end Shader
