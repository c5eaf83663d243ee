import Shader.Text.Blank
import Shader.Text.Numeral
import Shader.Text.Quoted

/-!
# Settings of the output

The version of GLSL that is written, the stage of the shader, and the other settings of the
generator.
-/

namespace Shader.Glsl

open Text

/-- A text that names no version, profile or stage. -/
inductive NameError where
  | version (text : String)
  | profile (text : String)
  | stage (text : String)
  deriving Repr, DecidableEq

def NameError.message : NameError → String
  | .version text => "invalid GLSL version " ++ quoted text
  | .profile text => "invalid GLSL profile " ++ quoted text
  | .stage text => "unknown shader stage " ++ quoted text

/-- A version of the language; `es` is its profile for embedded systems. -/
structure Version where
  major : UInt8
  minor : UInt8
  es : Bool
  deriving Repr, DecidableEq

namespace Version

def v450 : Version := ⟨4, 50, false⟩

def number (v : Version) : String := v.major.toNat.repr ++ twoDigits v.minor.toNat

def text (v : Version) : String := v.number ++ (if v.es then " es" else " core")

def ofNumber (n : Nat) : Version := ⟨(n / 100).toUInt8, (n % 100).toUInt8, false⟩

def numberOf (text field : String) : Except NameError Nat :=
  match leadingInt? field.toList with
  | some n => if 100 ≤ n ∧ n ≤ 999 then .ok n.toNat else .error (.version text)
  | none => .error (.version text)

/-- Reads a version: a number, and the name of a profile or nothing. -/
def parse (text : String) : Except NameError Version :=
  match fields text with
  | [first] => (numberOf text first).map ofNumber
  | [first, profile] =>
    match numberOf text first with
    | .error e => .error e
    | .ok n =>
      if profile = "es" then .ok { ofNumber n with es := true }
      else if profile = "core" then .ok (ofNumber n)
      else .error (.profile profile)
  | _ => .error (.version text)

end Version

/-- A stage of the graphics pipeline. `auto` leaves the choice to the program. -/
inductive Stage where
  | auto
  | vertex
  | fragment
  | compute
  | task
  | mesh
  | unknown (code : UInt8)
  deriving Repr, DecidableEq

namespace Stage

def all : List Stage := [.auto, .vertex, .fragment, .compute, .task, .mesh]

def ofCode (code : UInt8) : Stage := (all[code.toNat]?).getD (.unknown code)

def code : Stage → UInt8
  | .auto => 0
  | .vertex => 1
  | .fragment => 2
  | .compute => 3
  | .task => 4
  | .mesh => 5
  | .unknown code => code

def text : Stage → String
  | .auto => "auto"
  | .vertex => "vertex"
  | .fragment => "fragment"
  | .compute => "compute"
  | .task => "task"
  | .mesh => "mesh"
  | .unknown code => "Stage(" ++ code.toNat.repr ++ ")"

def ofText? (name : String) : Option Stage := all.find? (·.text = name)

def parse (name : String) : Except NameError Stage :=
  match ofText? name with
  | some stage => .ok stage
  | none => .error (.stage name)

end Stage

/-- The order in which matrices stand in memory. -/
inductive MatrixLayout where
  | rowMajor
  | columnMajor
  deriving Repr, DecidableEq

namespace MatrixLayout

def ofCode (code : UInt8) : MatrixLayout := if code = 1 then .columnMajor else .rowMajor

def text : MatrixLayout → String
  | .rowMajor => "row_major"
  | .columnMajor => "column_major"

end MatrixLayout

/-- The size of a work group. -/
structure LocalSize where
  x : UInt32
  y : UInt32
  z : UInt32
  deriving Repr, DecidableEq

/-- The options of the writer. -/
structure Options where
  version : Version
  entryPoint : String
  stage : Stage
  localSize : LocalSize
  maxVertices : UInt32
  maxPrimitives : UInt32
  matrixLayout : MatrixLayout
  minify : Bool
  deriving Repr, DecidableEq

namespace Options

def default : Options := ⟨.v450, "main", .auto, ⟨1, 1, 1⟩, 64, 126, .rowMajor, false⟩

def zero : Options := ⟨⟨0, 0, false⟩, "", .auto, ⟨0, 0, 0⟩, 0, 0, .rowMajor, false⟩

/-- The options with defaults for the entry point and the version. -/
def completed (o : Options) : Options :=
  { o with
    entryPoint := if o.entryPoint = "" then "main" else o.entryPoint
    version := if o.version = ⟨0, 0, false⟩ then .v450 else o.version }

end Options

end Shader.Glsl
