import Shader.Settings.Basic
import Shader.Yaml.Scalar

/-!
# Settings files

A settings file is a mapping from the names of the settings to their values. Every value that does
not fit is reported, in the order of the document. Where nothing is written a setting keeps its
zero value, and an item of a list is left out.
-/

namespace Shader.Settings

open Yaml (Node Meaning)

/-- What a part of the settings is read as. -/
inductive Target where
  | word
  | truth
  | text
  | field
  | binding
  | specialization
  | settings
  | list (item : Target)
  deriving Repr, DecidableEq

def Target.name : Target → String
  | .word => "uint32"
  | .truth => "bool"
  | .text => "string"
  | .field => "config.Field"
  | .binding => "config.Binding"
  | .specialization => "config.Specialization"
  | .settings => "config.Config"
  | .list item => "[]" ++ item.name

/-- Why a node does not fit its target. -/
inductive Cause where
  | scalar (tag value : String) (target : Target)
  | sequence (target : Target)
  | mapping (target : Target)
  | unknownName (name : String) (target : Target)
  | duplicate (key : String) (first : Nat)
  deriving Repr, DecidableEq

/-- A misfit and the line it is on. -/
structure Fault where
  line : Nat
  cause : Cause
  deriving Repr, DecidableEq

def shownValue (value : String) : String :=
  if 10 < value.utf8ByteSize then
    (Source.ofBytes (value.toUTF8.toList.take 7)).shown ++ "..."
  else value

def Cause.message : Cause → String
  | .scalar tag value target =>
    "cannot unmarshal " ++ tag ++ " \x60" ++ shownValue value ++ "\x60 into " ++ target.name
  | .sequence target => "cannot unmarshal !!seq into " ++ target.name
  | .mapping target => "cannot unmarshal !!map into " ++ target.name
  | .unknownName name target => "field " ++ name ++ " not found in type " ++ target.name
  | .duplicate key first =>
    "mapping key " ++ Text.quoted key ++ " already defined at line " ++ first.repr

def Fault.message (f : Fault) : String := "line " ++ f.line.repr ++ ": " ++ f.cause.message

/-- What is read from a node; faults do not stop the reading of the others. -/
structure Reading (α : Type) where
  value : Option α
  faults : List Fault

namespace Reading

def of {α : Type} (value : α) : Reading α := ⟨some value, []⟩

def none {α : Type} (faults : List Fault) : Reading α := ⟨Option.none, faults⟩

end Reading

/-! ## Keys -/

/-- Whether two keys count as the same: two scalars of one text, or two collections of one kind. -/
def sameKey : Node → Node → Bool
  | .scalar _ _ a, .scalar _ _ b => a = b
  | .sequence .., .sequence .. => true
  | .mapping .., .mapping .. => true
  | _, _ => false

def keyText : Node → String
  | .scalar _ _ text => text
  | _ => ""

def duplicates : List (Node × Node) → List Fault
  | [] => []
  | (key, _) :: rest =>
    (rest.filter fun (other, _) => sameKey key other).map
      (fun (other, _) => ⟨other.line, .duplicate (keyText other) key.line⟩) ++ duplicates rest

/-! ## Values -/

def unfitScalar {α : Type} (target : Target) (line : Nat) (plain : Bool) (text : String) :
    Reading α :=
  match Meaning.of plain text with
  | .nothing => .none []
  | m => .none [⟨line, .scalar m.tag text target⟩]

/-- Reads a mapping that fits no target. Repeated keys are reported before that. -/
def unfitMapping {α : Type} (target : Target) (line : Nat) (entries : List (Node × Node)) :
    Reading α :=
  let repeated := duplicates entries
  .none (if repeated.isEmpty then [⟨line, .mapping target⟩] else repeated)

def readScalar {α : Type} (target : Target) (value? : Meaning → String → Option α) :
    Node → Reading α
  | .scalar line plain text =>
    match Meaning.of plain text with
    | .nothing => .none []
    | m =>
      match value? m text with
      | some v => .of v
      | none => unfitScalar target line plain text
  | .sequence line _ => .none [⟨line, .sequence target⟩]
  | .mapping line entries => unfitMapping target line entries

def readWord : Node → Reading UInt32 := readScalar .word fun m _ => m.word?

def readTruth : Node → Reading Bool := readScalar .truth fun m _ => m.truth?

def readText : Node → Reading String := readScalar .text fun _ text => some text

def readList {α : Type} (item : Target) (read : Node → Reading α) : Node → Reading (List α)
  | .sequence _ items =>
    let readings := items.map read
    ⟨some (readings.filterMap (·.value)), readings.flatMap (·.faults)⟩
  | .scalar line plain text => unfitScalar (.list item) line plain text
  | .mapping line entries => unfitMapping (.list item) line entries

/-- Reads a node into its part of a record. -/
abbrev Slot (α : Type) := α → Node → α × List Fault

def slot {α β : Type} (read : Node → Reading β) (put : α → β → α) : Slot α := fun record node =>
  let r := read node
  ((r.value.map (put record)).getD record, r.faults)

def readEntry {α : Type} (target : Target) (slots : List (String × Slot α)) (record : α)
    (key value : Node) : α × List Fault :=
  let name := readText key
  match name.value with
  | none => (record, name.faults)
  | some name =>
    match slots.lookup name with
    | some slot => slot record value
    | none => (record, [⟨key.line, .unknownName name target⟩])

/-- Reads a record from a mapping, starting from its zero value. Repeated keys are reported
alone. -/
def readRecord {α : Type} (target : Target) (slots : List (String × Slot α)) (zero : α) :
    Node → Reading α
  | .mapping _ entries =>
    let repeated := duplicates entries
    if repeated.isEmpty then
      let (record, faults) := entries.foldl
        (fun (record, faults) (key, value) =>
          let (record, more) := readEntry target slots record key value
          (record, faults ++ more))
        (zero, [])
      ⟨some record, faults⟩
    else .none repeated
  | .scalar line plain text => unfitScalar target line plain text
  | .sequence line _ => .none [⟨line, .sequence target⟩]

def readField : Node → Reading Field :=
  readRecord .field
    [("name", slot readText fun r v => { r with name := v }),
     ("type", slot readText fun r v => { r with type := v }),
     ("count", slot readWord fun r v => { r with count := v })]
    ⟨"", "", 0⟩

def readBinding : Node → Reading Binding :=
  readRecord .binding
    [("name", slot readText fun r v => { r with name := v }),
     ("kind", slot readText fun r v => { r with kind := v }),
     ("set", slot readWord fun r v => { r with set := v }),
     ("binding", slot readWord fun r v => { r with slot := v }),
     ("format", slot readText fun r v => { r with format := v }),
     ("read", slot readTruth fun r v => { r with read := v }),
     ("write", slot readTruth fun r v => { r with write := v }),
     ("count", slot readWord fun r v => { r with count := v }),
     ("members", slot (readList .field readField) fun r v => { r with members := v })]
    ⟨"", "", 0, 0, "", false, false, 0, []⟩

def readSpecialization : Node → Reading Specialization :=
  readRecord .specialization
    [("name", slot readText fun r v => { r with name := v }),
     ("type", slot readText fun r v => { r with type := v })]
    ⟨"", ""⟩

def readSettings : Node → Reading Settings :=
  readRecord .settings
    [("version", slot readText fun r v => { r with version := v }),
     ("stage", slot readText fun r v => { r with stage := v }),
     ("entry_point", slot readText fun r v => { r with entryPoint := v }),
     ("local_size", slot (readList .word readWord) fun r v => { r with localSize := v }),
     ("max_vertices", slot readWord fun r v => { r with maxVertices := some v }),
     ("max_primitives", slot readWord fun r v => { r with maxPrimitives := some v }),
     ("matrix_layout", slot readText fun r v => { r with matrixLayout := v }),
     ("minify", slot readTruth fun r v => { r with minify := some v }),
     ("push_constant", slot (readList .field readField) fun r v => { r with pushConstant := v }),
     ("bindings", slot (readList .binding readBinding) fun r v => { r with bindings := v }),
     ("specializations", slot (readList .specialization readSpecialization) fun r v =>
       { r with specializations := v })]
    .empty

/-! ## Files -/

/-- Why a text is not read as settings. -/
inductive ReadError where
  | malformed
  | unfit (faults : List Fault)
  | invalid (error : Invalid)
  deriving Repr, DecidableEq

def ReadError.message : ReadError → String
  | .malformed => "yaml: the document is not well formed"
  | .unfit faults =>
    "yaml: unmarshal errors:" ++ String.join (faults.map fun f => "\n  " ++ f.message)
  | .invalid error => error.message

/-- The settings of a document; one that is empty says nothing. -/
def ofDocument (document : Option Node) : Except ReadError Settings :=
  let r := (document.map readSettings).getD (.none [])
  if r.faults.isEmpty then .ok (r.value.getD .empty) else .error (.unfit r.faults)

def ofSource (source : Source) : Except ReadError Settings :=
  match Yaml.read source with
  | none => .error .malformed
  | some document => do
    let settings ← ofDocument document
    match settings.validate with
    | .ok () => return settings
    | .error e => throw (.invalid e)

end Shader.Settings
