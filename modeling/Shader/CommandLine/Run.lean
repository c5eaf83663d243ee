import Shader.CommandLine.Flags
import Shader.CommandLine.Log
import Shader.Program.Outline
import Shader.Settings.Search

/-!
# The command

The command compiles the inputs that its arguments name. All inputs are compiled, each on its own,
and may finish in any order; if one fails nothing is written.
-/

namespace Shader.CommandLine

def versionText : String := "beslc version 0.1.0-dev\n"

/-- What a command leaves behind: exit code, output, error output and files. -/
structure Outcome where
  exit : UInt32
  output : String
  errors : String
  store : FileStore

/-! ## Settings -/

/-- A choice whose value is not one of those that it may have. -/
inductive ChoiceError where
  | minify (value : String)
  | nameFor (error : Glsl.NameError)
  deriving Repr, DecidableEq

def ChoiceError.message : ChoiceError → String
  | .minify value => "invalid -minify value " ++ Text.quoted value
  | .nameFor error => error.message

/-- What the flags say about minifying. Left to the command, the output is minified unless it goes
to a terminal, or the settings say something. -/
def minifyChoice (terminal : Bool) (choices : Choices) (settings : Settings) :
    Except ChoiceError (Option Bool) :=
  match choices.minify with
  | "true" => .ok (some true)
  | "false" => .ok (some false)
  | "auto" =>
    .ok (if settings.minify.isNone then some !(choices.output = "" && terminal) else none)
  | other => .error (.minify other)

/-- The options of the settings, changed by the choices of the command line. -/
def compileOptions (terminal : Bool) (choices : Choices) (settings : Settings) :
    Except ChoiceError Compile.CompileOptions :=
  match minifyChoice terminal choices settings with
  | .error e => .error e
  | .ok minify =>
    match settings.merge ⟨choices.stage, choices.entryPoint, minify⟩ with
    | .error e => .error (.nameFor e)
    | .ok glsl =>
      .ok { Compile.CompileOptions.plain glsl with
        beforeResolve := some (resourceTransform (some settings)) }

/-- The settings of a run, and the path of the file in which they were found, if they were looked
for. -/
def loadSettings (store : FileStore) (choices : Choices) :
    Except Settings.LoadError (Settings × Option String) :=
  if choices.settings ≠ "" then do
    let settings ← Settings.load store choices.settings
    return (settings, none)
  else do
    match ← Settings.search store (Path.ofParts true store.workingDirectory) with
    | some (settings, path) => return (settings, some path)
    | none => return (.empty, none)

/-! ## Inputs -/

/-- A file is a description or a text, by its extension. -/
def loadProgram (path : String) (source : Source) : Except Compile.LoadError Program.Scope :=
  if ".json".toList.isSuffixOf path.toList then Compile.loadDescription source.shown
  else Compile.loadText source

def loadFailure : Compile.LoadError → String
  | .source error => error.excerpt
  | error => error.message

/-- The text or the outline of the program in a file. -/
def compileFile (store : FileStore) (choices : Choices) (options : Compile.CompileOptions)
    (path : String) : Except String String :=
  match store.read path with
  | .error e => .error e.message
  | .ok source =>
    match loadProgram path source with
    | .error e => .error (loadFailure e)
    | .ok scope =>
      if choices.outline then .ok (scope.toNode.outlineText ++ "\n")
      else match Compile.compileScope (some scope) scope.table options with
        | .ok text => .ok text
        | .error e => .error e.message

/-- The results of the inputs that have finished, each at the place of its input, and the log. -/
structure Batch where
  results : List (Option String)
  log : List LogLine
  deriving Repr, DecidableEq

namespace Batch

def start (count : Nat) : Batch := ⟨List.replicate count none, []⟩

/-- An input has finished: its result or its error is noted. -/
def finish (compile : String → Except String String) (inputs : List String) (batch : Batch)
    (index : Nat) : Batch :=
  match inputs[index]? with
  | none => batch
  | some path =>
    match compile path with
    | .ok text =>
      let line : LogLine :=
        ⟨.debug, "compiled", [("input", path), ("bytes", text.utf8ByteSize.repr)]⟩
      ⟨batch.results.set index (some text), batch.log ++ [line]⟩
    | .error text =>
      let line : LogLine := ⟨.error, "compilation failed", [("input", path), ("err", text)]⟩
      { batch with log := batch.log ++ [line] }

/-- All results, if no input has failed. -/
def complete? (batch : Batch) : Option (List String) := batch.results.mapM id

end Batch

/-- Compiles the inputs, which finish in the given order. -/
def compileInputs (compile : String → Except String String) (inputs : List String)
    (order : List Nat) : Batch :=
  order.foldl (Batch.finish compile inputs) (.start inputs.length)

/-! ## Results -/

/-- A text with a line end. -/
def endLine (text : String) : String :=
  if "\n".toList.isSuffixOf text.toList then text else text ++ "\n"

/-- The file of an input in a directory of results. -/
def resultPath (directory input : String) : String :=
  Path.join directory (Path.stem input ++ ".glsl")

/-- Writes files up to the first that cannot be written. -/
def writeFiles (store : FileStore) : List (String × String) → FileStore × Option FileError
  | [] => (store, none)
  | (path, text) :: rest =>
    match store.write path (Source.ofString text) with
    | .ok store => writeFiles store rest
    | .error e => (store, some e)

/-- Writes the results: to the output if no place is chosen, to the chosen file if there is one
input, and else to files in the chosen directory. -/
def writeResults (store : FileStore) (place : String) (inputs results : List String) :
    String × FileStore × Option FileError :=
  if place = "" then (String.join (results.map endLine), store, none)
  else if inputs.length = 1 && !"/".toList.isSuffixOf place.toList then
    ("", writeFiles store (results.map fun text => (place, text)))
  else
    match store.makeDirectories place with
    | (store, some e) => ("", store, some e)
    | (store, none) => ("", writeFiles store ((inputs.map (resultPath place)).zip results))

/-! ## The run -/

def shownLog (verbose : Bool) (log : List LogLine) : String :=
  String.join ((log.filter fun line => verbose || line.level = .error).map (·.text ++ "\n"))

/-- Compiles all inputs, and writes the results if none has failed. -/
def compileAndWrite (terminal : Bool) (store : FileStore) (choices : Choices)
    (inputs : List String) (order : List Nat) : Outcome :=
  let stop (log : List LogLine) : Outcome := ⟨1, "", shownLog choices.verbose log, store⟩
  match loadSettings store choices with
  | .error e => stop [⟨.error, "loading configuration", [("err", e.message)]⟩]
  | .ok (settings, found) =>
    let log : List LogLine := found.toList.map fun path =>
      ⟨.debug, "using configuration", [("path", path)]⟩
    match compileOptions terminal choices settings with
    | .error e => stop (log ++ [⟨.error, "invalid options", [("err", e.message)]⟩])
    | .ok options =>
      let batch := compileInputs (compileFile store choices options) inputs order
      let log := log ++ batch.log
      match batch.complete? with
      | none => stop log
      | some results =>
        match writeResults store choices.output inputs results with
        | (output, after, none) => ⟨0, output, shownLog choices.verbose log, after⟩
        | (output, after, some e) =>
          let log := log ++ [⟨.error, "writing output", [("err", e.message)]⟩]
          ⟨1, output, shownLog choices.verbose log, after⟩

/-- The command, if its inputs finish in the given order. -/
def runInOrder (order : Nat → List Nat) (terminal : Bool) (store : FileStore)
    (arguments : List String) : Outcome :=
  match parseFlags arguments with
  | .error stop =>
    match stop.message? with
    | none => ⟨0, "", usage, store⟩
    | some message => ⟨2, "", message ++ "\n" ++ usage, store⟩
  | .ok (choices, inputs) =>
    if choices.version then ⟨0, versionText, "", store⟩
    else if inputs.isEmpty then ⟨1, "", "Error: no input file specified\n" ++ usage, store⟩
    else compileAndWrite terminal store choices inputs (order inputs.length)

/-- The command, if its inputs finish in their own order. -/
def run (terminal : Bool) (store : FileStore) (arguments : List String) : Outcome :=
  runInOrder List.range terminal store arguments

end Shader.CommandLine
