import Shader.Text.Quoted

/-!
# Flags

Flags stand before the inputs, with one or two dashes. A switch is on if it stands alone and takes a
value only after `=`; any other flag takes the value after `=` or the next argument. The first
argument that is no flag, or `--`, ends the flags.
-/

namespace Shader.CommandLine

/-- What the flags of a command line choose. -/
structure Choices where
  output : String
  stage : String
  entryPoint : String
  minify : String
  settings : String
  outline : Bool
  verbose : Bool
  version : Bool
  deriving Repr, DecidableEq

def Choices.default : Choices := ⟨"", "", "", "auto", "", false, false, false⟩

/-- A flag is a switch, or an option that takes a value. -/
inductive Flag where
  | switch (set : Choices → Bool → Choices)
  | option (set : Choices → String → Choices)

def flags : List (String × Flag) :=
  [("o", .option fun c v => { c with output := v }),
   ("stage", .option fun c v => { c with stage := v }),
   ("entry", .option fun c v => { c with entryPoint := v }),
   ("minify", .option fun c v => { c with minify := v }),
   ("config", .option fun c v => { c with settings := v }),
   ("ast", .switch fun c v => { c with outline := v }),
   ("v", .switch fun c v => { c with verbose := v }),
   ("version", .switch fun c v => { c with version := v })]

/-- Why the arguments are not read to their end. -/
inductive FlagStop where
  | help
  | badForm (argument : String)
  | unknown (name : String)
  | needsValue (name : String)
  | badSwitch (name value : String)
  deriving Repr, DecidableEq

def FlagStop.message? : FlagStop → Option String
  | .help => none
  | .badForm argument => some ("bad flag syntax: " ++ argument)
  | .unknown name => some ("flag provided but not defined: -" ++ name)
  | .needsValue name => some ("flag needs an argument: -" ++ name)
  | .badSwitch name value =>
    some ("invalid boolean value " ++ Text.quoted value ++ " for -" ++ name ++ ": parse error")

/-- The texts that a switch can be set to. -/
def switchValue? (value : String) : Option Bool :=
  if ["1", "t", "T", "true", "TRUE", "True"].contains value then some true
  else if ["0", "f", "F", "false", "FALSE", "False"].contains value then some false
  else none

/-- A flag cut at its first equals sign into name and value. -/
def cutFlag (body : List Char) : String × Option String :=
  let name := body.take 1 ++ (body.drop 1).takeWhile (· ≠ '=')
  match body.drop name.length with
  | [] => (String.ofList name, none)
  | _ :: value => (String.ofList name, some (String.ofList value))

/-- An argument without its one or two dashes, if it is a flag. -/
def flagBody? (argument : String) : Option (List Char) :=
  match argument.toList with
  | '-' :: '-' :: body => some body
  | '-' :: c :: body => some (c :: body)
  | _ => none

def isBadBody : List Char → Bool
  | [] => true
  | c :: _ => c = '-' || c = '='

/-- Reads flags up to the first argument that is none. -/
def parseFlagsFrom (choices : Choices) (arguments : List String) :
    Except FlagStop (Choices × List String) :=
  match arguments with
  | [] => .ok (choices, [])
  | argument :: rest =>
    match flagBody? argument with
    | none => .ok (choices, argument :: rest)
    | some body =>
      if argument = "--" then .ok (choices, rest)
      else if isBadBody body then .error (.badForm argument)
      else
        let (name, value) := cutFlag body
        match flags.lookup name, value with
        | none, _ =>
          if name = "help" || name = "h" then .error .help else .error (.unknown name)
        | some (.switch set), none => parseFlagsFrom (set choices true) rest
        | some (.switch set), some v =>
          match switchValue? v with
          | some on => parseFlagsFrom (set choices on) rest
          | none => .error (.badSwitch name v)
        | some (.option set), some v => parseFlagsFrom (set choices v) rest
        | some (.option set), none =>
          match rest with
          | v :: rest => parseFlagsFrom (set choices v) rest
          | [] => .error (.needsValue name)
termination_by arguments.length
decreasing_by
  all_goals simp only [List.length_cons]; omega

def parseFlags (arguments : List String) : Except FlagStop (Choices × List String) :=
  parseFlagsFrom .default arguments

def usage : String :=
  "Usage: beslc [options] <input>...\n\n" ++
  "Compile besl shaders to GLSL.\n\n" ++
  "Options:\n" ++
  "  -ast\n" ++
  "    \tprint the syntax tree as JSON instead of GLSL\n" ++
  "  -config string\n" ++
  "    \tconfiguration file (default: nearest beslc.yaml)\n" ++
  "  -entry string\n" ++
  "    \tentry function name (default: main)\n" ++
  "  -minify string\n" ++
  "    \tminify output: true, false or auto (pretty on a terminal) (default \"auto\")\n" ++
  "  -o string\n" ++
  "    \toutput file, or directory for several inputs (default: stdout)\n" ++
  "  -stage string\n" ++
  "    \tshader stage: vertex, fragment, compute, task, mesh or auto\n" ++
  "  -v\tverbose logging\n" ++
  "  -version\n" ++
  "    \tprint version\n" ++
  "\nSupported stages: vertex, fragment, compute, task, mesh\n"

end Shader.CommandLine
