import Shader.Text.Blank
import Shader.Text.Quoted

/-!
# Log lines

A log line is a sequence of keys with values: the level, the message, and what belongs to it. A
value is quoted where it could be misread.
-/

namespace Shader.CommandLine

open Text

/-- Debug lines are shown only if the log is verbose. -/
inductive Level where
  | debug
  | error
  deriving Repr, DecidableEq

def Level.name : Level → String
  | .debug => "DEBUG"
  | .error => "ERROR"

/-- A message with named values. -/
structure LogLine where
  level : Level
  message : String
  values : List (String × String)
  deriving Repr, DecidableEq

def needsQuotes (c : Char) : Bool :=
  if c.toNat < 0x80 then c = ' ' || c = '=' || c = '"' || c.toNat < 0x20
  else c = '�' || isBlank c || !isPrintable c

def logValue (value : String) : String :=
  if value.isEmpty || value.toList.any needsQuotes then quoted value else value

def LogLine.text (line : LogLine) : String :=
  " ".intercalate
    ((("level", line.level.name) :: ("msg", line.message) :: line.values).map fun (key, value) =>
      key ++ "=" ++ logValue value)

end Shader.CommandLine
