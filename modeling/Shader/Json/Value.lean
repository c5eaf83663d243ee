import Shader.Text.Quoted

/-!
# JSON values and their text

A value keeps its numbers as written and its fields in order, doubled keys included.
-/

namespace Shader

/-- JSON values. Numbers are kept as text, fields in the order of the text. -/
inductive Json where
  | null
  | bool (b : Bool)
  | number (text : String)
  | string (text : String)
  | array (elements : List Json)
  | object (fields : List (String × Json))
  deriving Repr, Inhabited

namespace Json

def get? (fields : List (String × Json)) (key : String) : Option Json :=
  (fields.find? (·.1 = key)).map (·.2)

def textOf (fields : List (String × Json)) (key : String) : String :=
  match get? fields key with
  | some (.string text) => text
  | _ => ""

def flagOf (fields : List (String × Json)) (key : String) : Bool :=
  match get? fields key with
  | some (.bool b) => b
  | _ => false

/-- A character of a text in a document. Besides quote, backslash and controls, the characters
that mark up web pages and the two line separators are written by their code. -/
def escapedChar (c : Char) : List Char :=
  if c = '"' then ['\\', '"']
  else if c = '\\' then ['\\', '\\']
  else if c = '\n' then ['\\', 'n']
  else if c = '\r' then ['\\', 'r']
  else if c = '\t' then ['\\', 't']
  else if c.toNat < 0x20 || c = '<' || c = '>' || c = '&' || c.toNat = 0x2028 ||
      c.toNat = 0x2029 then
    '\\' :: 'u' :: Text.hex 4 c.toNat
  else [c]

def quotedText (text : String) : String :=
  String.ofList ('"' :: (text.toList.flatMap escapedChar ++ ['"']))

def newline (depth : Nat) : String := "\n" ++ String.ofList (List.replicate (2 * depth) ' ')

mutual

def prettyAt (depth : Nat) : Json → String
  | .null => "null"
  | .bool true => "true"
  | .bool false => "false"
  | .number text => text
  | .string text => quotedText text
  | .array [] => "[]"
  | .array elements =>
    "[" ++ ",".intercalate (elementLines (depth + 1) elements) ++ newline depth ++ "]"
  | .object [] => "\x7b\x7d"
  | .object fields =>
    "\x7b" ++ ",".intercalate (fieldLines (depth + 1) fields) ++ newline depth ++ "\x7d"

def elementLines (depth : Nat) : List Json → List String
  | [] => []
  | value :: rest => (newline depth ++ prettyAt depth value) :: elementLines depth rest

def fieldLines (depth : Nat) : List (String × Json) → List String
  | [] => []
  | (key, value) :: rest =>
    (newline depth ++ quotedText key ++ ": " ++ prettyAt depth value) :: fieldLines depth rest

end

def pretty (value : Json) : String := prettyAt 0 value

end Json

end Shader
