import Shader.Json.Value

/-!
# Reading JSON

Program descriptions are read by a JSON reader of this library's own, in two steps: `JsonToken.lex`
cuts the text into tokens, and the values are put together from them. The reader is lenient: commas
and colons separate values but are not required, and a number is any run of the characters that
numbers are made of. What follows the first value is not read.
-/

namespace Shader

/-- The tokens of JSON. Commas and colons are the same token. -/
inductive JsonToken where
  | openBrace
  | closeBrace
  | openBracket
  | closeBracket
  | separator
  | string (text : String)
  | number (text : String)
  | bool (b : Bool)
  | null
  | malformed
  deriving Repr, DecidableEq

namespace JsonToken

def hexValue (c : Char) : Nat :=
  if '0' ≤ c && c ≤ '9' then c.toNat - '0'.toNat
  else if 'a' ≤ c && c ≤ 'f' then c.toNat - 'a'.toNat + 10
  else if 'A' ≤ c && c ≤ 'F' then c.toNat - 'A'.toNat + 10
  else 0

def codeUnit (a b c d : Char) : Nat :=
  ((hexValue a * 16 + hexValue b) * 16 + hexValue c) * 16 + hexValue d

def replacement : Char := '�'

/-- Half of a surrogate pair stands for no character. -/
def unitChar (u : Nat) : Char := if 0xD800 ≤ u && u < 0xE000 then replacement else Char.ofNat u

/-- The character of a pair of code units, if the first is a high and the second a low half. -/
def pairChar? (high low : Nat) : Option Char :=
  if 0xD800 ≤ high && high < 0xDC00 && 0xDC00 ≤ low && low < 0xE000 then
    some (Char.ofNat (0x10000 + (high - 0xD800) * 0x400 + (low - 0xDC00)))
  else none

def escape? (c : Char) : Option Char :=
  if c = '"' || c = '\\' || c = '/' then some c
  else if c = 'b' then some '\x08'
  else if c = 'f' then some '\x0c'
  else if c = 'n' then some '\n'
  else if c = 'r' then some '\r'
  else if c = 't' then some '\t'
  else none

/-- The characters of a text up to its closing quote, and what follows the quote. -/
def stringBody : List Char → Option (List Char × List Char)
  | [] => none
  | '"' :: rest => some ([], rest)
  | '\\' :: 'u' :: a :: b :: c :: d :: '\\' :: 'u' :: e :: f :: g :: h :: rest =>
    match pairChar? (codeUnit a b c d) (codeUnit e f g h) with
    | some ch => (stringBody rest).map fun (more, after) => (ch :: more, after)
    | none =>
      (stringBody ('\\' :: 'u' :: e :: f :: g :: h :: rest)).map fun (more, after) =>
        (unitChar (codeUnit a b c d) :: more, after)
  | '\\' :: 'u' :: a :: b :: c :: d :: rest =>
    (stringBody rest).map fun (more, after) => (unitChar (codeUnit a b c d) :: more, after)
  | '\\' :: c :: rest =>
    match escape? c with
    | some ch => (stringBody rest).map fun (more, after) => (ch :: more, after)
    | none => none
  | c :: rest => (stringBody rest).map fun (more, after) => (c :: more, after)
termination_by text => text.length

theorem stringBody_lt {text body after : List Char} (h : stringBody text = some (body, after)) :
    after.length < text.length := by
  fun_induction stringBody text generalizing body with
  | case1 => cases h
  | case2 rest => cases h; simp
  | case3 a b c d e f g k rest ch hp ih =>
    obtain ⟨⟨m, r⟩, hr, hx⟩ := Option.map_eq_some_iff.1 h
    cases hx
    have := ih hr
    simp only [List.length_cons]
    omega
  | case4 a b c d e f g k rest hp ih =>
    obtain ⟨⟨m, r⟩, hr, hx⟩ := Option.map_eq_some_iff.1 h
    cases hx
    have := ih hr
    simp only [List.length_cons] at this ⊢
    omega
  | case5 a b c d rest _ ih =>
    obtain ⟨⟨m, r⟩, hr, hx⟩ := Option.map_eq_some_iff.1 h
    cases hx
    have := ih hr
    simp only [List.length_cons]
    omega
  | case6 c rest _ _ ch he ih =>
    obtain ⟨⟨m, r⟩, hr, hx⟩ := Option.map_eq_some_iff.1 h
    cases hx
    have := ih hr
    simp only [List.length_cons]
    omega
  | case7 => cases h
  | case8 c rest _ _ _ _ ih =>
    obtain ⟨⟨m, r⟩, hr, hx⟩ := Option.map_eq_some_iff.1 h
    cases hx
    have := ih hr
    simp only [List.length_cons]
    omega

def isNumberChar (c : Char) : Bool :=
  ('0' ≤ c && c ≤ '9') || c = '.' || c = '+' || c = '-' || c = 'e' || c = 'E'

def startsNumber (c : Char) : Bool := c = '-' || ('0' ≤ c && c ≤ '9')

/-- Cuts a text into tokens. What is no token is malformed. -/
def lex : List Char → List JsonToken
  | [] => []
  | '\x7b' :: rest => .openBrace :: lex rest
  | '\x7d' :: rest => .closeBrace :: lex rest
  | '[' :: rest => .openBracket :: lex rest
  | ']' :: rest => .closeBracket :: lex rest
  | 't' :: 'r' :: 'u' :: 'e' :: rest => .bool true :: lex rest
  | 'f' :: 'a' :: 'l' :: 's' :: 'e' :: rest => .bool false :: lex rest
  | 'n' :: 'u' :: 'l' :: 'l' :: rest => .null :: lex rest
  | '"' :: rest =>
    match h : stringBody rest with
    | some (body, after) =>
      have := stringBody_lt h
      .string (String.ofList body) :: lex after
    | none => [.malformed]
  | c :: rest =>
    if c = ' ' || c = '\n' || c = '\r' || c = '\t' then lex rest
    else if c = ',' || c = ':' then .separator :: lex rest
    else if startsNumber c then
      .number (String.ofList (c :: rest.takeWhile isNumberChar)) ::
        lex (rest.dropWhile isNumberChar)
    else [.malformed]
termination_by text => text.length
decreasing_by
  all_goals simp only [List.length_cons]
  all_goals first
    | omega
    | exact Nat.lt_succ_of_le (List.dropWhile_sublist isNumberChar).length_le

def text : JsonToken → String
  | .openBrace => "\x7b"
  | .closeBrace => "\x7d"
  | .openBracket => "["
  | .closeBracket => "]"
  | .separator => ","
  | .string text => text
  | .number text => text
  | .bool true => "true"
  | .bool false => "false"
  | .null => "<nil>"
  | .malformed => ""

end JsonToken

/-- Why tokens are not a value. -/
inductive JsonFault where
  | endInside
  | endAtKey
  | delimiter (c : Char)
  | key (text : String)
  | closing (want : Char) (got : String)
  | malformed
  deriving Repr, DecidableEq

def JsonFault.message : JsonFault → String
  | .endInside => "unexpected EOF"
  | .endAtKey => "EOF"
  | .delimiter c => "unexpected delimiter " ++ Text.quotedChar c
  | .key text => "unexpected object key " ++ text
  | .closing want got => "expected " ++ Text.quotedChar want ++ ", got " ++ got
  | .malformed => "malformed token"

namespace Json

def nextToken? : List JsonToken → Option (JsonToken × List JsonToken)
  | [] => none
  | .separator :: rest => nextToken? rest
  | token :: rest => some (token, rest)

theorem nextToken?_lt {tokens rest : List JsonToken} {t : JsonToken}
    (h : nextToken? tokens = some (t, rest)) : rest.length < tokens.length := by
  fun_induction nextToken? tokens with
  | case1 => cases h
  | case2 more ih => have := ih h; simp only [List.length_cons]; omega
  | case3 => cases h; simp

/-- Whether a collection has a further element. -/
def goesOn : List JsonToken → Bool
  | [] => false
  | .closeBrace :: _ => false
  | .closeBracket :: _ => false
  | _ => true

/-- Reads the end of a collection. -/
def close (want : JsonToken) (sign : Char) (tokens : List JsonToken) :
    Except JsonFault { rest : List JsonToken // rest.length ≤ tokens.length } :=
  match h : nextToken? tokens with
  | none => .error .endInside
  | some (t, rest) =>
    have := nextToken?_lt h
    if t = .malformed then .error .malformed
    else if t = want then .ok ⟨rest, by omega⟩
    else .error (.closing sign t.text)

mutual

def value (tokens : List JsonToken) :
    Except JsonFault (Json × { rest : List JsonToken // rest.length < tokens.length }) :=
  match h : nextToken? tokens with
  | none => .error .endInside
  | some (t, rest) =>
    have := nextToken?_lt h
    match t with
    | .openBrace =>
      match members rest with
      | .error e => .error e
      | .ok (fields, ⟨after, _⟩) => .ok (.object fields, ⟨after, by omega⟩)
    | .openBracket =>
      match elements rest with
      | .error e => .error e
      | .ok (values, ⟨after, _⟩) => .ok (.array values, ⟨after, by omega⟩)
    | .closeBrace => .error (.delimiter '\x7d')
    | .closeBracket => .error (.delimiter ']')
    | .string text => .ok (.string text, ⟨rest, this⟩)
    | .number text => .ok (.number text, ⟨rest, this⟩)
    | .bool b => .ok (.bool b, ⟨rest, this⟩)
    | .null => .ok (.null, ⟨rest, this⟩)
    | .separator => .error .malformed
    | .malformed => .error .malformed
termination_by (tokens.length, 0)

def members (tokens : List JsonToken) :
    Except JsonFault
      (List (String × Json) × { rest : List JsonToken // rest.length ≤ tokens.length }) :=
  if goesOn tokens then
    match h : nextToken? tokens with
    | none => .error .endAtKey
    | some (t, rest) =>
      have := nextToken?_lt h
      match t with
      | .malformed => .error .malformed
      | .string key =>
        match value rest with
        | .error e => .error e
        | .ok (v, ⟨rest', _⟩) =>
          match members rest' with
          | .error e => .error e
          | .ok (more, ⟨after, _⟩) => .ok ((key, v) :: more, ⟨after, by omega⟩)
      | other => .error (.key other.text)
  else
    match close .closeBrace '\x7d' tokens with
    | .error e => .error e
    | .ok after => .ok ([], after)
termination_by (tokens.length, 1)

def elements (tokens : List JsonToken) :
    Except JsonFault (List Json × { rest : List JsonToken // rest.length ≤ tokens.length }) :=
  if goesOn tokens then
    match value tokens with
    | .error e => .error e
    | .ok (v, ⟨rest, _⟩) =>
      match elements rest with
      | .error e => .error e
      | .ok (more, ⟨after, _⟩) => .ok (v :: more, ⟨after, by omega⟩)
  else
    match close .closeBracket ']' tokens with
    | .error e => .error e
    | .ok after => .ok ([], after)
termination_by (tokens.length, 1)

end

/-- The first value of a text. The text ends at its first NUL. -/
def read (text : String) : Except JsonFault Json :=
  (value (JsonToken.lex (text.toList.takeWhile (· ≠ '\x00')))).map (·.1)

end Json

end Shader
