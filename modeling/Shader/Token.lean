import Shader.Source
import Shader.Text.Quoted
import Shader.Token.Word

/-!
# Tokens

A source is cut from left to right into lexemes: tokens, blanks and comments. Each lexeme is
described by its extent, the number of symbols that it takes after its first one, and the cut goes
on after it.
-/

namespace Shader

open Text

/-- A token and the place of its first character. -/
structure Token where
  text : String
  position : Position
  deriving Repr, DecidableEq

/-- What stands at the start of a text. -/
inductive Lexeme where
  | token (extent : Nat)
  | skipped (extent : Nat)
  | unknown
  deriving Repr, DecidableEq

namespace Lexeme

def front : Source → Char
  | [] => '\x00'
  | s :: _ => s.shown

def run (p : Char → Bool) (rest : Source) : Nat := (rest.takeWhile fun s => p s.shown).length

def optional (p : Char → Bool) (rest : Source) : Nat := if p (front rest) then 1 else 0

/-- The extent of a block comment after its opening, at the given depth. Comments nest, and one
that is not closed goes to the end. -/
def blockExtent : Nat → Source → Nat
  | 0, _ => 0
  | _ + 1, [] => 0
  | depth + 1, .char '/' :: .char '*' :: rest => 2 + blockExtent (depth + 2) rest
  | depth + 1, .char '*' :: .char '/' :: rest => 2 + blockExtent depth rest
  | depth + 1, _ :: rest => 1 + blockExtent (depth + 1) rest

def fractionExtent : Source → Nat
  | .char '.' :: rest =>
    if startsIdentifier (front rest) then 0 else 1 + run isAsciiDigit rest
  | _ => 0

def exponentExtent (rest : Source) : Nat :=
  if front rest = 'e' || front rest = 'E' then
    let sign := optional (fun c => c = '+' || c = '-') (rest.drop 1)
    1 + sign + run isAsciiDigit (rest.drop (1 + sign))
  else 0

def suffixExtent (rest : Source) : Nat :=
  let c := front rest
  if c = 'f' || c = 'h' || c = 'i' || c = 'u' then 1
  else if c = 'l' && front (rest.drop 1) = 'f' then 2
  else 0

def numberExtent (first : Char) (rest : Source) : Nat :=
  if first = '0' && (front rest = 'x' || front rest = 'X') then
    let digits := run isHexDigit (rest.drop 1)
    1 + digits + optional (fun c => c = 'i' || c = 'u') (rest.drop (1 + digits))
  else
    let whole := run isAsciiDigit rest
    let fraction := fractionExtent (rest.drop whole)
    let exponent := exponentExtent (rest.drop (whole + fraction))
    whole + fraction + exponent + suffixExtent (rest.drop (whole + fraction + exponent))

def isPunctuation (c : Char) : Bool :=
  c ∈ ['(', ')', '\x7b', '\x7d', '[', ']', ',', '.', ':', ';', '#', '<', '>', '*', '+', '%']

/-- What the symbol shown as `c` starts when `rest` follows it. -/
def classify (c : Char) (rest : Source) : Lexeme :=
  if isPunctuation c then .token 0
  else if c = '-' then .token (optional (· = '>') rest)
  else if c = '=' then .token (optional (· = '=') rest)
  else if c = '/' then
    if front rest = '/' then .skipped (run (· ≠ '\n') rest)
    else if front rest = '*' then .skipped (1 + blockExtent 1 (rest.drop 1))
    else .token 0
  else if c = ' ' || c = '\r' || c = '\t' || c = '\n' then .skipped 0
  else if isAsciiDigit c then .token (numberExtent c rest)
  else if startsIdentifier c then
    .token (run (fun c => startsIdentifier c || isAsciiDigit c) rest)
  else .unknown

end Lexeme

/-- The place recorded for a token that starts at `p`: its column is moved left by the number of
bytes that its text has in excess of its characters. -/
def Token.place (p : Position) (text : Source) : Position :=
  ⟨p.line, p.column + text.length - text.width⟩

/-- The tokens of the part `rest` of `source`, which starts at `p`. -/
def tokenizeFrom (source : Source) (p : Position) (rest : Source) :
    Except SourceError (List Token) :=
  match rest with
  | [] => .ok []
  | s :: more =>
    match Lexeme.classify s.shown more with
    | .unknown => .error ⟨"unexpected character " ++ quotedChar s.shown, p, source⟩
    | .skipped extent =>
      tokenizeFrom source (p.after (s :: more.take extent)) (more.drop extent)
    | .token extent =>
      let text : Source := s :: more.take extent
      match tokenizeFrom source (p.after text) (more.drop extent) with
      | .ok tokens => .ok (⟨text.shown, Token.place p text⟩ :: tokens)
      | .error e => .error e
termination_by rest.length
decreasing_by all_goals simp only [List.length_cons, List.length_drop]; omega

def tokenize (source : Source) : Except SourceError (List Token) :=
  tokenizeFrom source .start source

def words (source : Source) : Except SourceError (List String) :=
  (tokenize source).map (·.map Token.text)

end Shader
