import Shader.Text.Numeral

/-!
# Source text

A source is a sequence of bytes read as UTF-8. Where the bytes spell no character, each byte
stands alone, so that a source has a well defined sequence of symbols whatever its bytes are.
-/

namespace Shader

/-- One unit of a source: a character, or a byte that belongs to no character. -/
inductive Symbol where
  | char (c : Char)
  | stray (byte : UInt8)
  deriving Repr, DecidableEq

namespace Symbol

def shown : Symbol → Char
  | .char c => c
  | .stray _ => '�'

def width : Symbol → Nat
  | .char c => c.utf8Size
  | .stray _ => 1

end Symbol

/-- A text that need not be well-formed UTF-8. -/
abbrev Source := List Symbol

/-- A character of more than one byte: its code point from the bits of the first byte and of the
bytes that follow. -/
def joinBits (lead : Nat) (tail : List UInt8) : Nat :=
  tail.foldl (fun n b => n * 64 + b.toNat % 64) lead

def isContinuation (b : UInt8) : Bool := 0x80 ≤ b && b ≤ 0xBF

/-- The character that starts with the byte `b` and continues with the bytes `rest`, with the
number of further bytes it takes. Only shortest forms of code points outside the surrogate range
are characters. -/
def multibyte? (b : UInt8) (rest : List UInt8) : Option (Char × Nat) :=
  if 0xC2 ≤ b && b ≤ 0xDF then
    match rest with
    | b1 :: _ =>
      if isContinuation b1 then some (Char.ofNat (joinBits (b.toNat % 32) [b1]), 1) else none
    | _ => none
  else if 0xE0 ≤ b && b ≤ 0xEF then
    match rest with
    | b1 :: b2 :: _ =>
      let low : UInt8 := if b = 0xE0 then 0xA0 else 0x80
      let high : UInt8 := if b = 0xED then 0x9F else 0xBF
      if low ≤ b1 && b1 ≤ high && isContinuation b2 then
        some (Char.ofNat (joinBits (b.toNat % 16) [b1, b2]), 2)
      else none
    | _ => none
  else if 0xF0 ≤ b && b ≤ 0xF4 then
    match rest with
    | b1 :: b2 :: b3 :: _ =>
      let low : UInt8 := if b = 0xF0 then 0x90 else 0x80
      let high : UInt8 := if b = 0xF4 then 0x8F else 0xBF
      if low ≤ b1 && b1 ≤ high && isContinuation b2 && isContinuation b3 then
        some (Char.ofNat (joinBits (b.toNat % 8) [b1, b2, b3]), 3)
      else none
    | _ => none
  else none

namespace Source

def ofBytes : List UInt8 → Source
  | [] => []
  | b :: rest =>
    if b < 0x80 then .char (Char.ofNat b.toNat) :: ofBytes rest
    else match multibyte? b rest with
      | some (c, more) => .char c :: ofBytes (rest.drop more)
      | none => .stray b :: ofBytes rest
termination_by bytes => bytes.length
decreasing_by all_goals simp only [List.length_cons, List.length_drop]; omega

def ofString (text : String) : Source := text.toList.map .char

def toBytes (source : Source) : List UInt8 :=
  source.flatMap fun
    | .char c => String.utf8EncodeChar c
    | .stray byte => [byte]

def shown (source : Source) : String := String.ofList (source.map Symbol.shown)

def width : Source → Nat
  | [] => 0
  | s :: rest => s.width + width rest

def lines : Source → List Source
  | [] => [[]]
  | .char '\n' :: rest => [] :: lines rest
  | s :: rest =>
    match lines rest with
    | line :: more => (s :: line) :: more
    | [] => [[s]]

end Source

/-- A place in a source, both numbers counted from one. -/
structure Position where
  line : Int
  column : Int
  deriving Repr, DecidableEq

namespace Position

def start : Position := ⟨1, 1⟩

def step (p : Position) (s : Symbol) : Position :=
  if s = .char '\n' then ⟨p.line + 1, 1⟩ else ⟨p.line, p.column + 1⟩

def after (p : Position) (run : Source) : Position := run.foldl step p

end Position

/-- A fault at a place in a source. Line zero means that the place is not known. -/
structure SourceError where
  message : String
  position : Position
  source : Source
  deriving Repr, DecidableEq

namespace SourceError

def text (e : SourceError) : String :=
  if e.position.line = 0 then e.message
  else
    toString e.position.line ++ ":" ++ toString e.position.column ++ ": " ++ e.message

/-- The fault with the line it is on and a mark under its column. The column is moved into the
line, counted in bytes, if it lies outside. -/
def excerpt (e : SourceError) : String :=
  let number := e.position.line
  match e.source.lines[(number - 1).toNat]? with
  | some line =>
    if e.source.isEmpty || number < 1 then e.text
    else
      let column := (max 1 (min e.position.column (line.width + 1))).toNat
      "error: " ++ e.message ++ "\n" ++
      "  --> line " ++ toString number ++ ":" ++ column.repr ++ "\n" ++
      "   |\n" ++
      Text.padLeft 3 (toString number) ++ "| " ++ line.shown ++ "\n" ++
      "   | " ++ String.ofList (List.replicate (column - 1) ' ') ++ "^\n"
  | none => e.text

end SourceError

end Shader
