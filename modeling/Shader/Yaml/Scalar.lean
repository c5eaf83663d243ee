import Shader.Text.Numeral
import Shader.Yaml.Node
import Shader.Yaml.Timestamp

/-!
# Meaning of scalars

A quoted scalar is its text. A plain scalar may also be nothing, a truth value, a timestamp, an
integer or a number with a fraction. An integer is written in decimal, with `0x`, `0o` or `0b`, or
in octal with a leading zero; one of more than 64 bits counts as a number with a fraction. In a
number `_` may stand anywhere, but if it starts with a point only between two digits.
-/

namespace Shader.Yaml

open Text

/-- What a scalar stands for. -/
inductive Meaning where
  | nothing
  | truth (value : Bool)
  | integer (value : Int)
  /-- A number with a fraction, of which only the part before the point matters; infinite and
  undefined numbers have none. -/
  | fractional (whole : Option Int)
  | timestamp
  | text (value : String)
  deriving Repr, DecidableEq

namespace Meaning

def ofWord? (word : String) : Option Meaning :=
  if ["", "~", "null", "Null", "NULL"].contains word then some .nothing
  else if ["true", "True", "TRUE"].contains word then some (.truth true)
  else if ["false", "False", "FALSE"].contains word then some (.truth false)
  else if [".nan", ".NaN", ".NAN", ".inf", ".Inf", ".INF", "+.inf", "+.Inf", "+.INF", "-.inf",
      "-.Inf", "-.INF"].contains word then some (.fractional none)
  else none

/-- A numeral without its sign, whether there was one, and whether it was a minus. -/
structure Signed where
  negative : Bool
  marked : Bool
  digits : List Char

def Signed.of : List Char → Signed
  | '-' :: rest => ⟨true, true, rest⟩
  | '+' :: rest => ⟨false, true, rest⟩
  | rest => ⟨false, false, rest⟩

def Signed.apply (s : Signed) (n : Nat) : Int := if s.negative then -(n : Int) else n

/-- The number with a sign, if it fits 64 bits. Without a sign it may fill them, with one it leaves
a bit for the sign. -/
def Signed.fit? (s : Signed) (n : Nat) : Option Int :=
  if s.negative then (if n ≤ 9223372036854775808 then some (s.apply n) else none)
  else if s.marked then (if n < 9223372036854775808 then some (s.apply n) else none)
  else if n < 18446744073709551616 then some (s.apply n) else none

def signedBase? (mark : Char) : Option Nat :=
  if mark = 'b' then some 2 else if mark = 'o' then some 8 else none

def signedAfterMark? : List Char → Option Int
  | '0' :: mark :: rest => do
    let base ← signedBase? mark
    let s := Signed.of rest
    let n ← separatedDigits? base false 0 s.digits
    if s.marked then s.fit? n else none
  | _ => none

/-- The integer that a text without `_` writes. The sign stands in front, or behind `0b` or `0o`. -/
def integer? (text : List Char) : Option Int :=
  let s := Signed.of text
  ((markedNumber? s.digits).bind s.fit?).or (signedAfterMark? text)

def exponent? : List Char → Option Int
  | [] => some 0
  | c :: rest =>
    let s := Signed.of rest
    if (c = 'e' || c = 'E') && !s.digits.isEmpty && s.digits.all isAsciiDigit then
      some (s.apply (decimalValue s.digits))
    else none

def roundDiv (n d : Nat) : Nat :=
  let q := n / d
  let r := n % d
  if d < 2 * r || (2 * r = d && q % 2 = 1) then q + 1 else q

/-- The part before the point of `n / d`, once the fraction is rounded to the 53 bits that a
double-precision number holds. -/
def roundedWhole (n d : Nat) : Nat :=
  let whole := n / d
  let bits := if whole = 0 then 53 else 52 - whole.log2
  let unit := Nat.pow 2 bits
  roundDiv (n * unit) d / unit

def finiteLimit : Nat := Nat.pow 2 1024 - Nat.pow 2 970

def scaled? (n : Nat) (e : Int) : Option Nat :=
  if n = 0 then some 0
  else if 400 < e then none
  else if 0 ≤ e then
    let whole := n * Nat.pow 10 e.toNat
    if whole < finiteLimit then some whole else none
  else if n.log2 + 2 < (-e).toNat then some 0
  else
    let d := Nat.pow 10 (-e).toNat
    if n / d < finiteLimit then some (roundedWhole n d) else none

/-- The part before the point of a number with a fraction: digits with at most one point among
them, and an exponent. -/
def whole? (text : List Char) : Option Int :=
  let s := Signed.of text
  let before := s.digits.takeWhile isAsciiDigit
  let rest := s.digits.dropWhile isAsciiDigit
  let (after, rest) := match rest with
    | '.' :: more => (more.takeWhile isAsciiDigit, more.dropWhile isAsciiDigit)
    | other => ([], other)
  if before.isEmpty && after.isEmpty then none
  else do
    let e ← exponent? rest
    let n ← scaled? (decimalValue (before ++ after)) (e - after.length)
    return s.apply n

def maybeNumber : List Char → Bool
  | c :: _ => isAsciiDigit c || c = '+' || c = '-' || c = '.'
  | [] => false

/-- Whether every `_` of a text stands between two digits. `afterDigit` says whether the character
before was a digit. -/
def separatesDigits (afterDigit : Bool) : List Char → Bool
  | [] => true
  | '_' :: d :: rest => afterDigit && isAsciiDigit d && separatesDigits true rest
  | c :: rest => c ≠ '_' && separatesDigits (isAsciiDigit c) rest

def joined? (text : List Char) : Option (List Char) :=
  if text.head? = some '.' && !separatesDigits false text then none
  else some (text.filter (· ≠ '_'))

def number? (text : List Char) : Option Meaning := do
  let digits ← joined? text
  ((integer? digits).map .integer).or ((whole? digits).map fun n => .fractional (some n))

def ofPlain (word : String) : Meaning :=
  match ofWord? word with
  | some m => m
  | none =>
    let chars := word.toList
    if !maybeNumber chars then .text word
    else if isTimestamp chars then .timestamp
    else (number? chars).getD (.text word)

def of (plain : Bool) (text : String) : Meaning := if plain then ofPlain text else .text text

def tag : Meaning → String
  | .nothing => "!!null"
  | .truth _ => "!!bool"
  | .integer _ => "!!int"
  | .fractional _ => "!!float"
  | .timestamp => "!!timestamp"
  | .text _ => "!!str"

def word32? (n : Int) : Option UInt32 :=
  if 0 ≤ n ∧ n < wordLimit then some n.toNat.toUInt32 else none

def word? : Meaning → Option UInt32
  | .integer n => word32? n
  | .fractional (some n) => word32? n
  | _ => none

/-- The words that are a truth value where one is wanted, and texts elsewhere. A word is written
small, with a capital, or in capitals. -/
def truthWord? (word : String) : Option Bool :=
  if ["y", "Y", "yes", "Yes", "YES", "on", "On", "ON"].contains word then some true
  else if ["n", "N", "no", "No", "NO", "off", "Off", "OFF"].contains word then some false
  else none

def truth? : Meaning → Option Bool
  | .truth b => some b
  | .text word => truthWord? word
  | _ => none

end Meaning

end Shader.Yaml
