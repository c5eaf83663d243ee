import Shader.Text.Letter

/-!
# Numerals

Readers for the three numerals of the program's inputs: array lengths, which may have a base and
separators, the counts of a program description, which are plain decimal numbers of 32 bits, and
the number that starts a version.
-/

namespace Shader.Text

def wordLimit : Nat := 4294967296

/-- The value of a digit of base 36, in either case. -/
def digitValue? (c : Char) : Option Nat :=
  if '0' ≤ c && c ≤ '9' then some (c.toNat - '0'.toNat)
  else if 'a' ≤ c && c ≤ 'z' then some (c.toNat - 'a'.toNat + 10)
  else if 'A' ≤ c && c ≤ 'Z' then some (c.toNat - 'A'.toNat + 10)
  else none

def digitIn? (base : Nat) (c : Char) : Option Nat :=
  (digitValue? c).filter (· < base)

/-- Reads digits in which `_` may stand once between two digits. `afterDigit` says whether the
character before was a digit (or a base mark, which counts as one). -/
def separatedDigits? (base : Nat) (afterDigit : Bool) (value : Nat) : List Char → Option Nat
  | [] => if afterDigit then some value else none
  | '_' :: rest => if afterDigit then separatedDigits? base false value rest else none
  | c :: rest =>
    match digitIn? base c with
    | some d => separatedDigits? base true (value * base + d) rest
    | none => none

/-- The number written by a text that may start with a base mark: `0x` for hexadecimal, `0b` for
binary, `0o` or a plain `0` for octal. -/
def markedNumber? : List Char → Option Nat
  | [] => none
  | '0' :: m :: c :: rest =>
    if m = 'x' || m = 'X' then separatedDigits? 16 true 0 (c :: rest)
    else if m = 'b' || m = 'B' then separatedDigits? 2 true 0 (c :: rest)
    else if m = 'o' || m = 'O' then separatedDigits? 8 true 0 (c :: rest)
    else separatedDigits? 8 true 0 (m :: c :: rest)
  | '0' :: rest => separatedDigits? 8 true 0 rest
  | c :: rest => separatedDigits? 10 false 0 (c :: rest)

/-- An array length: a number of 32 bits other than zero. -/
def readLength? (text : String) : Option UInt32 :=
  match markedNumber? text.toList with
  | some n => if 0 < n && n < wordLimit then some n.toUInt32 else none
  | none => none

/-- Why a text is not a count of 32 bits. -/
inductive CountFault where
  | notDecimal
  | tooLarge
  deriving Repr, DecidableEq

/-- Reads decimal digits, stopping at the first character that is no digit and at the first digit
with which the number leaves the range: the fault that comes first is the one reported. -/
def readCountFrom (value : Nat) : List Char → Except CountFault Nat
  | [] => .ok value
  | c :: rest =>
    if isAsciiDigit c then
      let next := value * 10 + (c.toNat - '0'.toNat)
      if next < wordLimit then readCountFrom next rest else .error .tooLarge
    else .error .notDecimal

def readCount (text : String) : Except CountFault UInt32 :=
  if text.isEmpty then .error .notDecimal
  else (readCountFrom 0 text.toList).map (·.toUInt32)

def decimalValue (digits : List Char) : Nat :=
  digits.foldl (fun n c => n * 10 + (c.toNat - '0'.toNat)) 0

/-- The decimal number with an optional sign that starts a text, if it fits 64 bits. -/
def leadingInt? (text : List Char) : Option Int :=
  let (negative, unsigned) := match text with
    | '-' :: rest => (true, rest)
    | '+' :: rest => (false, rest)
    | rest => (false, rest)
  let digits := unsigned.takeWhile isAsciiDigit
  let n := decimalValue digits
  if digits.isEmpty then none
  else if negative then (if n ≤ 9223372036854775808 then some (-(n : Int)) else none)
  else if n < 9223372036854775808 then some n else none

def twoDigits (n : Nat) : String :=
  if n < 10 then "0" ++ n.repr else n.repr

def padLeft (width : Nat) (text : String) : String :=
  String.ofList (List.replicate (width - text.length) ' ') ++ text

end Shader.Text
