import Shader.Text.Numeral

/-!
# Timestamps

A timestamp is a date, or a date and a time of day. The date is a year of four digits, a month and a
day. The time stands after a `T`, with a zone behind it, or after spaces, with none.
-/

namespace Shader.Yaml

open Text

def mark? (mark : Char) : List Char → Option (List Char)
  | c :: rest => if c = mark then some rest else none
  | [] => none

def shortNumber? (text : List Char) : Option (Nat × List Char) :=
  let digits := (text.take 2).takeWhile isAsciiDigit
  if digits.isEmpty then none else some (decimalValue digits, text.drop digits.length)

def numberBelow? (limit : Nat) (text : List Char) : Option (List Char) := do
  let (n, rest) ← shortNumber? text
  if n < limit then some rest else none

def isLeapYear (year : Nat) : Bool := year % 4 = 0 && (year % 100 ≠ 0 || year % 400 = 0)

def daysIn (year month : Nat) : Nat :=
  if month = 2 then (if isLeapYear year then 29 else 28)
  else if [4, 6, 9, 11].contains month then 30
  else if 1 ≤ month && month ≤ 12 then 31
  else 0

def date? (text : List Char) : Option (List Char) := do
  let digits := text.takeWhile isAsciiDigit
  let rest ← mark? '-' (text.drop digits.length)
  let (month, rest) ← shortNumber? rest
  let rest ← mark? '-' rest
  let (day, rest) ← shortNumber? rest
  if digits.length = 4 && 1 ≤ day && day ≤ daysIn (decimalValue digits) month then some rest
  else none

def fraction : List Char → List Char
  | c :: d :: rest =>
    if (c = '.' || c = ',') && isAsciiDigit d then rest.dropWhile isAsciiDigit
    else c :: d :: rest
  | text => text

def clock? (text : List Char) : Option (List Char) := do
  let rest ← numberBelow? 24 text
  let rest ← mark? ':' rest
  let rest ← numberBelow? 60 rest
  let rest ← mark? ':' rest
  let rest ← numberBelow? 60 rest
  return fraction rest

def zone? : List Char → Option (List Char)
  | 'Z' :: rest => some rest
  | sign :: a :: b :: ':' :: c :: d :: rest =>
    if (sign = '+' || sign = '-') && [a, b, c, d].all isAsciiDigit &&
        decimalValue [a, b] ≤ 24 && decimalValue [c, d] ≤ 60 then some rest
    else none
  | _ => none

def completesDate : List Char → Bool
  | [] => true
  | c :: rest =>
    if c = 'T' || c = 't' then (clock? rest).bind zone? = some []
    else if c = ' ' then clock? (rest.dropWhile (· = ' ')) = some []
    else false

def isTimestamp (text : List Char) : Bool := (date? text).any completesDate

end Shader.Yaml
