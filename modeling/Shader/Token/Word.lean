import Shader.Text.Letter

/-!
# Words

The classes of tokens that the grammar tells apart by their spelling: identifiers and literals.
-/

namespace Shader

open Text

def startsIdentifier (c : Char) : Bool := c = '_' || isLetter c

def continuesIdentifier (c : Char) : Bool := startsIdentifier c || isDecimalDigit c

/-- An identifier: a letter or underscore, then letters, underscores and decimal digits of any
script. -/
def isIdentifier (token : String) : Bool :=
  match token.toList with
  | [] => false
  | c :: rest => startsIdentifier c && rest.all continuesIdentifier

/-- What may follow the digits of a literal: nothing, a mark of a float, or, for a number without
point and exponent, a mark of an integer. -/
def isLiteralSuffix (float : Bool) (rest : List Char) : Bool :=
  rest = [] || rest = ['f'] || rest = ['h'] || rest = ['l', 'f'] ||
    (!float && (rest = ['u'] || rest = ['i']))

def isLiteralTail (float : Bool) (rest : List Char) : Bool :=
  match rest with
  | e :: more =>
    if e = 'e' || e = 'E' then
      let digits := match more with
        | '+' :: ds => ds
        | '-' :: ds => ds
        | ds => ds
      !(digits.takeWhile isAsciiDigit).isEmpty &&
        isLiteralSuffix true (digits.dropWhile isAsciiDigit)
    else isLiteralSuffix float rest
  | [] => isLiteralSuffix float []

/-- A decimal literal: digits, an optional point with digits, an optional exponent and suffix.
There is a digit before the exponent. -/
def isDecimalLiteral (chars : List Char) : Bool :=
  let whole := chars.takeWhile isAsciiDigit
  match chars.dropWhile isAsciiDigit with
  | '.' :: rest =>
    !(whole.isEmpty && (rest.takeWhile isAsciiDigit).isEmpty) &&
      isLiteralTail true (rest.dropWhile isAsciiDigit)
  | rest => !whole.isEmpty && isLiteralTail false rest

def isHexBody (chars : List Char) : Bool :=
  let rest := chars.dropWhile isHexDigit
  !(chars.takeWhile isHexDigit).isEmpty && (rest = [] || rest = ['u'] || rest = ['i'])

def isNumericLiteral (token : String) : Bool :=
  match token.toList with
  | '0' :: m :: c :: rest =>
    if m = 'x' || m = 'X' then isHexBody (c :: rest)
    else isDecimalLiteral ('0' :: m :: c :: rest)
  | chars => isDecimalLiteral chars

def isLiteral (token : String) : Bool :=
  token = "true" || token = "false" || isNumericLiteral token

end Shader
