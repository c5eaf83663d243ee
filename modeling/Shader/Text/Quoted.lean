import Shader.Text.Printable

/-!
# Quoted text

Messages show names and characters between quotes. A printable character stands for itself, the
quote in use and the backslash are escaped, the seven named controls have a letter, and every
other character is written by its code in lower-case hexadecimal: two digits below `0x80`, four
below `0x10000`, eight above.
-/

namespace Shader.Text

def hex (width n : Nat) : List Char :=
  let digits := Nat.toDigits 16 n
  List.replicate (width - digits.length) '0' ++ digits

def controlLetter? (c : Char) : Option Char :=
  match c.toNat with
  | 7 => some 'a'
  | 8 => some 'b'
  | 9 => some 't'
  | 10 => some 'n'
  | 11 => some 'v'
  | 12 => some 'f'
  | 13 => some 'r'
  | _ => none

def escaped (quote c : Char) : List Char :=
  if c = quote || c = '\\' then ['\\', c]
  else if isPrintable c then [c]
  else match controlLetter? c with
    | some letter => ['\\', letter]
    | none =>
      if c.toNat < 0x80 then '\\' :: 'x' :: hex 2 c.toNat
      else if c.toNat < 0x10000 then '\\' :: 'u' :: hex 4 c.toNat
      else '\\' :: 'U' :: hex 8 c.toNat

def quoted (text : String) : String :=
  String.ofList ('"' :: (text.toList.flatMap (escaped '"') ++ ['"']))

def quotedChar (c : Char) : String :=
  String.ofList ('\x27' :: (escaped '\x27' c ++ ['\x27']))

end Shader.Text
