import Shader.Text.Ranges

/-!
# Blanks

White space is Unicode's property White_Space. `fields` cuts a text into the maximal runs of
characters between blanks.
-/

namespace Shader.Text

def blankRanges : Ranges :=
  [(0x9, 0xd), (0x20, 0x20), (0x85, 0x85), (0xa0, 0xa0), (0x1680, 0x1680), (0x2000, 0x200a),
   (0x2028, 0x2029), (0x202f, 0x202f), (0x205f, 0x205f), (0x3000, 0x3000)]

def isBlank (c : Char) : Bool := blankRanges.has c.toNat

def fieldsFrom (current : List Char) : List Char → List (List Char)
  | [] => if current.isEmpty then [] else [current]
  | c :: rest =>
    if isBlank c then
      if current.isEmpty then fieldsFrom [] rest else current :: fieldsFrom [] rest
    else fieldsFrom (current ++ [c]) rest

def fields (text : String) : List String := (fieldsFrom [] text.toList).map String.ofList

end Shader.Text
