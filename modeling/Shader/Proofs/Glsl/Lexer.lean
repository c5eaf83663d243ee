import Mathlib.Tactic.Common
import Shader.Glsl.Expression

/-!
# Tokens of shaders

How a shader is read: as words, numbers, operators and single delimiters, where comments and blanks
are left out and a directive is everything from a number sign at the start of a line to its end.
-/

namespace Shader.Glsl.Lexer

/-! ## Reading -/

def blanks : List Char := [' ', '\t', '\r', '\x0b', '\x0c']

def delimiters : List Char := ['(', ')', '[', ']', '\x7b', '\x7d', ',', ';', ':', '?', '~', '#']

def signs : List Char := ['+', '-', '*', '/', '%', '=', '<', '>', '!', '&', '|', '^', '.']

def operators : List (List Char) :=
  [['+', '+'], ['-', '-'], ['<', '='], ['>', '='], ['=', '='], ['!', '='], ['&', '&'], ['|', '|'],
   ['^', '^'], ['<', '<'], ['>', '>'], ['+', '='], ['-', '='], ['*', '='], ['/', '='], ['%', '='],
   ['&', '='], ['|', '='], ['^', '='], ['<', '<', '='], ['>', '>', '=']]

/-- The classes of characters. -/
inductive CharClass where
  | newline
  | blank
  | delimiter
  | sign
  | digit
  | letter
  deriving Repr, DecidableEq

def classOf (c : Char) : CharClass :=
  if c = '\n' then .newline
  else if c ∈ blanks then .blank
  else if c ∈ delimiters then .delimiter
  else if c ∈ signs then .sign
  else if c.isDigit then .digit
  else .letter

/-- The part of a number that is being read. -/
inductive Part where
  | digits
  | fraction
  /-- The mark of an exponent has just been read. -/
  | mark
  /-- What follows: the exponent, hexadecimal digits and suffixes. -/
  | rest
  deriving Repr, DecidableEq

def Part.next? (part : Part) (c : Char) : Option Part :=
  let letter : Part := if c = 'e' || c = 'E' then .mark else .rest
  match part, classOf c with
  | .digits, .digit => some .digits
  | .digits, .letter => some letter
  | .digits, .sign => if c = '.' then some .fraction else none
  | .fraction, .digit => some .fraction
  | .fraction, .letter => some letter
  | .mark, .sign => if c = '+' || c = '-' then some .rest else none
  | .mark, .digit => some .rest
  | .mark, .letter => some .rest
  | .rest, .digit => some .rest
  | .rest, .letter => some .rest
  | _, _ => none

/-- What is being read. -/
inductive Mode where
  /-- Nothing; `fresh` tells whether there were only blanks since the line started. -/
  | start (fresh : Bool)
  | word (text : List Char)
  | number (text : List Char) (part : Part)
  | sign (text : List Char)
  | line
  /-- A comment in stars; `star` tells whether the last character was one. -/
  | block (star : Bool)
  | directive (text : List Char)
  deriving Repr, DecidableEq

namespace Mode

def pending : Mode → List String
  | word text => [String.ofList text]
  | number text _ => [String.ofList text]
  | sign text => [String.ofList text]
  | directive text => [String.ofList text]
  | _ => []

def isFresh : Mode → Bool
  | start fresh => fresh
  | _ => false

def absorb? : Mode → Char → Option Mode
  | start _, _ => none
  | word text, c =>
    match classOf c with
    | .digit => some (word (text ++ [c]))
    | .letter => some (word (text ++ [c]))
    | _ => none
  | number text part, c => (part.next? c).map (number (text ++ [c]))
  | sign text, c =>
    match classOf c with
    | .sign =>
      if text = ['/'] && c = '/' then some line
      else if text = ['/'] && c = '*' then some (block false)
      else if text ++ [c] ∈ operators then some (sign (text ++ [c]))
      else none
    | .digit => if text = ['.'] then some (number (text ++ [c]) .fraction) else none
    | _ => none
  | line, c => if c = '\n' then none else some line
  | block star, c => if star && c = '/' then some (start false) else some (block (c = '*'))
  | directive text, c => if c = '\n' then none else some (directive (text ++ [c]))

/-- The tokens that a character completes on its own, and what is being read after it. -/
def opening (fresh : Bool) (c : Char) : List String × Mode :=
  match classOf c with
  | .newline => ([], start true)
  | .blank => ([], start fresh)
  | .delimiter =>
    if c = '#' && fresh then ([], directive [c]) else ([String.singleton c], start false)
  | .sign => ([], sign [c])
  | .digit => ([], number [c] .digits)
  | .letter => ([], word [c])

/-- Reads a character: the tokens that are complete with it, and what is being read after it. -/
def step (m : Mode) (c : Char) : List String × Mode :=
  match m.absorb? c with
  | some next => ([], next)
  | none => (m.pending ++ (opening m.isFresh c).1, (opening m.isFresh c).2)

def after (m : Mode) (cs : List Char) : Mode := cs.foldl (fun m c => (m.step c).2) m

def read : Mode → List Char → List String
  | _, [] => []
  | m, c :: cs => (m.step c).1 ++ read (m.step c).2 cs

end Mode

def lex (text : String) : List String :=
  (Mode.start true).read text.toList ++ ((Mode.start true).after text.toList).pending

/-! ## Runs -/

namespace Mode

@[simp]
theorem after_nil (m : Mode) : m.after [] = m := rfl

@[simp]
theorem after_cons (m : Mode) (c : Char) (cs : List Char) :
    m.after (c :: cs) = (m.step c).2.after cs := rfl

@[simp]
theorem after_append (m : Mode) (a b : List Char) : m.after (a ++ b) = (m.after a).after b :=
  List.foldl_append

@[simp]
theorem read_nil (m : Mode) : m.read [] = [] := by
  cases m <;> rfl

@[simp]
theorem read_cons (m : Mode) (c : Char) (cs : List Char) :
    m.read (c :: cs) = (m.step c).1 ++ (m.step c).2.read cs := by
  rw [read]

@[simp]
theorem read_append (m : Mode) (a b : List Char) :
    m.read (a ++ b) = m.read a ++ (m.after a).read b := by
  induction a generalizing m with
  | nil => simp
  | cons c a ih => simp [ih, List.append_assoc]

theorem after_directive {text cs : List Char} (h : '\n' ∉ cs) :
    (directive text).after cs = directive (text ++ cs) := by
  induction cs generalizing text with
  | nil => simp
  | cons c cs ih =>
    obtain ⟨hc, hcs⟩ := List.ne_and_not_mem_of_not_mem_cons h
    have hstep : (directive text).step c = ([], directive (text ++ [c])) := by
      simp [step, absorb?, Ne.symm hc]
    rw [after_cons, hstep, ih hcs, List.append_assoc, List.singleton_append]

/-- A directive leaves nothing open behind its line. -/
theorem after_line {cs : List Char} (h : '\n' ∉ cs) :
    (start true).after ('#' :: (cs ++ ['\n'])) = start true := by
  have hstep : (start true).step '#' = ([], directive ['#']) := rfl
  rw [after_cons, hstep, after_append, after_directive h]
  rfl

end Mode

end Shader.Glsl.Lexer
