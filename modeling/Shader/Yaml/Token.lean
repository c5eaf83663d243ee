import Shader.Source

/-!
# Tokens of settings files

A settings file is written in a part of YAML: block and flow collections, comments, and plain,
single-quoted and double-quoted scalars. Indentation is part of the token sequence: where a block
collection starts and ends there is a token for it.

A text on one line becomes a key only once the `:` after it is seen. Until then it is remembered as
a possible key, one for each level of flow brackets, and the tokens that make it a key are put in
before it.
-/

namespace Shader.Yaml

/-- The tokens of a document. Block collections are opened and closed by indentation. -/
inductive TokenKind where
  | documentStart
  | documentEnd
  | blockSequenceStart
  | blockMappingStart
  | blockEnd
  | flowSequenceStart
  | flowSequenceEnd
  | flowMappingStart
  | flowMappingEnd
  | blockEntry
  | flowEntry
  | key
  | value
  | scalar (plain : Bool) (text : String)
  | fault
  deriving Repr, DecidableEq

/-- A token and the line on which it starts, counted from one. -/
structure Token where
  kind : TokenKind
  line : Nat
  deriving Repr, DecidableEq

/-! ## Characters and places -/

/-- Whether the character ends a line. The other ways to end a line are made one of these before a
text is scanned. -/
def isBreak (c : Char) : Bool := c = '\n' || c = '\u2028' || c = '\u2029'

def isSpace (c : Char) : Bool := c = ' ' || c = '\t'

def endsWord : List Char → Bool
  | [] => true
  | c :: _ => isSpace c || isBreak c

def isAllowed (c : Char) : Bool :=
  let n := c.toNat
  n = 0x9 || n = 0xA || (0x20 ≤ n && n ≤ 0x7E) || (0xA0 ≤ n && n ≤ 0xFFFD) || 0x10000 ≤ n

def unifyBreaks : List Char → List Char
  | '\r' :: '\n' :: rest => '\n' :: unifyBreaks rest
  | '\r' :: rest => '\n' :: unifyBreaks rest
  | c :: rest => (if c = '\u0085' then '\n' else c) :: unifyBreaks rest
  | [] => []

def startsIndicator (mark : Char) : List Char → Bool
  | a :: b :: c :: rest => a = mark && b = mark && c = mark && endsWord rest
  | _ => false

/-- A place in the text, all counted from zero. -/
structure Place where
  line : Nat
  column : Nat
  index : Nat
  deriving Repr, DecidableEq

def Place.step (p : Place) (c : Char) : Place :=
  if isBreak c then ⟨p.line + 1, 0, p.index + 1⟩ else ⟨p.line, p.column + 1, p.index + 1⟩

def Place.move (p : Place) (n : Nat) : Place := ⟨p.line, p.column + n, p.index + n⟩

/-! ## Scalars -/

/-- The text of a scalar and the white space read after it, which is not yet part of it. -/
structure Folded where
  text : List Char
  blanks : List Char
  broken : Bool
  firstBreak : Option Char
  moreBreaks : List Char

namespace Folded

def empty : Folded := ⟨[], [], false, none, []⟩

/-- Takes the white space into the text. One line end becomes a space, of several all but the first
are kept. -/
def flush (f : Folded) : Folded :=
  let space := if f.broken then
      match f.firstBreak with
      | some '\n' => if f.moreBreaks.isEmpty then [' '] else f.moreBreaks
      | first => f.moreBreaks ++ first.toList
    else f.blanks
  { empty with text := space ++ f.text }

def push (f : Folded) (c : Char) : Folded := let g := f.flush; { g with text := c :: g.text }

def space (f : Folded) (c : Char) : Folded :=
  if isBreak c then
    if f.broken then { f with moreBreaks := c :: f.moreBreaks }
    else { f with blanks := [], broken := true, firstBreak := some c }
  else if f.broken then f
  else { f with blanks := c :: f.blanks }

def escapedBreak (f : Folded) : Folded := { f.flush with broken := true }

def isLoose (f : Folded) : Bool := f.broken || !f.blanks.isEmpty

def result (f : Folded) : String := String.ofList f.text.reverse

end Folded

/-- The text of a scalar, and what follows it. -/
structure Scanned where
  text : String
  rest : List Char
  place : Place
  broken : Bool

/-- Whether a plain scalar ends before a character, given what follows the character. -/
def endsPlain (inFlow : Bool) (c : Char) (rest : List Char) : Bool :=
  (c = ':' && endsWord rest) ||
    (inFlow && (c = ',' || c = '?' || c = '[' || c = ']' || c = '\x7b' || c = '\x7d'))

/-- Reads a plain scalar. It may go on over lines that are indented to at least the column `indent`,
and in flow brackets over all lines. -/
def plainScalar? (inFlow : Bool) (indent : Int) :
    List Char → Place → Folded → Option Scanned
  | [], p, f => some ⟨f.result, [], p, f.broken⟩
  | c :: rest, p, f =>
    let stop := some ⟨f.result, c :: rest, p, f.broken⟩
    if isSpace c then
      if f.broken && c = '\t' && p.column < indent then none
      else plainScalar? inFlow indent rest (p.step c) (f.space c)
    else if isBreak c then plainScalar? inFlow indent rest (p.step c) (f.space c)
    else if f.broken && !inFlow && p.column < indent then stop
    else if p.column = 0 &&
        (startsIndicator '-' (c :: rest) || startsIndicator '.' (c :: rest)) then stop
    else if f.isLoose && c = '#' then stop
    else if endsPlain inFlow c rest then stop
    else plainScalar? inFlow indent rest (p.step c) (f.push c)

def singleQuoted? : List Char → Place → Folded → Option Scanned
  | [], _, _ => none
  | [c], p, f =>
    if c = '\x27' then some ⟨f.flush.result, [], p.step c, false⟩ else none
  | c :: d :: rest, p, f =>
    if p.column = 0 &&
        (startsIndicator '-' (c :: d :: rest) || startsIndicator '.' (c :: d :: rest)) then none
    else if c = '\x27' then
      if d = '\x27' then singleQuoted? rest (p.move 2) (f.push c)
      else some ⟨f.flush.result, d :: rest, p.step c, false⟩
    else
      let f := if isSpace c || isBreak c then f.space c else f.push c
      singleQuoted? (d :: rest) (p.step c) f

def escapeLetter? (c : Char) : Option Char :=
  match c with
  | '0' => some '\x00'
  | 'a' => some '\x07'
  | 'b' => some '\x08'
  | 't' => some '\t'
  | '\t' => some '\t'
  | 'n' => some '\n'
  | 'v' => some '\x0b'
  | 'f' => some '\x0c'
  | 'r' => some '\r'
  | 'e' => some '\x1b'
  | ' ' => some ' '
  | '"' => some '"'
  | '\x27' => some '\x27'
  | '/' => some '/'
  | '\\' => some '\\'
  | 'N' => some '\u0085'
  | '_' => some '\u00a0'
  | 'L' => some '\u2028'
  | 'P' => some '\u2029'
  | _ => none

def codeLength? (c : Char) : Option Nat :=
  if c = 'x' then some 2 else if c = 'u' then some 4 else if c = 'U' then some 8 else none

def codePoint? (digits : List Char) : Option Char := do
  let values ← digits.mapM (Text.digitIn? 16)
  let n := values.foldl (fun n d => n * 16 + d) 0
  if n < 0xD800 || (0xDFFF < n && n ≤ 0x10FFFF) then some (Char.ofNat n) else none

def doubleQuoted? (text : List Char) (p : Place) (f : Folded) : Option Scanned :=
  if p.column = 0 && (startsIndicator '-' text || startsIndicator '.' text) then none
  else match text with
    | [] => none
    | '"' :: rest => some ⟨f.flush.result, rest, p.step '"', false⟩
    | '\\' :: c :: rest =>
      if isBreak c then doubleQuoted? rest ((p.move 1).step c) f.escapedBreak
      else match escapeLetter? c, codeLength? c with
        | some d, _ => doubleQuoted? rest (p.move 2) (f.push d)
        | none, some n =>
          if rest.length < n then none
          else match codePoint? (rest.take n) with
            | some d => doubleQuoted? (rest.drop n) (p.move (2 + n)) (f.push d)
            | none => none
        | none, none => none
    | c :: rest =>
      let f := if isSpace c || isBreak c then f.space c else f.push c
      doubleQuoted? rest (p.step c) f
termination_by text.length
decreasing_by
  all_goals simp only [List.length_cons, List.length_drop]; omega

/-! ## The scanner -/

/-- A text that is a key if a `:` follows it on its line. -/
structure PossibleKey where
  position : Nat
  required : Bool
  place : Place

/-- What has been scanned, and what is still open. -/
structure Scanner where
  rest : List Char
  place : Place
  tokens : List Token
  /-- The column of the innermost block collection, `-1` outside of all. -/
  indent : Int
  outer : List Int
  possible : Option PossibleKey
  around : List (Option PossibleKey)
  keyAllowed : Bool

namespace Scanner

def start (text : List Char) : Scanner := ⟨text, ⟨0, 0, 0⟩, [], -1, [], none, [], true⟩

def inFlow (s : Scanner) : Bool := !s.around.isEmpty

def emit (s : Scanner) (kind : TokenKind) : Scanner :=
  { s with tokens := s.tokens ++ [⟨kind, s.place.line + 1⟩] }

def skip (s : Scanner) (n : Nat) : Scanner :=
  { s with rest := s.rest.drop n, place := s.place.move n }

def insertToken (s : Scanner) (position : Nat) (token : Token) : Scanner :=
  { s with tokens := s.tokens.take position ++ token :: s.tokens.drop position }

/-- The collections left at a column: their number, and the column and the surroundings of the
collection in which the scanner then is. -/
def unwind (column : Int) (indent : Int) : List Int → Nat × Int × List Int
  | [] => (0, indent, [])
  | next :: outer =>
    if indent > column then
      let (n, indent, outer) := unwind column next outer
      (n + 1, indent, outer)
    else (0, indent, next :: outer)

/-- Ends the block collections that are indented to the right of a column. -/
def unroll (s : Scanner) (column : Int) : Scanner :=
  if s.inFlow then s
  else
    let (n, indent, outer) := unwind column s.indent s.outer
    { s with
      tokens := s.tokens ++ List.replicate n ⟨.blockEnd, s.place.line + 1⟩
      indent := indent, outer := outer }

/-- Starts a block collection at a column if it is to the right of the current one. -/
def roll (s : Scanner) (column : Nat) (position : Nat) (token : Token) : Scanner :=
  if s.inFlow || (column : Int) ≤ s.indent then s
  else { s.insertToken position token with indent := column, outer := s.indent :: s.outer }

/-- Gives up the possible key, unless a key is required there. -/
def dropKey? (s : Scanner) : Option Scanner :=
  match s.possible with
  | some k => if k.required then none else some { s with possible := none }
  | none => some s

def saveKey? (s : Scanner) : Option Scanner :=
  if s.keyAllowed then do
    let s ← s.dropKey?
    let required := !s.inFlow && s.indent = s.place.column
    return { s with possible := some ⟨s.tokens.length, required, s.place⟩ }
  else some s

/-- The possible key, if the `:` at the current place may follow it: on the same line and no more
than 1024 characters on. -/
def keyHere? (s : Scanner) : Option (Option PossibleKey) :=
  match s.possible with
  | none => some none
  | some k =>
    if k.place.line < s.place.line || k.place.index + 1024 < s.place.index then
      if k.required then none else some none
    else some (some k)

/-- Passes over blanks, comments and line ends. A tab may not stand where a key may start. -/
def skipSpace (inFlow : Bool) (comment : Bool) :
    List Char → Place → Bool → List Char × Place × Bool
  | [], p, allowed => ([], p, allowed)
  | c :: rest, p, allowed =>
    if isBreak c then skipSpace inFlow false rest (p.step c) (allowed || !inFlow)
    else if comment || c = '#' then skipSpace inFlow true rest (p.step c) allowed
    else if c = ' ' || (c = '\t' && (inFlow || !allowed)) then
      skipSpace inFlow false rest (p.step c) allowed
    else (c :: rest, p, allowed)

def toToken (s : Scanner) : Scanner :=
  let (rest, place, allowed) := skipSpace s.inFlow false s.rest s.place s.keyAllowed
  { s with rest := rest, place := place, keyAllowed := allowed }.unroll place.column

def indicator? (s : Scanner) (kind : TokenKind) : Option Scanner := do
  let s ← (s.unroll (-1)).dropKey?
  return ({ s with keyAllowed := false }.emit kind).skip 3

def openFlow? (s : Scanner) (kind : TokenKind) : Option Scanner := do
  let s ← s.saveKey?
  return ({ s with
    around := s.possible :: s.around, possible := none, keyAllowed := true }.emit kind).skip 1

def closeFlow? (s : Scanner) (kind : TokenKind) : Option Scanner := do
  let s ← s.dropKey?
  let s := match s.around with
    | k :: around => { s with possible := k, around := around }
    | [] => s
  return ({ s with keyAllowed := false }.emit kind).skip 1

def flowEntry? (s : Scanner) : Option Scanner := do
  let s ← s.dropKey?
  return ({ s with keyAllowed := true }.emit .flowEntry).skip 1

def blockMark? (s : Scanner) (kind opener : TokenKind) (allowed : Bool) : Option Scanner :=
  if !s.inFlow && !s.keyAllowed then none
  else do
    let s := s.roll s.place.column s.tokens.length ⟨opener, s.place.line + 1⟩
    let s ← s.dropKey?
    return ({ s with keyAllowed := allowed }.emit kind).skip 1

def value? (s : Scanner) : Option Scanner := do
  match ← s.keyHere? with
  | some k =>
    let line := k.place.line + 1
    let s := s.insertToken k.position ⟨.key, line⟩
    let s := s.roll k.place.column k.position ⟨.blockMappingStart, line⟩
    return ({ s with possible := none, keyAllowed := false }.emit .value).skip 1
  | none =>
    if !s.inFlow && !s.keyAllowed then none
    else
      let s := s.roll s.place.column s.tokens.length ⟨.blockMappingStart, s.place.line + 1⟩
      return ({ s with keyAllowed := !s.inFlow }.emit .value).skip 1

def scalar (s : Scanner) (plain : Bool) (r : Scanned) : Scanner :=
  { s.emit (.scalar plain r.text) with rest := r.rest, place := r.place, keyAllowed := r.broken }

def quoted? (s : Scanner) (read : List Char → Place → Folded → Option Scanned) :
    Option Scanner := do
  let s ← s.saveKey?
  let r ← read (s.rest.drop 1) (s.place.move 1) .empty
  return s.scalar false r

def plain? (s : Scanner) : Option Scanner := do
  let s ← s.saveKey?
  let r ← plainScalar? s.inFlow (s.indent + 1) s.rest s.place .empty
  return s.scalar true r

def startsPlain (inFlow : Bool) (c : Char) (rest : List Char) : Bool :=
  if c = '-' then !(rest.head?.any isSpace)
  else if c = '?' || c = ':' then !inFlow && !endsWord rest
  else
    !(isSpace c || isBreak c || c = ',' || c = '[' || c = ']' || c = '\x7b' || c = '\x7d' ||
      c = '#' || c = '&' || c = '*' || c = '!' || c = '|' || c = '>' || c = '\x27' || c = '"' ||
      c = '%' || c = '@' || c = '\x60')

def fetch? (s : Scanner) (c : Char) (rest : List Char) : Option Scanner :=
  let word := endsWord rest
  if s.place.column = 0 && c = '%' then none
  else if s.place.column = 0 && startsIndicator '-' s.rest then s.indicator? .documentStart
  else if s.place.column = 0 && startsIndicator '.' s.rest then s.indicator? .documentEnd
  else if c = '[' then s.openFlow? .flowSequenceStart
  else if c = '\x7b' then s.openFlow? .flowMappingStart
  else if c = ']' then s.closeFlow? .flowSequenceEnd
  else if c = '\x7d' then s.closeFlow? .flowMappingEnd
  else if c = ',' then s.flowEntry?
  else if c = '-' && word then s.blockMark? .blockEntry .blockSequenceStart true
  else if c = '?' && (s.inFlow || word) then s.blockMark? .key .blockMappingStart (!s.inFlow)
  else if c = ':' && (s.inFlow || word) then s.value?
  else if c = '\x27' then s.quoted? singleQuoted?
  else if c = '"' then s.quoted? doubleQuoted?
  else if startsPlain s.inFlow c rest then s.plain?
  else none

def finish (s : Scanner) : List Token :=
  match (s.unroll (-1)).dropKey? with
  | some s => s.tokens
  | none => s.tokens ++ [⟨.fault, s.place.line + 1⟩]

/-- Reads tokens to the end of the text. Every token takes a character, so the length of the text
is fuel enough. -/
def run : Nat → Scanner → List Token
  | 0, s => s.tokens
  | fuel + 1, s =>
    let s := s.toToken
    match s.rest with
    | [] => s.finish
    | c :: rest =>
      match s.fetch? c rest with
      | some s => run fuel s
      | none => s.tokens ++ [⟨.fault, s.place.line + 1⟩]

end Scanner

/-- The characters of a file, if it is text: every byte belongs to a character that may stand in a
file. A byte order mark at its start is left out. -/
def characters? (source : Source) : Option (List Char) := do
  let chars ← source.mapM fun
    | .char c => some c
    | .stray _ => none
  let chars := unifyBreaks (if chars.head? = some '\ufeff' then chars.drop 1 else chars)
  if chars.all isAllowed then some chars else none

def scan (source : Source) : List Token :=
  match characters? source with
  | some chars => Scanner.run (chars.length + 1) (.start chars)
  | none => [⟨.fault, 1⟩]

end Shader.Yaml
