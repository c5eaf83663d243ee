import Mathlib.Data.List.Induction
import Shader.Proofs.Token.Respacing

/-!
# Nothing is lost

Comments are removed from a source by a scan that keeps track of where it stands: in the code, in a
comment up to the end of the line, or in nested comments. Main statement: a source can be cut into
tokens if and only if all that is left is legal; the tokens then spell what is left but for blanks,
and otherwise the first symbol that is not legal is reported with its line and column.
-/

namespace Shader

open Text Lexeme

variable {i j : Nat} {rest more text source : Source} {s : Symbol} {c : Char} {p : Char → Bool}
variable {symbols : List (Symbol × Nat)} {x : Except SourceError (List Token)}

/-! ## Removing comments -/

/-- What the scan is in: the code, a comment up to the end of the line, or a comment that stands in
`depth` other comments. -/
inductive Region where
  | code
  | line
  | block (depth : Nat)

/-- The symbols outside comments with their places, counted from `i`. -/
def codeFrom : Region → Nat → Source → List (Symbol × Nat)
  | _, _, [] => []
  | .code, i, .char '/' :: .char '/' :: rest => codeFrom .line (i + 2) rest
  | .code, i, .char '/' :: .char '*' :: rest => codeFrom (.block 0) (i + 2) rest
  | .code, i, s :: rest => (s, i) :: codeFrom .code (i + 1) rest
  | .line, i, .char '\n' :: rest => (.char '\n', i) :: codeFrom .code (i + 1) rest
  | .line, i, _ :: rest => codeFrom .line (i + 1) rest
  | .block depth, i, .char '/' :: .char '*' :: rest => codeFrom (.block (depth + 1)) (i + 2) rest
  | .block (depth + 1), i, .char '*' :: .char '/' :: rest => codeFrom (.block depth) (i + 2) rest
  | .block 0, i, .char '*' :: .char '/' :: rest => codeFrom .code (i + 2) rest
  | .block depth, i, _ :: rest => codeFrom (.block depth) (i + 1) rest

def codeOf (source : Source) : List (Symbol × Nat) := codeFrom .code 0 source

def Symbol.isBlank (s : Symbol) : Bool := s ∈ [' ', '\t', '\r', '\n'].map Symbol.char

/-- The symbols that a program may hold outside comments. -/
def Symbol.isLegal : Symbol → Bool
  | .char c => Symbol.isBlank (.char c) ||
      c ∈ ['(', ')', '\x7b', '\x7d', '[', ']', ',', '.', ':', ';', '#', '<', '>', '*', '+', '%',
        '-', '=', '/'] || isAsciiDigit c || c = '_' || isLetter c
  | .stray _ => false

/-- The line and column, both counted from one, of the symbol that follows. -/
def Position.behind (before : Source) : Position :=
  ⟨before.count (.char '\n') + 1,
    (before.reverse.takeWhile fun s => s ≠ .char '\n').length + 1⟩

theorem after_start (before : Source) : Position.start.after before = Position.behind before := by
  induction before using List.reverseRecOn with
  | nil => rfl
  | append_singleton before s ih =>
    have hstep : Position.start.after (before ++ [s]) = (Position.start.after before).step s := by
      simp [Position.after]
    rw [hstep, ih]
    by_cases hs : s = .char '\n'
    · simp [Position.step, Position.behind, hs]
    · simp [Position.step, Position.behind, hs]

/-! ## Comments -/

theorem codeFrom_line (i : Nat) (rest : Source) : codeFrom .line i rest =
    codeFrom .code (i + run (· ≠ '\n') rest) (rest.drop (run (· ≠ '\n') rest)) := by
  induction rest generalizing i with
  | nil => rfl
  | cons s rest ih =>
    rw [run_cons]
    by_cases hs : s = .char '\n'
    · subst hs
      rfl
    · have hshown : s.shown ≠ '\n' := by
        cases s with
        | char c => exact fun hc => hs (congrArg Symbol.char hc)
        | stray byte => exact (by decide : '�' ≠ '\n')
      rw [codeFrom.eq_6 _ _ _ hs, ih, if_pos (decide_eq_true hshown), List.drop_succ_cons,
        Nat.add_assoc, Nat.add_comm 1]

/-- What the scan is in if it stands in `depth` comments. -/
def Region.ofDepth : Nat → Region
  | 0 => .code
  | depth + 1 => .block depth

theorem codeFrom_block (depth i : Nat) (rest : Source) : codeFrom (.ofDepth depth) i rest =
    codeFrom .code (i + blockExtent depth rest) (rest.drop (blockExtent depth rest)) := by
  fun_induction blockExtent depth rest generalizing i with
  | case1 => rfl
  | case2 => rfl
  | case3 depth rest ih =>
    rw [Region.ofDepth, codeFrom.eq_7]
    refine (ih (i + 2)).trans ?_
    rw [Nat.add_assoc, Nat.add_comm 2, List.drop_succ_cons, List.drop_succ_cons]
  | case4 depth rest ih =>
    have hclose : codeFrom (.ofDepth depth.succ) i (.char '*' :: .char '/' :: rest) =
        codeFrom (.ofDepth depth) (i + 2) rest := by
      cases depth <;> rfl
    rw [hclose, ih, Nat.add_assoc, Nat.add_comm 2, List.drop_succ_cons, List.drop_succ_cons]
  | case5 depth s rest hopen hclose ih =>
    rw [Region.ofDepth, codeFrom.eq_10 _ _ _ _ hopen (fun _ rest' _ => hclose rest')
      fun rest' _ => hclose rest']
    refine (ih (i + 1)).trans ?_
    rw [Nat.add_assoc, Nat.add_comm 1, List.drop_succ_cons]

/-! ## Tokens -/

/-- The characters of tokens, but for the slash. -/
def isInk (c : Char) : Bool :=
  c ∈ ['(', ')', '\x7b', '\x7d', '[', ']', ',', '.', ':', ';', '#', '<', '>', '*', '+', '%', '-',
    '='] || isAsciiDigit c || startsIdentifier c

theorem isInk_of_digit (h : isAsciiDigit c = true) : isInk c = true := by simp [isInk, h]

theorem isInk_of_name (h : startsIdentifier c = true) : isInk c = true := by simp [isInk, h]

theorem isInk_of_hex (h : isHexDigit c = true) : isInk c = true := by
  by_cases hdigit : isAsciiDigit c = true
  · exact isInk_of_digit hdigit
  · refine isInk_of_name (Bool.not_eq_false _ ▸ fun hname => ?_)
    rw [isHexDigit_of_name hname (Bool.eq_false_iff.mpr hdigit)] at h
    cases h

/-- All of the next `n` symbols are ink. -/
def Inked (x : Source) (n : Nat) : Prop := ∀ s ∈ x.take n, isInk s.shown = true

theorem inked_zero (x : Source) : Inked x 0 := nofun

theorem Inked.add {x : Source} {a b : Nat} (ha : Inked x a) (hb : Inked (x.drop a) b) :
    Inked x (a + b) := by
  intro s hs
  rw [List.take_add, List.mem_append] at hs
  exact hs.elim (ha s) (hb s)

theorem inked_one (x : Source) (h : isInk (front x) = true) : Inked x 1 := by
  cases x with
  | nil => exact nofun
  | cons s x =>
    intro s' hs'
    rw [List.mem_singleton.mp hs']
    exact h

theorem inked_run (hp : ∀ c, p c = true → isInk c = true) (x : Source) : Inked x (run p x) :=
  fun _ hs => hp _ (mem_take_run (List.mem_map_of_mem hs))

theorem inked_optional (hp : ∀ c, p c = true → isInk c = true) (x : Source) :
    Inked x (Lexeme.optional p x) := by
  unfold Lexeme.optional
  split
  · rename_i h
    exact inked_one x (hp _ h)
  · exact inked_zero x

/-- A test that only the listed characters pass, all of which are ink. -/
theorem isInk_of_mem (chars : List Char) (hchars : chars.all isInk = true) (h : c ∈ chars) :
    isInk c = true := List.all_eq_true.mp hchars c h

theorem inked_fraction (x : Source) : Inked x (fractionExtent x) := by
  rw [fractionExtent_eq]
  split
  · rename_i hx
    split
    · exact inked_zero x
    · exact (inked_one x (by rw [hx]; decide)).add (inked_run (fun _ => isInk_of_digit) _)
  · exact inked_zero x

theorem inked_exponent (x : Source) : Inked x (exponentExtent x) := by
  unfold exponentExtent
  split
  · rename_i hx
    have hfront : isInk (front x) = true :=
      isInk_of_mem ['e', 'E'] (by decide) (by simpa using hx)
    refine ((inked_one x hfront).add (inked_optional (fun c hc => ?_) _)).add
      (inked_run (fun _ => isInk_of_digit) _)
    exact isInk_of_mem ['+', '-'] (by decide) (by simpa using hc)
  · exact inked_zero x

theorem inked_suffix (x : Source) : Inked x (suffixExtent x) := by
  unfold suffixExtent
  dsimp only
  split
  · rename_i hx
    exact inked_one x
      (isInk_of_mem ['f', 'h', 'i', 'u'] (by decide) (by simpa [or_assoc] using hx))
  · split
    · rename_i hx
      obtain ⟨hl, hf⟩ : front x = 'l' ∧ front (x.drop 1) = 'f' := by simpa using hx
      exact (inked_one x (by rw [hl]; decide)).add (inked_one _ (by rw [hf]; decide))
    · exact inked_zero x

theorem inked_number (first : Char) (x : Source) : Inked x (numberExtent first x) := by
  unfold numberExtent
  split
  · rename_i hx
    obtain ⟨-, hx⟩ : first = '0' ∧ (front x = 'x' ∨ front x = 'X') := by simpa using hx
    have hfront : isInk (front x) = true :=
      isInk_of_mem ['x', 'X'] (by decide) (by simpa using hx)
    refine ((inked_one x hfront).add (inked_run (fun _ => isInk_of_hex) _)).add
      (inked_optional (fun c hc => ?_) _)
    exact isInk_of_mem ['i', 'u'] (by decide) (by simpa using hc)
  · exact (((inked_run (fun _ => isInk_of_digit) x).add (inked_fraction _)).add
      (inked_exponent _)).add (inked_suffix _)

theorem eq_char_of_shown (h : s.shown = c) (hc : c ≠ '�') : s = .char c := by
  cases s with
  | char d => exact congrArg Symbol.char h
  | stray byte => exact absurd h.symm hc

theorem isBlank_char (c : Char) :
    Symbol.isBlank (.char c) = decide (c ∈ [' ', '\t', '\r', '\n']) := by
  simp [Symbol.isBlank]

theorem isLegal_char (c : Char) :
    Symbol.isLegal (.char c) = (Symbol.isBlank (.char c) || c = '/' || isInk c) := by
  have hslash (chars : List Char) :
      decide (c ∈ chars ++ ['/']) = (decide (c ∈ chars) || decide (c = '/')) := by
    simp
  have hmarks := hslash ['(', ')', '\x7b', '\x7d', '[', ']', ',', '.', ':', ';', '#', '<', '>', '*',
    '+', '%', '-', '=']
  rw [Symbol.isLegal, isInk, startsIdentifier]
  refine (congrArg (_ || · || _ || _ || _) hmarks).trans ?_
  ac_rfl

theorem isLegal_of_isInk (h : isInk s.shown = true) :
    s.isLegal = true ∧ s.isBlank = false ∧ s ≠ .char '/' := by
  cases s with
  | stray byte => exact absurd h (by decide +kernel : ¬ isInk '�' = true)
  | char d =>
    have hink : isInk d = true := h
    have hother : ∀ e ∈ [' ', '\t', '\r', '\n', '/'], d ≠ e := by
      have hall : ∀ e ∈ [' ', '\t', '\r', '\n', '/'], isInk e = false :=
        List.all_iff_forall_prop.mp (by decide)
      rintro e he rfl
      rw [hall d he] at hink
      cases hink
    refine ⟨by rw [isLegal_char, hink, Bool.or_true], ?_, ?_⟩
    · rw [isBlank_char, decide_eq_false_iff_not]
      exact fun hd => hother d (List.mem_append_left ['/'] hd) rfl
    · exact fun heq => hother '/' (by simp) (Symbol.char.inj heq)

/-- What can be cut off at a symbol. -/
inductive Cuts (s : Symbol) (more : Source) : Lexeme → Prop
  | ink {extent : Nat} (hs : isInk s.shown = true) (hmore : Inked more extent) :
      Cuts s more (.token extent)
  | slash (hs : s = .char '/') (hslash : front more ≠ '/') (hstar : front more ≠ '*') :
      Cuts s more (.token 0)
  | line (hs : s = .char '/') (hmore : front more = '/') :
      Cuts s more (.skipped (run (· ≠ '\n') more))
  | block (hs : s = .char '/') (hmore : front more = '*') :
      Cuts s more (.skipped (1 + blockExtent 1 (more.drop 1)))
  | blank (hs : s.isBlank = true) : Cuts s more (.skipped 0)
  | unknown (hs : s.isLegal = false) : Cuts s more .unknown

theorem cuts_classify (s : Symbol) (more : Source) : Cuts s more (classify s.shown more) := by
  unfold classify
  split
  · rename_i hc
    exact .ink (isInk_of_mem _ (by decide) (of_decide_eq_true hc)) (inked_zero more)
  rename_i hpunctuation
  split
  · rename_i hc
    refine .ink (by rw [hc]; decide) (inked_optional (fun c hc => ?_) more)
    rw [of_decide_eq_true hc]
    decide
  rename_i hminus
  split
  · rename_i hc
    refine .ink (by rw [hc]; decide) (inked_optional (fun c hc => ?_) more)
    rw [of_decide_eq_true hc]
    decide
  rename_i hequals
  split
  · rename_i hc
    have hs := eq_char_of_shown hc (by decide)
    split
    · rename_i hmore
      exact .line hs hmore
    rename_i hslash
    split
    · rename_i hmore
      exact .block hs hmore
    · rename_i hstar
      exact .slash hs hslash hstar
  rename_i hslash
  split
  · rename_i hc
    refine .blank ?_
    simp only [Bool.or_eq_true, decide_eq_true_eq] at hc
    rcases hc with ((hc | hc) | hc) | hc
    all_goals
      rw [eq_char_of_shown hc (by decide)]
      decide
  rename_i hblank
  split
  · rename_i hdigit
    exact .ink (isInk_of_digit hdigit) (inked_number _ more)
  rename_i hdigit
  split
  · rename_i hname
    refine .ink (isInk_of_name hname) (inked_run (fun c hc => ?_) more)
    exact (Bool.or_eq_true _ _ ▸ hc).elim isInk_of_name isInk_of_digit
  rename_i hname
  refine .unknown ?_
  cases s with
  | stray byte => rfl
  | char d =>
    replace hblank : ¬ (d = ' ' || d = '\r' || d = '\t' || d = '\n') = true := hblank
    simp only [isPunctuation, Symbol.shown, Bool.or_eq_true, decide_eq_true_eq, List.mem_cons,
      List.not_mem_nil, or_false, not_or] at hpunctuation hminus hequals hslash hblank hdigit hname
    rw [isLegal_char, isBlank_char, isInk]
    simp [hpunctuation, hminus, hequals, hslash, hblank, hdigit, hname]

theorem codeFrom_cons (hs : s ≠ .char '/') (i : Nat) (rest : Source) :
    codeFrom .code i (s :: rest) = (s, i) :: codeFrom .code (i + 1) rest :=
  codeFrom.eq_4 i s rest (fun _ heq => absurd heq hs) fun _ heq => absurd heq hs

theorem codeFrom_slash (hslash : front more ≠ '/') (hstar : front more ≠ '*') (i : Nat) :
    codeFrom .code i (.char '/' :: more) = (.char '/', i) :: codeFrom .code (i + 1) more := by
  refine codeFrom.eq_4 i _ more ?_ ?_
  · rintro rest - rfl
    exact hslash rfl
  · rintro rest - rfl
    exact hstar rfl

theorem codeFrom_append (htext : ∀ s ∈ text, s ≠ .char '/') (i : Nat) (rest : Source) :
    codeFrom .code i (text ++ rest) =
      text.zipIdx i ++ codeFrom .code (i + text.length) rest := by
  induction text generalizing i with
  | nil => rfl
  | cons s text ih =>
    rw [List.cons_append, codeFrom_cons (htext s (.head _)),
      ih (fun s' hs' => htext s' (.tail _ hs')), List.zipIdx_cons, List.length_cons,
      List.cons_append, Nat.add_assoc, Nat.add_comm 1]

theorem front_eq_char (h : front rest = c) (hc : c ≠ '�' ∧ c ≠ '\x00') :
    ∃ more, rest = .char c :: more := by
  cases rest with
  | nil => exact absurd h.symm hc.2
  | cons s more => exact ⟨more, congrArg (· :: more) (eq_char_of_shown h hc.1)⟩

theorem codeFrom_lineComment (hmore : front more = '/') (i : Nat) :
    codeFrom .code i (.char '/' :: more) =
      codeFrom .code (i + (1 + run (· ≠ '\n') more)) (more.drop (run (· ≠ '\n') more)) := by
  obtain ⟨rest, rfl⟩ := front_eq_char hmore (by decide)
  rw [codeFrom.eq_2, codeFrom_line, run_cons, if_pos (by decide), List.drop_succ_cons]
  congr 1
  omega

theorem codeFrom_blockComment (hmore : front more = '*') (i : Nat) :
    codeFrom .code i (.char '/' :: more) =
      codeFrom .code (i + (1 + (1 + blockExtent 1 (more.drop 1))))
        (more.drop (1 + blockExtent 1 (more.drop 1))) := by
  obtain ⟨rest, rfl⟩ := front_eq_char hmore (by decide)
  refine (codeFrom_block 1 (i + 2) rest).trans ?_
  rw [List.drop_succ_cons, List.drop_zero, Nat.add_comm 1 (blockExtent 1 rest),
    List.drop_succ_cons]
  congr 1
  omega

/-! ## Runs -/

/-- The tokens spell the symbols but for blanks, or the fault is at the first symbol that is not
legal. -/
def Reports (source : Source) (symbols : List (Symbol × Nat)) :
    Except SourceError (List Token) → Prop
  | .ok tokens => (∀ x ∈ symbols, x.1.isLegal = true) ∧ (∀ token ∈ tokens, token.text ≠ "") ∧
      Source.ofString (String.join (tokens.map Token.text)) =
        (symbols.map Prod.fst).filter (!·.isBlank)
  | .error e => ∃ s i, symbols.find? (!·.1.isLegal) = some (s, i) ∧ source[i]? = some s ∧
      e = ⟨"unexpected character " ++ quotedChar s.shown, Position.behind (source.take i), source⟩

theorem isLegal_of_isBlank (hs : s.isBlank = true) : s.isLegal = true := by
  cases s with
  | char c => rw [isLegal_char, hs, Bool.true_or, Bool.true_or]
  | stray byte => simp [Symbol.isBlank] at hs

theorem Reports.blank (h : Reports source symbols x) (hs : s.isBlank = true) (i : Nat) :
    Reports source ((s, i) :: symbols) x := by
  have hlegal := isLegal_of_isBlank hs
  cases x with
  | ok tokens =>
    obtain ⟨hall, hne, hspell⟩ := h
    refine ⟨List.forall_mem_cons.mpr ⟨hlegal, hall⟩, hne, ?_⟩
    rw [hspell, List.map_cons, List.filter_cons_of_neg (by simp [hs])]
  | error e =>
    obtain ⟨s', j, hfind, hplace⟩ := h
    exact ⟨s', j, (List.find?_cons_of_neg (by simp [hlegal])).trans hfind, hplace⟩

theorem ofString_shown (htext : ∀ s ∈ text, s.isLegal = true) :
    Source.ofString text.shown = text := by
  rw [Source.ofString, toList_shown, List.map_map]
  refine (List.map_congr_left fun s hs => ?_).trans (List.map_id text)
  cases s with
  | char c => rfl
  | stray byte => cases htext _ hs

theorem Reports.word (h : Reports source symbols x) (hne : text ≠ [])
    (htext : ∀ s ∈ text, s.isLegal = true ∧ s.isBlank = false) (p : Position) (i : Nat) :
    Reports source (text.zipIdx i ++ symbols) (x.map (⟨text.shown, p⟩ :: ·)) := by
  have hlegal : ∀ x ∈ text.zipIdx i, x.1.isLegal = true := by
    intro x hx
    have hmem := List.mem_map_of_mem (f := Prod.fst) hx
    rw [List.zipIdx_map_fst] at hmem
    exact (htext _ hmem).1
  cases x with
  | ok tokens =>
    obtain ⟨hall, hwords, hspell⟩ := h
    refine ⟨List.forall_mem_append.mpr ⟨hlegal, hall⟩, List.forall_mem_cons.mpr ⟨?_, hwords⟩, ?_⟩
    · intro hempty
      have hnil := congrArg String.toList hempty
      rw [toList_shown] at hnil
      exact hne (List.map_eq_nil_iff.mp hnil)
    · have hsplit : Source.ofString (String.join ((⟨text.shown, p⟩ :: tokens : List Token).map
          Token.text)) = Source.ofString text.shown ++
            Source.ofString (String.join (tokens.map Token.text)) := by
        simp [Source.ofString]
      have hkeep : text.filter (!·.isBlank) = text :=
        List.filter_eq_self.mpr fun s hs => by simp [(htext s hs).2]
      rw [hsplit, hspell, ofString_shown fun s hs => (htext s hs).1, List.map_append,
        List.zipIdx_map_fst, List.filter_append, hkeep]
  | error e =>
    obtain ⟨s, j, hfind, hplace⟩ := h
    refine ⟨s, j, ?_, hplace⟩
    rw [List.find?_append, List.find?_eq_none.mpr (by simpa using hlegal), Option.none_or, hfind]

theorem behind_append (before run : Source) :
    (Position.behind before).after run = Position.behind (before ++ run) := by
  rw [← after_start, ← after_start, Position.after, Position.after, Position.after,
    List.foldl_append]

/-- Behind the end there are no symbols, wherever it is. -/
theorem codeFrom_drop (i n : Nat) (rest : Source) :
    codeFrom .code (i + n) (rest.drop n) =
      codeFrom .code (i + (rest.take n).length) (rest.drop n) := by
  rcases Nat.le_total n rest.length with hn | hn
  · rw [List.length_take_of_le hn]
  · rw [List.drop_eq_nil_of_le hn]
    rfl

theorem codeFrom_token {extent : Nat} (hclass : classify s.shown more = .token extent) (i : Nat) :
    let text := s :: more.take extent
    (∀ s ∈ text, s.isLegal = true ∧ s.isBlank = false) ∧
      codeFrom .code i (s :: more) =
        text.zipIdx i ++ codeFrom .code (i + text.length) (more.drop extent) := by
  intro text
  have hcut := hclass ▸ cuts_classify s more
  cases hcut with
  | ink hs hmore =>
    have htext : ∀ s ∈ text, s.isLegal = true ∧ s.isBlank = false ∧ s ≠ .char '/' :=
      List.forall_mem_cons.mpr ⟨isLegal_of_isInk hs, fun s hs => isLegal_of_isInk (hmore s hs)⟩
    refine ⟨fun s hs => ⟨(htext s hs).1, (htext s hs).2.1⟩, ?_⟩
    rw [← codeFrom_append (fun s hs => (htext s hs).2.2), List.cons_append, List.take_append_drop]
  | slash hs hslash hstar =>
    subst hs
    exact ⟨List.forall_mem_singleton.mpr ⟨rfl, rfl⟩, codeFrom_slash hslash hstar i⟩

theorem reports_tokenizeFrom {p : Position} {before : Source} (hsource : source = before ++ rest)
    (hp : p = Position.behind before) :
    Reports source (codeFrom .code before.length rest) (tokenizeFrom source p rest) := by
  fun_induction tokenizeFrom source p rest generalizing before with
  | case1 =>
    exact ⟨fun _ hmem => absurd hmem List.not_mem_nil,
      fun _ hmem => absurd hmem List.not_mem_nil, rfl⟩
  | case2 p s more hclass =>
    have hcut := hclass ▸ cuts_classify s more
    cases hcut with
    | unknown hs =>
      have hslash : s ≠ .char '/' := by
        rintro rfl
        cases hs
      refine ⟨s, before.length, ?_, ?_, ?_⟩
      · rw [codeFrom_cons hslash, List.find?_cons_of_pos (by simp [hs])]
      · rw [hsource, List.getElem?_append_right (Nat.le_refl _)]
        simp
      · rw [hsource, List.take_left, hp]
  | case3 p s more extent hclass ih =>
    have hsplit : source = (before ++ s :: more.take extent) ++ more.drop extent := by
      simp [hsource]
    have hnext := ih hsplit (by rw [hp, behind_append])
    have hcut := hclass ▸ cuts_classify s more
    have hlength : before.length + (1 + (more.take extent).length) =
        (before ++ s :: more.take extent).length := by
      simp
      omega
    cases hcut with
    | line hs hmore =>
      subst hs
      rw [codeFrom_lineComment hmore, ← Nat.add_assoc, codeFrom_drop, Nat.add_assoc, hlength]
      exact hnext
    | block hs hmore =>
      subst hs
      rw [codeFrom_blockComment hmore, ← Nat.add_assoc, codeFrom_drop, Nat.add_assoc, hlength]
      exact hnext
    | blank hs =>
      have hslash : s ≠ .char '/' := by
        rintro rfl
        cases hs
      rw [codeFrom_cons hslash]
      simpa using hnext.blank hs before.length
  | case4 p s more extent hclass text later hlater =>
    rename_i ih
    have hsplit : source = (before ++ text) ++ more.drop extent := by simp [hsource, text]
    have hnext := ih hsplit (by rw [hp, behind_append])
    obtain ⟨htext, hcode⟩ := codeFrom_token hclass before.length
    rw [hlater, List.length_append] at hnext
    rw [hcode]
    exact hnext.word (List.cons_ne_nil _ _) htext _ _
  | case5 p s more extent hclass text e herror =>
    rename_i ih
    have hsplit : source = (before ++ text) ++ more.drop extent := by simp [hsource, text]
    have hnext := ih hsplit (by rw [hp, behind_append])
    obtain ⟨htext, hcode⟩ := codeFrom_token hclass before.length
    rw [herror, List.length_append] at hnext
    rw [hcode]
    exact hnext.word (List.cons_ne_nil _ _) htext .start _

/-- A source can be cut into tokens if and only if all symbols outside comments are legal. None of
the tokens is empty, and together they spell the source without its comments and blanks; a fault is
at the line and column of the first symbol outside comments that is not legal. -/
theorem tokenize_lossless (source : Source) :
    ((∃ tokens, tokenize source = .ok tokens) ↔ ∀ x ∈ codeOf source, x.1.isLegal = true) ∧
    (∀ tokens, tokenize source = .ok tokens → (∀ token ∈ tokens, token.text ≠ "") ∧
      Source.ofString (String.join (tokens.map Token.text)) =
        ((codeOf source).map Prod.fst).filter (!·.isBlank)) ∧
    ∀ e, tokenize source = .error e → ∃ s i, (codeOf source).find? (!·.1.isLegal) = some (s, i) ∧
      source[i]? = some s ∧ e.position = Position.behind (source.take i) ∧
      e.message = "unexpected character " ++ quotedChar s.shown ∧ e.source = source := by
  have hreports : Reports source (codeOf source) (tokenize source) :=
    reports_tokenizeFrom (List.nil_append source).symm rfl
  refine ⟨⟨?_, fun hall => ?_⟩, ?_, ?_⟩
  · rintro ⟨tokens, hrun⟩
    rw [hrun] at hreports
    exact hreports.1
  · cases hrun : tokenize source with
    | ok tokens => exact ⟨tokens, rfl⟩
    | error e =>
      rw [hrun] at hreports
      obtain ⟨s, i, hfind, -⟩ := hreports
      have hs := List.find?_some hfind
      rw [hall _ (List.mem_of_find?_eq_some hfind)] at hs
      cases hs
  · intro tokens hrun
    rw [hrun] at hreports
    exact hreports.2
  · intro e hrun
    rw [hrun] at hreports
    obtain ⟨s, i, hfind, hplace, rfl⟩ := hreports
    exact ⟨s, i, hfind, hplace, rfl, rfl, rfl⟩

/-- Nested comments and a comment that nothing follows are removed; a byte that belongs to no
character is legal in a comment only. -/
theorem tokenize_lossless_sample :
    (∃ tokens, tokenize (.ofString "x/* a /* $ */ */ -1//$") = .ok tokens ∧
      (∀ token ∈ tokens, token.text ≠ "") ∧ tokens.map Token.text = ["x", "-", "1"] ∧
      ((codeOf (.ofString "x/* a /* $ */ */ -1//$")).map Prod.fst).filter (!·.isBlank) =
        Source.ofString "x-1") ∧
    ∃ e, tokenize (.ofBytes [0x61, 0x2F, 0x2A, 0xFF, 0x2A, 0x2F, 0x0A, 0x31, 0xFF]) = .error e ∧
      e.position = ⟨2, 2⟩ ∧ e.message = "unexpected character '�'" := by
  have htexts : (tokenize (.ofString "x/* a /* $ */ */ -1//$")).toOption.map
      (·.map Token.text) = some ["x", "-", "1"] := by
    decide +kernel
  have herror : tokenize (.ofBytes [0x61, 0x2F, 0x2A, 0xFF, 0x2A, 0x2F, 0x0A, 0x31, 0xFF]) =
      .error ⟨"unexpected character '�'", ⟨2, 2⟩,
        .ofBytes [0x61, 0x2F, 0x2A, 0xFF, 0x2A, 0x2F, 0x0A, 0x31, 0xFF]⟩ := by
    decide +kernel
  refine ⟨?_, _, herror, rfl, rfl⟩
  cases hrun : tokenize (.ofString "x/* a /* $ */ */ -1//$") with
  | error e =>
    rw [hrun] at htexts
    cases htexts
  | ok tokens =>
    rw [hrun] at htexts
    have hwords : tokens.map Token.text = ["x", "-", "1"] := Option.some.inj htexts
    obtain ⟨hne, hspell⟩ := (tokenize_lossless _).2.1 tokens hrun
    rw [hwords] at hspell
    exact ⟨tokens, rfl, hne, hwords, hspell.symm⟩

end Shader
