import Mathlib.Data.Bool.AllAny
import Mathlib.Data.List.TakeWhile
import Shader.Proofs.Grammar.Word
import Shader.Token

/-!
# Words are lexed again

A name or a number that was cut out of one source is cut out of any other in which it stands,
as long as what follows does not continue it.
-/

namespace Shader

open Text Lexeme

variable {more rest source : Source} {later ws : List String} {c first : Char}
  {cs digits mark tail : List Char} {token : String} {p : Char → Bool} {float : Bool} {s : Symbol}

/-- The words of a source, in order. -/
inductive Lexes : Source → List String → Prop
  | done : Lexes [] []
  | skip {s : Symbol} {more : Source} {extent : Nat} {later : List String}
      (h : classify s.shown more = .skipped extent) (hmore : Lexes (more.drop extent) later) :
      Lexes (s :: more) later
  | word {s : Symbol} {more : Source} {extent : Nat} {later : List String}
      (h : classify s.shown more = .token extent) (hmore : Lexes (more.drop extent) later) :
      Lexes (s :: more) (Source.shown (s :: more.take extent) :: later)

theorem lexes_of_tokenizeFrom {p : Position} {tokens : List Token}
    (h : tokenizeFrom source p rest = .ok tokens) : Lexes rest (tokens.map Token.text) := by
  fun_induction tokenizeFrom source p rest generalizing tokens with
  | case1 =>
    cases h
    exact .done
  | case2 => cases h
  | case3 p s more extent hclass ih => exact .skip hclass (ih h)
  | case4 p s more extent hclass text later hlater =>
    rename_i ih
    cases h
    exact .word hclass (ih hlater)
  | case5 => cases h

theorem Lexes.exists_tokens (h : Lexes rest ws) (source : Source) (p : Position) :
    ∃ tokens, tokenizeFrom source p rest = .ok tokens ∧ tokens.map Token.text = ws := by
  induction h generalizing p with
  | done => exact ⟨[], by rw [tokenizeFrom], rfl⟩
  | @skip s more extent later hclass _ ih =>
    obtain ⟨tokens, htokens, htexts⟩ := ih (p.after (s :: more.take extent))
    refine ⟨tokens, ?_, htexts⟩
    rw [tokenizeFrom, hclass]
    exact htokens
  | @word s more extent later hclass _ ih =>
    obtain ⟨tokens, htokens, htexts⟩ := ih (p.after (s :: more.take extent))
    let text : Source := s :: more.take extent
    refine ⟨⟨text.shown, Token.place p text⟩ :: tokens, ?_, by rw [List.map_cons, htexts]⟩
    rw [tokenizeFrom, hclass]
    dsimp only
    rw [htokens]

theorem words_eq_ok_iff : words source = .ok ws ↔ Lexes source ws := by
  unfold words tokenize
  constructor
  · intro h
    cases hrun : tokenizeFrom source .start source with
    | error e =>
      rw [hrun] at h
      cases h
    | ok tokens =>
      rw [hrun] at h
      cases h
      exact lexes_of_tokenizeFrom hrun
  · intro h
    obtain ⟨tokens, htokens, htexts⟩ := h.exists_tokens source .start
    rw [htokens, ← htexts]
    rfl

/-! ## Classes of characters -/

theorem isAsciiDigit_of_startsIdentifier (h : startsIdentifier c = true) :
    isAsciiDigit c = false := by
  have hle := Program.le_toNat_of_startsIdentifier h
  rw [Bool.eq_false_iff]
  intro hd
  have := (Program.isAsciiDigit_iff.mp hd).2
  omega

theorem startsIdentifier_of_isAsciiDigit (h : isAsciiDigit c = true) :
    startsIdentifier c = false := by
  rw [Bool.eq_false_iff]
  intro hs
  rw [isAsciiDigit_of_startsIdentifier hs] at h
  cases h

theorem isHexDigit_of_name (hname : startsIdentifier c = false) (hdigit : isAsciiDigit c = false) :
    isHexDigit c = false := by
  rw [Bool.eq_false_iff]
  intro h
  have hletter : isLetter c = true := by
    unfold isHexDigit at h
    simp only [hdigit, Bool.false_or, Bool.or_eq_true, Bool.and_eq_true, decide_eq_true_eq,
      Char.le_def, UInt32.le_iff_toNat_le] at h
    have hvalue : (0x61 ≤ c.toNat ∧ c.toNat ≤ 0x66) ∨ (0x41 ≤ c.toNat ∧ c.toNat ≤ 0x46) := h
    have hlower : ¬ c.toNat < 0x41 := by omega
    obtain ⟨more, hranges⟩ := Program.exists_letterRanges
    rw [isLetter, hranges, Ranges.has, if_neg hlower, Bool.or_eq_true, decide_eq_true_eq]
    rcases hvalue with hvalue | hvalue
    · have hsecond : ¬ c.toNat < 0x61 := by omega
      rw [Ranges.has, if_neg hsecond, Bool.or_eq_true, decide_eq_true_eq]
      exact Or.inr (Or.inl (by omega))
    · exact Or.inl (by omega)
  simp [startsIdentifier, hletter] at hname

/-! ## Fronts and runs -/

abbrev Source.ofChars (cs : List Char) : Source := cs.map .char

@[simp]
theorem front_cons (s : Symbol) (rest : Source) : front (s :: rest) = s.shown := rfl

theorem run_append (hcs : ∀ c ∈ cs, p c = true) (hrest : p (front rest) = false) :
    run p (Source.ofChars cs ++ rest) = cs.length := by
  have hstop : rest.takeWhile (fun s => p s.shown) = [] := by
    cases rest with
    | nil => rfl
    | cons s more =>
      rw [List.takeWhile_cons, show p s.shown = false from hrest, if_neg Bool.false_ne_true]
  have hall : ∀ s ∈ cs.map Symbol.char, p s.shown = true := by
    intro s hs
    obtain ⟨c, hc, rfl⟩ := List.mem_map.mp hs
    exact hcs c hc
  unfold run
  rw [List.takeWhile_append_of_pos hall, hstop]
  simp

/-- What may stand after a name or a number without continuing it. A point would be read as part of
a number unless a name follows it. -/
structure Follows (rest : Source) : Prop where
  name : startsIdentifier (front rest) = false
  digit : isAsciiDigit (front rest) = false
  point : front rest = '.' → startsIdentifier (front (rest.drop 1)) = true

theorem Follows.front_ne (h : Follows rest) (hc : startsIdentifier c = true) : front rest ≠ c := by
  rintro rfl
  rw [h.name] at hc
  cases hc

/-! ## Numbers -/

/-- What may stand at the end of a number: its exponent, if it has one, and its mark. -/
inductive IsTail : List Char → Prop
  | mark {mark : List Char}
      (hmark : mark ∈ [[], ['f'], ['h'], ['u'], ['i'], ['l', 'f']]) : IsTail mark
  | exponent {e : Char} {sign digits mark : List Char} (he : e = 'e' ∨ e = 'E')
      (hsign : sign ∈ [[], ['+'], ['-']]) (hdigits : ∀ d ∈ digits, isAsciiDigit d = true)
      (hne : digits ≠ []) (hmark : mark ∈ [[], ['f'], ['h'], ['l', 'f']]) :
      IsTail (e :: (sign ++ (digits ++ mark)))

/-- The numbers that can be cut out of a source. A point is followed by digits or ends the
number. -/
inductive IsNumber : List Char → Prop
  | hex {x : Char} {digits mark : List Char} (hx : x = 'x' ∨ x = 'X')
      (hdigits : ∀ d ∈ digits, isHexDigit d = true)
      (hmark : mark ∈ [[], ['u'], ['i']]) : IsNumber ('0' :: x :: (digits ++ mark))
  | whole {first : Char} {digits tail : List Char} (hfirst : isAsciiDigit first = true)
      (hdigits : ∀ d ∈ digits, isAsciiDigit d = true) (htail : IsTail tail) :
      IsNumber (first :: (digits ++ tail))
  | fraction {first : Char} {digits decimals tail : List Char} (hfirst : isAsciiDigit first = true)
      (hdigits : ∀ d ∈ digits, isAsciiDigit d = true)
      (hdecimals : ∀ d ∈ decimals, isAsciiDigit d = true) (htail : IsTail tail)
      (hpoint : decimals = [] → tail = []) :
      IsNumber (first :: (digits ++ '.' :: (decimals ++ tail)))

theorem IsTail.head (h : IsTail tail) :
    tail = [] ∨ ∃ c cs, tail = c :: cs ∧ c ∈ ['e', 'E', 'f', 'h', 'u', 'i', 'l'] := by
  cases h with
  | mark hmark =>
    simp only [List.mem_cons, List.not_mem_nil, or_false] at hmark
    rcases hmark with rfl | rfl | rfl | rfl | rfl | rfl
    · exact Or.inl rfl
    all_goals exact Or.inr ⟨_, _, rfl, by decide⟩
  | exponent he =>
    rcases he with rfl | rfl <;> exact Or.inr ⟨_, _, rfl, by decide⟩

theorem isTail_letters (h : c ∈ ['e', 'E', 'f', 'h', 'u', 'i', 'l']) :
    startsIdentifier c = true ∧ c ≠ '.' ∧ c ≠ 'x' ∧ c ≠ 'X' := by
  have hall : ∀ c ∈ ['e', 'E', 'f', 'h', 'u', 'i', 'l'],
      startsIdentifier c = true ∧ c ≠ '.' ∧ c ≠ 'x' ∧ c ≠ 'X' :=
    List.all_iff_forall_prop.mp (by decide)
  exact hall c h

theorem IsTail.digit_front (h : IsTail tail) (hrest : Follows rest) :
    isAsciiDigit (front (Source.ofChars tail ++ rest)) = false := by
  rcases h.head with rfl | ⟨c, cs, rfl, hc⟩
  · exact hrest.digit
  · exact isAsciiDigit_of_startsIdentifier (isTail_letters hc).1

theorem IsTail.front_ne {tail : List Char} {rest : Source} (h : IsTail tail)
    (hrest : Follows rest) : front (Source.ofChars tail ++ rest) ≠ 'x' ∧
      front (Source.ofChars tail ++ rest) ≠ 'X' := by
  rcases h.head with rfl | ⟨c, cs, rfl, hc⟩
  · exact ⟨hrest.front_ne (by decide), hrest.front_ne (by decide)⟩
  · exact (isTail_letters hc).2.2

theorem suffixExtent_mark (hmark : mark ∈ [[], ['f'], ['h'], ['u'], ['i'], ['l', 'f']])
    (hrest : Follows rest) : suffixExtent (Source.ofChars mark ++ rest) = mark.length := by
  simp only [List.mem_cons, List.not_mem_nil, or_false] at hmark
  rcases hmark with rfl | rfl | rfl | rfl | rfl | rfl
  · have hf : front rest ≠ 'f' := hrest.front_ne (by decide)
    have hh : front rest ≠ 'h' := hrest.front_ne (by decide)
    have hi : front rest ≠ 'i' := hrest.front_ne (by decide)
    have hu : front rest ≠ 'u' := hrest.front_ne (by decide)
    have hl : front rest ≠ 'l' := hrest.front_ne (by decide)
    simp [suffixExtent, hf, hh, hi, hu, hl]
  all_goals rfl

theorem exponentExtent_mark (hmark : mark ∈ [[], ['f'], ['h'], ['u'], ['i'], ['l', 'f']])
    (hrest : Follows rest) : exponentExtent (Source.ofChars mark ++ rest) = 0 := by
  simp only [List.mem_cons, List.not_mem_nil, or_false] at hmark
  rcases hmark with rfl | rfl | rfl | rfl | rfl | rfl
  · have he : front rest ≠ 'e' := hrest.front_ne (by decide)
    have hE : front rest ≠ 'E' := hrest.front_ne (by decide)
    simp [exponentExtent, he, hE]
  all_goals rfl

theorem exponentExtent_exponent {e : Char} {sign : List Char} (he : e = 'e' ∨ e = 'E')
    (hsign : sign ∈ [[], ['+'], ['-']]) (hdigits : ∀ d ∈ digits, isAsciiDigit d = true)
    (hne : digits ≠ []) (hrest : isAsciiDigit (front rest) = false) :
    exponentExtent (Source.ofChars (e :: (sign ++ digits)) ++ rest) =
      1 + sign.length + digits.length := by
  have hrun := run_append hdigits hrest
  obtain ⟨d, ds, rfl⟩ := List.exists_cons_of_ne_nil hne
  have hd := hdigits d (.head _)
  have hplus : d ≠ '+' := by rintro rfl; exact absurd hd (by decide)
  have hminus : d ≠ '-' := by rintro rfl; exact absurd hd (by decide)
  have hfront : front (Source.ofChars (e :: (sign ++ d :: ds)) ++ rest) = e := rfl
  unfold exponentExtent
  rw [hfront, if_pos (by simpa using he)]
  simp only [List.mem_cons, List.not_mem_nil, or_false] at hsign
  rcases hsign with rfl | rfl | rfl
  · have hzero : Lexeme.optional (fun c => c = '+' || c = '-')
        ((Source.ofChars (e :: ([] ++ d :: ds)) ++ rest).drop 1) = 0 := by
      simp [Lexeme.optional, hplus, hminus, Symbol.shown]
    rw [hzero]
    exact congrArg (1 + 0 + ·) hrun
  · exact congrArg (1 + 1 + ·) hrun
  · exact congrArg (1 + 1 + ·) hrun

theorem IsTail.extent (h : IsTail tail) (hrest : Follows rest) :
    exponentExtent (Source.ofChars tail ++ rest) +
      suffixExtent ((Source.ofChars tail ++ rest).drop
        (exponentExtent (Source.ofChars tail ++ rest))) =
        tail.length := by
  cases h with
  | mark hmark =>
    rw [exponentExtent_mark hmark hrest, List.drop_zero,
      suffixExtent_mark hmark hrest, Nat.zero_add]
  | @exponent e sign digits mark he hsign hdigits hne hmark =>
    have hmark : mark ∈ [[], ['f'], ['h'], ['u'], ['i'], ['l', 'f']] := by
      revert mark
      decide
    have hsplit : Source.ofChars (e :: (sign ++ (digits ++ mark))) ++ rest =
        Source.ofChars (e :: (sign ++ digits)) ++ (Source.ofChars mark ++ rest) := by
      simp
    have hextent := exponentExtent_exponent he hsign hdigits hne
      ((IsTail.mark hmark).digit_front hrest)
    have hlength : (Source.ofChars (e :: (sign ++ digits))).length =
        1 + sign.length + digits.length := by
      simp
      omega
    rw [hsplit, hextent, ← hlength, List.drop_left, suffixExtent_mark hmark hrest]
    simp
    omega

theorem numberExtent_hex {x : Char} (hx : x = 'x' ∨ x = 'X')
    (hdigits : ∀ d ∈ digits, isHexDigit d = true) (hmark : mark ∈ [[], ['u'], ['i']])
    (hrest : Follows rest) :
    numberExtent '0' (Source.ofChars (x :: (digits ++ mark)) ++ rest) =
      (x :: (digits ++ mark)).length := by
  have hmark : (isHexDigit (front (Source.ofChars mark ++ rest)) = false) ∧
      Lexeme.optional (fun c => c = 'i' || c = 'u') (Source.ofChars mark ++ rest) =
        mark.length := by
    simp only [List.mem_cons, List.not_mem_nil, or_false] at hmark
    rcases hmark with rfl | rfl | rfl
    · have hi : front rest ≠ 'i' := hrest.front_ne (by decide)
      have hu : front rest ≠ 'u' := hrest.front_ne (by decide)
      exact ⟨isHexDigit_of_name hrest.name hrest.digit, by simp [Lexeme.optional, hi, hu]⟩
    · exact ⟨rfl, rfl⟩
    · exact ⟨rfl, rfl⟩
  have hrun := run_append hdigits hmark.1
  have hsplit : Source.ofChars (x :: (digits ++ mark)) ++ rest =
      .char x :: (Source.ofChars digits ++ (Source.ofChars mark ++ rest)) := by
    simp
  have hdrop : (Source.ofChars digits ++ (Source.ofChars mark ++ rest)).drop digits.length =
      Source.ofChars mark ++ rest :=
    List.drop_left' (by simp)
  unfold numberExtent
  rw [hsplit, if_pos (by rcases hx with rfl | rfl <;> rfl)]
  simp only [List.drop_succ_cons, List.drop_zero, hrun, Nat.add_comm 1 digits.length, hdrop,
    hmark.2, List.length_cons, List.length_append]
  omega

theorem numberExtent_decimal (hrest : front rest ≠ 'x' ∧ front rest ≠ 'X') :
    numberExtent first rest =
      let whole := run isAsciiDigit rest
      let fraction := fractionExtent (rest.drop whole)
      let tail := rest.drop (whole + fraction)
      whole + fraction +
        (exponentExtent tail + suffixExtent (tail.drop (exponentExtent tail))) := by
  unfold numberExtent
  rw [if_neg (by simp [hrest])]
  simp only [List.drop_drop]
  omega

theorem fractionExtent_append {decimals : List Char}
    (hdecimals : ∀ d ∈ decimals, isAsciiDigit d = true) (hrest : isAsciiDigit (front rest) = false)
    (hpoint : decimals = [] → startsIdentifier (front rest) = false) :
    fractionExtent (Source.ofChars ('.' :: decimals) ++ rest) = 1 + decimals.length := by
  have hfront : startsIdentifier (front (Source.ofChars decimals ++ rest)) = false := by
    cases decimals with
    | nil => exact hpoint rfl
    | cons d ds => exact startsIdentifier_of_isAsciiDigit (hdecimals d (.head _))
  change (if startsIdentifier (front (Source.ofChars decimals ++ rest)) then 0
    else 1 + run isAsciiDigit (Source.ofChars decimals ++ rest)) = _
  rw [hfront, if_neg Bool.false_ne_true, run_append hdecimals hrest]

theorem fractionExtent_eq_zero
    (h : front rest = '.' → startsIdentifier (front (rest.drop 1)) = true) :
    fractionExtent rest = 0 := by
  unfold fractionExtent
  split
  · exact if_pos (h rfl)
  · rfl

theorem numberExtent_append {first : Char} {digits middle tail : List Char} {rest : Source}
    (hdigits : ∀ d ∈ digits, isAsciiDigit d = true) (htail : IsTail tail) (hrest : Follows rest)
    (hdigit : isAsciiDigit (front (Source.ofChars middle ++ (Source.ofChars tail ++ rest))) = false)
    (hhex : front (Source.ofChars middle ++ (Source.ofChars tail ++ rest)) ≠ 'x' ∧
      front (Source.ofChars middle ++ (Source.ofChars tail ++ rest)) ≠ 'X')
    (hmiddle : fractionExtent (Source.ofChars middle ++ (Source.ofChars tail ++ rest)) =
      middle.length) :
    numberExtent first (Source.ofChars (digits ++ (middle ++ tail)) ++ rest) =
      (digits ++ (middle ++ tail)).length := by
  have hsplit : Source.ofChars (digits ++ (middle ++ tail)) ++ rest =
      Source.ofChars digits ++ (Source.ofChars middle ++ (Source.ofChars tail ++ rest)) := by
    simp
  have hfront : front (Source.ofChars (digits ++ (middle ++ tail)) ++ rest) ≠ 'x' ∧
      front (Source.ofChars (digits ++ (middle ++ tail)) ++ rest) ≠ 'X' := by
    rw [hsplit]
    cases digits with
    | nil => exact hhex
    | cons d ds =>
      have hd := hdigits d (.head _)
      refine ⟨?_, ?_⟩
      all_goals
        change d ≠ _
        rintro rfl
        exact absurd hd (by decide)
  have hdrop : ∀ (cs : List Char) (more : Source), (Source.ofChars cs ++ more).drop cs.length =
      more := fun cs more => List.drop_left' (by simp)
  rw [numberExtent_decimal hfront, hsplit, run_append hdigits hdigit]
  simp only [← List.drop_drop, hdrop, hmiddle, htail.extent hrest, List.length_append]
  omega

theorem IsNumber.head {chars : List Char} (h : IsNumber chars) :
    ∃ c cs, chars = c :: cs ∧ isAsciiDigit c = true := by
  cases h with
  | hex => exact ⟨_, _, rfl, by decide⟩
  | whole hfirst | fraction hfirst => exact ⟨_, _, rfl, hfirst⟩

theorem isHexDigit_of_isAsciiDigit (h : isAsciiDigit c = true) : isHexDigit c = true := by
  simp [isHexDigit, h]

theorem IsTail.chars (h : IsTail tail) :
    ∀ c ∈ tail, isHexDigit c = true ∨ c ∈ ['f', 'h', 'u', 'i', 'l', 'e', 'E', '+', '-'] := by
  have hmarks : ∀ c ∈ [[], ['f'], ['h'], ['u'], ['i'], ['l', 'f']].flatten,
      c ∈ ['f', 'h', 'u', 'i', 'l', 'e', 'E', '+', '-'] :=
    List.all_iff_forall_prop.mp (by decide)
  intro c hc
  cases h with
  | mark hmark => exact Or.inr (hmarks c (List.mem_flatten_of_mem hmark hc))
  | @exponent e sign digits mark he hsign hdigits _ hmark =>
    rw [List.mem_cons, List.mem_append, List.mem_append] at hc
    rcases hc with rfl | hc | hc | hc
    · rcases he with rfl | rfl <;> exact Or.inr (by decide)
    · have hsigns : ∀ c ∈ [[], ['+'], ['-']].flatten,
          c ∈ ['f', 'h', 'u', 'i', 'l', 'e', 'E', '+', '-'] :=
        List.all_iff_forall_prop.mp (by decide)
      exact Or.inr (hsigns c (List.mem_flatten_of_mem hsign hc))
    · exact Or.inl (isHexDigit_of_isAsciiDigit (hdigits c hc))
    · have hmarks' : ∀ c ∈ [[], ['f'], ['h'], ['l', 'f']].flatten,
          c ∈ ['f', 'h', 'u', 'i', 'l', 'e', 'E', '+', '-'] :=
        List.all_iff_forall_prop.mp (by decide)
      exact Or.inr (hmarks' c (List.mem_flatten_of_mem hmark hc))

theorem IsNumber.chars {chars : List Char} (h : IsNumber chars) :
    ∀ c ∈ chars, isHexDigit c = true ∨
      c ∈ ['.', 'x', 'X', 'f', 'h', 'u', 'i', 'l', 'e', 'E', '+', '-'] := by
  have htails {tail : List Char} (htail : IsTail tail) {c : Char} (hc : c ∈ tail) :
      isHexDigit c = true ∨ c ∈ ['.', 'x', 'X', 'f', 'h', 'u', 'i', 'l', 'e', 'E', '+', '-'] := by
    refine (htail.chars c hc).imp_right fun hmem => ?_
    exact .tail _ (.tail _ (.tail _ hmem))
  intro c hc
  cases h with
  | hex hx hdigits hmark =>
    have hmarks : ∀ c ∈ [[], ['u'], ['i']].flatten,
        c ∈ ['.', 'x', 'X', 'f', 'h', 'u', 'i', 'l', 'e', 'E', '+', '-'] :=
      List.all_iff_forall_prop.mp (by decide)
    simp only [List.mem_cons, List.mem_append] at hc
    rcases hc with rfl | rfl | hc | hc
    · exact Or.inl (by decide)
    · rcases hx with rfl | rfl <;> exact Or.inr (by decide)
    · exact Or.inl (hdigits c hc)
    · exact Or.inr (hmarks c (List.mem_flatten_of_mem hmark hc))
  | whole hfirst hdigits htail =>
    simp only [List.mem_cons, List.mem_append] at hc
    rcases hc with rfl | hc | hc
    · exact Or.inl (isHexDigit_of_isAsciiDigit hfirst)
    · exact Or.inl (isHexDigit_of_isAsciiDigit (hdigits c hc))
    · exact htails htail hc
  | fraction hfirst hdigits hdecimals htail =>
    simp only [List.mem_cons, List.mem_append] at hc
    rcases hc with rfl | hc | rfl | hc | hc
    · exact Or.inl (isHexDigit_of_isAsciiDigit hfirst)
    · exact Or.inl (isHexDigit_of_isAsciiDigit (hdigits c hc))
    · exact Or.inr (by decide)
    · exact Or.inl (isHexDigit_of_isAsciiDigit (hdecimals c hc))
    · exact htails htail hc

theorem IsNumber.extent (h : IsNumber (c :: cs)) (hrest : Follows rest) :
    numberExtent c (Source.ofChars cs ++ rest) = cs.length := by
  cases h with
  | hex hx hdigits hmark => exact numberExtent_hex hx hdigits hmark hrest
  | @whole _ digits tail _ hdigits htail =>
    have hpoint : fractionExtent (Source.ofChars tail ++ rest) = 0 := by
      refine fractionExtent_eq_zero fun hpoint => ?_
      rcases htail.head with rfl | ⟨d, ds, rfl, hd⟩
      · exact hrest.point hpoint
      · exact absurd hpoint (isTail_letters hd).2.1
    exact @numberExtent_append c digits [] tail rest hdigits htail hrest (htail.digit_front hrest)
      (htail.front_ne hrest) hpoint
  | @fraction _ digits decimals tail _ hdigits hdecimals htail hpoint =>
    have hextent : fractionExtent (Source.ofChars ('.' :: decimals) ++
        (Source.ofChars tail ++ rest)) = ('.' :: decimals).length := by
      rw [fractionExtent_append hdecimals (htail.digit_front hrest) fun hnil => ?_]
      · exact Nat.add_comm _ _
      · rw [hpoint hnil]
        exact hrest.name
    have hhex : '.' ≠ 'x' ∧ '.' ≠ 'X' := by decide
    exact @numberExtent_append c digits ('.' :: decimals) tail rest hdigits htail hrest rfl hhex
      hextent

/-! ## Literals -/

theorem mem_marks {rest : List Char} (h : isLiteralSuffix float rest = true) :
    rest ∈ [[], ['f'], ['h'], ['u'], ['i'], ['l', 'f']] := by
  simp only [isLiteralSuffix, Bool.or_eq_true, Bool.and_eq_true, decide_eq_true_eq] at h
  rcases h with (((h | h) | h) | h) | ⟨-, h | h⟩ <;> simp [h]

theorem mem_floatMarks {rest : List Char} (h : isLiteralSuffix true rest = true) :
    rest ∈ [[], ['f'], ['h'], ['l', 'f']] := by
  simp only [isLiteralSuffix, Bool.not_true, Bool.false_and, Bool.or_false, Bool.or_eq_true,
    decide_eq_true_eq] at h
  rcases h with ((h | h) | h) | h <;> simp [h]

theorem isTail_exponent {e : Char} {sign digits : List Char} (he : e = 'e' ∨ e = 'E')
    (hsign : sign ∈ [[], ['+'], ['-']])
    (h : (!(digits.takeWhile isAsciiDigit).isEmpty &&
      isLiteralSuffix true (digits.dropWhile isAsciiDigit)) = true) :
    IsTail (e :: (sign ++ digits)) := by
  rw [Bool.and_eq_true, Bool.not_eq_true', List.isEmpty_eq_false_iff] at h
  rw [← List.takeWhile_append_dropWhile (p := isAsciiDigit) (l := digits)]
  exact .exponent he hsign (fun d hd => List.mem_takeWhile_imp hd) h.1 (mem_floatMarks h.2)

theorem isTail_of_isLiteralTail {rest : List Char} (h : isLiteralTail float rest = true) :
    IsTail rest := by
  unfold isLiteralTail at h
  split at h
  · rename_i e more
    split at h
    · rename_i he
      have he : e = 'e' ∨ e = 'E' := by simpa using he
      dsimp only at h
      split at h
      · exact @isTail_exponent e ['+'] _ he (by simp) h
      · exact @isTail_exponent e ['-'] _ he (by simp) h
      · exact @isTail_exponent e [] _ he (by simp) h
    · exact .mark (mem_marks h)
  · exact .mark (mem_marks h)

/-- A letter after the point of a number starts a name, so that the point is no part of the
number. -/
theorem numberExtent_point (hdigits : ∀ d ∈ digits, isAsciiDigit d = true)
    (hc : startsIdentifier c = true) :
    numberExtent first (Source.ofChars (digits ++ '.' :: c :: cs) ++ rest) = digits.length := by
  have hsplit : Source.ofChars (digits ++ '.' :: c :: cs) ++ rest =
      Source.ofChars (digits ++ ([] ++ [])) ++ (Source.ofChars ('.' :: c :: cs) ++ rest) := by
    simp
  have hfollows : Follows (Source.ofChars ('.' :: c :: cs) ++ rest) := ⟨rfl, rfl, fun _ => hc⟩
  have hnone : fractionExtent (Source.ofChars ('.' :: c :: cs) ++ rest) = 0 :=
    fractionExtent_eq_zero fun _ => hc
  have htail : IsTail [] := .mark (by simp)
  have hhex : '.' ≠ 'x' ∧ '.' ≠ 'X' := by decide
  have hextent := @numberExtent_append first digits [] [] _ hdigits htail hfollows rfl hhex hnone
  rw [hsplit, hextent]
  simp

/-- No letter follows a point behind the first digits. -/
def PointEnds (cs : List Char) : Prop :=
  ∀ digits d after, (∀ x ∈ digits, isAsciiDigit x = true) → cs = digits ++ '.' :: d :: after →
    isLetter d = false

theorem pointEnds_of_extent (hextent : cs.length ≤ numberExtent first (Source.ofChars cs ++ rest)) :
    PointEnds cs := by
  rintro digits d after hdigits rfl
  refine Bool.eq_false_iff.mpr fun hletter => ?_
  have hname : startsIdentifier d = true := by rw [startsIdentifier, hletter, Bool.or_true]
  rw [numberExtent_point hdigits hname, List.length_append, List.length_cons] at hextent
  omega

theorem isNumber_of_isDecimalLiteral
    (h : isDecimalLiteral (c :: cs) = true) (hc : isAsciiDigit c = true)
    (hpoint : PointEnds cs) : IsNumber (c :: cs) := by
  have hcs := (List.takeWhile_append_dropWhile (p := isAsciiDigit) (l := cs)).symm
  have hdigits : ∀ d ∈ cs.takeWhile isAsciiDigit, isAsciiDigit d = true :=
    fun d hd => List.mem_takeWhile_imp hd
  unfold isDecimalLiteral at h
  rw [List.dropWhile_cons_of_pos hc] at h
  dsimp only at h
  split at h
  · rename_i more hmore
    have hsplit := (List.takeWhile_append_dropWhile (p := isAsciiDigit) (l := more)).symm
    have htail := isTail_of_isLiteralTail (Bool.and_eq_true _ _ ▸ h).2
    rw [hmore] at hcs
    rw [hcs, hsplit]
    refine .fraction hc hdigits (fun d hd => List.mem_takeWhile_imp hd) htail fun hnil => ?_
    rcases htail.head with htail | ⟨x, xs, htail, hx⟩
    · exact htail
    -- otherwise the number would have ended before its point
    · rw [hnil, htail, List.nil_append] at hsplit
      have hletters : ∀ c ∈ ['e', 'E', 'f', 'h', 'u', 'i', 'l'], isLetter c = true :=
        List.all_iff_forall_prop.mp (by decide)
      have hnone := hpoint _ x xs hdigits (hsplit ▸ hcs)
      rw [hletters x hx] at hnone
      cases hnone
  · rename_i hmore
    rw [hcs]
    exact .whole hc hdigits (isTail_of_isLiteralTail (Bool.and_eq_true _ _ ▸ h).2)

theorem isNumber_of_isNumericLiteral (h : isNumericLiteral token = true)
    (htoken : token.toList = c :: cs) (hc : isAsciiDigit c = true)
    (hpoint : PointEnds cs) : IsNumber (c :: cs) := by
  unfold isNumericLiteral at h
  rw [htoken] at h
  split at h
  · rename_i x d ds heq
    obtain ⟨rfl, rfl⟩ := List.cons.inj heq
    split at h
    · rename_i hx
      have hsplit := (List.takeWhile_append_dropWhile (p := isHexDigit) (l := d :: ds)).symm
      rw [isHexBody, Bool.and_eq_true] at h
      rw [hsplit]
      refine .hex (by simpa using hx) (fun d hd => List.mem_takeWhile_imp hd) ?_
      have hmark := h.2
      simp only [Bool.or_eq_true, decide_eq_true_eq] at hmark
      rcases hmark with (hmark | hmark) | hmark <;> simp [hmark]
    · exact isNumber_of_isDecimalLiteral h hc hpoint
  · exact isNumber_of_isDecimalLiteral h hc hpoint

/-! ## Words that were cut out of a source -/

/-- What is known of a name or a number that was cut out of a source. -/
structure IsLexed (token : String) : Prop where
  name : isIdentifier token = true →
    ∀ c ∈ token.toList, startsIdentifier c = true ∨ isAsciiDigit c = true
  number : isNumericLiteral token = true → IsNumber token.toList

abbrev Source.canonical (source : Source) : Source := Source.ofChars (source.map Symbol.shown)

theorem front_canonical (rest : Source) : front rest.canonical = front rest := by
  cases rest <;> rfl

theorem run_canonical (p : Char → Bool) (rest : Source) :
    run p rest.canonical = run p rest := by
  have hmap : rest.canonical = rest.map fun s => Symbol.char s.shown := List.map_map
  unfold run
  rw [hmap, List.takeWhile_map, List.length_map]
  rfl

theorem drop_canonical (n : Nat) (rest : Source) :
    rest.canonical.drop n = Source.canonical (rest.drop n) := by
  simp [List.map_drop]

theorem optional_canonical (p : Char → Bool) (rest : Source) :
    Lexeme.optional p rest.canonical = Lexeme.optional p rest := by
  rw [Lexeme.optional, Lexeme.optional, front_canonical]

theorem fractionExtent_canonical (rest : Source) :
    fractionExtent rest.canonical = fractionExtent rest := by
  cases rest with
  | nil => rfl
  | cons s more =>
    cases s with
    | stray => rfl
    | char c =>
      by_cases hc : c = '.'
      · subst hc
        change (if startsIdentifier (front (Source.canonical more)) then 0
          else 1 + run isAsciiDigit (Source.canonical more)) = _
        rw [front_canonical, run_canonical]
        rfl
      · rw [fractionExtent_eq_zero, fractionExtent_eq_zero]
        all_goals exact fun hpoint => absurd hpoint hc

theorem exponentExtent_canonical (rest : Source) :
    exponentExtent rest.canonical = exponentExtent rest := by
  simp only [exponentExtent, front_canonical, drop_canonical, optional_canonical, run_canonical]

theorem suffixExtent_canonical (rest : Source) :
    suffixExtent rest.canonical = suffixExtent rest := by
  simp only [suffixExtent, front_canonical, drop_canonical]

theorem numberExtent_canonical (first : Char) (rest : Source) :
    numberExtent first rest.canonical = numberExtent first rest := by
  simp only [numberExtent, front_canonical, drop_canonical, optional_canonical, run_canonical,
    fractionExtent_canonical, exponentExtent_canonical, suffixExtent_canonical]

theorem length_le_numberExtent (first : Char) (more : Source) :
    let cs := (more.take (numberExtent first more)).map Symbol.shown
    let rest := Source.canonical (more.drop (numberExtent first more))
    cs.length ≤ numberExtent first (Source.ofChars cs ++ rest) := by
  intro cs rest
  have hjoin : Source.ofChars cs ++ rest = more.canonical := by
    rw [← List.map_append, ← List.map_append, List.take_append_drop]
  rw [hjoin, numberExtent_canonical, List.length_map]
  exact List.length_take_le _ _

theorem toList_shown (source : Source) : source.shown.toList = source.map Symbol.shown :=
  String.toList_ofList

theorem isIdentifier_eq_false (h : token.toList = c :: cs) (hname : startsIdentifier c = false) :
    isIdentifier token = false := by
  unfold isIdentifier
  rw [h]
  simp [hname]

theorem isLexed_of_front (h : token.toList = c :: cs)
    (hc : startsIdentifier c = false ∧ isAsciiDigit c = false ∧ c ≠ '.') : IsLexed token := by
  refine ⟨fun hid => ?_, fun hnumber => ?_⟩
  · rw [isIdentifier_eq_false h hc.1] at hid
    cases hid
  · rw [Program.isNumericLiteral_eq_false h hc.2.1 hc.2.2] at hnumber
    cases hnumber

theorem isLexed_punctuation (h : isPunctuation s.shown = true) : IsLexed (Source.shown [s]) := by
  by_cases hpoint : s.shown = '.'
  · have htext : Source.shown [s] = "." := by
      rw [Source.shown, List.map_singleton, hpoint]
    rw [htext]
    exact ⟨fun hid => absurd hid (by decide), fun hnumber => absurd hnumber (by decide)⟩
  · have hall : ∀ c ∈ ['(', ')', '\x7b', '\x7d', '[', ']', ',', '.', ':', ';', '#', '<', '>', '*',
        '+', '%'], c ≠ '.' → startsIdentifier c = false ∧ isAsciiDigit c = false :=
      List.all_iff_forall_prop.mp (by decide)
    obtain ⟨hname, hdigit⟩ := hall s.shown (of_decide_eq_true h) hpoint
    exact isLexed_of_front (toList_shown [s]) ⟨hname, hdigit, hpoint⟩

theorem mem_take_run (h : c ∈ (more.take (run p more)).map Symbol.shown) : p c = true := by
  let shown : Symbol → Bool := fun s => p s.shown
  have htake : more.takeWhile shown = more.take (run p more) :=
    List.prefix_iff_eq_take.mp (List.takeWhile_prefix shown)
  obtain ⟨s, hs, rfl⟩ := List.mem_map.mp h
  rw [← htake] at hs
  exact List.mem_takeWhile_imp (p := shown) hs

theorem isLexed_of_classify {extent : Nat} (h : classify s.shown more = .token extent) :
    IsLexed (Source.shown (s :: more.take extent)) := by
  have htext := toList_shown (s :: more.take extent)
  rw [List.map_cons] at htext
  unfold classify at h
  split at h
  · rename_i hpunctuation
    cases h
    exact isLexed_punctuation hpunctuation
  split at h
  · rename_i hc
    exact isLexed_of_front htext (by rw [hc]; decide)
  split at h
  · rename_i hc
    exact isLexed_of_front htext (by rw [hc]; decide)
  split at h
  · rename_i hc
    exact isLexed_of_front htext (by rw [hc]; decide)
  split at h
  · cases h
  split at h
  · rename_i hdigit
    cases h
    refine ⟨fun hid => ?_, fun hnumber => ?_⟩
    · rw [isIdentifier_eq_false htext (startsIdentifier_of_isAsciiDigit hdigit)] at hid
      cases hid
    · rw [htext]
      exact isNumber_of_isNumericLiteral hnumber htext hdigit
        (pointEnds_of_extent (length_le_numberExtent _ _))
  split at h
  · rename_i hstart
    cases h
    refine ⟨fun _ c hc => ?_, fun hnumber => ?_⟩
    · rw [htext, List.mem_cons] at hc
      rcases hc with rfl | hc
      · exact Or.inl hstart
      · exact Bool.or_eq_true _ _ ▸ mem_take_run hc
    · have hpoint : s.shown ≠ '.' := by
        intro hc
        rw [hc] at hstart
        exact absurd hstart (by decide)
      rw [Program.isNumericLiteral_eq_false htext (isAsciiDigit_of_startsIdentifier hstart) hpoint]
        at hnumber
      cases hnumber
  · cases h

theorem Lexes.isLexed (h : Lexes source ws) : ∀ token ∈ ws, IsLexed token := by
  induction h with
  | done => simp
  | skip _ _ ih => exact ih
  | word hclass _ ih => exact List.forall_mem_cons.mpr ⟨isLexed_of_classify hclass, ih⟩

/-! ## Lexing again -/

theorem lexes_word {token : String} {c : Char} {cs : List Char} {rest : Source}
    {later : List String} (htoken : token.toList = c :: cs)
    (hclass : classify c (Source.ofChars cs ++ rest) = .token cs.length)
    (h : Lexes rest later) : Lexes (Source.ofString token ++ rest) (token :: later) := by
  have hdrop : (Source.ofChars cs ++ rest).drop cs.length = rest := List.drop_left' (by simp)
  have htake : (Source.ofChars cs ++ rest).take cs.length = Source.ofChars cs :=
    List.take_left' (by simp)
  have htext : Source.shown (.char c :: (Source.ofChars cs ++ rest).take cs.length) = token := by
    rw [htake, ← String.toList_inj, toList_shown, htoken]
    simp [Symbol.shown, Function.comp_def]
  have hword := @Lexes.word (.char c) (Source.ofChars cs ++ rest) cs.length later hclass
    (hdrop.symm ▸ h)
  rw [htext] at hword
  rw [Source.ofString, htoken]
  exact hword

theorem classify_of_word (h : startsIdentifier c = true ∨ isAsciiDigit c = true) (rest : Source) :
    classify c rest =
      if isAsciiDigit c then .token (numberExtent c rest)
      else .token (run (fun c => startsIdentifier c || isAsciiDigit c) rest) := by
  have hne : ∀ d, startsIdentifier d = false ∧ isAsciiDigit d = false → c ≠ d := by
    rintro d ⟨hname, hdigit⟩ rfl
    rw [hname, hdigit] at h
    rcases h with h | h <;> cases h
  have hpunctuation : isPunctuation c = false := by
    rw [Bool.eq_false_iff]
    intro hc
    have hall : ∀ d ∈ ['(', ')', '\x7b', '\x7d', '[', ']', ',', '.', ':', ';', '#', '<', '>', '*',
        '+', '%'], startsIdentifier d = false ∧ isAsciiDigit d = false :=
      List.all_iff_forall_prop.mp (by decide)
    exact hne c (hall c (of_decide_eq_true hc)) rfl
  have hstart : isAsciiDigit c = false → startsIdentifier c = true := by
    intro hdigit
    rw [hdigit] at h
    exact h.resolve_right Bool.false_ne_true
  unfold classify
  rw [hpunctuation]
  simp only [Bool.false_eq_true, if_false, hne '-' (by decide), hne '=' (by decide),
    hne '/' (by decide), hne ' ' (by decide), hne '\r' (by decide), hne '\t' (by decide),
    hne '\n' (by decide), decide_false, Bool.or_self]
  cases hdigit : isAsciiDigit c with
  | true => rfl
  | false => rw [hstart hdigit, if_pos rfl]

/-- A name is cut off before what does not continue it. -/
theorem lexes_name {token : String} {rest : Source} {later : List String}
    (hname : isIdentifier token = true) (htoken : IsLexed token) (hrest : Follows rest)
    (h : Lexes rest later) : Lexes (Source.ofString token ++ rest) (token :: later) := by
  obtain ⟨c, cs, hc, hstart, -⟩ := Program.isIdentifier_cons hname
  have hchars : ∀ d ∈ cs, (startsIdentifier d || isAsciiDigit d) = true := by
    intro d hd
    rw [Bool.or_eq_true]
    exact htoken.name hname d (hc ▸ .tail _ hd)
  have hstop : (startsIdentifier (front rest) || isAsciiDigit (front rest)) = false := by
    rw [hrest.name, hrest.digit]
    rfl
  refine lexes_word hc ?_ h
  rw [classify_of_word (Or.inl hstart), isAsciiDigit_of_startsIdentifier hstart,
    if_neg Bool.false_ne_true, run_append hchars hstop]

/-- A number is cut off before what does not continue it. -/
theorem lexes_number (hnumber : isNumericLiteral token = true) (htoken : IsLexed token)
    (hrest : Follows rest) (h : Lexes rest later) :
    Lexes (Source.ofString token ++ rest) (token :: later) := by
  have hshape := htoken.number hnumber
  obtain ⟨c, cs, hc, hdigit⟩ := hshape.head
  rw [hc] at hshape
  refine lexes_word hc ?_ h
  rw [classify_of_word (Or.inr hdigit), if_pos hdigit, hshape.extent hrest]

def symbols : List String := ["=", "==", "+", "-", "*", "/", "%", ".", "(", ")", ",", ";"]

theorem lexes_punctuation {token : String} {c : Char} {rest : Source} {later : List String}
    (htoken : token.toList = [c]) (hc : isPunctuation c = true) (h : Lexes rest later) :
    Lexes (Source.ofString token ++ rest) (token :: later) := by
  refine lexes_word htoken ?_ h
  unfold classify
  rw [if_pos hc]
  rfl

/-- A symbol is cut off before what does not make it another one. -/
theorem lexes_symbol (hsymbol : token ∈ symbols) (hrest : front rest ∉ ['>', '=', '/', '*'])
    (h : Lexes rest later) : Lexes (Source.ofString token ++ rest) (token :: later) := by
  simp only [List.mem_cons, List.not_mem_nil, or_false, not_or] at hrest
  obtain ⟨hgreater, hequal, hslash, hstar⟩ := hrest
  simp only [symbols, List.mem_cons, List.not_mem_nil, or_false] at hsymbol
  rcases hsymbol with rfl | rfl | rfl | rfl | rfl | rfl | rfl | rfl | rfl | rfl | rfl | rfl
  · refine @lexes_word "=" '=' [] rest later rfl ?_ h
    simp [classify, isPunctuation, Lexeme.optional, hequal]
  · exact @lexes_word "==" '=' ['='] rest later rfl rfl h
  · exact lexes_punctuation rfl rfl h
  · refine @lexes_word "-" '-' [] rest later rfl ?_ h
    simp [classify, isPunctuation, Lexeme.optional, hgreater]
  · exact lexes_punctuation rfl rfl h
  · refine @lexes_word "/" '/' [] rest later rfl ?_ h
    simp [classify, isPunctuation, hslash, hstar]
  all_goals exact lexes_punctuation rfl rfl h

theorem lexes_blank (hc : c = ' ' ∨ c = '\n') (h : Lexes rest later) :
    Lexes (.char c :: rest) later := by
  refine @Lexes.skip (.char c) rest 0 later ?_ h
  rcases hc with rfl | rfl <;> rfl

end Shader
