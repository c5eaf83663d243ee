import Shader.Proofs.Token.Lexing

/-!
# Respacing

Where a token ends is decided by what follows it. Main statement: a token that is cut out of a
source and set before a blank or at the end of another source is cut off at the same place, so that
the tokens of a source, set with single blanks between them, are the tokens of the new source.
-/

namespace Shader

open Text Lexeme

variable {p : Char → Bool} {n : Nat} {gap x : Source} {c : Char}

/-! ## Cuts -/

/-- The end of a source, or a blank and what follows it. -/
def IsGap (gap : Source) : Prop := front gap = '\x00' ∨ front gap = ' '

/-- The characters of the first `n` symbols, and a gap behind them. -/
def Source.cut (n : Nat) (gap x : Source) : Source :=
  Source.ofChars ((x.take n).map Symbol.shown) ++ gap

/-- A test that no gap passes. -/
def SeesNoGap (p : Char → Bool) : Prop := p '\x00' = false ∧ p ' ' = false

theorem SeesNoGap.front_gap (hp : SeesNoGap p) (hgap : IsGap gap) : p (front gap) = false := by
  rcases hgap with hgap | hgap
  · rw [hgap]
    exact hp.1
  · rw [hgap]
    exact hp.2

theorem SeesNoGap.length_pos (hp : SeesNoGap p) (h : p (front x) = true) : 1 ≤ x.length := by
  cases x with
  | nil =>
    rw [show front [] = '\x00' from rfl, hp.1] at h
    cases h
  | cons s x => exact Nat.le_add_left 1 _

theorem seesNoGap_eq (hc : c ≠ '\x00' ∧ c ≠ ' ') : SeesNoGap fun d => decide (d = c) :=
  ⟨decide_eq_false hc.1.symm, decide_eq_false hc.2.symm⟩

theorem length_pos_of_front (hx : front x = c) (hc : c ≠ '\x00' ∧ c ≠ ' ') : 1 ≤ x.length :=
  (seesNoGap_eq hc).length_pos (decide_eq_true hx)

theorem cut_nil (n : Nat) (gap : Source) : Source.cut n gap [] = gap := by
  simp [Source.cut]

theorem cut_zero (gap x : Source) : Source.cut 0 gap x = gap := rfl

theorem cut_succ (n : Nat) (gap : Source) (s : Symbol) (x : Source) :
    Source.cut (n + 1) gap (s :: x) = .char s.shown :: Source.cut n gap x := rfl

theorem drop_cut {k : Nat} (hn : k ≤ n) (hx : k ≤ x.length) :
    (Source.cut n gap x).drop k = Source.cut (n - k) gap (x.drop k) := by
  induction k generalizing n x with
  | zero => rfl
  | succ k ih =>
    obtain ⟨m, rfl⟩ := Nat.exists_eq_add_of_lt hn
    cases x with
    | nil => simp at hx
    | cons s x =>
      rw [show k + m + 1 = (k + m) + 1 from rfl, cut_succ, List.drop_succ_cons,
        List.drop_succ_cons, ih (by omega) (by simpa using hx)]
      congr 1
      omega

/-- A test of the first character sees the original if something of it is left. -/
theorem SeesNoGap.front_cut (hp : SeesNoGap p) (hgap : IsGap gap) (n : Nat) (x : Source) :
    p (front (Source.cut n gap x)) = (decide (0 < n) && p (front x)) := by
  cases n with
  | zero =>
    rw [cut_zero, hp.front_gap hgap]
    rfl
  | succ n =>
    cases x with
    | nil => rw [cut_nil, hp.front_gap hgap, show front [] = '\x00' from rfl, hp.1, Bool.and_false]
    | cons s x => rw [cut_succ, front_cons, front_cons]; simp [Symbol.shown]

/-! ## Extents -/

theorem run_cons (p : Char → Bool) (s : Symbol) (x : Source) :
    run p (s :: x) = if p s.shown then run p x + 1 else 0 := by
  unfold run
  rw [List.takeWhile_cons]
  split <;> rfl

theorem run_le (p : Char → Bool) (x : Source) : run p x ≤ x.length :=
  (List.takeWhile_prefix _).length_le

theorem SeesNoGap.run_gap (hp : SeesNoGap p) (hgap : IsGap gap) : run p gap = 0 := by
  cases gap with
  | nil => rfl
  | cons s rest =>
    have hs : p s.shown = false := hp.front_gap hgap
    rw [run_cons, hs, if_neg Bool.false_ne_true]

theorem SeesNoGap.run_cut (hp : SeesNoGap p) (hgap : IsGap gap) (h : run p x ≤ n) :
    run p (Source.cut n gap x) = run p x := by
  induction x generalizing n with
  | nil => rw [cut_nil, hp.run_gap hgap]; rfl
  | cons s x ih =>
    rw [run_cons] at h ⊢
    cases n with
    | zero =>
      rw [cut_zero, hp.run_gap hgap]
      exact (Nat.le_zero.mp h).symm
    | succ n =>
      rw [cut_succ, run_cons, Symbol.shown]
      split
      · rename_i hs
        rw [if_pos hs] at h
        rw [ih (by omega)]
      · rfl

theorem SeesNoGap.optional_le (hp : SeesNoGap p) (x : Source) : Lexeme.optional p x ≤ x.length := by
  unfold Lexeme.optional
  split
  · rename_i h
    exact hp.length_pos h
  · exact Nat.zero_le _

theorem SeesNoGap.optional_cut (hp : SeesNoGap p) (hgap : IsGap gap) (h : Lexeme.optional p x ≤ n) :
    Lexeme.optional p (Source.cut n gap x) = Lexeme.optional p x := by
  unfold Lexeme.optional at h ⊢
  rw [hp.front_cut hgap]
  split at h
  · rename_i hx
    have hn : 0 < n := h
    rw [hx, decide_eq_true hn]
    rfl
  · rename_i hx
    rw [Bool.eq_false_iff.mpr hx, Bool.and_false]

theorem seesNoGap_digit : SeesNoGap isAsciiDigit := ⟨by decide, by decide⟩

theorem seesNoGap_sign : SeesNoGap fun c => c = '+' || c = '-' := ⟨by decide, by decide⟩

theorem seesNoGap_exponent : SeesNoGap fun c => c = 'e' || c = 'E' := ⟨by decide, by decide⟩

theorem seesNoGap_hex : SeesNoGap isHexDigit := ⟨by decide, by decide⟩

theorem seesNoGap_mark : SeesNoGap fun c => c = 'i' || c = 'u' := ⟨by decide, by decide⟩

theorem exponentExtent_le (x : Source) : exponentExtent x ≤ x.length := by
  unfold exponentExtent
  split
  · rename_i h
    have hx := seesNoGap_exponent.length_pos h
    have hsign := seesNoGap_sign.optional_le (x.drop 1)
    have hdigits := run_le isAsciiDigit
      (x.drop (1 + Lexeme.optional (fun c => c = '+' || c = '-') (x.drop 1)))
    rw [List.length_drop] at hsign hdigits
    dsimp only
    omega
  · exact Nat.zero_le _

theorem exponentExtent_cut (hgap : IsGap gap) (h : exponentExtent x ≤ n) :
    exponentExtent (Source.cut n gap x) = exponentExtent x := by
  have hfront := seesNoGap_exponent.front_cut hgap n x
  unfold exponentExtent at h ⊢
  rw [hfront]
  split at h
  · rename_i hx
    have hlength := seesNoGap_exponent.length_pos hx
    have hsign := seesNoGap_sign.optional_le (x.drop 1)
    rw [List.length_drop] at hsign
    dsimp only at h ⊢
    rw [if_pos hx, if_pos (by simpa [show 0 < n by omega] using hx), drop_cut (by omega) hlength,
      seesNoGap_sign.optional_cut hgap (by omega), drop_cut (by omega) (by omega),
      seesNoGap_digit.run_cut hgap (by omega)]
  · rename_i hx
    rw [if_neg hx, if_neg (by simp [Bool.eq_false_iff.mpr hx])]

theorem suffixExtent_le (x : Source) : suffixExtent x ≤ x.length := by
  match x with
  | [] => exact Nat.le_of_eq (by decide)
  | [s] =>
    have hend : front (([s] : Source).drop 1) = '\x00' := rfl
    unfold suffixExtent
    rw [hend]
    dsimp only
    split
    · exact Nat.le_refl _
    · simp
  | s :: s' :: x =>
    unfold suffixExtent
    dsimp only
    split
    · simp
    · split
      · simp
      · exact Nat.zero_le _

theorem suffixExtent_cut (hgap : IsGap gap) (h : suffixExtent x ≤ n) :
    suffixExtent (Source.cut n gap x) = suffixExtent x := by
  have hone := SeesNoGap.front_cut (p := fun c => c = 'f' || c = 'h' || c = 'i' || c = 'u')
    ⟨by decide, by decide⟩ hgap n x
  have hlong := (seesNoGap_eq (c := 'l') (by decide)).front_cut hgap n x
  unfold suffixExtent at h ⊢
  dsimp only at h ⊢
  rw [hone, hlong]
  by_cases hx : (front x = 'f' || front x = 'h' || front x = 'i' || front x = 'u') = true
  · rw [if_pos hx] at h
    rw [hx, decide_eq_true (show 0 < n from h)]
    rfl
  rw [if_neg hx] at h ⊢
  rw [Bool.eq_false_iff.mpr hx, Bool.and_false, if_neg Bool.false_ne_true]
  by_cases hl : front x = 'l'
  · cases n with
    | zero =>
      split at h
      · omega
      · rename_i hf
        rw [if_neg hf]
        rfl
    | succ n =>
      have hlength := length_pos_of_front hl (by decide)
      have hsecond := (seesNoGap_eq (c := 'f') (by decide)).front_cut hgap n (x.drop 1)
      rw [drop_cut (by omega) hlength, Nat.add_sub_cancel, hsecond]
      split at h
      · rename_i hf
        rw [if_pos hf, if_pos]
        simpa [show 0 < n by omega] using hf
      · rename_i hf
        rw [if_neg hf, if_neg]
        simp only [Bool.and_eq_true, decide_eq_true_eq] at hf ⊢
        exact fun hall => hf ⟨hl, hall.2.2⟩
  · simp [hl]

theorem fractionExtent_eq (x : Source) : fractionExtent x =
    if front x = '.' then
      if startsIdentifier (front (x.drop 1)) then 0 else 1 + run isAsciiDigit (x.drop 1)
    else 0 := by
  by_cases hx : front x = '.'
  · rw [if_pos hx]
    cases x with
    | nil => exact absurd hx (by decide)
    | cons s x =>
      cases s with
      | stray byte => exact absurd (show '�' = '.' from hx) (by decide)
      | char d =>
        cases hx
        rfl
  · rw [if_neg hx]
    exact fractionExtent_eq_zero fun hpoint => absurd hpoint hx

theorem fractionExtent_le (x : Source) : fractionExtent x ≤ x.length := by
  rw [fractionExtent_eq]
  split
  · rename_i hx
    have hdigits := run_le isAsciiDigit (x.drop 1)
    have hlength := length_pos_of_front hx (by decide)
    rw [List.length_drop] at hdigits
    split <;> omega
  · exact Nat.zero_le _

theorem seesNoGap_name : SeesNoGap startsIdentifier := ⟨by decide, by decide⟩

/-- If the point is no part of the number, then the number ends before it. -/
theorem fractionExtent_cut (hgap : IsGap gap) (h : fractionExtent x ≤ n)
    (hend : fractionExtent x = 0 → front x = '.' → n = 0) :
    fractionExtent (Source.cut n gap x) = fractionExtent x := by
  have hpoint := (seesNoGap_eq (c := '.') (by decide)).front_cut hgap n x
  by_cases hx : front x = '.'
  · cases n with
    | zero =>
      rw [Nat.le_zero.mp h]
      refine fractionExtent_eq_zero fun hfront => ?_
      simp [hfront] at hpoint
    | succ n =>
      have hlength := length_pos_of_front hx (by decide)
      have hname : startsIdentifier (front (x.drop 1)) = false := by
        rw [Bool.eq_false_iff]
        intro hname
        have hzero : fractionExtent x = 0 := fractionExtent_eq_zero fun _ => hname
        exact absurd (hend hzero hx) (Nat.succ_ne_zero n)
      have hcut : front (Source.cut (n + 1) gap x) = '.' := by simpa [hx] using hpoint
      rw [fractionExtent_eq, fractionExtent_eq, if_pos hx, if_pos hcut, hname,
        drop_cut (by omega) hlength, Nat.add_sub_cancel, seesNoGap_name.front_cut hgap, hname,
        Bool.and_false]
      rw [fractionExtent_eq, if_pos hx, hname, if_neg Bool.false_ne_true] at h
      rw [seesNoGap_digit.run_cut hgap (by omega)]
  · have hcut : front (Source.cut n gap x) ≠ '.' := by simpa [hx] using hpoint
    rw [fractionExtent_eq, fractionExtent_eq, if_neg hx, if_neg hcut]

/-! ## Numbers -/

theorem seesNoGap_x : SeesNoGap fun c => c = 'x' || c = 'X' := ⟨by decide, by decide⟩

theorem exponentExtent_point (hx : front x = '.') : exponentExtent x = 0 := by
  simp [exponentExtent, hx]

theorem suffixExtent_point (hx : front x = '.') : suffixExtent x = 0 := by
  simp [suffixExtent, hx]

theorem numberExtent_le (first : Char) (x : Source) : numberExtent first x ≤ x.length := by
  unfold numberExtent
  split
  · rename_i hx
    have hlength := seesNoGap_x.length_pos (Bool.and_eq_true _ _ ▸ hx).2
    have hdigits := run_le isHexDigit (x.drop 1)
    have hmark := seesNoGap_mark.optional_le (x.drop (1 + run isHexDigit (x.drop 1)))
    rw [List.length_drop] at hdigits hmark
    dsimp only
    omega
  · dsimp only
    have hwhole := run_le isAsciiDigit x
    generalize run isAsciiDigit x = whole at *
    have hfraction := fractionExtent_le (x.drop whole)
    generalize fractionExtent (x.drop whole) = fraction at *
    have hexponent := exponentExtent_le (x.drop (whole + fraction))
    generalize exponentExtent (x.drop (whole + fraction)) = exponent at *
    have hsuffix := suffixExtent_le (x.drop (whole + fraction + exponent))
    rw [List.length_drop] at hfraction hexponent hsuffix
    omega

theorem numberExtent_cut (hgap : IsGap gap) (first : Char) (x : Source) :
    numberExtent first (Source.cut (numberExtent first x) gap x) = numberExtent first x := by
  have hle := numberExtent_le first x
  generalize hn : numberExtent first x = n at hle ⊢
  have htest := seesNoGap_x.front_cut hgap n x
  unfold numberExtent at hn ⊢
  rw [htest]
  by_cases hx : (decide (first = '0') && (decide (front x = 'x') || decide (front x = 'X'))) = true
  · rw [if_pos hx] at hn
    dsimp only at hn ⊢
    have hlength := seesNoGap_x.length_pos (Bool.and_eq_true _ _ ▸ hx).2
    have hdigits := run_le isHexDigit (x.drop 1)
    rw [List.length_drop] at hdigits
    rw [if_pos (by simpa [show 0 < n by omega] using hx), drop_cut (by omega) hlength,
      seesNoGap_hex.run_cut hgap (by omega), drop_cut (by omega) (by omega),
      seesNoGap_mark.optional_cut hgap (by omega), hn]
  · rw [if_neg hx] at hn
    dsimp only at hn ⊢
    rw [if_neg (fun h => hx (by simp at h ⊢; exact ⟨h.1, h.2.2⟩)),
      seesNoGap_digit.run_cut hgap (by omega)]
    have hwhole := run_le isAsciiDigit x
    generalize run isAsciiDigit x = whole at hn hwhole ⊢
    have hpoint : fractionExtent (x.drop whole) = 0 → front (x.drop whole) = '.' →
        n - whole = 0 := by
      intro hzero hfront
      rw [hzero, Nat.add_zero, exponentExtent_point hfront, Nat.add_zero,
        suffixExtent_point hfront] at hn
      omega
    have hfraction := fractionExtent_le (x.drop whole)
    rw [List.length_drop] at hfraction
    rw [drop_cut (by omega) hwhole, fractionExtent_cut hgap (by omega) hpoint]
    generalize fractionExtent (x.drop whole) = fraction at hn hfraction ⊢
    have hexponent := exponentExtent_le (x.drop (whole + fraction))
    rw [List.length_drop] at hexponent
    rw [drop_cut (by omega) (by omega), exponentExtent_cut hgap (by omega)]
    generalize exponentExtent (x.drop (whole + fraction)) = exponent at hn hexponent ⊢
    rw [drop_cut (by omega) (by omega), suffixExtent_cut hgap (by omega), hn]

/-! ## Tokens -/

theorem seesNoGap_word : SeesNoGap fun c => startsIdentifier c || isAsciiDigit c :=
  ⟨by decide, by decide⟩

/-- A token ends at the same place if a gap follows its text. -/
theorem classify_cut (hgap : IsGap gap) {extent : Nat} (h : classify c x = .token extent) :
    extent ≤ x.length ∧ classify c (Source.cut extent gap x) = .token extent := by
  have hgreater := seesNoGap_eq (c := '>') (by decide)
  have hequal := seesNoGap_eq (c := '=') (by decide)
  unfold classify at h ⊢
  split at h
  · cases h
    rename_i hc
    exact ⟨Nat.zero_le _, if_pos hc⟩
  rename_i hpunctuation
  rw [if_neg hpunctuation]
  split at h
  · cases h
    rename_i hc
    rw [if_pos hc, hgreater.optional_cut hgap (Nat.le_refl _)]
    exact ⟨hgreater.optional_le x, rfl⟩
  rename_i hminus
  rw [if_neg hminus]
  split at h
  · cases h
    rename_i hc
    rw [if_pos hc, hequal.optional_cut hgap (Nat.le_refl _)]
    exact ⟨hequal.optional_le x, rfl⟩
  rename_i hequals
  rw [if_neg hequals]
  split at h
  · rename_i hc
    rw [if_pos hc]
    split at h
    · cases h
    split at h
    · cases h
    -- a slash that opens no comment opens none before a gap
    cases h
    have hslash := (seesNoGap_eq (c := '/') (by decide)).front_gap hgap
    have hstar := (seesNoGap_eq (c := '*') (by decide)).front_gap hgap
    rw [cut_zero, if_neg (of_decide_eq_false hslash), if_neg (of_decide_eq_false hstar)]
    exact ⟨Nat.zero_le _, rfl⟩
  rename_i hslash
  rw [if_neg hslash]
  split at h
  · cases h
  rename_i hblank
  rw [if_neg hblank]
  split at h
  · cases h
    rename_i hdigit
    rw [if_pos hdigit, numberExtent_cut hgap]
    exact ⟨numberExtent_le c x, rfl⟩
  rename_i hdigit
  rw [if_neg hdigit]
  split at h
  · cases h
    rename_i hname
    rw [if_pos hname, seesNoGap_word.run_cut hgap (Nat.le_refl _)]
    exact ⟨run_le _ x, rfl⟩
  · cases h

/-- The text of a token is a word wherever a gap follows it. -/
theorem lexes_text {s : Symbol} {extent : Nat} {later : List String}
    (hclass : classify s.shown x = .token extent) (hgap : IsGap gap) (h : Lexes gap later) :
    Lexes (Source.ofString (Source.shown (s :: x.take extent)) ++ gap)
      (Source.shown (s :: x.take extent) :: later) := by
  obtain ⟨hle, hcut⟩ := classify_cut hgap hclass
  have hlength : ((x.take extent).map Symbol.shown).length = extent := by simp [hle]
  refine lexes_word (toList_shown _) ?_ h
  rw [hlength]
  exact hcut

theorem lexes_intercalate {source : Source} {ws : List String} (h : Lexes source ws) :
    Lexes (Source.ofString (" ".intercalate ws)) ws := by
  induction h with
  | done => exact .done
  | skip _ _ ih => exact ih
  | @word s more extent later hclass hmore ih =>
    cases later with
    | nil =>
      have hlast := lexes_text hclass (Or.inl rfl) Lexes.done
      rwa [List.append_nil] at hlast
    | cons next later =>
      have hnext := lexes_text hclass (Or.inr rfl) (lexes_blank (Or.inl rfl) ih)
      rw [String.intercalate_cons_cons]
      simpa [Source.ofString] using hnext

/-- The words of a source, set with single blanks between them, are the words of the new source. -/
theorem words_intercalate {source : Source} {ws : List String} (h : words source = .ok ws) :
    words (Source.ofString (" ".intercalate ws)) = .ok ws :=
  words_eq_ok_iff.mpr (lexes_intercalate (words_eq_ok_iff.mp h))

/-- An exponent without digits, a hexadecimal number without digits and a number before the name of
a field. -/
theorem words_intercalate_sample :
    words (.ofString "1e+;0x-1.x") = .ok ["1e+", ";", "0x", "-", "1", ".", "x"] ∧
      words (.ofString "1e+ ; 0x - 1 . x") = .ok ["1e+", ";", "0x", "-", "1", ".", "x"] := by
  have hwords : words (.ofString "1e+;0x-1.x") = .ok ["1e+", ";", "0x", "-", "1", ".", "x"] := by
    decide +kernel
  exact ⟨hwords, words_intercalate hwords⟩

end Shader
