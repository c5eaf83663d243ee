import Mathlib.Data.List.Basic
import Shader.Proofs.Token.Lexing

/-!
# The scanner and the grammar agree on words

Words are told apart twice: the scanner cuts them out of a source, and the grammar tests them as a
whole. Main statement: a number of the grammar is cut out as one token exactly if it starts with a
digit and no letter follows its point, a name exactly if it has no digits but those of ASCII, and
every token that starts like a name is one.
-/

namespace Shader

open Text Lexeme Program

variable {c d : Char} {cs : List Char} {token : String} {source : Source} {ws : List String}

/-! ## Letters and digits -/

theorem mem_of_has {ranges : Ranges} {n : Nat} (h : ranges.has n = true) :
    ∃ r ∈ ranges, r.1 ≤ n ∧ n ≤ r.2 := by
  induction ranges with
  | nil => cases h
  | cons r ranges ih =>
    rw [Ranges.has] at h
    split at h
    · cases h
    · rename_i hfirst
      rw [Bool.or_eq_true, decide_eq_true_eq] at h
      rcases h with h | h
      · exact ⟨r, .head _, by omega, h⟩
      · obtain ⟨r', hr', hn⟩ := ih h
        exact ⟨r', .tail _ hr', hn⟩

/-- No decimal digit of any script is a letter or an underscore. -/
theorem startsIdentifier_of_isDecimalDigit (h : isDecimalDigit c = true) :
    startsIdentifier c = false := by
  have hapart : (decimalDigitRanges.all fun r => letterRanges.all fun q =>
      Nat.blt r.2 q.1 || Nat.blt q.2 r.1) = true := by
    decide +kernel
  obtain ⟨r, hr, hfirst, hlast⟩ := mem_of_has h
  rw [startsIdentifier, Bool.or_eq_false_iff, decide_eq_false_iff_not]
  constructor
  · rintro rfl
    exact absurd h (by decide)
  · refine Bool.eq_false_iff.mpr fun hletter => ?_
    obtain ⟨q, hq, hfirst', hlast'⟩ := mem_of_has hletter
    have hrq := List.all_eq_true.mp (List.all_eq_true.mp hapart r hr) q hq
    rw [Bool.or_eq_true, Nat.blt_eq, Nat.blt_eq] at hrq
    omega

theorem isAsciiDigit_of_isDecimalDigit (h : isDecimalDigit c = true) (hascii : c.toNat < 128) :
    isAsciiDigit c = true := by
  have hfirst : ∀ r ∈ decimalDigitRanges, r.1 < 128 → r = (0x30, 0x39) := by decide
  obtain ⟨r, hr, hle, hlast⟩ := mem_of_has h
  have hr := hfirst r hr (by omega)
  subst hr
  exact isAsciiDigit_iff.mpr ⟨hle, hlast⟩

theorem isDecimalDigit_of_isAsciiDigit (h : isAsciiDigit c = true) : isDecimalDigit c = true := by
  obtain ⟨hfirst, hlast⟩ := isAsciiDigit_iff.mp h
  have hranges : decimalDigitRanges = (0x30, 0x39) :: decimalDigitRanges.tail := rfl
  rw [isDecimalDigit, hranges, Ranges.has, if_neg (by omega), decide_eq_true hlast, Bool.true_or]

/-! ## Numbers -/

theorem not_point_of_isHexDigit (h : isHexDigit c = true) : c ≠ '.' := by
  rintro rfl
  cases h

theorem IsTail.not_point {tail : List Char} (h : IsTail tail) : '.' ∉ tail := by
  intro hmem
  rcases h.chars '.' hmem with hhex | hmark
  · cases hhex
  · exact absurd hmark (by decide)

/-- In a number that can be cut out of a source a point is followed by a digit or by nothing. -/
theorem IsNumber.not_letter {chars before after : List Char} (h : IsNumber chars)
    (hchars : chars = before ++ '.' :: d :: after) : isLetter d = false := by
  have hdigits {digits : List Char} (hdigits : ∀ d ∈ digits, isAsciiDigit d = true) :
      '.' ∉ digits :=
    fun hmem => absurd (hdigits _ hmem) (by decide)
  have hpoint : '.' ∈ chars := by rw [hchars]; simp
  cases h with
  | @hex x digits mark hx hhex hmark =>
    exfalso
    simp only [List.mem_cons, List.mem_append] at hpoint
    rcases hpoint with hp | rfl | hp | hp
    · exact absurd hp (by decide)
    · rcases hx with hx | hx <;> exact absurd hx (by decide)
    · exact not_point_of_isHexDigit (hhex _ hp) rfl
    · simp only [List.mem_cons, List.not_mem_nil, or_false] at hmark
      rcases hmark with rfl | rfl | rfl <;> exact absurd hp (by decide)
  | @whole first digits tail hfirst hds htail =>
    exfalso
    simp only [List.mem_cons, List.mem_append] at hpoint
    rcases hpoint with rfl | hp | hp
    · exact absurd hfirst (by decide)
    · exact hdigits hds hp
    · exact htail.not_point hp
  | @fraction first digits decimals tail hfirst hds hdecimals htail hend =>
    have hleft : '.' ∉ first :: digits := by
      rw [List.mem_cons, not_or]
      refine ⟨?_, hdigits hds⟩
      rintro rfl
      exact absurd hfirst (by decide)
    have hright : '.' ∉ decimals ++ tail := by
      rw [List.mem_append, not_or]
      exact ⟨hdigits hdecimals, htail.not_point⟩
    have hsplit : (first :: digits) ++ '.' :: (decimals ++ tail) = before ++ '.' :: d :: after :=
      hchars
    obtain ⟨-, -, hafter⟩ := (List.append_cons_inj_of_notMem hleft hright).mp hsplit
    cases decimals with
    | nil =>
      rw [hend rfl] at hafter
      cases hafter
    | cons x decimals =>
      obtain ⟨rfl, -⟩ := List.cons.inj hafter
      have hname := startsIdentifier_of_isAsciiDigit (hdecimals x (.head _))
      rw [startsIdentifier, Bool.or_eq_false_iff] at hname
      exact hname.2

theorem follows_nil : Follows [] := ⟨by decide, by decide, fun h => absurd h (by decide)⟩

theorem lexes_of_isNumber (htoken : token.toList = c :: cs) (h : IsNumber (c :: cs)) :
    Lexes (Source.ofString token) [token] := by
  obtain ⟨c', cs', heq, hdigit⟩ := h.head
  obtain ⟨rfl, rfl⟩ := List.cons.inj heq
  rw [← List.append_nil (Source.ofString token)]
  refine lexes_word htoken ?_ .done
  rw [classify_of_word (Or.inr hdigit), if_pos hdigit, h.extent follows_nil]

/-! ## Names -/

theorem isIdentifier_of_classify {s : Symbol} {more : Source} {extent : Nat}
    (h : classify s.shown more = .token extent) (hs : startsIdentifier s.shown = true) :
    isIdentifier (Source.shown (s :: more.take extent)) = true := by
  rw [classify_of_word (Or.inl hs), isAsciiDigit_of_startsIdentifier hs,
    if_neg Bool.false_ne_true] at h
  cases h
  unfold isIdentifier
  rw [toList_shown, List.map_cons]
  dsimp only
  rw [hs, Bool.true_and, List.all_eq_true]
  intro x hx
  have hx := mem_take_run hx
  rw [Bool.or_eq_true] at hx
  rw [continuesIdentifier, Bool.or_eq_true]
  exact hx.imp_right isDecimalDigit_of_isAsciiDigit

theorem Lexes.isIdentifier (h : Lexes source ws) :
    ∀ token ∈ ws, ∀ c cs, token.toList = c :: cs → startsIdentifier c = true →
      isIdentifier token = true := by
  induction h with
  | done => simp
  | skip _ _ ih => exact ih
  | word hclass _ ih =>
    refine List.forall_mem_cons.mpr ⟨fun c cs hc hstart => ?_, ih⟩
    rw [toList_shown, List.map_cons] at hc
    obtain ⟨rfl, -⟩ := List.cons.inj hc
    exact isIdentifier_of_classify hclass hstart

/-- A number of the grammar is one token exactly if it starts with a digit and no letter follows its
point; a name of the grammar exactly if all its decimal digits are those of ASCII; and every token
that starts with a letter or an underscore is a name of the grammar. -/
theorem words_agree :
    (∀ token, isNumericLiteral token = true →
      (words (.ofString token) = .ok [token] ↔
        (∃ c cs, token.toList = c :: cs ∧ isAsciiDigit c = true) ∧
        ∀ before c after, token.toList = before ++ '.' :: c :: after → isLetter c = false)) ∧
    (∀ token, isIdentifier token = true →
      (words (.ofString token) = .ok [token] ↔
        ∀ c ∈ token.toList, isDecimalDigit c = true → c.toNat < 128)) ∧
    ∀ source tokens, tokenize source = .ok tokens → ∀ token ∈ tokens, ∀ c cs,
      token.text.toList = c :: cs → (c = '_' ∨ isLetter c = true) →
        isIdentifier token.text = true := by
  refine ⟨fun token hnumber => ?_, fun token hname => ?_, ?_⟩
  · rw [words_eq_ok_iff]
    constructor
    · intro h
      have hshape := (h.isLexed token (.head _)).number hnumber
      exact ⟨hshape.head, fun before c after => hshape.not_letter⟩
    · rintro ⟨⟨c, cs, hc, hdigit⟩, hpoint⟩
      refine lexes_of_isNumber hc (isNumber_of_isNumericLiteral hnumber hc hdigit ?_)
      rintro digits x after - rfl
      exact hpoint (c :: digits) x after hc
  · rw [words_eq_ok_iff]
    constructor
    · intro h c hc hdecimal
      rcases (h.isLexed token (.head _)).name hname c hc with hstart | hdigit
      · rw [startsIdentifier_of_isDecimalDigit hdecimal] at hstart
        cases hstart
      · have hlast := (isAsciiDigit_iff.mp hdigit).2
        omega
    · intro hascii
      obtain ⟨c, cs, hc, hstart, -⟩ := isIdentifier_cons hname
      have hlexed : IsLexed token := by
        refine ⟨fun _ x hx => ?_, fun hnumber => ?_⟩
        · have hcontinues := continuesIdentifier_of_mem hname x hx
          rw [continuesIdentifier, Bool.or_eq_true] at hcontinues
          exact hcontinues.imp_right fun hd => isAsciiDigit_of_isDecimalDigit hd (hascii x hx hd)
        · have hpoint : c ≠ '.' := by
            rintro rfl
            exact absurd hstart (by decide)
          rw [isNumericLiteral_eq_false hc (isAsciiDigit_of_startsIdentifier hstart) hpoint]
            at hnumber
          cases hnumber
      rw [← List.append_nil (Source.ofString token)]
      exact lexes_name hname hlexed follows_nil .done
  · intro source tokens hrun token htoken c cs hc hstart
    refine (lexes_of_tokenizeFrom hrun).isIdentifier token.text (List.mem_map_of_mem htoken) c cs hc
      ?_
    rw [startsIdentifier, Bool.or_eq_true, decide_eq_true_eq]
    exact hstart

/-- The point of `1.f` is no part of the number, nor is that of `.5`, while `0x1Fu` and `1.5e-3lf`
are single tokens; a digit of another script ends a name. -/
theorem words_agree_sample :
    (isNumericLiteral "1.f" = true ∧ words (.ofString "1.f") ≠ .ok ["1.f"]) ∧
    (isNumericLiteral ".5" = true ∧ words (.ofString ".5") ≠ .ok [".5"]) ∧
    (isNumericLiteral "1.5e-3lf" = true ∧ words (.ofString "1.5e-3lf") = .ok ["1.5e-3lf"]) ∧
    (isIdentifier "é1" = true ∧ words (.ofString "é1") = .ok ["é1"]) ∧
    (isIdentifier "a٣" = true ∧ words (.ofString "a٣") ≠ .ok ["a٣"]) := by
  obtain ⟨hnumbers, hnames, -⟩ := words_agree
  have hplain : ∀ c ∈ "é1".toList, isDecimalDigit c = true → c.toNat < 128 := by
    refine List.forall_mem_cons.mpr ⟨fun hdigit => ?_, List.forall_mem_singleton.mpr fun _ => ?_⟩
    · exact absurd hdigit (by decide +kernel)
    · decide
  refine ⟨⟨by decide, fun h => ?_⟩, ⟨by decide, fun h => ?_⟩, ⟨by decide, by decide +kernel⟩,
    ⟨by decide, (hnames "é1" (by decide)).mpr hplain⟩, ⟨by decide +kernel, fun h => ?_⟩⟩
  · exact absurd (((hnumbers "1.f" (by decide)).mp h).2 ['1'] 'f' [] rfl) (by decide)
  · obtain ⟨⟨c, cs, hc, hdigit⟩, -⟩ := (hnumbers ".5" (by decide)).mp h
    obtain ⟨rfl, -⟩ := List.cons.inj hc
    exact absurd hdigit (by decide)
  · exact absurd ((hnames "a٣" (by decide +kernel)).mp h '٣' (by decide) (by decide +kernel))
      (by decide)

end Shader
