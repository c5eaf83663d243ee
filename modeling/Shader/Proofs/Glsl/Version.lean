import Mathlib.Tactic.Common
import Shader.Glsl.Options

/-!
# Versions

A version is read from a number, which is not held to its usual spelling: a plus sign and zeros may
stand before the digits, and any text after them.
-/

namespace Shader.Glsl.Version

open Text

variable {n : Nat} {chars digits : List Char} {field text : String}

/-! ## Decimal numbers -/

theorem exists_digitChar {c : Char} (hc : isAsciiDigit c = true) : ∃ d < 10, c = d.digitChar := by
  have hrange := Char.isDigit_iff_toNat.mp hc
  simp only [Char.reduceToNat] at hrange
  have hlt : c.toNat - 48 < 10 := by omega
  refine ⟨c.toNat - 48, hlt, Char.toNat_inj.mp ?_⟩
  rw [Nat.toNat_digitChar_of_lt_ten hlt]
  omega

theorem toDigits_append (hdigits : ∀ c ∈ digits, isAsciiDigit c = true) (hn : 0 < n) :
    Nat.toDigits 10 n ++ digits = Nat.toDigits 10 (Nat.ofDigitChars 10 digits n) := by
  induction digits generalizing n with
  | nil => simp
  | cons c rest ih =>
    obtain ⟨d, hd, rfl⟩ := exists_digitChar (hdigits c (.head _))
    rw [Nat.ofDigitChars_cons_digitChar_of_lt_ten hd, ← ih (fun x hx => hdigits x (.tail _ hx))
      (by omega), ← Nat.toDigits_append_toDigits (by decide) hn hd, Nat.toDigits_of_lt_base hd]
    simp

/-- Digits are zeros and the usual spelling of the number. -/
theorem exists_zeros (hdigits : ∀ c ∈ digits, isAsciiDigit c = true)
    (hpos : 0 < Nat.ofDigitChars 10 digits 0) :
    ∃ zeros, digits =
      List.replicate zeros '0' ++ Nat.toDigits 10 (Nat.ofDigitChars 10 digits 0) := by
  induction digits with
  | nil => cases hpos
  | cons c rest ih =>
    have hrest : ∀ x ∈ rest, isAsciiDigit x = true := fun x hx => hdigits x (.tail _ hx)
    obtain ⟨d, hd, rfl⟩ := exists_digitChar (hdigits c (.head _))
    rw [Nat.ofDigitChars_cons_digitChar_of_lt_ten hd] at hpos ⊢
    rcases Nat.eq_zero_or_pos d with rfl | hd0
    · obtain ⟨zeros, hzeros⟩ := ih hrest hpos
      exact ⟨zeros + 1, congrArg ('0' :: ·) hzeros⟩
    · refine ⟨0, ?_⟩
      rw [Nat.mul_zero, Nat.zero_add, ← toDigits_append hrest hd0, Nat.toDigits_of_lt_base hd]
      rfl

theorem decimalValue_eq (digits : List Char) :
    decimalValue digits = Nat.ofDigitChars 10 digits 0 := by
  simp only [decimalValue, Nat.ofDigitChars_eq_foldl, Nat.mul_comm]

theorem decimalValue_takeWhile_iff (hn : 0 < n) :
    decimalValue (chars.takeWhile isAsciiDigit) = n ↔
      ∃ zeros rest, chars = List.replicate zeros '0' ++ (Nat.toDigits 10 n ++ rest) ∧
        ∀ c ∈ rest.head?, isAsciiDigit c = false := by
  rw [decimalValue_eq]
  constructor
  · rintro rfl
    obtain ⟨zeros, hzeros⟩ :=
      exists_zeros (List.all_eq_true.mp (List.all_takeWhile (p := isAsciiDigit))) hn
    refine ⟨zeros, chars.dropWhile isAsciiDigit, ?_, ?_⟩
    · rw [← List.append_assoc, ← hzeros, List.takeWhile_append_dropWhile]
    · intro c hc
      have hstop := List.head?_dropWhile_not isAsciiDigit chars
      rwa [Option.mem_def.mp hc] at hstop
  · rintro ⟨zeros, rest, rfl, hrest⟩
    have hnone : rest.takeWhile isAsciiDigit = [] := by
      cases rest <;> simp_all
    rw [List.takeWhile_append_of_pos, List.takeWhile_append_of_pos, hnone, List.append_nil,
      Nat.ofDigitChars_append, Nat.ofDigitChars_replicate_zero, Nat.mul_zero,
      Nat.ofDigitChars_ten_toDigits]
    · intro c hc
      exact Nat.isDigit_of_mem_toDigits (by decide) (by decide) hc
    · intro c hc
      rw [List.eq_of_mem_replicate hc]
      decide

theorem leadingInt?_iff (hn : 0 < n) (hlt : n < 1000) :
    leadingInt? chars = some (n : Int) ↔ ∃ sign ∈ [[], ['+']], ∃ unsigned,
      chars = sign ++ unsigned ∧ decimalValue (unsigned.takeWhile isAsciiDigit) = n := by
  have hread (digits : List Char) : (if digits.isEmpty then none
      else if decimalValue digits < 9223372036854775808 then some (decimalValue digits : Int)
      else none) = some (n : Int) ↔ decimalValue digits = n := by
    cases digits <;> simp [decimalValue] <;> omega
  have hsign (c : Char) (rest : List Char) (hc : isAsciiDigit c = false) :
      decimalValue ((c :: rest).takeWhile isAsciiDigit) ≠ n := by
    rw [List.takeWhile_cons_of_neg (by simp [hc])]
    exact Nat.ne_of_lt hn
  unfold leadingInt?
  simp only [List.mem_cons, List.not_mem_nil, or_false, exists_eq_or_imp, exists_eq_left,
    List.nil_append, List.singleton_append, exists_eq_left']
  split
  · rename_i rest
    simp only [hsign '-' rest rfl, if_true, List.cons.injEq]
    simp
    omega
  · rename_i rest
    simp only [hsign '+' rest rfl, Bool.false_eq_true, if_false, hread]
    simp
  · rename_i hplus
    simp only [Bool.false_eq_true, if_false, hread, iff_self_or]
    rintro ⟨unsigned, rfl, -⟩
    exact absurd rfl (hplus unsigned)

/-! ## Spellings -/

/-- How the number of a version may be spelled. -/
def Spells (v : Version) (field : String) : Prop :=
  ∃ sign ∈ [[], ['+']], ∃ zeros rest,
    field.toList = sign ++ (List.replicate zeros '0' ++ (v.number.toList ++ rest)) ∧
      ∀ c ∈ rest.head?, isAsciiDigit c = false

theorem toList_number (hle : 100 ≤ n) (hlt : n < 1000) (es : Bool) :
    ({ ofNumber n with es } : Version).number.toList = Nat.toDigits 10 n := by
  have htwo : ∀ m < 100, (twoDigits m).toList = [(m / 10).digitChar, (m % 10).digitChar] := by
    decide
  have hmajor : (n / 100).toUInt8.toNat = n / 100 := Nat.mod_eq_of_lt (by omega)
  have hminor : (n % 100).toUInt8.toNat = n % 100 := Nat.mod_eq_of_lt (by omega)
  rw [number, ofNumber, String.toList_append, hmajor, hminor, Nat.toList_repr, htwo _ (by omega),
    toDigits_append, Nat.ofDigitChars_cons_digitChar_of_lt_ten (by omega),
    Nat.ofDigitChars_cons_digitChar_of_lt_ten (by omega), Nat.ofDigitChars_nil]
  · congr 1
    omega
  · rw [List.forall_mem_cons, List.forall_mem_singleton]
    exact ⟨Nat.isDigit_digitChar.trans (decide_eq_true (by omega)),
      Nat.isDigit_digitChar.trans (decide_eq_true (by omega))⟩
  · omega

theorem numberOf_eq_ok_iff (es : Bool) : numberOf text field = .ok n ↔
    100 ≤ n ∧ n < 1000 ∧ ({ ofNumber n with es } : Version).Spells field := by
  have hnumber : numberOf text field = .ok n ↔
      100 ≤ n ∧ n < 1000 ∧ leadingInt? field.toList = some (n : Int) := by
    unfold numberOf
    cases leadingInt? field.toList with
    | none => simp
    | some i =>
      simp
      split <;> simp <;> omega
  rw [hnumber]
  refine and_congr_right fun hle => and_congr_right fun hlt => ?_
  rw [leadingInt?_iff (by omega) hlt]
  simp only [decimalValue_takeWhile_iff (Nat.lt_of_lt_of_le (by decide) hle), Spells,
    toList_number hle hlt]
  constructor
  · rintro ⟨sign, hsign, unsigned, hfield, zeros, rest, rfl, hrest⟩
    exact ⟨sign, hsign, zeros, rest, hfield, hrest⟩
  · rintro ⟨sign, hsign, zeros, rest, hfield, hrest⟩
    exact ⟨sign, hsign, _, hfield, zeros, rest, rfl, hrest⟩

/-- A text is read as a version exactly if its first field spells the number of the version, up to
a sign, zeros and a rest that is not looked at, and its second field, if any, is the profile. -/
theorem parse_spelled_iff (text : String) (v : Version) : parse text = .ok v ↔
    ∃ n field, 100 ≤ n ∧ n < 1000 ∧ v = { ofNumber n with es := v.es } ∧ v.Spells field ∧
      (fields text = [field] ∧ v.es = false ∨
        fields text = [field, if v.es then "es" else "core"]) := by
  have hread : parse text = .ok v ↔ ∃ n field, numberOf text field = .ok n ∧
      v = { ofNumber n with es := v.es } ∧ (fields text = [field] ∧ v.es = false ∨
        fields text = [field, if v.es then "es" else "core"]) := by
    unfold parse
    split
    · rename_i first hfields
      cases hnumber : numberOf text first <;> grind [Except.map, ofNumber]
    · rename_i first profile hfields
      cases hnumber : numberOf text first <;> grind [ofNumber]
    · simp_all
  rw [hread]
  constructor
  · rintro ⟨n, field, hnumber, hv, hfields⟩
    obtain ⟨hle, hlt, hspells⟩ := (numberOf_eq_ok_iff v.es).mp hnumber
    rw [← hv] at hspells
    exact ⟨n, field, hle, hlt, hv, hspells, hfields⟩
  · rintro ⟨n, field, hle, hlt, hv, hspells, hfields⟩
    rw [hv] at hspells
    exact ⟨n, field, (numberOf_eq_ok_iff v.es).mpr ⟨hle, hlt, hspells⟩, hv, hfields⟩

/-- The profile that stands too close to the number is not read, nor are a sign and a zero. -/
theorem parse_ignores_text :
    parse "320es" = .ok ⟨3, 20, false⟩ ∧ fields "320es" = ["320es"] ∧
      (⟨3, 20, false⟩ : Version).number = "320" ∧ parse "+0450 core" = .ok .v450 ∧
        fields "+0450 core" = ["+0450", "core"] ∧ v450.number = "450" := by
  decide +kernel

end Shader.Glsl.Version
