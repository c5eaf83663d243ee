import Mathlib.Tactic.Common
import Shader.Program.Parser

/-!
# Words of the grammar

The classes of tokens do not overlap: an identifier is no number, no operator and no punctuation,
and holds none of the characters that take type names apart. Array lengths are read back from
their decimal spelling.
-/

namespace Shader.Program

open Text

variable {c : Char} {other symbol token : String} {rest : List Char} {n : Nat} {count : UInt32}

/-! ## Operators -/

def operatorSymbols : List String := ["=", "==", "+", "-", "*", "/", "%", "."]

theorem mem_operatorSymbols (h : 0 < bindingPower symbol) : symbol ∈ operatorSymbols := by
  unfold bindingPower at h
  split at h <;> first | decide | exact absurd h (by decide)

theorem bindingPower_le (symbol : String) : bindingPower symbol ≤ 5 := by
  unfold bindingPower
  split <;> decide

theorem eq_assign_of_bindingPower (h : bindingPower symbol = 1) : symbol = "=" := by
  have hs := mem_operatorSymbols (by omega : 0 < bindingPower symbol)
  revert h
  revert symbol
  decide

/-! ## Identifiers -/

/-- The first letters are those of ASCII. -/
theorem exists_letterRanges : ∃ more, letterRanges = (0x41, 0x5a) :: (0x61, 0x7a) :: more :=
  ⟨_, rfl⟩

theorem le_toNat_of_isLetter (h : isLetter c = true) : 0x41 ≤ c.toNat := by
  by_contra hlt
  have hfirst : c.toNat < 0x41 := by omega
  obtain ⟨more, hranges⟩ := exists_letterRanges
  rw [isLetter, hranges, Ranges.has, if_pos hfirst] at h
  cases h

theorem le_toNat_of_startsIdentifier (h : startsIdentifier c = true) : 0x41 ≤ c.toNat := by
  unfold startsIdentifier at h
  rcases Bool.or_eq_true _ _ ▸ h with hc | hc
  · rw [of_decide_eq_true hc]
    decide
  · exact le_toNat_of_isLetter hc

theorem isAsciiDigit_iff : isAsciiDigit c = true ↔ 0x30 ≤ c.toNat ∧ c.toNat ≤ 0x39 := by
  unfold isAsciiDigit
  simp only [Bool.and_eq_true, decide_eq_true_eq, Char.le_def, UInt32.le_iff_toNat_le]
  exact Iff.rfl

theorem isIdentifier_cons (h : isIdentifier token = true) :
    ∃ c rest, token.toList = c :: rest ∧ startsIdentifier c = true ∧
      rest.all continuesIdentifier = true := by
  unfold isIdentifier at h
  split at h
  · cases h
  · rename_i c rest hc
    exact ⟨c, rest, hc, (Bool.and_eq_true _ _ ▸ h).1, (Bool.and_eq_true _ _ ▸ h).2⟩

theorem continuesIdentifier_of_mem (h : isIdentifier token = true) :
    ∀ c ∈ token.toList, continuesIdentifier c = true := by
  obtain ⟨c, rest, hc, hstart, hrest⟩ := isIdentifier_cons h
  intro x hx
  rw [hc] at hx
  rcases List.mem_cons.mp hx with rfl | hx
  · simp [continuesIdentifier, hstart]
  · exact List.all_eq_true.mp hrest x hx

theorem notMem_of_isIdentifier (h : isIdentifier token = true)
    (hc : continuesIdentifier c = false) : c ∉ token.toList := by
  intro hmem
  rw [continuesIdentifier_of_mem h c hmem] at hc
  cases hc

theorem ne_of_isIdentifier (h : isIdentifier token = true) (ho : isIdentifier other = false) :
    token ≠ other := by
  rintro rfl
  rw [h] at ho
  cases ho

theorem bindingPower_of_isIdentifier (h : isIdentifier token = true) : bindingPower token = 0 := by
  by_contra hne
  have hmem := mem_operatorSymbols (Nat.pos_of_ne_zero hne)
  have hall : ∀ s ∈ operatorSymbols, isIdentifier s = false := by decide
  rw [hall token hmem] at h
  cases h

theorem isDecimalLiteral_eq_false (hd : isAsciiDigit c = false) (hp : c ≠ '.') :
    isDecimalLiteral (c :: rest) = false := by
  unfold isDecimalLiteral
  simp only [List.takeWhile_cons, List.dropWhile_cons, hd, Bool.false_eq_true, if_false]
  split
  · rename_i heq
    exact absurd (List.cons.inj heq).1 hp
  · simp

theorem isNumericLiteral_eq_false (h : token.toList = c :: rest) (hd : isAsciiDigit c = false)
    (hp : c ≠ '.') : isNumericLiteral token = false := by
  unfold isNumericLiteral
  rw [h]
  split
  · rename_i heq
    obtain ⟨rfl, -⟩ := List.cons.inj heq
    exact absurd hd (by decide)
  · exact isDecimalLiteral_eq_false hd hp

theorem isNumericLiteral_of_isIdentifier (h : isIdentifier token = true) :
    isNumericLiteral token = false := by
  obtain ⟨c, rest, hc, hstart, -⟩ := isIdentifier_cons h
  have hle := le_toNat_of_startsIdentifier hstart
  have hdigit : isAsciiDigit c = false := by
    rw [Bool.eq_false_iff]
    intro hd
    have := (isAsciiDigit_iff.mp hd).2
    omega
  have hpoint : c ≠ '.' := by
    rintro rfl
    exact absurd hle (by decide)
  exact isNumericLiteral_eq_false hc hdigit hpoint

/-- The identifiers that an expression may use as names: those that are no keywords there. -/
def IsName (token : String) : Prop :=
  isIdentifier token = true ∧ token ∉ ["let", "return", "true", "false"]

theorem isLiteral_of_isName (h : IsName token) : isLiteral token = false := by
  obtain ⟨hid, hkey⟩ := h
  simp only [List.mem_cons, List.not_mem_nil, or_false, not_or] at hkey
  simp [isLiteral, hkey.2.2.1, hkey.2.2.2, isNumericLiteral_of_isIdentifier hid]

theorem ne_of_isLiteral (h : isLiteral token = true) (ho : isLiteral other = false) :
    token ≠ other := by
  rintro rfl
  rw [h] at ho
  cases ho

theorem bindingPower_of_isLiteral (h : isLiteral token = true) : bindingPower token = 0 := by
  by_contra hne
  have hmem := mem_operatorSymbols (Nat.pos_of_ne_zero hne)
  have hall : ∀ s ∈ operatorSymbols, isLiteral s = false := by decide
  rw [hall token hmem] at h
  cases h

theorem isLiteral_minus (h : token.toList = '-' :: rest) : isLiteral token = false := by
  have hnumber : isNumericLiteral token = false :=
    isNumericLiteral_eq_false h (by decide) (by decide)
  have htrue : token ≠ "true" := by
    rintro rfl
    cases h
  have hfalse : token ≠ "false" := by
    rintro rfl
    cases h
  simp [isLiteral, hnumber, htrue, hfalse]

theorem isLiteral_of_isNumericLiteral (h : isNumericLiteral token = true) :
    isLiteral token = true := by
  simp [isLiteral, h]

/-! ## Array lengths -/

theorem digitIn?_ten (h : c.isDigit = true) : digitIn? 10 c = some (c.toNat - '0'.toNat) := by
  simp only [Char.isDigit, Bool.and_eq_true, decide_eq_true_eq, ge_iff_le,
    UInt32.le_iff_toNat_le] at h
  have hlow : '0' ≤ c := h.1
  have hhigh : c ≤ '9' := h.2
  have hupper : c.toNat ≤ 57 := h.2
  have hvalue : digitValue? c = some (c.toNat - '0'.toNat) := by
    simp [digitValue?, hlow, hhigh]
  have hzero : '0'.toNat = 48 := by decide
  have hlt : c.toNat - '0'.toNat < 10 := by omega
  simp only [digitIn?, hvalue, Option.filter_some, hlt, decide_true, if_true]

theorem separatedDigits?_ten {digits : List Char} (hd : ∀ c ∈ digits, c.isDigit = true)
    (value : Nat) :
    separatedDigits? 10 true value digits = some (Nat.ofDigitChars 10 digits value) := by
  induction digits generalizing value with
  | nil => simp [separatedDigits?]
  | cons c rest ih =>
    have hc := hd c (.head _)
    have hne : c ≠ '_' := by
      rintro rfl
      exact absurd hc (by decide)
    rw [separatedDigits?.eq_3 _ _ _ _ _ hne, digitIn?_ten hc]
    dsimp only
    rw [ih (fun x hx => hd x (.tail _ hx)), Nat.ofDigitChars_cons, Nat.mul_comm]

theorem head_toDigits_ne_zero (hn : 0 < n) : ∃ c rest, Nat.toDigits 10 n = c :: rest ∧ c ≠ '0' := by
  induction n using Nat.strongRecOn with
  | ind n ih =>
    rw [Nat.toDigits_eq_if (by decide)]
    split
    · exact ⟨n.digitChar, [], rfl, by rw [Ne, Nat.digitChar_eq_zero]; omega⟩
    · obtain ⟨c, rest, hc, hne⟩ := ih (n / 10) (by omega) (by omega)
      exact ⟨c, rest ++ [(n % 10).digitChar], by rw [hc]; rfl, hne⟩

theorem markedNumber?_toDigits (hn : 0 < n) : markedNumber? (Nat.toDigits 10 n) = some n := by
  obtain ⟨c, rest, hc, hne⟩ := head_toDigits_ne_zero hn
  have hdigit : ∀ x ∈ c :: rest, x.isDigit = true := by
    intro x hx
    rw [← hc] at hx
    exact Nat.isDigit_of_mem_toDigits (by decide) (by decide) hx
  have hvalue : Nat.ofDigitChars 10 (c :: rest) 0 = n := by
    rw [← hc, Nat.ofDigitChars_ten_toDigits]
  have hhead := hdigit c (.head _)
  have hsep : c ≠ '_' := by
    rintro rfl
    exact absurd hhead (by decide)
  rw [hc]
  unfold markedNumber?
  split
  · rename_i heq
    cases heq
  · rename_i heq
    exact absurd (List.cons.inj heq).1 hne
  · rename_i heq
    exact absurd (List.cons.inj heq).1 hne
  · rename_i c' rest' _ _ heq
    obtain ⟨rfl, rfl⟩ := List.cons.inj heq
    rw [separatedDigits?.eq_3 _ _ _ _ _ hsep, digitIn?_ten hhead]
    dsimp only
    rw [separatedDigits?_ten (fun x hx => hdigit x (.tail _ hx)),
      ← hvalue, Nat.ofDigitChars_cons]

/-- A length is read back from its decimal numeral. -/
theorem readLength?_repr (h : count ≠ 0) : readLength? count.toNat.repr = some count := by
  have hpos : 0 < count.toNat := by
    rw [Nat.pos_iff_ne_zero]
    intro hz
    exact h (UInt32.toNat_inj.mp hz)
  have hlt : count.toNat < wordLimit := count.toNat_lt
  unfold readLength?
  rw [Nat.toList_repr, markedNumber?_toDigits hpos]
  simp [hpos, hlt]

theorem readLength?_ne_zero {text : String} (h : readLength? text = some count) : count ≠ 0 := by
  unfold readLength? at h
  split at h
  · rename_i n _
    split at h
    · rename_i hn
      simp only [Bool.and_eq_true, decide_eq_true_eq] at hn
      have hmod : n % UInt32.size = n := Nat.mod_eq_of_lt hn.2
      cases h
      intro hz
      have := congrArg UInt32.toNat hz
      rw [Nat.toUInt32_eq, UInt32.toNat_ofNat', hmod] at this
      exact absurd this (by simpa using Nat.ne_of_gt hn.1)
    · cases h
  · cases h

theorem digitIn?_of_startsIdentifier (h : startsIdentifier c = true) : digitIn? 10 c = none := by
  have hle := le_toNat_of_startsIdentifier h
  have hdigit : ¬ ('0' ≤ c ∧ c ≤ '9') := by
    rintro ⟨-, hc⟩
    have : c.toNat ≤ 57 := hc
    omega
  unfold digitIn? digitValue?
  split
  · rename_i hc
    exact absurd (by simpa using hc) hdigit
  · split
    · simp [Option.filter_some]
    · split
      · simp [Option.filter_some]
      · rfl

theorem readLength?_of_isIdentifier (h : isIdentifier token = true) : readLength? token = none := by
  obtain ⟨c, rest, hc, hstart, -⟩ := isIdentifier_cons h
  have hzero : c ≠ '0' := by
    rintro rfl
    exact absurd (le_toNat_of_startsIdentifier hstart) (by decide)
  have hnone : markedNumber? (c :: rest) = none := by
    unfold markedNumber?
    split
    · rfl
    · rename_i heq
      exact absurd (List.cons.inj heq).1 hzero
    · rename_i heq
      exact absurd (List.cons.inj heq).1 hzero
    · rename_i heq
      obtain ⟨rfl, rfl⟩ := List.cons.inj heq
      by_cases hsep : c = '_'
      · subst hsep
        rfl
      · rw [separatedDigits?.eq_3 _ _ _ _ _ hsep, digitIn?_of_startsIdentifier hstart]
  unfold readLength?
  rw [hc, hnone]

end Shader.Program
