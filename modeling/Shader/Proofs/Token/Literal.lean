import Mathlib.Computability.Language
import Shader.Proofs.Grammar.Word
import Shader.Source

/-!
# The grammar of numbers

The numbers of the language are a regular set of words, and `isNumericLiteral` accepts these. It
takes digits as long as there are any. That loses nothing, since nothing that may follow digits
starts with one. All words are ASCII, so bytes that spell other characters, or none, are refused.
-/

namespace Shader.Literal

open Computability Language Text

variable {c : Char} {cs : String} {chars rest : List Char} {float : Bool} {p : Char → Bool}
  {L M : Language Char}

/-! ## The grammar -/

def oneOf (cs : String) : Language Char := {word | ∃ c ∈ cs.toList, word = [c]}

def repeated (L : Language Char) : Language Char := L * L∗

abbrev digit : Language Char := oneOf "0123456789"

abbrev hexDigit : Language Char := oneOf "0123456789abcdefABCDEF"

def hexadecimal : Language Char :=
  oneOf "0" * (oneOf "xX" * (repeated hexDigit * (1 + oneOf "ui")))

def integer : Language Char := repeated digit * oneOf "ui"

def floatMark : Language Char := 1 + oneOf "fh" + oneOf "l" * oneOf "f"

/-- What may follow the digits of a float: an exponent and a mark, or one of them. -/
def ending : Language Char :=
  (1 + oneOf "eE" * ((1 + oneOf "+-") * repeated digit)) * floatMark

def decimal : Language Char :=
  (repeated digit * (1 + oneOf "." * digit∗) + oneOf "." * repeated digit) * ending

def numeral : Language Char := hexadecimal + integer + decimal

/-! ## Digits -/

@[simp]
theorem mem_oneOf : chars ∈ oneOf cs ↔ ∃ c ∈ cs.toList, chars = [c] := Iff.rfl

@[simp]
theorem cons_mem_oneOf_mul : c :: rest ∈ oneOf cs * L ↔ c ∈ cs.toList ∧ rest ∈ L := by
  simp [mem_mul]

@[simp]
theorem nil_notMem_oneOf_mul : [] ∉ oneOf cs * L := by
  simp [mem_mul]

theorem mem_kstar_mul_iff (hp : ∀ c, p c = true ↔ c ∈ cs.toList)
    (hL : ∀ c rest, c :: rest ∈ L → p c = false) :
    chars ∈ (oneOf cs)∗ * L ↔ chars.dropWhile p ∈ L := by
  induction chars with
  | nil =>
    rw [← one_add_self_mul_kstar_eq_kstar, one_add_mul, mul_assoc, mem_add]
    simp
  | cons c rest ih =>
    rw [← one_add_self_mul_kstar_eq_kstar, one_add_mul, mul_assoc, mem_add, cons_mem_oneOf_mul,
      ← hp, ih]
    cases hc : p c with
    | false => simp [hc]
    | true =>
      have hfirst : c :: rest ∉ L := fun hmem => by simp [hL c rest hmem] at hc
      simp [hc, hfirst]

theorem mem_repeated_mul_iff (hp : ∀ c, p c = true ↔ c ∈ cs.toList)
    (hL : ∀ c rest, c :: rest ∈ L → p c = false) :
    chars ∈ repeated (oneOf cs) * L ↔ chars.takeWhile p ≠ [] ∧ chars.dropWhile p ∈ L := by
  rw [repeated, mul_assoc]
  cases chars with
  | nil => simp
  | cons c rest =>
    rw [cons_mem_oneOf_mul, mem_kstar_mul_iff hp hL, ← hp]
    cases hc : p c <;> simp [hc]

theorem isAsciiDigit_iff_mem (c : Char) : isAsciiDigit c = true ↔ c ∈ "0123456789".toList := by
  rw [Program.isAsciiDigit_iff]
  simp [← Char.toNat_inj]
  omega

theorem isHexDigit_iff_mem (c : Char) :
    isHexDigit c = true ↔ c ∈ "0123456789abcdefABCDEF".toList := by
  simp [isHexDigit, isAsciiDigit, Char.le_def, UInt32.le_iff_toNat_le, ← Char.toNat_inj]
  omega

/-! ## Ends of numbers -/

theorem mem_floatMark :
    chars ∈ floatMark ↔ chars = [] ∨ chars = ['f'] ∨ chars = ['h'] ∨ chars = ['l', 'f'] := by
  rw [floatMark, mem_add, mem_add, mem_one]
  cases chars <;> simp [or_assoc]

theorem isLiteralSuffix_iff : isLiteralSuffix float chars = true ↔
    chars ∈ floatMark ∨ float = false ∧ chars ∈ oneOf "ui" := by
  simp [isLiteralSuffix, mem_floatMark, or_assoc]

theorem mem_digits_floatMark : chars ∈ repeated digit * floatMark ↔
    chars.takeWhile isAsciiDigit ≠ [] ∧ chars.dropWhile isAsciiDigit ∈ floatMark := by
  refine mem_repeated_mul_iff isAsciiDigit_iff_mem fun c rest hmem => ?_
  have hc : c = 'f' ∨ c = 'h' ∨ c = 'l' := by
    simp [mem_floatMark] at hmem
    tauto
  rcases hc with rfl | rfl | rfl <;> decide

theorem mem_ending : chars ∈ ending ↔ chars ∈ floatMark ∨
    chars ∈ oneOf "eE" * ((1 + oneOf "+-") * (repeated digit * floatMark)) := by
  rw [ending, one_add_mul, mem_add, mul_assoc, mul_assoc]

theorem isLiteralTail_iff : isLiteralTail float chars = true ↔
    chars ∈ ending ∨ float = false ∧ chars ∈ oneOf "ui" := by
  rw [mem_ending]
  unfold isLiteralTail
  cases chars with
  | nil => simp [isLiteralSuffix_iff]
  | cons e more =>
    by_cases he : e = 'e' ∨ e = 'E'
    · have hmark : e :: more ∉ floatMark ∧ e :: more ∉ oneOf "ui" := by
        rcases he with rfl | rfl <;> simp [mem_floatMark]
      dsimp only
      rw [if_pos (by simpa using he), Bool.and_eq_true, isLiteralSuffix_iff, cons_mem_oneOf_mul,
        one_add_mul, mem_add, mem_digits_floatMark]
      split
      · simp [he, hmark, mem_digits_floatMark, show isAsciiDigit '+' = false by decide]
      · simp [he, hmark, mem_digits_floatMark, show isAsciiDigit '-' = false by decide]
      · cases more <;> simp_all
    · simp [he, isLiteralSuffix_iff]

/-- A decimal number starts with digits or with a point. Behind digits there may be an ending, the
mark of an integer, or a point and more digits. -/
theorem mem_integer_add_decimal : chars ∈ integer + decimal ↔
    chars ∈ repeated digit * (ending + oneOf "ui" + oneOf "." * (digit∗ * ending)) ∨
      chars ∈ oneOf "." * (repeated digit * ending) := by
  simp only [integer, decimal, mul_add, add_mul, mul_one, mul_assoc, mem_add]
  tauto

theorem head_ending (hmem : c :: rest ∈ ending + oneOf "ui") :
    isAsciiDigit c = false ∧ c ≠ '.' := by
  rw [mem_add, mem_ending, cons_mem_oneOf_mul, mem_floatMark] at hmem
  have hc : c = 'f' ∨ c = 'h' ∨ c = 'l' ∨ c = 'e' ∨ c = 'E' ∨ c = 'u' ∨ c = 'i' := by
    simp at hmem
    tauto
  rcases hc with rfl | rfl | rfl | rfl | rfl | rfl | rfl <;> decide

theorem isDecimalLiteral_iff : isDecimalLiteral chars = true ↔ chars ∈ integer + decimal := by
  have hending (c : Char) (rest : List Char) (hmem : c :: rest ∈ ending) :=
    (head_ending (Or.inl hmem)).1
  have hbehind (c : Char) (rest : List Char)
      (hmem : c :: rest ∈ ending + oneOf "ui" + oneOf "." * (digit∗ * ending)) :
      isAsciiDigit c = false := by
    rw [mem_add, cons_mem_oneOf_mul] at hmem
    rcases hmem with hmem | ⟨hc, -⟩
    · exact (head_ending hmem).1
    · rw [show c = '.' by simpa using hc]
      decide
  have hpoint (rest : List Char) : '.' :: rest ∉ ending + oneOf "ui" :=
    fun hmem => (head_ending hmem).2 rfl
  rw [mem_integer_add_decimal, mem_repeated_mul_iff isAsciiDigit_iff_mem hbehind, mem_add]
  unfold isDecimalLiteral
  dsimp only
  split
  · rename_i rest hdrop
    rw [hdrop, cons_mem_oneOf_mul, mem_kstar_mul_iff isAsciiDigit_iff_mem hending]
    cases chars with
    | nil => cases hdrop
    | cons c more =>
      rw [cons_mem_oneOf_mul, mem_repeated_mul_iff isAsciiDigit_iff_mem hending]
      cases hc : isAsciiDigit c with
      | true =>
        have hne : c ≠ '.' := by
          rintro rfl
          exact absurd hc (by decide)
        simp [hc, hne, isLiteralTail_iff, -add_eq_sup, hpoint]
      | false =>
        rw [List.dropWhile_cons_of_neg (by simp [hc])] at hdrop
        cases hdrop
        simp [hc, isLiteralTail_iff]
  · rename_i hdrop
    have hno : chars.dropWhile isAsciiDigit ∉ oneOf "." * (digit∗ * ending) := by
      cases hrest : chars.dropWhile isAsciiDigit <;> simp_all
    have hstart : chars ∉ oneOf "." * (repeated digit * ending) := by
      cases chars with
      | nil => simp
      | cons c more =>
        rw [cons_mem_oneOf_mul]
        rintro ⟨hc, -⟩
        obtain rfl : c = '.' := by simpa using hc
        exact hdrop more rfl
    simp [hno, hstart, isLiteralTail_iff, mem_add, -add_eq_sup]

theorem isHexBody_iff : isHexBody chars = true ↔ chars ∈ repeated hexDigit * (1 + oneOf "ui") := by
  rw [mem_repeated_mul_iff isHexDigit_iff_mem, mem_add, mem_one]
  · simp [isHexBody, or_assoc]
  · intro c rest hmem
    rw [mem_add, mem_one] at hmem
    have hc : c = 'u' ∨ c = 'i' := by
      simp at hmem
      tauto
    rcases hc with rfl | rfl <;> decide

theorem isNumericLiteral_iff_mem (token : String) :
    isNumericLiteral token = true ↔ token.toList ∈ numeral := by
  rw [numeral, add_assoc, mem_add, ← isDecimalLiteral_iff, hexadecimal]
  unfold isNumericLiteral
  split
  · rename_i m c rest htoken
    rw [htoken, cons_mem_oneOf_mul, cons_mem_oneOf_mul, ← isHexBody_iff]
    split
    · rename_i hm
      have hnone : isDecimalLiteral ('0' :: m :: c :: rest) = false := by
        rw [Bool.or_eq_true, decide_eq_true_eq, decide_eq_true_eq] at hm
        rcases hm with rfl | rfl <;> rfl
      simp_all
    · simp_all
  · rename_i htoken
    rw [iff_or_self]
    intro hmem
    rcases hchars : token.toList with _ | ⟨a, _ | ⟨m, _ | ⟨c, rest⟩⟩⟩
    · simp [hchars] at hmem
    · simp [hchars] at hmem
    · simp [hchars, ← isHexBody_iff, -add_eq_sup, isHexBody] at hmem
    · simp [hchars] at hmem
      exact absurd (hmem.1 ▸ hchars) (htoken m c rest)

/-! ## Bytes -/

def IsAscii (L : Language Char) : Prop := ∀ word ∈ L, ∀ c ∈ word, c.toNat < 128

theorem isAscii_one : IsAscii 1 := by
  rintro _ rfl
  exact List.forall_mem_nil _

theorem isAscii_oneOf (h : cs.toList.all (·.toNat < 128) = true) : IsAscii (oneOf cs) := by
  rintro _ ⟨c, hc, rfl⟩
  simpa using List.all_eq_true.mp h c hc

theorem isAscii_add (hL : IsAscii L) (hM : IsAscii M) : IsAscii (L + M) :=
  fun word hword => hword.elim (hL word) (hM word)

theorem isAscii_mul (hL : IsAscii L) (hM : IsAscii M) : IsAscii (L * M) := by
  rintro _ ⟨front, hfront, back, hback, rfl⟩
  exact List.forall_mem_append.mpr ⟨hL front hfront, hM back hback⟩

theorem isAscii_kstar (hL : IsAscii L) : IsAscii L∗ := by
  rintro _ ⟨words, rfl, hwords⟩ c hc
  obtain ⟨word, hword, hc⟩ := List.mem_flatten.mp hc
  exact hL word (hwords word hword) c hc

theorem isAscii_numeral : IsAscii numeral := by
  unfold numeral hexadecimal integer decimal ending floatMark repeated digit hexDigit
  refine isAscii_add (isAscii_add ?_ ?_) (isAscii_mul ?_ (isAscii_mul ?_ ?_)) <;>
    apply_rules [isAscii_add, isAscii_mul, isAscii_kstar, isAscii_oneOf, isAscii_one]

theorem toNat_ofNat {n : Nat} (h : n < 0xD800 ∨ 0xDFFF < n ∧ n < 0x110000) :
    (Char.ofNat n).toNat = n := by
  rw [Char.ofNat, dif_pos h]
  rfl

theorem multibyte?_ge {b : UInt8} {bytes : List UInt8} {more : Nat}
    (h : multibyte? b bytes = some (c, more)) : 128 ≤ c.toNat := by
  unfold multibyte? at h
  simp only [isContinuation, joinBits, List.foldl_cons, List.foldl_nil, Bool.and_eq_true,
    decide_eq_true_eq, UInt8.le_iff_toNat_le, ← UInt8.toNat_inj, apply_ite UInt8.toNat,
    UInt8.reduceToNat] at h
  repeat' split at h
  all_goals cases h
  -- The number of a shortest form is large enough and no surrogate, so the character has it.
  all_goals rw [toNat_ofNat] <;> omega

theorem shown_ofBytes (bytes : List UInt8) :
    (Source.ofBytes bytes).map Symbol.shown = bytes.map (Char.ofNat ·.toNat) ∨
      (∃ c ∈ (Source.ofBytes bytes).map Symbol.shown, 128 ≤ c.toNat) ∧
        ∃ c ∈ bytes.map (Char.ofNat ·.toNat), 128 ≤ c.toNat := by
  have hbyte (b : UInt8) : (Char.ofNat b.toNat).toNat = b.toNat :=
    toNat_ofNat (Or.inl (b.toNat_lt.trans (by decide)))
  fun_induction Source.ofBytes bytes with
  | case1 => exact Or.inl rfl
  | case2 b rest hb ih =>
    simp only [List.map_cons, Symbol.shown, List.exists_mem_cons_iff]
    grind
  | case3 b rest hb c more hc ih =>
    have hchar := multibyte?_ge hc
    exact Or.inr ⟨⟨c, .head _, hchar⟩, _, .head _, by grind [UInt8.lt_iff_toNat_lt]⟩
  | case4 b rest hb hc ih =>
    exact Or.inr ⟨⟨'�', .head _, by decide⟩, _, .head _, by grind [UInt8.lt_iff_toNat_lt]⟩

/-- A text is accepted as a number if and only if it is a word of the grammar, and so are the bytes
of a source. -/
theorem isNumericLiteral_iff :
    (∀ token : String, isNumericLiteral token = true ↔ token.toList ∈ numeral) ∧
      ∀ bytes : List UInt8, isNumericLiteral (Source.ofBytes bytes).shown = true ↔
        bytes.map (Char.ofNat ·.toNat) ∈ numeral := by
  refine ⟨isNumericLiteral_iff_mem, fun bytes => ?_⟩
  rw [isNumericLiteral_iff_mem, Source.shown, String.toList_ofList]
  rcases shown_ofBytes bytes with heq | ⟨⟨c, hc, hle⟩, d, hd, hle'⟩
  · rw [heq]
  · exact iff_of_false (fun h => absurd (isAscii_numeral _ h c hc) hle.not_gt)
      fun h => absurd (isAscii_numeral _ h d hd) hle'.not_gt

end Shader.Literal
