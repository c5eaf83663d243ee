import Mathlib.Tactic.IntervalCases
import Shader.Json.Reader

/-!
# Texts that spell a value

A text spells a value if its tokens are those of the value, with a separator between the elements of
an array, between the fields of an object and between a key and its value.
-/

namespace Shader

namespace Json

variable {after lead rest : List JsonToken} {v : Json} {vs : List Json}
  {fields : List (String × Json)}

/-! ## Tokens of values -/

mutual

def tokens : Json → List JsonToken
  | .null => [.null]
  | .bool b => [.bool b]
  | .number text => [.number text]
  | .string text => [.string text]
  | .array elements => .openBracket :: (elementTokens [] elements ++ [.closeBracket])
  | .object fields => .openBrace :: (fieldTokens [] fields ++ [.closeBrace])

/-- The tokens of elements, where `lead` stands before the first and separators before the
others. -/
def elementTokens (lead : List JsonToken) : List Json → List JsonToken
  | [] => []
  | value :: rest => lead ++ (value.tokens ++ elementTokens [.separator] rest)

/-- The tokens of fields, where `lead` stands before the first and separators before the others. -/
def fieldTokens (lead : List JsonToken) : List (String × Json) → List JsonToken
  | [] => []
  | (key, value) :: rest =>
    lead ++ (.string key :: .separator :: (value.tokens ++ fieldTokens [.separator] rest))

end

def lexed (text : List Char) : List JsonToken :=
  JsonToken.lex (text.takeWhile (· ≠ '\x00'))

/-- The text has the tokens of the value. -/
def Spells (text : String) (value : Json) : Prop := lexed text.toList = value.tokens

/-- What may stand before an element or a field. -/
def IsLead (lead : List JsonToken) : Prop := lead = [] ∨ lead = [.separator]

theorem IsLead.nil : IsLead [] := Or.inl rfl

theorem IsLead.separator : IsLead [.separator] := Or.inr rfl

/-! ## Reading tokens -/

def firstToken : Json → JsonToken
  | .null => .null
  | .bool b => .bool b
  | .number text => .number text
  | .string text => .string text
  | .array _ => .openBracket
  | .object _ => .openBrace

def laterTokens : Json → List JsonToken
  | .array elements => elementTokens [] elements ++ [.closeBracket]
  | .object fields => fieldTokens [] fields ++ [.closeBrace]
  | _ => []

theorem tokens_eq (v : Json) : v.tokens = v.firstToken :: v.laterTokens := by
  cases v <;> rfl

theorem nextToken?_lead (hlead : IsLead lead) (tokens : List JsonToken) :
    nextToken? (lead ++ tokens) = nextToken? tokens := by
  rcases hlead with rfl | rfl <;> rfl

theorem nextToken?_tokens (hlead : IsLead lead) (v : Json) (rest : List JsonToken) :
    nextToken? (lead ++ (v.tokens ++ rest)) = some (v.firstToken, v.laterTokens ++ rest) := by
  rw [nextToken?_lead hlead, tokens_eq]
  cases v <;> rfl

theorem goesOn_tokens (hlead : IsLead lead) (v : Json) (rest : List JsonToken) :
    goesOn (lead ++ (v.tokens ++ rest)) = true := by
  rcases hlead with rfl | rfl
  · rw [tokens_eq]
    cases v <;> rfl
  · rfl

theorem goesOn_field (hlead : IsLead lead) (key : String) (rest : List JsonToken) :
    goesOn (lead ++ .string key :: rest) = true := by
  rcases hlead with rfl | rfl <;> rfl

theorem close_self {want : JsonToken} {tokens : List JsonToken}
    (h : nextToken? tokens = some (want, rest)) (hwant : want ≠ .malformed) (sign : Char) :
    ∃ hle, close want sign tokens = .ok ⟨rest, hle⟩ := by
  unfold close
  split
  · next hnone => cases hnone.symm.trans h
  · next t rest' hsome =>
    cases hsome.symm.trans h
    refine ⟨Nat.le_of_lt (nextToken?_lt h), ?_⟩
    simp only [if_neg hwant, if_pos]

theorem value_of_single {tokens : List JsonToken}
    (h : nextToken? tokens = some (v.firstToken, rest)) (hsingle : v.laterTokens = []) :
    ∃ hlt, value tokens = .ok (v, ⟨rest, hlt⟩) := by
  rw [value]
  split
  · next hnone => cases hnone.symm.trans h
  · next t rest' hsome =>
    cases hsome.symm.trans h
    refine ⟨nextToken?_lt h, ?_⟩
    cases v with
    | array | object => simp [laterTokens] at hsingle
    | _ => rfl

theorem value_of_array {tokens : List JsonToken} {hle}
    (h : nextToken? tokens = some (.openBracket, rest))
    (helements : elements rest = .ok (vs, ⟨after, hle⟩)) :
    ∃ hlt, value tokens = .ok (.array vs, ⟨after, hlt⟩) := by
  rw [value]
  split
  · next hnone => cases hnone.symm.trans h
  · next t rest' hsome =>
    cases hsome.symm.trans h
    refine ⟨Nat.lt_of_le_of_lt hle (nextToken?_lt h), ?_⟩
    simp only [helements]

theorem value_of_object {tokens : List JsonToken} {hle}
    (h : nextToken? tokens = some (.openBrace, rest))
    (hmembers : members rest = .ok (fields, ⟨after, hle⟩)) :
    ∃ hlt, value tokens = .ok (.object fields, ⟨after, hlt⟩) := by
  rw [value]
  split
  · next hnone => cases hnone.symm.trans h
  · next t rest' hsome =>
    cases hsome.symm.trans h
    refine ⟨Nat.lt_of_le_of_lt hle (nextToken?_lt h), ?_⟩
    simp only [hmembers]

theorem elements_cons {tokens : List JsonToken} {hlt hle}
    (hgoes : goesOn tokens = true) (hvalue : value tokens = .ok (v, ⟨rest, hlt⟩))
    (hrest : elements rest = .ok (vs, ⟨after, hle⟩)) :
    ∃ hle, elements tokens = .ok (v :: vs, ⟨after, hle⟩) := by
  refine ⟨Nat.le_of_lt (Nat.lt_of_le_of_lt hle hlt), ?_⟩
  rw [elements, if_pos hgoes, hvalue]
  simp only [hrest]

theorem elements_close (rest : List JsonToken) :
    ∃ hle, elements (.closeBracket :: rest) = .ok ([], ⟨rest, hle⟩) := by
  have hnext : nextToken? (.closeBracket :: rest) = some (.closeBracket, rest) := rfl
  obtain ⟨hle, hclose⟩ := close_self hnext nofun ']'
  refine ⟨hle, ?_⟩
  have hstop : ¬ goesOn (.closeBracket :: rest) = true := Bool.false_ne_true
  rw [elements, if_neg hstop, hclose]

theorem members_cons {tokens rest' : List JsonToken} {key : String} {hlt hle}
    (hgoes : goesOn tokens = true) (hkey : nextToken? tokens = some (.string key, rest))
    (hvalue : value rest = .ok (v, ⟨rest', hlt⟩))
    (hrest : members rest' = .ok (fields, ⟨after, hle⟩)) :
    ∃ hle, members tokens = .ok ((key, v) :: fields, ⟨after, hle⟩) := by
  have hshorter := nextToken?_lt hkey
  refine ⟨by omega, ?_⟩
  rw [members, if_pos hgoes]
  split
  · next hnone => cases hnone.symm.trans hkey
  · next t more hsome =>
    cases hsome.symm.trans hkey
    simp only [hvalue, hrest]

theorem members_close (rest : List JsonToken) :
    ∃ hle, members (.closeBrace :: rest) = .ok ([], ⟨rest, hle⟩) := by
  have hnext : nextToken? (.closeBrace :: rest) = some (.closeBrace, rest) := rfl
  obtain ⟨hle, hclose⟩ := close_self hnext nofun '\x7d'
  refine ⟨hle, ?_⟩
  have hstop : ¬ goesOn (.closeBrace :: rest) = true := Bool.false_ne_true
  rw [members, if_neg hstop, hclose]

mutual

theorem value_tokens (v : Json) {lead : List JsonToken} (hlead : IsLead lead)
    (rest : List JsonToken) :
    ∃ hlt, value (lead ++ (v.tokens ++ rest)) = .ok (v, ⟨rest, hlt⟩) := by
  have hnext := nextToken?_tokens hlead v rest
  cases v with
  | array vs =>
    rw [laterTokens, List.append_assoc] at hnext
    obtain ⟨hle, helements⟩ := elements_tokens vs IsLead.nil rest
    exact value_of_array hnext helements
  | object fields =>
    rw [laterTokens, List.append_assoc] at hnext
    obtain ⟨hle, hmembers⟩ := members_tokens fields IsLead.nil rest
    exact value_of_object hnext hmembers
  | _ => exact value_of_single hnext rfl

theorem elements_tokens (vs : List Json) {lead : List JsonToken} (hlead : IsLead lead)
    (rest : List JsonToken) :
    ∃ hle, elements (elementTokens lead vs ++ (.closeBracket :: rest)) = .ok (vs, ⟨rest, hle⟩) := by
  cases vs with
  | nil => exact elements_close rest
  | cons v vs =>
    rw [elementTokens, List.append_assoc, List.append_assoc]
    obtain ⟨hlt, hvalue⟩ := value_tokens v hlead
      (elementTokens [.separator] vs ++ .closeBracket :: rest)
    obtain ⟨hle, hrest⟩ := elements_tokens vs IsLead.separator rest
    exact elements_cons (goesOn_tokens hlead v _) hvalue hrest

theorem members_tokens (fields : List (String × Json)) {lead : List JsonToken} (hlead : IsLead lead)
    (rest : List JsonToken) :
    ∃ hle, members (fieldTokens lead fields ++ (.closeBrace :: rest)) =
      .ok (fields, ⟨rest, hle⟩) := by
  match fields with
  | [] => exact members_close rest
  | (key, v) :: fields =>
    rw [fieldTokens, List.append_assoc, List.cons_append, List.cons_append, List.append_assoc]
    obtain ⟨hlt, hvalue⟩ := value_tokens v IsLead.separator
      (fieldTokens [.separator] fields ++ .closeBrace :: rest)
    obtain ⟨hle, hrest⟩ := members_tokens fields IsLead.separator rest
    exact members_cons (goesOn_field hlead key _) (nextToken?_lead hlead _) hvalue hrest

end

theorem read_of_spells {text : String} (h : Spells text v) : read text = .ok v := by
  have hvalue := value_tokens v IsLead.nil []
  rw [List.nil_append, List.append_nil] at hvalue
  obtain ⟨hlt, hvalue⟩ := hvalue
  rw [Spells, lexed] at h
  rw [read, h, hvalue]
  rfl

end Json

/-! ## Tokens of texts -/

namespace JsonToken

open Text

variable {c : Char} {rest : List Char}

theorem stringBody_unit {a b d : Char} (hunit : codeUnit a b c d < 0xD800) (rest : List Char) :
    stringBody ('\\' :: 'u' :: a :: b :: c :: d :: rest) =
      (stringBody rest).map fun (more, after) =>
        (Char.ofNat (codeUnit a b c d) :: more, after) := by
  have hchar : unitChar (codeUnit a b c d) = Char.ofNat (codeUnit a b c d) := by
    rw [unitChar, if_neg]
    simp only [Bool.and_eq_true, decide_eq_true_eq]
    omega
  by_cases hpair : ∃ e f g h more, rest = '\\' :: 'u' :: e :: f :: g :: h :: more
  · obtain ⟨e, f, g, h, more, rfl⟩ := hpair
    have hnone : pairChar? (codeUnit a b c d) (codeUnit e f g h) = none := by
      rw [pairChar?, if_neg]
      simp only [Bool.and_eq_true, decide_eq_true_eq]
      omega
    rw [stringBody, hnone]
    simp only [hchar]
  · rw [stringBody, hchar]
    exact fun e f g h more heq => hpair ⟨e, f, g, h, more, heq⟩

theorem stringBody_escape {ch : Char} (h : escape? c = some ch) (rest : List Char) :
    stringBody ('\\' :: c :: rest) =
      (stringBody rest).map fun (more, after) => (ch :: more, after) := by
  have hunit : c ≠ 'u' := by
    rintro rfl
    cases h
  rw [stringBody, h]
  · exact fun _ _ _ _ _ _ _ _ _ heq => absurd heq hunit
  · exact fun _ _ _ _ _ heq => absurd heq hunit

/-- The codes of the characters that are written by their code. -/
def IsCoded (n : Nat) : Prop := n < 0x20 ∨ n ∈ [0x26, 0x3C, 0x3E, 0x2028, 0x2029]

theorem codeUnit_hex {n : Nat} (h : IsCoded n) :
    ∃ a b c d, hex 4 n = [a, b, c, d] ∧ codeUnit a b c d = n ∧ '\x00' ∉ [a, b, c, d] := by
  rcases h with h | h
  · interval_cases n <;> exact ⟨_, _, _, _, rfl, rfl, by decide⟩
  · simp only [List.mem_cons, List.not_mem_nil, or_false] at h
    rcases h with rfl | rfl | rfl | rfl | rfl <;> exact ⟨_, _, _, _, rfl, rfl, by decide⟩

theorem isCoded_of_escaped (h : (c.toNat < 0x20 || c = '<' || c = '>' || c = '&' ||
    c.toNat = 0x2028 || c.toNat = 0x2029) = true) : IsCoded c.toNat := by
  simp only [Bool.or_eq_true, decide_eq_true_eq] at h
  rcases h with ((((hlow | rfl) | rfl) | rfl) | hline) | hparagraph
  · exact Or.inl hlow
  · exact Or.inr (by decide)
  · exact Or.inr (by decide)
  · exact Or.inr (by decide)
  · exact Or.inr (by rw [hline]; decide)
  · exact Or.inr (by rw [hparagraph]; decide)

theorem stringBody_coded (h : IsCoded c.toNat) (rest : List Char) :
    stringBody ('\\' :: 'u' :: hex 4 c.toNat ++ rest) =
      (stringBody rest).map fun (more, after) => (c :: more, after) := by
  obtain ⟨x, y, z, w, hhex, hunit, -⟩ := codeUnit_hex h
  have hsmall : c.toNat < 0xD800 := by
    rcases h with h | h
    · omega
    · simp only [List.mem_cons, List.not_mem_nil, or_false] at h
      omega
  have hbody := stringBody_unit (hunit.symm ▸ hsmall) rest
  rw [hunit, Char.ofNat_toNat] at hbody
  rw [hhex]
  exact hbody

theorem stringBody_escapedChar (c : Char) (rest : List Char) :
    stringBody (Json.escapedChar c ++ rest) =
      (stringBody rest).map fun (more, after) => (c :: more, after) := by
  unfold Json.escapedChar
  split_ifs with hquote hslash hnewline hreturn htab hcoded
  · rw [hquote]
    exact stringBody_escape rfl rest
  · rw [hslash]
    exact stringBody_escape rfl rest
  · rw [hnewline]
    exact stringBody_escape rfl rest
  · rw [hreturn]
    exact stringBody_escape rfl rest
  · rw [htab]
    exact stringBody_escape rfl rest
  · exact stringBody_coded (isCoded_of_escaped hcoded) rest
  · rw [List.singleton_append, stringBody]
    · exact hquote
    · exact fun _ _ _ _ _ _ _ _ _ h => absurd h hslash
    · exact fun _ _ _ _ _ h => absurd h hslash
    · exact fun _ _ h => absurd h hslash

theorem stringBody_escaped (text rest : List Char) :
    stringBody (text.flatMap Json.escapedChar ++ '"' :: rest) = some (text, rest) := by
  induction text with
  | nil => rw [List.flatMap_nil, List.nil_append, stringBody]
  | cons c text ih =>
    rw [List.flatMap_cons, List.append_assoc, stringBody_escapedChar, ih]
    rfl

theorem lex_quoted (text : String) (rest : List Char) :
    lex ('"' :: (text.toList.flatMap Json.escapedChar ++ '"' :: rest)) =
      .string text :: lex rest := by
  have hbody := stringBody_escaped text.toList rest
  rw [lex]
  split
  · next body after h =>
    cases h.symm.trans hbody
    rw [String.ofList_toList]
  · next h => cases h.symm.trans hbody

theorem lex_blank (h : c ∈ [' ', '\n', '\r', '\t']) (rest : List Char) :
    lex (c :: rest) = lex rest := by
  simp only [List.mem_cons, List.not_mem_nil, or_false] at h
  rcases h with rfl | rfl | rfl | rfl <;> simp [lex]

theorem lex_blanks {cs : List Char} (h : ∀ c ∈ cs, c ∈ [' ', '\n', '\r', '\t'])
    (rest : List Char) : lex (cs ++ rest) = lex rest := by
  induction cs with
  | nil => rfl
  | cons c cs ih =>
    rw [List.cons_append, lex_blank (h c (.head _))]
    exact ih fun c' hc' => h c' (.tail _ hc')

def isNumberText (text : String) : Bool :=
  match text.toList with
  | [] => false
  | c :: rest => startsNumber c && rest.all isNumberChar

/-- What follows does not go on with a number. -/
def EndsNumber (rest : List Char) : Prop := ∀ c ∈ rest.head?, isNumberChar c = false

theorem EndsNumber.cut (h : EndsNumber rest) : EndsNumber (rest.takeWhile (· ≠ '\x00')) := by
  cases rest with
  | nil => exact h
  | cons c rest =>
    intro d hd
    rw [List.takeWhile_cons] at hd
    split at hd
    · exact h d hd
    · cases hd

theorem lex_number {text : String} (htext : isNumberText text = true) (hrest : EndsNumber rest) :
    lex (text.toList ++ rest) = .number text :: lex rest := by
  unfold isNumberText at htext
  split at htext
  · cases htext
  · next c cs hchars =>
    obtain ⟨hstart, hall⟩ := Bool.and_eq_true_iff.mp htext
    have hstop : rest.takeWhile isNumberChar = [] ∧ rest.dropWhile isNumberChar = rest := by
      cases rest with
      | nil => exact ⟨rfl, rfl⟩
      | cons d rest =>
        have hd : isNumberChar d = false := hrest d rfl
        simp [hd]
    have htake : (cs ++ rest).takeWhile isNumberChar = cs := by
      rw [List.takeWhile_append_of_pos (List.all_eq_true.mp hall), hstop.1, List.append_nil]
    have hdrop : (cs ++ rest).dropWhile isNumberChar = rest := by
      rw [List.dropWhile_append_of_pos (List.all_eq_true.mp hall), hstop.2]
    have hne : ∀ d, startsNumber d = false → c ≠ d := by
      rintro d hd rfl
      cases hstart.symm.trans hd
    have htext : String.ofList (c :: cs) = text := by rw [← hchars, String.ofList_toList]
    rw [hchars, List.cons_append, lex]
    · simp [hne ' ' rfl, hne '\n' rfl, hne '\r' rfl, hne '\t' rfl, hne ',' rfl, hne ':' rfl, hstart,
        htake, hdrop, htext]
    · exact hne _ rfl
    · exact hne _ rfl
    · exact hne _ rfl
    · exact hne _ rfl
    · exact fun _ h => absurd h (hne _ rfl)
    · exact fun _ h => absurd h (hne _ rfl)
    · exact fun _ h => absurd h (hne _ rfl)
    · exact hne _ rfl

end JsonToken

/-! ## The text over several lines -/

namespace Json

open JsonToken

variable {a rest : List Char}

mutual

/-- Every number of the value is read as one number. -/
def IsLegal : Json → Prop
  | .number text => isNumberText text = true
  | .array elements => AllLegal elements
  | .object fields => FieldsLegal fields
  | _ => True

/-- Every element is legal. -/
def AllLegal : List Json → Prop
  | [] => True
  | value :: rest => value.IsLegal ∧ AllLegal rest

/-- Every field has a legal value. -/
def FieldsLegal : List (String × Json) → Prop
  | [] => True
  | (_, value) :: rest => value.IsLegal ∧ FieldsLegal rest

end

theorem lexed_append (ha : '\x00' ∉ a) (rest : List Char) :
    lexed (a ++ rest) = lex (a ++ rest.takeWhile (· ≠ '\x00')) := by
  rw [lexed, List.takeWhile_append_of_pos]
  intro c hc
  simpa using fun heq : c = '\x00' => ha (heq ▸ hc)

theorem nul_not_mem_escapedChar (c : Char) : '\x00' ∉ escapedChar c := by
  unfold escapedChar
  split_ifs with hquote hslash hnewline hreturn htab hcoded
  · decide
  · decide
  · decide
  · decide
  · decide
  · obtain ⟨x, y, z, w, hhex, -, hfree⟩ := codeUnit_hex (isCoded_of_escaped hcoded)
    rw [hhex]
    simpa using hfree
  · intro hmem
    rw [← List.mem_singleton.mp hmem] at hcoded
    exact hcoded (by decide)

/-- What is lexed into some tokens before every text is so before every text up to its first NUL. -/
theorem lexed_of_lex (tokens : List JsonToken) (ha : '\x00' ∉ a)
    (hlex : ∀ rest, lex (a ++ rest) = tokens ++ lex rest) (rest : List Char) :
    lexed (a ++ rest) = tokens ++ lexed rest := by
  rw [lexed_append ha]
  exact hlex _

theorem lexed_quotedText (text : String) (rest : List Char) :
    lexed ((quotedText text).toList ++ rest) = .string text :: lexed rest := by
  refine lexed_of_lex [_] (by simp [quotedText, nul_not_mem_escapedChar]) (fun rest => ?_) rest
  rw [quotedText, String.toList_ofList, List.cons_append, List.append_assoc]
  exact lex_quoted text rest

theorem lexed_number {text : String} (htext : isNumberText text = true) (hrest : EndsNumber rest) :
    lexed (text.toList ++ rest) = .number text :: lexed rest := by
  have hfree : '\x00' ∉ text.toList := by
    intro hmem
    unfold isNumberText at htext
    split at htext
    · cases htext
    · next c cs hchars =>
      obtain ⟨hstart, hall⟩ := Bool.and_eq_true_iff.mp htext
      rw [hchars] at hmem
      rcases List.mem_cons.mp hmem with rfl | hmem
      · cases hstart
      · cases List.all_eq_true.mp hall _ hmem
  rw [lexed_append hfree]
  exact lex_number htext hrest.cut

theorem lexed_newline (depth : Nat) (rest : List Char) :
    lexed ((newline depth).toList ++ rest) = lexed rest := by
  have hblank : ∀ c ∈ (newline depth).toList, c ∈ [' ', '\n', '\r', '\t'] := by
    intro c hc
    rw [show (newline depth).toList = '\n' :: List.replicate (2 * depth) ' '
      by simp [newline]] at hc
    rcases List.mem_cons.mp hc with rfl | hc
    · decide
    · rw [List.eq_of_mem_replicate hc]
      decide
  exact lexed_of_lex [] (fun hmem => absurd (hblank _ hmem) (by decide))
    (lex_blanks hblank) rest

def signs : List (String × JsonToken) :=
  [("\x7b", .openBrace), ("\x7d", .closeBrace), ("[", .openBracket), ("]", .closeBracket),
   ("true", .bool true), ("false", .bool false), ("null", .null), (",", .separator),
   (": ", .separator)]

theorem lexed_sign (text : String) (token : JsonToken) (h : (text, token) ∈ signs)
    (rest : List Char) : lexed (text.toList ++ rest) = token :: lexed rest := by
  simp only [signs, List.mem_cons, List.not_mem_nil, or_false, Prod.mk.injEq] at h
  rcases h with ⟨rfl, rfl⟩ | ⟨rfl, rfl⟩ | ⟨rfl, rfl⟩ | ⟨rfl, rfl⟩ | ⟨rfl, rfl⟩ | ⟨rfl, rfl⟩ |
      ⟨rfl, rfl⟩ | ⟨rfl, rfl⟩ | ⟨rfl, rfl⟩ <;>
    exact lexed_of_lex [_] (by decide) (fun rest => by simp [lex]) rest

theorem toList_intercalate_cons (line : String) (lines : List String) :
    (",".intercalate (line :: lines)).toList =
      line.toList ++ lines.flatMap fun line => ",".toList ++ line.toList := by
  induction lines generalizing line with
  | nil => simp
  | cons next lines ih =>
    rw [String.toList_intercalate, List.map_cons, List.map_cons, List.intercalate_cons_cons,
      ← List.map_cons, ← String.toList_intercalate, ih]
    simp

theorem endsNumber_lines {lines : List String} (h : EndsNumber rest) :
    EndsNumber ((lines.flatMap fun line => ",".toList ++ line.toList) ++ rest) := by
  cases lines with
  | nil => exact h
  | cons line lines =>
    intro c hc
    cases hc
    rfl

theorem endsNumber_newline (depth : Nat) (rest : List Char) :
    EndsNumber ((newline depth).toList ++ rest) := by
  intro c hc
  rw [newline, String.toList_append] at hc
  cases hc
  rfl

mutual

theorem lexed_prettyAt (v : Json) (hv : v.IsLegal) (depth : Nat) {rest : List Char}
    (hrest : EndsNumber rest) :
    lexed ((prettyAt depth v).toList ++ rest) = v.tokens ++ lexed rest := by
  match v with
  | .null => exact lexed_sign "null" _ (by decide) rest
  | .bool true => exact lexed_sign "true" _ (by decide) rest
  | .bool false => exact lexed_sign "false" _ (by decide) rest
  | .number text => exact lexed_number hv hrest
  | .string text => exact lexed_quotedText text rest
  | .array [] =>
    rw [prettyAt, show "[]" = "[" ++ "]" from rfl, String.toList_append, List.append_assoc,
      lexed_sign "[" .openBracket (by decide),
      lexed_sign "]" .closeBracket (by decide)]
    rfl
  | .array (v :: vs) =>
    have hend := endsNumber_newline depth ("]".toList ++ rest)
    rw [prettyAt, elementLines, String.toList_append, String.toList_append, String.toList_append,
      toList_intercalate_cons, String.toList_append]
    · simp only [List.append_assoc]
      rw [lexed_sign "[" .openBracket (by decide), lexed_newline,
        lexed_prettyAt v hv.1 _ (endsNumber_lines hend), lexed_elementLines vs hv.2 _ hend,
        lexed_newline, lexed_sign "]" .closeBracket (by decide)]
      simp [tokens, elementTokens]
    · exact nofun
  | .object [] =>
    rw [prettyAt, show "\x7b\x7d" = "\x7b" ++ "\x7d" from rfl, String.toList_append,
      List.append_assoc, lexed_sign "\x7b" .openBrace (by decide),
      lexed_sign "\x7d" .closeBrace (by decide)]
    rfl
  | .object ((key, v) :: fields) =>
    have hend := endsNumber_newline depth ("\x7d".toList ++ rest)
    rw [prettyAt, fieldLines, String.toList_append, String.toList_append, String.toList_append,
      toList_intercalate_cons, String.toList_append, String.toList_append, String.toList_append]
    · simp only [List.append_assoc]
      rw [lexed_sign "\x7b" .openBrace (by decide), lexed_newline, lexed_quotedText,
        lexed_sign ": " .separator (by decide),
        lexed_prettyAt v hv.1 _ (endsNumber_lines hend), lexed_fieldLines fields hv.2 _ hend,
        lexed_newline, lexed_sign "\x7d" .closeBrace (by decide)]
      simp [tokens, fieldTokens]
    · exact nofun

theorem lexed_elementLines (vs : List Json) (hvs : AllLegal vs) (depth : Nat) {rest : List Char}
    (hrest : EndsNumber rest) :
    lexed (((elementLines depth vs).flatMap fun line => ",".toList ++ line.toList) ++ rest) =
      elementTokens [.separator] vs ++ lexed rest := by
  match vs with
  | [] => rfl
  | v :: vs =>
    rw [elementLines, List.flatMap_cons, String.toList_append]
    simp only [List.append_assoc]
    rw [lexed_sign "," .separator (by decide), lexed_newline,
      lexed_prettyAt v hvs.1 _ (endsNumber_lines hrest), lexed_elementLines vs hvs.2 _ hrest]
    simp [elementTokens]

theorem lexed_fieldLines (fields : List (String × Json)) (hfields : FieldsLegal fields)
    (depth : Nat) {rest : List Char} (hrest : EndsNumber rest) :
    lexed (((fieldLines depth fields).flatMap fun line => ",".toList ++ line.toList) ++ rest) =
      fieldTokens [.separator] fields ++ lexed rest := by
  match fields with
  | [] => rfl
  | (key, v) :: fields =>
    rw [fieldLines, List.flatMap_cons, String.toList_append, String.toList_append,
      String.toList_append]
    simp only [List.append_assoc]
    rw [lexed_sign "," .separator (by decide), lexed_newline,
      lexed_quotedText, lexed_sign ": " .separator (by decide),
      lexed_prettyAt v hfields.1 _ (endsNumber_lines hrest),
      lexed_fieldLines fields hfields.2 _ hrest]
    simp [fieldTokens]

end

theorem spells_pretty {v : Json} (hv : v.IsLegal) : Spells (pretty v) v := by
  have hend : lexed [] = [] := by rw [lexed, List.takeWhile_nil, lex]
  have h : lexed ((prettyAt 0 v).toList ++ []) = _ :=
    lexed_prettyAt v hv 0 fun c hc => absurd hc (by simp)
  rwa [List.append_nil, hend, List.append_nil] at h

end Json

end Shader
