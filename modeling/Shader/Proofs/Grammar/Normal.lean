import Shader.Proofs.Grammar.Assembly
import Shader.Proofs.Grammar.Reader

/-!
# What is read belongs to the grammar and is written in normal form

Each reader is followed along the list of tokens: where it succeeds, the tree it gives belongs to
the grammar, and the normal form of the tokens ahead starts with the tokens of that tree. The
place at which normalization stands is known before and after each reader; in an expression it is
an operand's place exactly where the reader would take a sign as part of a number.
-/

namespace Shader.Program

open Text

variable {place : Place} {name tag token type : String} {rest tags : List String} {c d : Cursor}
  {node : Node} {prior : Option Atom} {count : UInt32} {m : Member} {index : Nat} {i : Item}

/-! ## Steps of normalization -/

theorem normalizeFrom_cons
    (hplace : place ≠ .bracket) (hcomma : token ≠ ",") (hplus : token ≠ "+") :
    normalizeFrom place (token :: rest) = token :: normalizeFrom (place.after token) rest := by
  simp [normalizeFrom, hplace, hcomma, hplus]

theorem normalizeFrom_comma (hplace : place ≠ .bracket) (hrest : rest.head? ≠ some "\x7d") :
    normalizeFrom place ("," :: rest) = "," :: normalizeFrom .operand rest := by
  simp [normalizeFrom, hplace, hrest, Place.after]

theorem normalizeFrom_comma_brace :
    normalizeFrom place ("," :: "\x7d" :: rest) = normalizeFrom place ("\x7d" :: rest) := by
  rw [normalizeFrom]
  simp

theorem normalizeFrom_sign {number : String} (hnumber : isNumericLiteral number = true) :
    normalizeFrom .operand ("+" :: number :: rest) = normalizeFrom .operand (number :: rest) := by
  rw [normalizeFrom]
  simp [hnumber]

theorem normalizeFrom_plus (hplace : place ≠ .bracket)
    (h : ¬ (place = .operand ∧ rest.head?.any isNumericLiteral = true)) :
    normalizeFrom place ("+" :: rest) = "+" :: normalizeFrom .operand rest := by
  rw [normalizeFrom, if_neg (by simp), if_neg (by simpa using h), if_neg hplace]
  rfl

theorem after_eq_other (hbracket : token ≠ "[")
    (hopen : token ∉ ["\x7b", ";", "(", ","]) (hpower : bindingPower token = 0)
    (hreturn : place ≠ .operand ∨ token ≠ "return") : place.after token = .other := by
  unfold Place.after
  split
  · rename_i h
    rcases hreturn with hr | hr
    · rw [if_neg hr]
    · exact absurd h hr
  · exact if_neg (by simp [hopen, hpower])

theorem after_identifier (h : isIdentifier token = true)
    (hreturn : place ≠ .operand ∨ token ≠ "return") : place.after token = .other := by
  refine after_eq_other (ne_of_isIdentifier h (by decide)) ?_ (bindingPower_of_isIdentifier h)
    hreturn
  intro hmem
  have hall : ∀ t ∈ ["\x7b", ";", "(", ","], isIdentifier t = false := by decide
  rw [hall token hmem] at h
  cases h

theorem after_literal (h : isLiteral token = true) : place.after token = .other := by
  refine after_eq_other (ne_of_isLiteral h (by decide)) ?_ (bindingPower_of_isLiteral h)
    (Or.inr (ne_of_isLiteral h (by decide)))
  intro hmem
  have hall : ∀ t ∈ ["\x7b", ";", "(", ","], isLiteral t = false := by decide
  rw [hall token hmem] at h
  cases h

theorem after_operator (h : 0 < bindingPower token) : place.after token = .operand := by
  have hmem := mem_operatorSymbols h
  have hall : ∀ t ∈ operatorSymbols, t ≠ "return" ∧ t ≠ "[" := by decide
  obtain ⟨hr, hb⟩ := hall token hmem
  simp [Place.after, hr, hb, h]

theorem normalizeFrom_identifier (h : isIdentifier token = true) (hplace : place ≠ .bracket)
    (hreturn : place ≠ .operand ∨ token ≠ "return") :
    normalizeFrom place (token :: rest) = token :: normalizeFrom .other rest := by
  rw [normalizeFrom_cons hplace (ne_of_isIdentifier h (by decide))
    (ne_of_isIdentifier h (by decide)), after_identifier h hreturn]

theorem normalizeFrom_name (h : isIdentifier token = true) :
    normalizeFrom .other (token :: rest) = token :: normalizeFrom .other rest :=
  normalizeFrom_identifier h (by decide) (Or.inl (by decide))

theorem normalizeFrom_literal (h : isLiteral token = true) (hplace : place ≠ .bracket) :
    normalizeFrom place (token :: rest) = token :: normalizeFrom .other rest := by
  rw [normalizeFrom_cons hplace (ne_of_isLiteral h (by decide)) (ne_of_isLiteral h (by decide)),
    after_literal h]

theorem normalizeFrom_token (place : Place) (token : String) (after : Place)
    (h : place ≠ .bracket ∧ token ≠ "," ∧ token ≠ "+" ∧ place.after token = after) :
    normalizeFrom place (token :: rest) = token :: normalizeFrom after rest := by
  rw [normalizeFrom_cons h.1 h.2.1 h.2.2.1, h.2.2.2]

theorem normalizeFrom_anywhere (token : String) (after : Place) (hplace : place ≠ .bracket)
    (h : token ≠ "," ∧ token ≠ "+" ∧ Place.operand.after token = after ∧
      Place.other.after token = after) :
    normalizeFrom place (token :: rest) = token :: normalizeFrom after rest := by
  obtain ⟨hcomma, hplus, hoperand, hother⟩ := h
  cases place with
  | operand => exact normalizeFrom_token .operand token after ⟨hplace, hcomma, hplus, hoperand⟩
  | bracket => exact absurd rfl hplace
  | other => exact normalizeFrom_token .other token after ⟨hplace, hcomma, hplus, hother⟩

theorem normalizeFrom_declared (hplace : place ≠ .bracket) (h : isIdentifier name = true) :
    normalizeFrom place (name :: ":" :: rest) = name :: ":" :: normalizeFrom .other rest := by
  have hafter : place.after name ≠ .bracket := by
    by_cases hreturn : name = "return"
    · subst hreturn
      cases place <;> decide
    · rw [after_identifier h (Or.inr hreturn)]
      decide
  rw [normalizeFrom_cons hplace (ne_of_isIdentifier h (by decide))
    (ne_of_isIdentifier h (by decide)), normalizeFrom_cons hafter (by decide) (by decide)]
  rfl

/-! ## Types -/

theorem genericArgument_normal {outer : String} (houter : isIdentifier outer = true)
    (h : genericArgument outer c = .ok (type, d)) :
    IsTypeName type ∧
      outer :: normalizeFrom .other c.rest = typeTokens type ++ normalizeFrom .other d.rest := by
  unfold genericArgument at h
  split at h
  · rename_i hopen
    obtain ⟨⟨inner, c₁⟩, h₁, h⟩ := bind_eq_ok h
    obtain ⟨hinner, hid⟩ := identifier_rest h₁
    rw [Cursor.sees_eq_true_iff.mp hopen,
      normalizeFrom_token .other "<" .other (by decide), hinner,
      normalizeFrom_name hid]
    dsimp only at h
    split at h
    · rename_i hstar
      obtain ⟨c₂, h₂, h⟩ := bind_eq_ok h
      cases h
      rw [Cursor.sees_eq_true_iff.mp hstar,
        normalizeFrom_token .other "*" .operand (by decide), expect_rest h₂,
        normalizeFrom_token .operand ">" .other (by decide),
        typeTokens_pointer houter]
      exact ⟨.pointer houter hid, rfl⟩
    · obtain ⟨c₂, h₂, h⟩ := bind_eq_ok h
      cases h
      rw [expect_rest h₂, normalizeFrom_token .other ">" .other (by decide),
        typeTokens_generic houter hid]
      exact ⟨.generic houter hid, rfl⟩
  · cases h
    rw [typeTokens_plain houter]
    exact ⟨.plain houter, rfl⟩

/-- A type that is read belongs to the grammar and stands in its normal form. -/
theorem typeName_normal (h : typeName c = .ok (type, d)) :
    IsTypeName type ∧
      normalizeFrom .other c.rest = typeTokens type ++ normalizeFrom .other d.rest := by
  obtain ⟨⟨outer, c₁⟩, h₁, h⟩ := bind_eq_ok h
  obtain ⟨houter, hid⟩ := identifier_rest h₁
  rw [houter, normalizeFrom_name hid]
  exact genericArgument_normal hid h

theorem typeName_head (h : typeName c = .ok (type, d)) :
    (typeTokens type).head? = c.rest.head? := by
  obtain ⟨⟨outer, c₁⟩, h₁, h⟩ := bind_eq_ok h
  obtain ⟨hrest, hid⟩ := identifier_rest h₁
  obtain ⟨-, hnormal⟩ := genericArgument_normal hid h
  rw [hrest, ← head?_typeTokens_append, ← hnormal, List.head?_cons, List.head?_cons]

theorem after_length (hplace : place ≠ .operand) (h : readLength? token = some count) :
    place.after token = .other := by
  have hall : ∀ t ∈ "[" :: ["\x7b", ";", "(", ","] ++ operatorSymbols, readLength? t = none := by
    decide
  have hnot : ∀ t ∈ "[" :: ["\x7b", ";", "(", ","] ++ operatorSymbols, token ≠ t := by
    rintro t ht rfl
    rw [hall token ht] at h
    cases h
  refine after_eq_other (hnot _ (by simp)) ?_ ?_ (Or.inl hplace)
  · intro hmem
    exact hnot token (by simp at hmem ⊢; tauto) rfl
  · by_contra hne
    have hmem := mem_operatorSymbols (Nat.pos_of_ne_zero hne)
    exact hnot token (List.mem_append_right _ hmem) rfl

/-- An array length that is read stands in its normal form. -/
theorem arrayLength_normal (h : arrayLength c = .ok (count, d)) :
    normalizeFrom .other c.rest = lengthTokens count ++ normalizeFrom .other d.rest := by
  unfold arrayLength at h
  split at h
  · rename_i hopen
    rw [Cursor.sees_eq_true_iff.mp hopen, normalizeFrom_token .other "[" .bracket (by decide)]
    split at h
    · cases h
    · rename_i token rest hrest
      split at h
      · cases h
      · rename_i count' hcount
        obtain ⟨c₁, h₁, h⟩ := bind_eq_ok h
        cases h
        have hcomma : token ≠ "," := by
          rintro rfl
          cases hcount
        have hstep : normalizeFrom .bracket (token :: rest) =
            count.toNat.repr :: normalizeFrom .other rest := by
          rw [normalizeFrom, if_neg (by simp [hcomma]), if_neg (by simp), if_pos rfl,
            after_length (by decide) hcount, decimalLength, hcount]
        have hnext : c.next.next.rest = rest := by
          simp [Cursor.next] at hrest ⊢
          rw [hrest]
          rfl
        rw [hrest, hstep, ← hnext, expect_rest h₁,
          normalizeFrom_token .other "]" .other (by decide), lengthTokens,
          if_neg (readLength?_ne_zero hcount)]
        rfl
  · cases h
    rfl

theorem typedMember_normal {annotations : List String}
    (h : typedMember name annotations c = .ok (m, d)) :
    m.name = name ∧ m.annotations = annotations ∧ IsTypeName m.type ∧
      (typeTokens m.type).head? = c.rest.head? ∧
      normalizeFrom .other c.rest =
        typeTokens m.type ++ lengthTokens m.count ++ normalizeFrom .other d.rest := by
  obtain ⟨⟨type, c₁⟩, h₁, h⟩ := bind_eq_ok h
  obtain ⟨⟨count, c₂⟩, h₂, h⟩ := bind_eq_ok h
  cases h
  obtain ⟨htype, hnormal⟩ := typeName_normal h₁
  refine ⟨rfl, rfl, htype, typeName_head h₁, ?_⟩
  rw [hnormal, arrayLength_normal h₂, List.append_assoc]

theorem field_normal (hplace : place ≠ .bracket) (h : field c = .ok (m, d)) :
    m.IsField ∧ normalizeFrom place c.rest = m.tokens ++ normalizeFrom .other d.rest := by
  obtain ⟨⟨name, c₁⟩, h₁, h⟩ := bind_eq_ok h
  obtain ⟨c₂, h₂, h⟩ := bind_eq_ok h
  obtain ⟨hname, hid⟩ := identifier_rest h₁
  obtain ⟨rfl, hannotations, htype, -, hnormal⟩ := typedMember_normal h
  refine ⟨⟨hid, htype, hannotations⟩, ?_⟩
  rw [hname, expect_rest h₂, normalizeFrom_declared hplace hid, hnormal]
  simp [Member.tokens]

theorem localVariable_normal (h : localVariable c = .ok (node, d)) :
    IsOperand node ∧ "let" :: normalizeFrom .other c.rest =
      node.tokens ++ normalizeFrom .other d.rest := by
  obtain ⟨⟨name, c₁⟩, h₁, h⟩ := bind_eq_ok h
  obtain ⟨c₂, h₂, h⟩ := bind_eq_ok h
  obtain ⟨⟨type, c₃⟩, h₃, h⟩ := bind_eq_ok h
  cases h
  obtain ⟨hname, hid⟩ := identifier_rest h₁
  obtain ⟨htype, hnormal⟩ := typeName_normal h₃
  refine ⟨⟨.localVar hid htype, rfl⟩, ?_⟩
  rw [hname, expect_rest h₂, normalizeFrom_declared (by decide) hid, hnormal]
  simp [Node.tokens]

/-! ## Expressions -/

def placeAfter (prior : Option Atom) : Place := if signPosition prior then .operand else .other

theorem placeAfter_ne_bracket (prior : Option Atom) : placeAfter prior ≠ .bracket := by
  unfold placeAfter
  split <;> decide

theorem placeAfter_eq_operand_iff : placeAfter prior = .operand ↔ signPosition prior = true := by
  unfold placeAfter
  split <;> simp_all

theorem placeAfter_operand (node : Node) (token : String) (index : Nat) :
    placeAfter (some ⟨.operand node, token, index⟩) = .other := rfl

theorem placeAfter_operator (symbol token : String) (index : Nat) :
    placeAfter (some ⟨.operator symbol, token, index⟩) = .operand := rfl

theorem placeAfter_ret (token : String) (index : Nat) :
    placeAfter (some ⟨.ret, token, index⟩) = .operand := rfl

theorem sign_normal (htoken : token = "-" ∨ token = "+") (hprior : signPosition prior = true)
    (hnumber : (Cursor.mk index (token :: rest)).next.seesNumber = true) :
    let c : Cursor := ⟨index, token :: rest⟩
    let value := if token = "-" then "-" ++ c.next.token else c.next.token
    IsOperand (.constant value) ∧ normalizeFrom (placeAfter prior) (token :: rest) =
      constantTokens value ++ normalizeFrom .other c.next.next.rest := by
  cases rest with
  | nil => cases hnumber
  | cons number rest =>
    have hnumber : isNumericLiteral number = true := hnumber
    have hliteral := isLiteral_of_isNumericLiteral hnumber
    rw [placeAfter_eq_operand_iff.mpr hprior]
    rcases htoken with rfl | rfl
    · refine ⟨⟨.constant (.negative hnumber), rfl⟩, ?_⟩
      rw [normalizeFrom_token .operand "-" .operand (by decide),
        normalizeFrom_literal hliteral (by decide)]
      simp [Cursor.next, Cursor.token, constantTokens_negative]
    · refine ⟨⟨.constant (.plain hliteral), rfl⟩, ?_⟩
      rw [normalizeFrom_sign hnumber, normalizeFrom_literal hliteral (by decide)]
      simp [Cursor.next, Cursor.token, constantTokens_of_isLiteral hliteral]

theorem operator_normal (hpower : 0 < bindingPower token)
    (hsign : ¬ ((token = "-" || token = "+") && signPosition prior &&
      (Cursor.mk index (token :: rest)).next.seesNumber) = true) :
    normalizeFrom (placeAfter prior) (token :: rest) =
      token :: normalizeFrom .operand rest := by
  have hplace := placeAfter_ne_bracket prior
  by_cases hplus : token = "+"
  · subst hplus
    refine normalizeFrom_plus hplace ?_
    rintro ⟨hprior, hnumber⟩
    apply hsign
    rw [placeAfter_eq_operand_iff] at hprior
    cases rest with
    | nil => cases hnumber
    | cons number rest =>
      have hnumber : isNumericLiteral number = true := hnumber
      simp [hprior, Cursor.next, Cursor.seesNumber, hnumber]
  · have hcomma : token ≠ "," := by
      rintro rfl
      exact absurd hpower (by decide)
    rw [normalizeFrom_cons hplace hcomma hplus, after_operator hpower]

/-- What stands at a place of an expression belongs to the grammar and stands in its normal
form. -/
theorem element_normal {stop : Stop} {e : Element} (h : element stop prior c = .ok e) :
    match e with
    | .stop => ∃ token rest, c.rest = token :: rest ∧ stop.holds token = true
    | .atom a after => a.kind.IsAtom ∧ normalizeFrom (placeAfter prior) c.rest =
        a.kind.tokens ++ normalizeFrom (placeAfter (some a)) after.rest
    | .call callee after => IsName callee ∧ normalizeFrom (placeAfter prior) c.rest =
        callee :: "(" :: normalizeFrom .operand after.rest := by
  obtain ⟨index, rest⟩ := c
  have hplace := placeAfter_ne_bracket prior
  cases rest with
  | nil => cases h
  | cons token rest =>
    unfold element at h
    dsimp only at h
    -- the readings of a token, in the order in which they are tried
    by_cases hstop : stop.holds token = true
    · rw [if_pos hstop] at h
      cases h
      exact ⟨token, rest, rfl, hstop⟩
    rw [if_neg hstop] at h
    by_cases hlet : token = "let"
    · rw [if_pos hlet] at h
      subst hlet
      obtain ⟨⟨node, after⟩, h₁, h⟩ := bind_eq_ok h
      cases h
      obtain ⟨hnode, hnormal⟩ := localVariable_normal h₁
      refine ⟨hnode, ?_⟩
      rw [normalizeFrom_identifier (by decide) hplace (Or.inr (by decide)), placeAfter_operand]
      exact hnormal
    rw [if_neg hlet] at h
    by_cases hreturn : token = "return"
    · rw [if_pos hreturn] at h
      subst hreturn
      cases prior with
      | some before => cases h
      | none =>
        cases h
        refine ⟨trivial, ?_⟩
        rw [placeAfter_ret]
        exact normalizeFrom_token .operand "return" .operand (by decide)
    rw [if_neg hreturn] at h
    by_cases hsign : ((token = "-" || token = "+") && signPosition prior &&
        (Cursor.mk index (token :: rest)).next.seesNumber) = true
    · rw [if_pos hsign] at h
      cases h
      simp only [Bool.and_eq_true, Bool.or_eq_true, decide_eq_true_eq] at hsign
      obtain ⟨⟨htoken, hprior⟩, hnumber⟩ := hsign
      exact sign_normal htoken hprior hnumber
    rw [if_neg hsign] at h
    by_cases hpower : 0 < bindingPower token
    · rw [if_pos hpower] at h
      cases h
      refine ⟨hpower, ?_⟩
      rw [placeAfter_operator]
      exact operator_normal hpower hsign
    rw [if_neg hpower] at h
    by_cases hliteral : isLiteral token = true
    · rw [if_pos hliteral] at h
      cases h
      refine ⟨⟨.constant (.plain hliteral), rfl⟩, ?_⟩
      rw [placeAfter_operand, normalizeFrom_literal hliteral hplace]
      simp [AtomKind.tokens, Node.tokens, constantTokens_of_isLiteral hliteral, Cursor.next]
    rw [if_neg hliteral] at h
    by_cases hid : isIdentifier token = true
    · rw [if_pos hid] at h
      have hname : IsName token := by
        refine ⟨hid, ?_⟩
        simp only [isLiteral, Bool.or_eq_true, decide_eq_true_eq, not_or] at hliteral
        simp [hlet, hreturn, hliteral.1.1, hliteral.1.2]
      rw [normalizeFrom_identifier hid hplace (Or.inr hreturn)]
      split at h
      · rename_i hopen
        cases h
        refine ⟨hname, ?_⟩
        have hrest := Cursor.sees_eq_true_iff.mp hopen
        dsimp only [Cursor.next] at hrest ⊢
        rw [List.tail_cons] at hrest
        rw [hrest, normalizeFrom_token .other "(" .operand (by decide)]
        rfl
      · cases h
        exact ⟨⟨.ident hname, rfl⟩, rfl⟩
    · rw [if_neg hid] at h
      cases h

theorem element_brace {prior : Option Atom} {c : Cursor} (h : c.rest.head? = some "\x7d") :
    ∃ e, element .argument prior c = .error e := by
  obtain ⟨index, rest⟩ := c
  cases rest with
  | nil => cases h
  | cons token rest =>
    obtain rfl : token = "\x7d" := by simpa using h
    exact ⟨_, rfl⟩

theorem ReadsAtoms.head_ne_brace {as : List Atom} (h : ReadsAtoms .argument prior c as d) :
    c.rest.head? ≠ some "\x7d" := by
  intro hbrace
  obtain ⟨e, he⟩ := @element_brace prior _ hbrace
  cases h with
  | stop h | atom h | call h => rw [h] at he; cases he

theorem ReadsArguments.head_ne_brace {c d : Cursor} {args : List Node}
    (h : ReadsArguments c args d) : c.rest.head? ≠ some "\x7d" := by
  cases h with
  | last has | more has => exact has.head_ne_brace

theorem laterArgumentTokens_of_ne_nil {args : List Node} (h : args ≠ []) :
    laterArgumentTokens args = "," :: argumentTokens args := by
  cases args with
  | nil => exact absurd rfl h
  | cons first more => simp [laterArgumentTokens, argumentTokens]

mutual

/-- The atoms of an expression that is read belong to the grammar and stand in their normal
form. -/
theorem ReadsAtoms.normal {stop : Stop} {prior : Option Atom} {c d : Cursor} {as : List Atom} :
    ReadsAtoms stop prior c as d →
      (∀ a ∈ as, a.kind.IsAtom) ∧
      (∃ token rest, d.rest = token :: rest ∧ stop.holds token = true) ∧
      ∃ place, place ≠ .bracket ∧
        normalizeFrom (placeAfter prior) c.rest = atomTokens as ++ normalizeFrom place d.rest
  | .stop h =>
    ⟨by simp, element_normal h, placeAfter prior, placeAfter_ne_bracket prior, rfl⟩
  | .atom h hmore => by
    obtain ⟨hatom, hnormal⟩ := element_normal h
    obtain ⟨hatoms, hstop, place, hplace, hrest⟩ := hmore.normal
    refine ⟨?_, hstop, place, hplace, ?_⟩
    · exact List.forall_mem_cons.mpr ⟨hatom, hatoms⟩
    · rw [hnormal, hrest]
      simp [atomTokens]
  | .call h hargs hmore => by
    obtain ⟨hname, hnormal⟩ := element_normal h
    obtain ⟨hexpr, hcall⟩ := hargs.normal
    obtain ⟨hatoms, hstop, place, hplace, hrest⟩ := hmore.normal
    refine ⟨?_, hstop, place, hplace, ?_⟩
    · exact List.forall_mem_cons.mpr ⟨⟨.call hname hexpr, rfl⟩, hatoms⟩
    · rw [placeAfter_operand] at hrest
      rw [hnormal, hcall, hrest]
      simp [atomTokens, AtomKind.tokens, Node.tokens]

theorem ReadsCall.normal {c d : Cursor} {args : List Node} :
    ReadsCall c args d →
      (∀ arg ∈ args, IsExpression arg) ∧
      normalizeFrom .operand c.rest = argumentTokens args ++ normalizeFrom .other d.rest
  | .none h => by
    refine ⟨by simp, ?_⟩
    rw [Cursor.sees_eq_true_iff.mp h, normalizeFrom_token .operand ")" .other (by decide)]
    simp [argumentTokens]
  | .some _ hargs => hargs.normal.2

theorem ReadsArguments.normal {c d : Cursor} {args : List Node} :
    ReadsArguments c args d →
      args ≠ [] ∧ (∀ arg ∈ args, IsExpression arg) ∧
      normalizeFrom .operand c.rest = argumentTokens args ++ normalizeFrom .other d.rest
  | .last has harg h => by
    obtain ⟨hatoms, -, place, hplace, hnormal⟩ := has.normal
    obtain ⟨htokens, hexpr⟩ := assemble_spec harg
    refine ⟨List.cons_ne_nil _ _, by simpa using hexpr hatoms, ?_⟩
    change normalizeFrom .operand _ = _ at hnormal
    rw [hnormal, Cursor.sees_eq_true_iff.mp h,
      normalizeFrom_anywhere ")" .other hplace (by decide)]
    simp [argumentTokens, laterArgumentTokens, htokens]
  | .more has harg h hmore => by
    obtain ⟨hatoms, -, place, hplace, hnormal⟩ := has.normal
    obtain ⟨htokens, hexpr⟩ := assemble_spec harg
    obtain ⟨hne, hmoreExpr, hmoreNormal⟩ := hmore.normal
    refine ⟨List.cons_ne_nil _ _, ?_, ?_⟩
    · exact List.forall_mem_cons.mpr ⟨hexpr hatoms, hmoreExpr⟩
    · change normalizeFrom .operand _ = _ at hnormal
      rw [hnormal, Cursor.sees_eq_true_iff.mp h,
        normalizeFrom_comma hplace hmore.head_ne_brace, hmoreNormal]
      simp [argumentTokens, laterArgumentTokens_of_ne_nil hne, htokens]

end

theorem statement_normal (h : statement c = .ok (node, d)) :
    IsExpression node ∧
      normalizeFrom .operand c.rest = node.tokens ++ ";" :: normalizeFrom .operand d.rest := by
  obtain ⟨e, he, hsemicolon, rfl⟩ := statement_eq_ok_iff.mp h
  obtain ⟨as, has, hnode⟩ := expression_eq_ok_iff.mp he
  obtain ⟨hatoms, -, place, hplace, hnormal⟩ := has.normal
  obtain ⟨htokens, hexpr⟩ := assemble_spec hnode
  refine ⟨hexpr hatoms, ?_⟩
  change normalizeFrom .operand _ = _ at hnormal
  rw [hnormal, Cursor.sees_eq_true_iff.mp hsemicolon,
    normalizeFrom_anywhere ";" .operand hplace (by decide), htokens]

theorem statements_normal {function : String} {body : List Node}
    (h : statements function c = .ok (body, d)) :
    (∀ s ∈ body, IsExpression s) ∧
      normalizeFrom .operand c.rest = bodyTokens body ++ normalizeFrom .other d.rest := by
  fun_induction statements function c generalizing body with
  | case1 => cases h
  | case2 c _ hclosed =>
    cases h
    refine ⟨by simp, ?_⟩
    rw [Cursor.sees_eq_true_iff.mp hclosed,
      normalizeFrom_token .operand "\x7d" .other (by decide)]
    rfl
  | case3 => cases h
  | case4 => cases h
  | case5 c _ _ first e hfirst _ more after hmore ih =>
    cases h
    obtain ⟨hexpr, hnormal⟩ := statement_normal hfirst
    obtain ⟨hexprs, hrest⟩ := ih hmore
    refine ⟨?_, ?_⟩
    · exact List.forall_mem_cons.mpr ⟨hexpr, hexprs⟩
    · rw [hnormal, hrest]
      simp [bodyTokens]

/-! ## Declarations -/

theorem fields_eq_nil_iff {struct : String} {members : List Member}
    (h : fields struct c = .ok (members, d)) : members = [] ↔ c.sees "\x7d" = true := by
  rw [fields] at h
  split at h
  · cases h
  · split at h
    · rename_i hclosed
      cases h
      simp [hclosed]
    · rename_i hopen
      have hne : members ≠ [] := by
        split at h
        · cases h
        · dsimp only at h
          repeat' split at h
          all_goals cases h
          all_goals exact List.cons_ne_nil _ _
      simp [hopen, hne]

theorem fieldTokens_cons_of_ne_nil {first : Member} {more : List Member} (h : more ≠ []) :
    fieldTokens (first :: more) = first.tokens ++ "," :: fieldTokens more := by
  cases more with
  | nil => exact absurd rfl h
  | cons => rfl

/-- The fields of a struct that are read can be fields and stand in their normal form, which has
no comma after the last of them. -/
theorem fields_normal {struct : String} {members : List Member} {place : Place} {c d : Cursor}
    (hplace : place ≠ .bracket) (h : fields struct c = .ok (members, d)) :
    (∀ m ∈ members, m.IsField) ∧
      normalizeFrom place c.rest = fieldTokens members ++ normalizeFrom .other d.rest := by
  fun_induction fields struct c generalizing members place with
  | case1 => cases h
  | case2 c _ hclosed =>
    cases h
    refine ⟨by simp, ?_⟩
    rw [Cursor.sees_eq_true_iff.mp hclosed,
      normalizeFrom_anywhere "\x7d" .other hplace (by decide)]
    rfl
  | case3 => cases h
  | case4 => cases h
  | case5 => cases h
  | case6 c _ _ first e hfirst _ _ _ hcomma more after hmore ih =>
    cases h
    obtain ⟨hfield, hnormal⟩ := field_normal hplace hfirst
    refine ⟨List.forall_mem_cons.mpr ⟨hfield, (ih hplace hmore).1⟩, ?_⟩
    rw [hnormal, Cursor.sees_eq_true_iff.mp hcomma]
    -- a comma after the last field is dropped, and any other one is kept
    by_cases hmore' : more = []
    · have hclosed := (fields_eq_nil_iff hmore).mp hmore'
      have hrest := (@ih _ .other (by decide) hmore).2
      rw [Cursor.sees_eq_true_iff.mp hclosed] at hrest ⊢
      rw [normalizeFrom_comma_brace, hrest, hmore']
      simp [fieldTokens]
    · have hopen : e.next.rest.head? ≠ some "\x7d" := by
        rw [← Cursor.sees_eq_false_iff, Bool.eq_false_iff]
        exact fun hclosed => hmore' ((fields_eq_nil_iff hmore).mpr hclosed)
      have hrest := (@ih _ .operand (by decide) hmore).2
      rw [normalizeFrom_comma (by decide) hopen, hrest, fieldTokens_cons_of_ne_nil hmore']
      simp
  | case7 c _ _ first e hfirst _ _ _ _ hclosed =>
    cases h
    obtain ⟨hfield, hnormal⟩ := field_normal hplace hfirst
    refine ⟨by simpa using hfield, ?_⟩
    rw [hnormal, Cursor.sees_eq_true_iff.mp hclosed,
      normalizeFrom_token .other "\x7d" .other (by decide)]
    simp [fieldTokens]
  | case8 => cases h

def Node.lastToken : Node → String
  | .member _ => ";"
  | _ => "\x7d"

def Node.placeAfter : Node → Place
  | .member _ => .operand
  | _ => .other

theorem Node.placeAfter_ne_bracket (node : Node) : node.placeAfter ≠ .bracket := by
  unfold Node.placeAfter
  split <;> decide

theorem structBody_normal (hname : isIdentifier name = true)
    (htags : ∀ tag ∈ tags, isIdentifier tag = true) (h : structBody name tags c = .ok (node, d)) :
    node.IsDeclaration ∧ node.annotations = tags ∧
      name :: ":" :: "struct" :: normalizeFrom .other c.rest =
        node.headTokens ++ normalizeFrom node.placeAfter d.rest := by
  obtain ⟨c₁, h₁, h⟩ := bind_eq_ok h
  obtain ⟨⟨members, c₂⟩, h₂, h⟩ := bind_eq_ok h
  cases h
  obtain ⟨hfields, hnormal⟩ := @fields_normal _ _ .operand _ _ (by decide) h₂
  refine ⟨⟨hname, htags, hfields⟩, rfl, ?_⟩
  rw [expect_rest h₁, normalizeFrom_token .other "\x7b" .operand (by decide), hnormal]
  rfl

theorem functionBody_normal (hname : isIdentifier name = true)
    (htags : ∀ tag ∈ tags, isIdentifier tag = true) (h : functionBody name tags c = .ok (node, d)) :
    node.IsDeclaration ∧ node.annotations = tags ∧
      name :: ":" :: "fn" :: normalizeFrom .other c.rest =
        node.headTokens ++ normalizeFrom node.placeAfter d.rest := by
  obtain ⟨c₁, h₁, h⟩ := bind_eq_ok h
  split at h
  · cases h
  · obtain ⟨c₂, h₂, h⟩ := bind_eq_ok h
    obtain ⟨c₃, h₃, h⟩ := bind_eq_ok h
    obtain ⟨⟨returns, c₄⟩, h₄, h⟩ := bind_eq_ok h
    obtain ⟨c₅, h₅, h⟩ := bind_eq_ok h
    obtain ⟨⟨body, c₆⟩, h₆, h⟩ := bind_eq_ok h
    cases h
    obtain ⟨hreturns, htype⟩ := typeName_normal h₄
    obtain ⟨hbody, hnormal⟩ := statements_normal h₆
    refine ⟨⟨hname, htags, rfl, hreturns, hbody⟩, rfl, ?_⟩
    rw [expect_rest h₁, normalizeFrom_token .other "(" .operand (by decide),
      expect_rest h₂, normalizeFrom_token .operand ")" .other (by decide),
      expect_rest h₃, normalizeFrom_token .other "->" .other (by decide), htype,
      expect_rest h₅, normalizeFrom_token .other "\x7b" .operand (by decide), hnormal]
    simp [Node.headTokens, Node.placeAfter]

theorem memberBody_normal (hname : isIdentifier name = true)
    (htags : ∀ tag ∈ tags, isIdentifier tag = true)
    (hword : ∀ word ∈ ["struct", "fn"], c.rest.head? ≠ some word)
    (h : memberBody name tags c = .ok (node, d)) :
    node.IsDeclaration ∧ node.annotations = tags ∧
      name :: ":" :: normalizeFrom .other c.rest =
        node.headTokens ++ normalizeFrom node.placeAfter d.rest := by
  obtain ⟨⟨decl, c₁⟩, h₁, h⟩ := bind_eq_ok h
  obtain ⟨c₂, h₂, h⟩ := bind_eq_ok h
  cases h
  obtain ⟨rfl, rfl, htype, hhead, hnormal⟩ := typedMember_normal h₁
  refine ⟨⟨hname, htags, htype, ?_⟩, rfl, ?_⟩
  · intro word hmem
    rw [hhead]
    exact hword word hmem
  · rw [hnormal, expect_rest h₂, normalizeFrom_token .other ";" .operand (by decide)]
    simp [Node.headTokens, Node.placeAfter, Member.tokens]

theorem declarationBody_normal (hname : isIdentifier name = true)
    (htags : ∀ tag ∈ tags, isIdentifier tag = true)
    (h : declarationBody name tags c = .ok (node, d)) :
    node.IsDeclaration ∧ node.annotations = tags ∧
      name :: ":" :: normalizeFrom .other c.rest =
        node.headTokens ++ normalizeFrom node.placeAfter d.rest := by
  unfold declarationBody at h
  split at h
  · rename_i hstruct
    rw [Cursor.sees_eq_true_iff.mp hstruct, normalizeFrom_token .other "struct" .other (by decide)]
    exact structBody_normal hname htags h
  · split at h
    · rename_i hfn
      rw [Cursor.sees_eq_true_iff.mp hfn, normalizeFrom_token .other "fn" .other (by decide)]
      exact functionBody_normal hname htags h
    · rename_i hstruct hfn
      have hword : ∀ word ∈ ["struct", "fn"], c.rest.head? ≠ some word := by
        simpa [Cursor.sees] using And.intro hstruct hfn
      exact memberBody_normal hname htags hword h

theorem normalizeFrom_tag (h : isIdentifier tag = true) (rest : List String) :
    normalizeFrom .other ("[" :: tag :: "]" :: rest) =
      "[" :: tag :: "]" :: normalizeFrom .other rest := by
  have hkept : normalizeFrom .bracket (tag :: "]" :: rest) =
      tag :: normalizeFrom .other ("]" :: rest) := by
    have hcomma : tag ≠ "," := ne_of_isIdentifier h (by decide)
    rw [normalizeFrom, if_neg (by simp [hcomma]), if_neg (by simp), if_pos rfl,
      decimalLength, readLength?_of_isIdentifier h, after_identifier h (Or.inl (by decide))]
  rw [normalizeFrom_token .other "[" .bracket (by decide), hkept,
    normalizeFrom_token .other "]" .other (by decide)]

theorem tagBody_rest (h : tagBody c = .ok (tag, d)) :
    isIdentifier tag = true ∧ c.rest = "[" :: tag :: "]" :: d.rest := by
  obtain ⟨c₁, h₁, h⟩ := bind_eq_ok h
  obtain ⟨⟨tag', c₂⟩, h₂, h⟩ := bind_eq_ok h
  obtain ⟨c₃, h₃, h⟩ := bind_eq_ok h
  cases h
  obtain ⟨hrest, hid⟩ := identifier_rest h₂
  exact ⟨hid, by rw [expect_rest h₁, hrest, expect_rest h₃]⟩

/-- An element of a program that is read is an annotation in its brackets, or a name, a colon and
what the name stands for. -/
theorem item_rest (h : item tags c = .ok (i, d)) :
    match i with
    | .tag tag => isIdentifier tag = true ∧ c.rest = "#" :: "[" :: tag :: "]" :: d.rest
    | .declaration node => ∃ name e, isIdentifier name = true ∧ c.rest = name :: ":" :: e.rest ∧
        declarationBody name tags e = .ok (node, d) := by
  unfold item at h
  split at h
  · rename_i hsign
    obtain ⟨⟨tag, c₁⟩, h₁, h⟩ := bind_eq_ok h
    cases h
    obtain ⟨hid, hrest⟩ := tagBody_rest h₁
    exact ⟨hid, by rw [Cursor.sees_eq_true_iff.mp hsign, hrest]⟩
  · split at h
    · rename_i hid
      split at h
      · cases h
      · split at h
        · rename_i hcolon
          obtain ⟨⟨node, c₁⟩, h₁, h⟩ := bind_eq_ok h
          cases h
          refine ⟨c.token, c.next.next, hid, ?_, h₁⟩
          rw [← Cursor.sees_eq_true_iff.mp hcolon]
          obtain ⟨index, rest⟩ := c
          cases rest with
          | nil => cases hcolon
          | cons => rfl
        · cases h
    · cases h

theorem item_normal (hplace : place ≠ .bracket) (htags : ∀ tag ∈ tags, isIdentifier tag = true)
    (h : item tags c = .ok (i, d)) :
    match i with
    | .tag tag => isIdentifier tag = true ∧
        normalizeFrom place c.rest = annotationTokens [tag] ++ normalizeFrom .other d.rest
    | .declaration node => node.IsDeclaration ∧ node.annotations = tags ∧
        normalizeFrom place c.rest = node.headTokens ++ normalizeFrom node.placeAfter d.rest := by
  have hrest := item_rest h
  cases i with
  | tag tag =>
    obtain ⟨hid, hrest⟩ := hrest
    refine ⟨hid, ?_⟩
    rw [hrest, normalizeFrom_anywhere "#" .other hplace (by decide), normalizeFrom_tag hid]
    rfl
  | declaration node =>
    obtain ⟨name, e, hid, hrest, hbody⟩ := hrest
    obtain ⟨hnode, hannotations, hnormal⟩ := declarationBody_normal hid htags hbody
    refine ⟨hnode, hannotations, ?_⟩
    rw [hrest, normalizeFrom_declared hplace hid, hnormal]

/-- The declarations that are read belong to the grammar, and they stand in their normal form after
the annotations that wait for the first of them. -/
theorem declarations_normal {tags : List String} {nodes : List Node} {place : Place} {c : Cursor}
    (hplace : place ≠ .bracket) (htags : ∀ tag ∈ tags, isIdentifier tag = true)
    (h : declarations tags c = .ok nodes) :
    (∀ node ∈ nodes, node.IsDeclaration) ∧
      annotationTokens tags ++ normalizeFrom place c.rest =
        nodes.flatMap Node.declarationTokens := by
  fun_induction declarations tags c generalizing nodes place with
  | case1 c hend =>
    cases h
    simp [hend, annotationTokens, normalizeFrom]
  | case2 => cases h
  | case3 => cases h
  | case4 tags c hne tag d hitem _ ih =>
    obtain ⟨hid, hnormal⟩ := item_normal hplace htags hitem
    have htags : ∀ t ∈ tags ++ [tag], isIdentifier t = true := by
      intro t ht
      rcases List.mem_append.mp ht with ht | ht
      · exact htags t ht
      · rw [List.mem_singleton.mp ht]
        exact hid
    obtain ⟨hnodes, hrest⟩ := @ih _ .other (by decide) htags h
    refine ⟨hnodes, ?_⟩
    rw [hnormal, ← hrest]
    simp [annotationTokens]
  | case5 => cases h
  | case6 tags c hne node d hitem _ more hmore ih =>
    cases h
    obtain ⟨hnode, hannotations, hnormal⟩ := item_normal hplace htags hitem
    obtain ⟨hnodes, hrest⟩ := ih node.placeAfter_ne_bracket (by simp) hmore
    refine ⟨?_, ?_⟩
    · exact List.forall_mem_cons.mpr ⟨hnode, hnodes⟩
    · rw [hnormal, List.flatMap_cons, ← hrest, Node.declarationTokens, hannotations]
      simp [annotationTokens]

end Shader.Program
