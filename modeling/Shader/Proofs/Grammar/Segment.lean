import Mathlib.Data.List.Forall2
import Shader.Proofs.Grammar.RoundTrip

/-!
# The tokens of each declaration

The tokens of a program are those of its declarations, one after the other. What a body is read
from differs from the tokens of its statements only in the plus signs of numbers, which are read
and not kept.
-/

namespace Shader.Program

open Text

variable {last name token type : String} {c d : Cursor} {node : Node} {place : Place}
  {raw rest tags tokens : List String} {m : Member}

def dropSigns (place : Place) : List String → List String
  | [] => []
  | token :: rest =>
    if token = "+" ∧ place = .operand ∧ rest.head?.any isNumericLiteral then dropSigns place rest
    else token :: dropSigns (place.after token) rest

def bodyOf (segment : List String) : List String :=
  ((segment.dropWhile (· ≠ "\x7b")).drop 1).dropLast

/-- The declaration is read from these tokens, and its statements from those in braces. -/
structure IsSegment (node : Node) (segment : List String) : Prop where
  normal : normalize segment = node.declarationTokens
  body : ∀ name params returns statements annotations,
    node = .function name params returns statements annotations →
      dropSigns .operand (bodyOf segment) ++ ["\x7d"] = bodyTokens statements

/-! ## Readers move forward -/

theorem Cursor.next_suffix (c : Cursor) : c.next.rest <:+ c.rest := List.tail_suffix _

theorem genericArgument_rest {outer : String} (houter : isIdentifier outer = true)
    (h : genericArgument outer c = .ok (type, d)) :
    outer :: c.rest = typeTokens type ++ d.rest := by
  unfold genericArgument at h
  split at h
  · rename_i hopen
    obtain ⟨⟨inner, c₁⟩, h₁, h⟩ := bind_eq_ok h
    obtain ⟨hinner, hid⟩ := identifier_rest h₁
    rw [Cursor.sees_eq_true_iff.mp hopen, hinner]
    dsimp only at h
    split at h
    · rename_i hstar
      obtain ⟨c₂, h₂, h⟩ := bind_eq_ok h
      cases h
      rw [Cursor.sees_eq_true_iff.mp hstar, expect_rest h₂, typeTokens_pointer houter]
      rfl
    · obtain ⟨c₂, h₂, h⟩ := bind_eq_ok h
      cases h
      rw [expect_rest h₂, typeTokens_generic houter hid]
      rfl
  · cases h
    rw [typeTokens_plain houter]
    rfl

theorem typeName_rest (h : typeName c = .ok (type, d)) : c.rest = typeTokens type ++ d.rest := by
  obtain ⟨⟨outer, c₁⟩, h₁, h⟩ := bind_eq_ok h
  obtain ⟨houter, hid⟩ := identifier_rest h₁
  rw [houter]
  exact genericArgument_rest hid h

theorem arrayLength_suffix {count : UInt32} (h : arrayLength c = .ok (count, d)) :
    d.rest <:+ c.rest := by
  unfold arrayLength at h
  split at h
  · split at h
    · cases h
    split at h
    · cases h
    · obtain ⟨c₁, h₁, h⟩ := bind_eq_ok h
      cases h
      have hlast : d.rest <:+ c.next.next.rest := ⟨["]"], (expect_rest h₁).symm⟩
      exact (hlast.trans (Cursor.next_suffix _)).trans (Cursor.next_suffix _)
  · cases h
    exact List.suffix_refl _

theorem typedMember_suffix {annotations : List String}
    (h : typedMember name annotations c = .ok (m, d)) : d.rest <:+ c.rest := by
  obtain ⟨⟨type, c₁⟩, h₁, h⟩ := bind_eq_ok h
  obtain ⟨⟨count, c₂⟩, h₂, h⟩ := bind_eq_ok h
  cases h
  exact (arrayLength_suffix h₂).trans ⟨_, (typeName_rest h₁).symm⟩

theorem field_suffix (h : field c = .ok (m, d)) : d.rest <:+ c.rest := by
  obtain ⟨⟨name, c₁⟩, h₁, h⟩ := bind_eq_ok h
  obtain ⟨c₂, h₂, h⟩ := bind_eq_ok h
  have hname : c₂.rest <:+ c.rest := ⟨[name, ":"], by
    rw [(identifier_rest h₁).1, expect_rest h₂]
    rfl⟩
  exact (typedMember_suffix h).trans hname

theorem localVariable_suffix (h : localVariable c = .ok (node, d)) : d.rest <:+ c.rest := by
  obtain ⟨⟨name, c₁⟩, h₁, h⟩ := bind_eq_ok h
  obtain ⟨c₂, h₂, h⟩ := bind_eq_ok h
  obtain ⟨⟨type, c₃⟩, h₃, h⟩ := bind_eq_ok h
  cases h
  refine ⟨name :: ":" :: typeTokens type, ?_⟩
  rw [(identifier_rest h₁).1, expect_rest h₂, typeName_rest h₃]
  rfl

theorem element_suffix {stop : Stop} {prior : Option Atom} {e : Element}
    (h : element stop prior c = .ok e) :
    match e with
    | .stop => True
    | .atom _ after => after.rest <:+ c.rest
    | .call _ after => after.rest <:+ c.rest := by
  have hone := c.next_suffix
  have htwo := c.next.next_suffix.trans hone
  unfold element at h
  split at h
  · cases h
  split at h
  · cases h
    trivial
  split at h
  · obtain ⟨⟨node, after⟩, h₁, h⟩ := bind_eq_ok h
    cases h
    exact (localVariable_suffix h₁).trans hone
  split at h
  · split at h
    · cases h
    · cases h
      exact hone
  split at h
  · cases h
    exact htwo
  split at h
  · cases h
    exact hone
  split at h
  · cases h
    exact hone
  split at h
  · split at h
    · cases h
      exact htwo
    · cases h
      exact hone
  · cases h

mutual

theorem ReadsAtoms.suffix {stop : Stop} {prior : Option Atom} {c d : Cursor} {as : List Atom} :
    ReadsAtoms stop prior c as d → d.rest <:+ c.rest
  | .stop _ => List.suffix_refl _
  | .atom h hmore => hmore.suffix.trans (element_suffix h)
  | .call h hargs hmore => (hmore.suffix.trans hargs.suffix).trans (element_suffix h)

theorem ReadsCall.suffix {c d : Cursor} {args : List Node} :
    ReadsCall c args d → d.rest <:+ c.rest
  | .none _ => c.next_suffix
  | .some _ hargs => hargs.suffix

theorem ReadsArguments.suffix {c d : Cursor} {args : List Node} :
    ReadsArguments c args d → d.rest <:+ c.rest
  | .last has _ _ => (Cursor.next_suffix _).trans has.suffix
  | .more has _ _ hmore => (hmore.suffix.trans (Cursor.next_suffix _)).trans has.suffix

end

theorem fields_suffix {struct : String} {members : List Member}
    (h : fields struct c = .ok (members, d)) : ("\x7d" :: d.rest) <:+ c.rest := by
  fun_induction fields struct c generalizing members with
  | case1 => cases h
  | case2 c _ hclosed =>
    cases h
    exact Cursor.sees_eq_true_iff.mp hclosed ▸ List.suffix_refl _
  | case3 => cases h
  | case4 => cases h
  | case5 => cases h
  | case6 c _ _ first e hfirst _ _ _ _ more after hmore ih =>
    cases h
    exact ((ih hmore).trans (Cursor.next_suffix _)).trans (field_suffix hfirst)
  | case7 c _ _ first e hfirst _ _ _ _ hclosed =>
    cases h
    rw [← Cursor.sees_eq_true_iff.mp hclosed]
    exact field_suffix hfirst
  | case8 => cases h

/-! ## Tokens of expressions -/

/-- The tokens that can stand in an expression. -/
def IsExpressionToken (token : String) : Prop :=
  isIdentifier token = true ∨ isLiteral token = true ∨ 0 < bindingPower token ∨
    token ∈ ["(", ")", ",", ":", "<", ">"]

theorem IsExpressionToken.ne {other : String} (h : IsExpressionToken token)
    (hid : isIdentifier other = false) (hliteral : isLiteral other = false)
    (hpower : bindingPower other = 0) (hmem : other ∉ ["(", ")", ",", ":", "<", ">"]) :
    token ≠ other := by
  rintro rfl
  rcases h with h | h | h | h
  · rw [hid] at h
    cases h
  · rw [hliteral] at h
    cases h
  · omega
  · exact hmem h

theorem isExpressionToken_of_mem_typeTokens (htype : IsTypeName type)
    (h : token ∈ typeTokens type) : IsExpressionToken token := by
  cases htype with
  | plain hname =>
    rw [typeTokens_plain hname, List.mem_singleton] at h
    exact Or.inl (h ▸ hname)
  | generic houter hinner =>
    rw [typeTokens_generic houter hinner] at h
    simp only [List.mem_cons, List.not_mem_nil, or_false] at h
    rcases h with rfl | rfl | rfl | rfl
    · exact Or.inl houter
    · exact Or.inr (Or.inr (Or.inr (by decide)))
    · exact Or.inl hinner
    · exact Or.inr (Or.inr (Or.inr (by decide)))
  | pointer houter hinner =>
    rw [typeTokens_pointer houter] at h
    simp only [List.mem_cons, List.not_mem_nil, or_false] at h
    rcases h with rfl | rfl | rfl | rfl | rfl
    · exact Or.inl houter
    · exact Or.inr (Or.inr (Or.inr (by decide)))
    · exact Or.inl hinner
    · exact Or.inr (Or.inr (Or.inl (by decide)))
    · exact Or.inr (Or.inr (Or.inr (by decide)))

theorem isExpressionToken_of_mem_constantTokens {text : String} (htext : IsConstant text)
    (h : token ∈ constantTokens text) : IsExpressionToken token := by
  cases htext with
  | plain htext =>
    rw [constantTokens_of_isLiteral htext, List.mem_singleton] at h
    exact Or.inr (Or.inl (h ▸ htext))
  | negative hnumber =>
    rw [constantTokens_negative] at h
    simp only [List.mem_cons, List.not_mem_nil, or_false] at h
    rcases h with rfl | rfl
    · exact Or.inr (Or.inr (Or.inl (by decide)))
    · exact Or.inr (Or.inl (isLiteral_of_isNumericLiteral hnumber))

theorem isExpressionToken_of_mem_argumentTokens {args : List Node}
    (hargs : ∀ arg ∈ args, ∀ t ∈ arg.tokens, IsExpressionToken t) :
    (token ∈ argumentTokens args → IsExpressionToken token) ∧
      (token ∈ laterArgumentTokens args → IsExpressionToken token) := by
  have hclosed : IsExpressionToken ")" := Or.inr (Or.inr (Or.inr (by decide)))
  have hcomma : IsExpressionToken "," := Or.inr (Or.inr (Or.inr (by decide)))
  induction args with
  | nil =>
    simp only [argumentTokens, laterArgumentTokens, List.mem_singleton, and_self]
    rintro rfl
    exact hclosed
  | cons first more ih =>
    have hfirst := hargs first (.head _)
    have hmore := (ih fun arg harg => hargs arg (.tail _ harg)).2
    refine ⟨fun h => ?_, fun h => ?_⟩
    · rw [argumentTokens, List.mem_append] at h
      exact h.elim (hfirst token) hmore
    · rw [laterArgumentTokens, List.cons_append, List.mem_cons, List.mem_append] at h
      rcases h with rfl | h | h
      · exact hcomma
      · exact hfirst token h
      · exact hmore h

mutual

theorem IsValue.isExpressionToken {node : Node} :
    IsValue node → ∀ token ∈ node.tokens, IsExpressionToken token
  | .ident hname, token, h => by
    rw [Node.tokens, List.mem_singleton] at h
    exact Or.inl (h ▸ hname.1)
  | .constant htext, token, h => isExpressionToken_of_mem_constantTokens htext h
  | .localVar hname htype, token, h => by
    simp only [Node.tokens, List.mem_cons] at h
    rcases h with rfl | rfl | rfl | h
    · exact Or.inl (by decide)
    · exact Or.inl hname
    · exact Or.inr (Or.inr (Or.inr (by decide)))
    · exact isExpressionToken_of_mem_typeTokens htype h
  | .call hcallee hargs, token, h => by
    have hall := fun arg harg => (hargs arg harg).isExpressionToken
    simp only [Node.tokens, List.mem_cons] at h
    rcases h with rfl | rfl | h
    · exact Or.inl hcallee.1
    · exact Or.inr (Or.inr (Or.inr (by decide)))
    · exact (isExpressionToken_of_mem_argumentTokens hall).1 h
  | .access hleft hright _, token, h => by
    rw [Node.tokens, List.mem_append, List.mem_cons] at h
    rcases h with h | rfl | h
    · exact hleft.isExpressionToken token h
    · exact Or.inr (Or.inr (Or.inl (by decide)))
    · exact hright.isExpressionToken token h
  | .binary hsymbol _ hleft hright _, token, h => by
    rw [Node.tokens, List.mem_append, List.mem_cons] at h
    rcases h with h | rfl | h
    · exact hleft.isExpressionToken token h
    · exact Or.inr (Or.inr (Or.inl hsymbol))
    · exact hright.isExpressionToken token h

theorem IsExpression.isExpressionToken {node : Node} :
    IsExpression node → ∀ token ∈ node.tokens, IsExpressionToken token
  | .value hnode, token, h => hnode.isExpressionToken token h
  | .leave, token, h => by
    rw [Node.tokens, List.mem_singleton] at h
    exact Or.inl (h ▸ by decide)
  | .leaveWith hvalue, token, h => by
    rw [Node.tokens, List.mem_cons] at h
    rcases h with rfl | h
    · exact Or.inl (by decide)
    · exact hvalue.isExpressionToken token h

end

/-! ## Normal forms end where a declaration ends -/

theorem Place.after_end (place : Place) (h : last = ";" ∨ last = "\x7d") :
    place.after last = Place.other.after last := by
  rcases h with rfl | rfl <;> cases place <;> rfl

theorem head?_append_end (raw rest : List String) (last : String) :
    (raw ++ last :: rest).head? = (raw ++ [last]).head? := by
  cases raw <;> rfl

/-- The normal form of what stands up to the end of a declaration does not depend on what
follows. -/
theorem normalizeFrom_append_end (h : last = ";" ∨ last = "\x7d") :
    normalizeFrom place (raw ++ last :: rest) =
      normalizeFrom place (raw ++ [last]) ++ normalizeFrom (Place.other.after last) rest := by
  induction raw generalizing place with
  | nil =>
    have hcomma : last ≠ "," := by rcases h with rfl | rfl <;> decide
    have hplus : last ≠ "+" := by rcases h with rfl | rfl <;> decide
    simp [normalizeFrom, hcomma, hplus, Place.after_end place h]
  | cons token raw ih =>
    rw [List.cons_append, List.cons_append, normalizeFrom, normalizeFrom, head?_append_end]
    repeat' split
    all_goals simp only [ih, List.cons_append]

theorem Node.lastToken_eq (node : Node) : node.lastToken = ";" ∨ node.lastToken = "\x7d" := by
  cases node with
  | member => exact Or.inl rfl
  | _ => exact Or.inr rfl

theorem Node.placeAfter_eq (node : Node) : node.placeAfter = Place.other.after node.lastToken := by
  cases node <;> rfl

theorem dropSigns_append_semicolon :
    dropSigns place (raw ++ ";" :: rest) =
      dropSigns place (raw ++ [";"]) ++ dropSigns .operand rest := by
  induction raw generalizing place with
  | nil =>
    have hafter : place.after ";" = .operand := by cases place <;> rfl
    simp [dropSigns, hafter]
  | cons token raw ih =>
    rw [List.cons_append, List.cons_append, dropSigns, dropSigns, head?_append_end]
    split
    all_goals simp only [ih, List.cons_append]

theorem brace_mem_normalizeFrom (place : Place) (rest : List String) :
    "\x7d" ∈ normalizeFrom place ("\x7d" :: rest) := by
  have hlength : decimalLength "\x7d" = "\x7d" := by decide
  rw [normalizeFrom, if_neg (by simp), if_neg (by simp), hlength, ite_self]
  exact .head _

theorem dropSigns_of_normalizeFrom
    (hplace : place ≠ .bracket) (hbracket : "[" ∉ tokens) (hbrace : "\x7d" ∉ tokens)
    (h : normalizeFrom place raw = tokens) : dropSigns place raw = tokens := by
  induction raw generalizing place tokens with
  | nil => exact h
  | cons token raw ih =>
    rw [normalizeFrom] at h
    rw [dropSigns]
    by_cases hcomma : token = "," ∧ raw.head? = some "\x7d"
    · rw [if_pos hcomma] at h
      obtain ⟨rest, rfl⟩ : ∃ rest, raw = "\x7d" :: rest := by
        cases raw with
        | nil => cases hcomma.2
        | cons head rest => exact ⟨rest, by rw [Option.some.inj hcomma.2]⟩
      exact absurd (h ▸ brace_mem_normalizeFrom place rest) hbrace
    rw [if_neg hcomma] at h
    by_cases hsign : token = "+" ∧ place = .operand ∧ raw.head?.any isNumericLiteral = true
    · rw [if_pos hsign] at h ⊢
      exact ih hplace hbracket hbrace h
    · rw [if_neg hsign] at h ⊢
      rw [if_neg hplace] at h
      subst h
      rw [List.mem_cons, not_or] at hbracket hbrace
      have hafter : place.after token ≠ .bracket := by
        unfold Place.after
        rw [if_neg (Ne.symm hbracket.1)]
        repeat' split
        all_goals decide
      rw [ih hafter hbracket.2 hbrace.2 rfl]

/-! ## Bodies -/

theorem statement_taken (h : statement c = .ok (node, d)) :
    ∃ raw, c.rest = raw ++ ";" :: d.rest ∧
      dropSigns .operand (raw ++ [";"]) = node.tokens ++ [";"] := by
  obtain ⟨hexpr, hnormal⟩ := statement_normal h
  obtain ⟨e, he, hsemicolon, rfl⟩ := statement_eq_ok_iff.mp h
  obtain ⟨as, has, -⟩ := expression_eq_ok_iff.mp he
  obtain ⟨raw, hraw⟩ := has.suffix
  rw [Cursor.sees_eq_true_iff.mp hsemicolon] at hraw
  refine ⟨raw, hraw.symm, ?_⟩
  have hclosed : normalizeFrom .operand (raw ++ [";"]) = node.tokens ++ [";"] := by
    rw [← hraw, normalizeFrom_append_end (Or.inl rfl), List.append_cons node.tokens] at hnormal
    exact List.append_cancel_right hnormal
  have hnot : ∀ token, IsExpressionToken token ∨ token = ";" → token ≠ "[" ∧ token ≠ "\x7d" := by
    rintro token (htoken | rfl)
    · exact ⟨htoken.ne (by decide) (by decide) (by decide) (by decide),
        htoken.ne (by decide) (by decide) (by decide) (by decide)⟩
    · decide
  have hall : ∀ token ∈ node.tokens ++ [";"], token ≠ "[" ∧ token ≠ "\x7d" := by
    intro token hmem
    rw [List.mem_append, List.mem_singleton] at hmem
    exact hnot token (hmem.imp_left (hexpr.isExpressionToken token))
  exact dropSigns_of_normalizeFrom (by decide) (fun hmem => (hall _ hmem).1 rfl)
    (fun hmem => (hall _ hmem).2 rfl) hclosed

/-- The statements of a function are read from their own tokens, but for the plus signs of
numbers. -/
theorem statements_taken {function : String} {body : List Node}
    (h : statements function c = .ok (body, d)) :
    ∃ raw, c.rest = raw ++ "\x7d" :: d.rest ∧
      dropSigns .operand raw ++ ["\x7d"] = bodyTokens body := by
  fun_induction statements function c generalizing body with
  | case1 => cases h
  | case2 c _ hclosed =>
    cases h
    exact ⟨[], Cursor.sees_eq_true_iff.mp hclosed, rfl⟩
  | case3 => cases h
  | case4 => cases h
  | case5 c _ _ first e hfirst _ more after hmore ih =>
    cases h
    obtain ⟨raw, hraw, hsigns⟩ := statement_taken hfirst
    obtain ⟨later, hlater, hbody⟩ := ih hmore
    refine ⟨raw ++ ";" :: later, by rw [hraw, hlater]; simp, ?_⟩
    rw [dropSigns_append_semicolon, hsigns, List.append_assoc, hbody]
    simp [bodyTokens]

/-! ## Declarations -/

/-- What is read after the name of a declaration: everything up to its last token, with the body
of a function after the first brace. -/
structure TakesBody (node : Node) (c d : Cursor) (raw : List String) : Prop where
  rest : c.rest = raw ++ node.lastToken :: d.rest
  body : ∀ name params returns statements annotations,
    node = .function name params returns statements annotations →
      ∃ front body, raw = front ++ "\x7b" :: body ∧ "\x7b" ∉ front ∧
        dropSigns .operand body ++ ["\x7d"] = bodyTokens statements

theorem functionBody_taken (h : functionBody name tags c = .ok (node, d)) :
    ∃ raw, TakesBody node c d raw := by
  obtain ⟨c₁, h₁, h⟩ := bind_eq_ok h
  split at h
  · cases h
  · obtain ⟨c₂, h₂, h⟩ := bind_eq_ok h
    obtain ⟨c₃, h₃, h⟩ := bind_eq_ok h
    obtain ⟨⟨returns, c₄⟩, h₄, h⟩ := bind_eq_ok h
    obtain ⟨c₅, h₅, h⟩ := bind_eq_ok h
    obtain ⟨⟨body, c₆⟩, h₆, h⟩ := bind_eq_ok h
    cases h
    obtain ⟨raw, hraw, hsigns⟩ := statements_taken h₆
    have hbrace : "\x7b" ∉ typeTokens returns := fun hmem =>
      (isExpressionToken_of_mem_typeTokens (typeName_normal h₄).1 hmem).ne (by decide)
        (by decide) (by decide) (by decide) rfl
    refine ⟨"(" :: ")" :: "->" :: typeTokens returns ++ "\x7b" :: raw, ?_, ?_⟩
    · rw [expect_rest h₁, expect_rest h₂, expect_rest h₃, typeName_rest h₄, expect_rest h₅, hraw]
      simp [Node.lastToken]
    · rintro _ _ _ _ _ heq
      cases heq
      exact ⟨_, raw, rfl, by simp [hbrace], hsigns⟩

theorem declarationBody_taken (h : declarationBody name tags c = .ok (node, d)) :
    ∃ raw, TakesBody node c d raw := by
  unfold declarationBody at h
  split at h
  · rename_i hstruct
    obtain ⟨c₁, h₁, h⟩ := bind_eq_ok h
    obtain ⟨⟨members, c₂⟩, h₂, h⟩ := bind_eq_ok h
    cases h
    obtain ⟨raw, hraw⟩ := fields_suffix h₂
    refine ⟨"struct" :: "\x7b" :: raw, ?_, by rintro _ _ _ _ _ heq; cases heq⟩
    rw [Cursor.sees_eq_true_iff.mp hstruct, expect_rest h₁, ← hraw]
    rfl
  split at h
  · rename_i hfn
    obtain ⟨raw, hrest, hbody⟩ := functionBody_taken h
    refine ⟨"fn" :: raw, ?_, ?_⟩
    · rw [Cursor.sees_eq_true_iff.mp hfn, hrest]
      rfl
    · rintro _ _ _ _ _ rfl
      obtain ⟨front, body, rfl, hfront, hsigns⟩ := hbody _ _ _ _ _ rfl
      exact ⟨"fn" :: front, body, rfl, by simp [hfront], hsigns⟩
  · obtain ⟨⟨decl, c₁⟩, h₁, h⟩ := bind_eq_ok h
    obtain ⟨c₂, h₂, h⟩ := bind_eq_ok h
    cases h
    obtain ⟨raw, hraw⟩ := typedMember_suffix h₁
    refine ⟨raw, ?_, by rintro _ _ _ _ _ heq; cases heq⟩
    rw [← hraw, expect_rest h₂]
    rfl

theorem bodyOf_append {front body : List String} (hfront : "\x7b" ∉ front) (last : String) :
    bodyOf (front ++ "\x7b" :: (body ++ [last])) = body := by
  have hall : ∀ token ∈ front, decide (token ≠ "\x7b") = true := by
    intro token hmem
    rw [decide_eq_true_eq]
    rintro rfl
    exact hfront hmem
  unfold bodyOf
  rw [List.dropWhile_append_of_pos hall]
  simp

theorem brace_notMem_annotationTokens (htags : ∀ tag ∈ tags, isIdentifier tag = true) :
    "\x7b" ∉ annotationTokens tags := by
  unfold annotationTokens
  intro hmem
  obtain ⟨tag, htag, hmem⟩ := List.mem_flatMap.mp hmem
  simp only [List.mem_cons, List.not_mem_nil, or_false] at hmem
  rcases hmem with h | h | h | h
  · exact absurd h (by decide)
  · exact absurd h (by decide)
  · exact ne_of_isIdentifier (htags tag htag) (by decide) h.symm
  · exact absurd h (by decide)

theorem normalizeFrom_annotationTokens (rest : List String)
    (htags : ∀ tag ∈ tags, isIdentifier tag = true) :
    normalizeFrom .other (annotationTokens tags ++ rest) =
      annotationTokens tags ++ normalizeFrom .other rest := by
  induction tags with
  | nil => rfl
  | cons tag more ih =>
    have hkept := normalizeFrom_tag (htags tag (.head _))
      (annotationTokens more ++ rest)
    change normalizeFrom .other ("#" :: "[" :: tag :: "]" :: (annotationTokens more ++ rest)) = _
    rw [normalizeFrom_token .other "#" .other (by decide), hkept,
      ih fun t ht => htags t (.tail _ ht)]
    rfl

theorem declarationBody_segment (hname : isIdentifier name = true)
    (htags : ∀ tag ∈ tags, isIdentifier tag = true)
    (h : declarationBody name tags c = .ok (node, d)) :
    ∃ raw, c.rest = raw ++ d.rest ∧
      IsSegment node (annotationTokens tags ++ name :: ":" :: raw) := by
  obtain ⟨-, hannotations, hnormal⟩ := declarationBody_normal hname htags h
  obtain ⟨raw, hrest, hbody⟩ := declarationBody_taken h
  refine ⟨raw ++ [node.lastToken], by rw [hrest]; simp, ?_, ?_⟩
  · have hhead : name :: ":" :: normalizeFrom .other (raw ++ [node.lastToken]) =
        node.headTokens := by
      rw [hrest, normalizeFrom_append_end node.lastToken_eq, node.placeAfter_eq] at hnormal
      exact List.append_cancel_right hnormal
    rw [normalize, normalizeFrom_annotationTokens _ htags, normalizeFrom_declared (by decide) hname,
      hhead, Node.declarationTokens, hannotations]
  · rintro fname params returns statements annotations rfl
    obtain ⟨front, body, rfl, hfront, hsigns⟩ := hbody _ _ _ _ _ rfl
    have hclear : "\x7b" ∉ annotationTokens tags ++ name :: ":" :: front := by
      rw [List.mem_append, List.mem_cons, List.mem_cons, not_or, not_or, not_or]
      refine ⟨brace_notMem_annotationTokens htags, ?_, by decide, hfront⟩
      exact (ne_of_isIdentifier hname (by decide)).symm
    have hsplit : annotationTokens tags ++ name :: ":" :: (front ++ "\x7b" :: body ++ ["\x7d"]) =
        (annotationTokens tags ++ name :: ":" :: front) ++ "\x7b" :: (body ++ ["\x7d"]) := by
      simp
    change dropSigns .operand
      (bodyOf (_ ++ name :: ":" :: (front ++ "\x7b" :: body ++ ["\x7d"]))) ++
      _ = _
    rw [hsplit, bodyOf_append hclear, hsigns]

theorem declarations_segments {nodes : List Node} (htags : ∀ tag ∈ tags, isIdentifier tag = true)
    (h : declarations tags c = .ok nodes) :
    ∃ segments, annotationTokens tags ++ c.rest = segments.flatten ∧
      List.Forall₂ IsSegment nodes segments := by
  fun_induction declarations tags c generalizing nodes with
  | case1 c hend =>
    cases h
    exact ⟨[], by simp [hend, annotationTokens], .nil⟩
  | case2 => cases h
  | case3 => cases h
  | case4 tags c hne tag d hitem _ ih =>
    obtain ⟨hid, hrest⟩ := item_rest hitem
    have hall : ∀ t ∈ tags ++ [tag], isIdentifier t = true := by
      intro t ht
      rcases List.mem_append.mp ht with ht | ht
      · exact htags t ht
      · rw [List.mem_singleton.mp ht]
        exact hid
    obtain ⟨segments, hsegments, hnodes⟩ := ih hall h
    refine ⟨segments, ?_, hnodes⟩
    rw [← hsegments, hrest]
    simp [annotationTokens]
  | case5 => cases h
  | case6 tags c hne node d hitem _ more hmore ih =>
    cases h
    obtain ⟨name, e, hname, hrest, hbody⟩ := item_rest hitem
    obtain ⟨raw, hraw, hsegment⟩ := declarationBody_segment hname htags hbody
    obtain ⟨segments, hsegments, hall⟩ := ih (by simp) hmore
    refine ⟨_ :: segments, ?_, .cons hsegment hall⟩
    rw [List.flatten_cons, ← hsegments, hrest, hraw]
    simp [annotationTokens]

theorem exists_segments {scope : Scope} (h : parse tokens = .ok scope) :
    ∃ segments, tokens = segments.flatten ∧ List.Forall₂ IsSegment scope.children segments := by
  unfold parse at h
  cases hread : declarations [] ⟨0, tokens⟩ with
  | error e =>
    rw [hread] at h
    cases h
  | ok nodes =>
    rw [hread] at h
    cases h
    exact declarations_segments (by simp) hread

end Shader.Program
