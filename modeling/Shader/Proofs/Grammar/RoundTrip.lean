import Shader.Proofs.Grammar.Normal

/-!
# Programs are read back as they were written

Each reader, set before the tokens of a tree of the grammar, takes exactly these tokens and gives
the tree. What follows must not be able to extend the tree: a type is not followed by `<`, a type
with an array length not by `[`, and an expression ends at a token at which its reader stops.

* `typeName_tokens`, `arrayLength_tokens`, `field_tokens`: types and members;
* `IsExpression.reads`: expressions, through the derivations of their runs;
* `declarations_tokens`: programs.

Together with the normal forms of what is read this makes reading and writing inverse to each
other up to normal form: `parse_inverts_tokens`.
-/

namespace Shader.Program

open Text

variable {name tag token : String} {stop : Stop} {rest tags : List String} {prior : Option Atom}
  {i : Nat} {c d : Cursor} {node : Node} {as : List Atom} {more : List Node}

/-! ## Types and members -/

theorem expect_cons (want : String) (i : Nat) (rest : List String) :
    expect want ⟨i, want :: rest⟩ = .ok ⟨i + 1, rest⟩ := by
  simp [expect, Cursor.next]

theorem identifier_cons (role : NameRole) (i : Nat) (rest : List String)
    (h : isIdentifier name = true) :
    identifier role ⟨i, name :: rest⟩ = .ok (name, ⟨i + 1, rest⟩) := by
  simp [identifier, h, Cursor.next]

theorem typeName_tokens {type : String} {i : Nat} {rest : List String} (h : IsTypeName type)
    (hrest : rest.head? ≠ some "<") :
    ∃ j, typeName ⟨i, typeTokens type ++ rest⟩ = .ok (type, ⟨j, rest⟩) := by
  cases h with
  | plain hname =>
    refine ⟨i + 1, ?_⟩
    rw [typeTokens_plain hname, typeName, List.singleton_append, identifier_cons _ _ _ hname]
    simp [bind, Except.bind, genericArgument, Cursor.sees, hrest]
  | generic houter hinner =>
    refine ⟨i + 4, ?_⟩
    rw [typeTokens_generic houter hinner, typeName]
    simp [bind, Except.bind, pure, Except.pure, genericArgument, Cursor.sees, Cursor.next,
      identifier_cons, expect_cons, houter, hinner]
  | pointer houter hinner =>
    refine ⟨i + 5, ?_⟩
    rw [typeTokens_pointer houter, typeName]
    simp [bind, Except.bind, pure, Except.pure, genericArgument, Cursor.sees, Cursor.next,
      identifier_cons, expect_cons, houter, hinner]

theorem arrayLength_tokens {i : Nat} {rest : List String} (count : UInt32)
    (hrest : rest.head? ≠ some "[") :
    ∃ j, arrayLength ⟨i, lengthTokens count ++ rest⟩ = .ok (count, ⟨j, rest⟩) := by
  by_cases hcount : count = 0
  · refine ⟨i, ?_⟩
    simp [lengthTokens, hcount, arrayLength, Cursor.sees, hrest]
  · refine ⟨i + 3, ?_⟩
    simp [bind, Except.bind, pure, Except.pure, lengthTokens, hcount, arrayLength, Cursor.sees,
      Cursor.next, readLength?_repr hcount, expect_cons]

theorem typedMember_tokens {type : String} {i : Nat} {rest : List String} (name : String)
    (annotations : List String) (count : UInt32) (h : IsTypeName type)
    (hgeneric : rest.head? ≠ some "<") (harray : rest.head? ≠ some "[") :
    ∃ j, typedMember name annotations ⟨i, typeTokens type ++ (lengthTokens count ++ rest)⟩ =
      .ok (⟨name, type, count, annotations⟩, ⟨j, rest⟩) := by
  have hlength : (lengthTokens count ++ rest).head? ≠ some "<" := by
    unfold lengthTokens
    split
    · exact hgeneric
    · simp
  obtain ⟨j, hj⟩ := @typeName_tokens _ i _ h hlength
  obtain ⟨k, hk⟩ := @arrayLength_tokens j _ count harray
  refine ⟨k, ?_⟩
  simp only [typedMember, bind, Except.bind, hj, hk]
  rfl

theorem field_tokens {m : Member} {i : Nat} {rest : List String} (h : m.IsField)
    (hgeneric : rest.head? ≠ some "<") (harray : rest.head? ≠ some "[") :
    ∃ j, field ⟨i, m.tokens ++ rest⟩ = .ok (m, ⟨j, rest⟩) := by
  obtain ⟨name, type, count, annotations⟩ := m
  obtain ⟨hname, htype, rfl⟩ := h
  obtain ⟨j, hj⟩ := @typedMember_tokens _ (i + 2) _ name [] count htype hgeneric harray
  refine ⟨j, ?_⟩
  rw [field, Member.tokens]
  simp only [List.cons_append, List.append_assoc, identifier_cons _ _ _ hname, bind, Except.bind,
    expect_cons]
  exact hj

theorem localVariable_tokens {name type : String} {i : Nat} {rest : List String}
    (hname : isIdentifier name = true) (htype : IsTypeName type)
    (hrest : rest.head? ≠ some "<") :
    ∃ j, localVariable ⟨i, name :: ":" :: (typeTokens type ++ rest)⟩ =
      .ok (.localVar name type, ⟨j, rest⟩) := by
  obtain ⟨j, hj⟩ := @typeName_tokens _ (i + 2) _ htype hrest
  refine ⟨j, ?_⟩
  simp only [localVariable, identifier_cons _ _ _ hname, bind, Except.bind, expect_cons, hj]
  rfl

/-! ## Expressions -/

/-- A token that ends an expression extends neither a type nor a name in front of it. -/
def Closes (rest : List String) : Prop := rest.head? ≠ some "<" ∧ rest.head? ≠ some "("

theorem closes_of_holds (h : stop.holds token = true) : Closes (token :: rest) := by
  refine ⟨?_, ?_⟩ <;>
  · intro heq
    obtain rfl : token = _ := by simpa using heq
    cases stop <;> cases h

theorem closes_of_bindingPower {symbol : String} {rest : List String}
    (h : 0 < bindingPower symbol) : Closes (symbol :: rest) := by
  have hall : ∀ t ∈ operatorSymbols, t ≠ "<" ∧ t ≠ "(" := by decide
  obtain ⟨hgeneric, hcall⟩ := hall symbol (mem_operatorSymbols h)
  exact ⟨by simpa using hgeneric, by simpa using hcall⟩

theorem Stop.mem_of_holds (h : stop.holds token = true) : token ∈ [";", "\x7d", ",", ")"] := by
  cases stop <;> simp [Stop.holds] at h ⊢ <;> tauto

theorem Stop.holds_of_class (stop : Stop) (p : String → Bool)
    (h : p token = true) (hall : ∀ t ∈ [";", "\x7d", ",", ")"], p t = false) :
    stop.holds token = false := by
  rw [Bool.eq_false_iff]
  intro hstop
  rw [hall token (Stop.mem_of_holds hstop)] at h
  cases h

theorem element_stop (h : stop.holds token = true) :
    element stop prior ⟨i, token :: rest⟩ = .ok .stop := by
  simp [element, h]

theorem element_return :
    element stop none ⟨i, "return" :: rest⟩ = .ok (.atom ⟨.ret, "return", i⟩ ⟨i + 1, rest⟩) := by
  cases stop <;> rfl

theorem element_operator {symbol : String} (h : 0 < bindingPower symbol)
    (hprior : signPosition prior = false) :
    element stop prior ⟨i, symbol :: rest⟩ =
      .ok (.atom ⟨.operator symbol, symbol, i⟩ ⟨i + 1, rest⟩) := by
  have hall : ∀ t ∈ operatorSymbols, t ≠ "let" ∧ t ≠ "return" := by decide
  obtain ⟨hlet, hreturn⟩ := hall symbol (mem_operatorSymbols h)
  have hstop := stop.holds_of_class (fun t => 0 < bindingPower t) (by simpa using h) (by decide)
  simp [element, hstop, hlet, hreturn, hprior, h, Cursor.next]

theorem element_literal {text : String} (h : isLiteral text = true) :
    element stop prior ⟨i, text :: rest⟩ =
      .ok (.atom ⟨.operand (.constant text), text, i⟩ ⟨i + 1, rest⟩) := by
  have hne : ∀ t ∈ ["let", "return", "-", "+"], text ≠ t := by
    rintro t ht rfl
    have hall : ∀ t ∈ ["let", "return", "-", "+"], isLiteral t = false := by decide
    rw [hall text ht] at h
    cases h
  simp only [List.mem_cons, List.not_mem_nil, or_false, forall_eq_or_imp, forall_eq] at hne
  have hstop := stop.holds_of_class isLiteral h (by decide)
  simp [element, hstop, hne, bindingPower_of_isLiteral h, h, Cursor.next]

theorem element_negative {number : String} (h : isNumericLiteral number = true)
    (hprior : signPosition prior = true) :
    element stop prior ⟨i, "-" :: number :: rest⟩ =
      .ok (.atom ⟨.operand (.constant ("-" ++ number)), "-", i⟩ ⟨i + 2, rest⟩) := by
  have hstop : stop.holds "-" = false := by cases stop <;> rfl
  simp [element, hstop, hprior, h, Cursor.next, Cursor.seesNumber, Cursor.token]

theorem element_localVariable {type : String} (hname : isIdentifier name = true)
    (htype : IsTypeName type) (hrest : Closes rest) :
    ∃ j, element stop prior ⟨i, "let" :: name :: ":" :: (typeTokens type ++ rest)⟩ =
      .ok (.atom ⟨.operand (.localVar name type), "let", i⟩ ⟨j, rest⟩) := by
  obtain ⟨j, hj⟩ := @localVariable_tokens _ _ (i + 1) _ hname htype hrest.1
  have hstop : stop.holds "let" = false := by cases stop <;> rfl
  refine ⟨j, ?_⟩
  simp only [element, hstop, Cursor.next, List.tail_cons, hj, bind, Except.bind]
  rfl

theorem element_name {stop : Stop} {prior : Option Atom} {name : String} {i : Nat}
    {rest : List String} (h : IsName name) :
    element stop prior ⟨i, name :: rest⟩ = .ok (
      if rest.head? = some "(" then .call name ⟨i + 2, rest.tail⟩
      else .atom ⟨.operand (.ident name), name, i⟩ ⟨i + 1, rest⟩) := by
  have hid := h.1
  have hlet : name ≠ "let" := by
    rintro rfl
    exact absurd h.2 (by decide)
  have hreturn : name ≠ "return" := by
    rintro rfl
    exact absurd h.2 (by decide)
  have hsign : name ≠ "-" ∧ name ≠ "+" :=
    ⟨ne_of_isIdentifier hid (by decide), ne_of_isIdentifier hid (by decide)⟩
  have hstop := stop.holds_of_class isIdentifier hid (by decide)
  by_cases hcall : rest.head? = some "("
  · simp [element, hstop, hlet, hreturn, hsign, bindingPower_of_isIdentifier hid,
      isLiteral_of_isName h, hid, Cursor.next, Cursor.sees, hcall]
  · simp [element, hstop, hlet, hreturn, hsign, bindingPower_of_isIdentifier hid,
      isLiteral_of_isName h, hid, Cursor.next, Cursor.sees, hcall]

/-- From the first place atoms of these kinds are read, the last of them an operand, and reading
goes on at the second place. -/
def Passes (stop : Stop) (prior : Option Atom) (c : Cursor) (kinds : List AtomKind) (d : Cursor) :
    Prop :=
  ∃ as last, as.map Atom.kind = kinds ∧ signPosition (some last) = false ∧
    ∀ more e, ReadsAtoms stop (some last) d more e → ReadsAtoms stop prior c (as ++ more) e

theorem passes_operand (h : element stop prior c = .ok (.atom ⟨.operand node, token, i⟩ d)) :
    Passes stop prior c [.operand node] d :=
  ⟨[_], _, rfl, rfl, fun _ _ hmore => .atom h hmore⟩

theorem passes_call {after : Cursor} {callee : String} {args : List Node}
    (h : element stop prior c = .ok (.call callee after)) (hargs : ReadsCall after args d) :
    Passes stop prior c [.operand (.call callee args)] d :=
  ⟨[_], _, rfl, rfl, fun _ _ hmore => .call h hargs hmore⟩

theorem Passes.operator {stop : Stop} {prior : Option Atom} {c d : Cursor} {symbol : String}
    {i : Nat} {rest : List String} {left right : List AtomKind} (hs : 0 < bindingPower symbol)
    (hleft : Passes stop prior c left ⟨i, symbol :: rest⟩)
    (hright : Passes stop (some ⟨.operator symbol, symbol, i⟩) ⟨i + 1, rest⟩ right d) :
    Passes stop prior c (left ++ .operator symbol :: right) d := by
  obtain ⟨ls, last, hls, hlast, hl⟩ := hleft
  obtain ⟨rs, end', hrs, hend, hr⟩ := hright
  refine ⟨ls ++ ⟨.operator symbol, symbol, i⟩ :: rs, end', ?_, hend, ?_⟩
  · simp [hls, hrs]
  · intro more e hmore
    rw [List.append_assoc, List.cons_append]
    exact hl _ _ (.atom (element_operator hs hlast) (hr _ _ hmore))

theorem valueKinds_access (left right : Node) :
    valueKinds (.access left right) = valueKinds left ++ .operator "." :: valueKinds right := by
  simp [valueKinds, Node.firstOperand, Node.laterOperands, tailKinds]

theorem valueKinds_binary (symbol : String) (left right : Node) :
    valueKinds (.binary symbol left right) =
      valueKinds left ++ .operator symbol :: valueKinds right := by
  simp [valueKinds, Node.firstOperand, Node.laterOperands, tailKinds]

theorem ReadsAtoms.sees_eq_false (h : ReadsAtoms stop prior c as d) (hne : as ≠ [])
    (hstop : stop.holds token = true) : c.sees token = false := by
  rw [Bool.eq_false_iff]
  intro hsees
  have helement : element stop prior c = .ok .stop := by
    obtain ⟨i, rest⟩ := c
    rw [Cursor.sees_eq_true_iff] at hsees
    dsimp only at hsees
    rw [hsees]
    exact element_stop hstop
  cases h with
  | stop => exact hne rfl
  | atom h | call h => rw [helement] at h; cases h

theorem expressionKinds_ne_nil (node : Node) : expressionKinds node ≠ [] := by
  unfold expressionKinds
  split <;> exact List.cons_ne_nil _ _

theorem ne_nil_of_kinds (h : as.map Atom.kind = expressionKinds node) : as ≠ [] := by
  rintro rfl
  exact expressionKinds_ne_nil node h.symm

/-- Wherever the tokens of the expression stand before a token that ends it, its atoms are read. -/
def IsRead (node : Node) : Prop :=
  ∀ stop token i rest, Stop.holds stop token = true → ∃ as j,
    as.map Atom.kind = expressionKinds node ∧
      ReadsAtoms stop none ⟨i, node.tokens ++ token :: rest⟩ as ⟨j, token :: rest⟩

theorem readsArguments_tokens {args : List Node} {i : Nat} {rest : List String} (hne : args ≠ [])
    (hexpr : ∀ arg ∈ args, IsExpression arg) (hread : ∀ arg ∈ args, IsRead arg) :
    ∃ j, ReadsArguments ⟨i, argumentTokens args ++ rest⟩ args ⟨j, rest⟩ := by
  induction args generalizing i with
  | nil => exact absurd rfl hne
  | cons first more ih =>
    have hfirst := hexpr first (.head _)
    by_cases hmore : more = []
    · subst hmore
      obtain ⟨as, j, hkinds, has⟩ := hread first (.head _) .argument ")" i rest rfl
      refine ⟨j + 1, ?_⟩
      rw [argumentTokens, laterArgumentTokens, List.append_assoc]
      exact .last has (assemble_of_kinds hfirst hkinds) rfl
    · obtain ⟨as, j, hkinds, has⟩ := hread first (.head _) .argument ","
        i (argumentTokens more ++ rest) rfl
      obtain ⟨k, hk⟩ := @ih (j + 1) hmore (fun arg h => hexpr arg (.tail _ h))
        (fun arg h => hread arg (.tail _ h))
      refine ⟨k, ?_⟩
      rw [argumentTokens, laterArgumentTokens_of_ne_nil hmore, List.append_assoc]
      exact .more has (assemble_of_kinds hfirst hkinds) rfl hk

theorem readsCall_tokens {args : List Node} {i : Nat} {rest : List String}
    (hexpr : ∀ arg ∈ args, IsExpression arg) (hread : ∀ arg ∈ args, IsRead arg) :
    ∃ j, ReadsCall ⟨i, argumentTokens args ++ rest⟩ args ⟨j, rest⟩ := by
  by_cases hargs : args = []
  · subst hargs
    exact ⟨i + 1, .none rfl⟩
  · obtain ⟨j, hj⟩ := @readsArguments_tokens args i rest hargs hexpr hread
    refine ⟨j, .some ?_ hj⟩
    -- the first argument has atoms, so the call is not closed at once
    cases hj with
    | last has harg | more has harg =>
      refine has.sees_eq_false ?_ rfl
      rintro rfl
      cases harg

mutual

/-- The tokens of a value are read where an operand can stand, up to a token that does not extend
it. -/
theorem IsValue.passes {node : Node} : IsValue node →
    ∀ stop prior i rest, signPosition prior = true → Closes rest →
      ∃ j, Passes stop prior ⟨i, node.tokens ++ rest⟩ (valueKinds node) ⟨j, rest⟩
  | .ident hname => by
    intro stop prior i rest _ hrest
    refine ⟨i + 1, ?_⟩
    have helement := @element_name stop prior _ i rest hname
    rw [if_neg hrest.2] at helement
    exact passes_operand helement
  | .constant (.plain htext) => by
    intro stop prior i rest _ _
    refine ⟨i + 1, ?_⟩
    rw [Node.tokens, constantTokens_of_isLiteral htext]
    exact passes_operand (element_literal htext)
  | .constant (.negative hnumber) => by
    intro stop prior i rest hprior _
    refine ⟨i + 2, ?_⟩
    rw [Node.tokens, constantTokens_negative]
    exact passes_operand (element_negative hnumber hprior)
  | .localVar hname htype => by
    intro stop prior i rest _ hrest
    obtain ⟨j, hj⟩ := element_localVariable hname htype hrest
    exact ⟨j, passes_operand hj⟩
  | .call hcallee hargs => by
    intro stop prior i rest _ _
    obtain ⟨j, hj⟩ := @readsCall_tokens _ (i + 2) rest hargs (fun arg h => (hargs arg h).reads)
    refine ⟨j, passes_call ?_ hj⟩
    rw [Node.tokens, List.cons_append, element_name hcallee]
    rfl
  | .access hleft hright _ => by
    intro stop prior i rest hprior hrest
    obtain ⟨j, hj⟩ := hleft.passes stop prior i _ hprior
      (@closes_of_bindingPower "." _ (by decide))
    obtain ⟨k, hk⟩ := hright.passes stop (some ⟨.operator ".", ".", j⟩) (j + 1) rest rfl hrest
    refine ⟨k, ?_⟩
    rw [Node.tokens, List.append_assoc, valueKinds_access]
    exact hj.operator (by decide) hk
  | .binary hsymbol _ hleft hright _ => by
    intro stop prior i rest hprior hrest
    obtain ⟨j, hj⟩ := hleft.passes stop prior i _ hprior (closes_of_bindingPower hsymbol)
    obtain ⟨k, hk⟩ := hright.passes stop (some ⟨.operator _, _, j⟩) (j + 1) rest rfl hrest
    refine ⟨k, ?_⟩
    rw [Node.tokens, List.append_assoc, valueKinds_binary]
    exact hj.operator hsymbol hk

theorem IsExpression.reads {node : Node} : IsExpression node → IsRead node
  | .value hnode => by
    intro stop token i rest hstop
    obtain ⟨j, as, last, hkinds, -, has⟩ :=
      hnode.passes stop none i (token :: rest) rfl (closes_of_holds hstop)
    refine ⟨as, j, ?_, ?_⟩
    · rw [hkinds, expressionKinds_of_isValue hnode]
    · simpa using has _ _ (.stop (element_stop hstop))
  | .leave => by
    intro stop token i rest hstop
    exact ⟨[_], i + 1, rfl, .atom element_return (.stop (element_stop hstop))⟩
  | .leaveWith hvalue => by
    intro stop token i rest hstop
    obtain ⟨j, as, last, hkinds, -, has⟩ :=
      hvalue.passes stop (some ⟨.ret, "return", i⟩) (i + 1) (token :: rest) rfl
        (closes_of_holds hstop)
    refine ⟨⟨.ret, "return", i⟩ :: as, j, ?_, ?_⟩
    · rw [List.map_cons, hkinds]
      rfl
    · have hmore := has _ _ (.stop (element_stop hstop))
      rw [List.append_nil] at hmore
      exact .atom element_return hmore

end

/-! ## Declarations -/

theorem statement_tokens {node : Node} {i : Nat} {rest : List String} (h : IsExpression node) :
    (Cursor.mk i (node.tokens ++ ";" :: rest)).sees "\x7d" = false ∧
      ∃ j, statement ⟨i, node.tokens ++ ";" :: rest⟩ = .ok (node, ⟨j, rest⟩) := by
  obtain ⟨as, j, hkinds, has⟩ := h.reads .statement ";" i rest rfl
  refine ⟨has.sees_eq_false (ne_nil_of_kinds hkinds) rfl, j + 1, ?_⟩
  have hexpression := expression_eq_ok_iff.mpr ⟨as, has, assemble_of_kinds h hkinds⟩
  exact statement_eq_ok_iff.mpr ⟨_, hexpression, rfl, rfl⟩

theorem statements_of_statement {function : String} {first : Node} {e : Cursor}
    (hopen : c.sees "\x7d" = false) (h : statement c = .ok (first, d))
    (hmore : statements function d = .ok (more, e)) :
    statements function c = .ok (first :: more, e) := by
  have hne : c.rest ≠ [] := by
    have hlt := statement_lt h
    intro hnil
    simp [hnil] at hlt
  rw [statements, if_neg hne, if_neg (by simp [hopen])]
  split <;> rename_i heq <;> rw [h] at heq <;> cases heq
  simp only [hmore]

theorem statements_tokens {function : String} {body : List Node} {i : Nat} {rest : List String}
    (h : ∀ s ∈ body, IsExpression s) :
    ∃ j, statements function ⟨i, bodyTokens body ++ rest⟩ = .ok (body, ⟨j, rest⟩) := by
  induction body generalizing i with
  | nil =>
    refine ⟨i + 1, ?_⟩
    rw [statements]
    simp [bodyTokens, Cursor.sees, Cursor.next]
  | cons first more ih =>
    obtain ⟨hopen, j, hj⟩ := @statement_tokens first i (bodyTokens more ++ rest)
      (h first (.head _))
    obtain ⟨k, hk⟩ := @ih j (fun s hs => h s (.tail _ hs))
    refine ⟨k, ?_⟩
    rw [bodyTokens, List.append_assoc, List.cons_append]
    exact statements_of_statement hopen hj hk

theorem field_sees {m : Member} (h : m.IsField) :
    (Cursor.mk i (m.tokens ++ rest)).sees "\x7d" = false := by
  have hne : m.name ≠ "\x7d" := ne_of_isIdentifier h.1 (by decide)
  simp [Cursor.sees, Member.tokens, hne]

theorem fields_of_field {struct : String} {first : Member} (hopen : c.sees "\x7d" = false)
    (h : field c = .ok (first, d)) :
    fields struct c =
      if d.rest = [] then .error (.ended (.struct struct))
      else if d.sees "," then
        match fields struct d.next with
        | .error e => .error e
        | .ok (more, after) => .ok (first :: more, after)
      else if d.sees "\x7d" then .ok ([first], d.next)
      else .error (d.fail (.fieldEnd struct first.name)) := by
  have hne : c.rest ≠ [] := by
    have hlt := field_lt h
    intro hnil
    simp [hnil] at hlt
  rw [fields, if_neg hne, if_neg (by simp [hopen])]
  split <;> rename_i heq <;> rw [h] at heq <;> cases heq
  rfl

theorem fields_tokens {struct : String} {members : List Member} {i : Nat} {rest : List String}
    (h : ∀ m ∈ members, m.IsField) :
    ∃ j, fields struct ⟨i, fieldTokens members ++ rest⟩ = .ok (members, ⟨j, rest⟩) := by
  induction members generalizing i with
  | nil =>
    refine ⟨i + 1, ?_⟩
    rw [fields]
    simp [fieldTokens, Cursor.sees, Cursor.next]
  | cons first more ih =>
    have hfirst := h first (.head _)
    by_cases hmore : more = []
    · subst hmore
      obtain ⟨j, hj⟩ := @field_tokens first i ("\x7d" :: rest) hfirst (by simp) (by simp)
      refine ⟨j + 1, ?_⟩
      rw [fieldTokens, List.append_assoc, List.singleton_append,
        fields_of_field (field_sees hfirst) hj]
      simp [Cursor.sees, Cursor.next]
    · obtain ⟨j, hj⟩ := @field_tokens first i ("," :: (fieldTokens more ++ rest)) hfirst
        (by simp) (by simp)
      obtain ⟨k, hk⟩ := @ih (j + 1) (fun m hm => h m (.tail _ hm))
      refine ⟨k, ?_⟩
      rw [fieldTokens_cons_of_ne_nil hmore, List.append_assoc, List.cons_append,
        fields_of_field (field_sees hfirst) hj]
      simp [Cursor.sees, Cursor.next, hk]

theorem structBody_tokens {name : String} {members : List Member} {i : Nat} {rest : List String}
    (tags : List String) (h : ∀ m ∈ members, m.IsField) :
    ∃ j, structBody name tags ⟨i, "\x7b" :: (fieldTokens members ++ rest)⟩ =
      .ok (.struct ⟨name, members, tags⟩, ⟨j, rest⟩) := by
  obtain ⟨j, hj⟩ := @fields_tokens name members (i + 1) rest h
  refine ⟨j, ?_⟩
  simp only [structBody, bind, Except.bind, expect_cons, hj]
  rfl

theorem functionBody_tokens {name returns : String} {body : List Node} {i : Nat}
    {rest : List String} (tags : List String) (hreturns : IsTypeName returns)
    (hbody : ∀ s ∈ body, IsExpression s) :
    ∃ j, functionBody name tags
        ⟨i, "(" :: ")" :: "->" :: (typeTokens returns ++ "\x7b" :: (bodyTokens body ++ rest))⟩ =
      .ok (.function name [] returns body tags, ⟨j, rest⟩) := by
  obtain ⟨j, hj⟩ := @typeName_tokens returns (i + 3) ("\x7b" :: (bodyTokens body ++ rest)) hreturns
    (by simp)
  obtain ⟨k, hk⟩ := @statements_tokens name body (j + 1) rest hbody
  refine ⟨k, ?_⟩
  simp only [functionBody, bind, Except.bind, expect_cons, Cursor.sees, List.head?_cons,
    decide_true, Bool.not_true, Bool.and_false, Bool.false_eq_true, if_false, hj, hk]
  rfl

theorem memberBody_tokens {name type : String} {i : Nat} {rest : List String} (tags : List String)
    (count : UInt32) (h : IsTypeName type) :
    ∃ j, memberBody name tags ⟨i, typeTokens type ++ (lengthTokens count ++ ";" :: rest)⟩ =
      .ok (.member ⟨name, type, count, tags⟩, ⟨j, rest⟩) := by
  obtain ⟨j, hj⟩ := @typedMember_tokens type i (";" :: rest) name tags count h (by simp) (by simp)
  refine ⟨j + 1, ?_⟩
  simp only [memberBody, bind, Except.bind, hj, expect_cons]
  rfl

theorem item_declared (hname : isIdentifier name = true)
    (h : declarationBody name tags ⟨i + 2, rest⟩ = .ok (node, d)) :
    item tags ⟨i, name :: ":" :: rest⟩ = .ok (.declaration node, d) := by
  have hsign : name ≠ "#" := ne_of_isIdentifier hname (by decide)
  simp [item, Cursor.sees, Cursor.token, Cursor.next, hsign, hname, h, bind, Except.bind]
  rfl

theorem item_tokens {node : Node} {i : Nat} {rest : List String} (h : node.IsDeclaration) :
    ∃ j, item node.annotations ⟨i, node.headTokens ++ rest⟩ =
      .ok (.declaration node, ⟨j, rest⟩) := by
  cases node with
  | struct decl =>
    obtain ⟨name, members, tags⟩ := decl
    obtain ⟨hname, -, hfields⟩ := h
    obtain ⟨j, hj⟩ := @structBody_tokens name members (i + 3) rest tags hfields
    exact ⟨j, item_declared hname hj⟩
  | function name params returns body tags =>
    obtain ⟨hname, -, rfl, hreturns, hbody⟩ := h
    obtain ⟨j, hj⟩ := @functionBody_tokens name returns body (i + 3) rest tags hreturns hbody
    refine ⟨j, ?_⟩
    rw [Node.headTokens]
    simp only [List.cons_append, List.append_assoc]
    exact item_declared hname hj
  | member decl =>
    obtain ⟨name, type, count, tags⟩ := decl
    obtain ⟨hname, -, htype, hword⟩ := h
    obtain ⟨j, hj⟩ := @memberBody_tokens name type (i + 2) rest tags count htype
    refine ⟨j, ?_⟩
    rw [Node.headTokens, Member.tokens]
    simp only [List.cons_append, List.append_assoc, List.nil_append]
    refine item_declared hname ?_
    have hsees : ∀ word ∈ ["struct", "fn"], (Cursor.mk (i + 2)
        (typeTokens type ++ (lengthTokens count ++ ";" :: rest))).sees word = false := by
      intro word hmem
      rw [Cursor.sees_eq_false_iff, head?_typeTokens_append]
      exact hword word hmem
    rw [declarationBody, hsees "struct" (by simp), hsees "fn" (by simp)]
    exact hj
  | _ => cases h

theorem item_tag (h : isIdentifier tag = true) :
    item tags ⟨i, "#" :: "[" :: tag :: "]" :: rest⟩ = .ok (.tag tag, ⟨i + 4, rest⟩) := by
  simp [item, Cursor.sees, Cursor.next, tagBody, bind, Except.bind, expect_cons,
    identifier_cons _ _ _ h]
  rfl

theorem declarations_of_tag (hc : c.rest ≠ []) (h : item tags c = .ok (.tag tag, d)) :
    declarations tags c = declarations (tags ++ [tag]) d := by
  rw [declarations.eq_def, dif_neg hc]
  split <;> rename_i heq <;> rw [h] at heq <;> cases heq
  rfl

theorem declarations_of_declaration (hc : c.rest ≠ [])
    (h : item tags c = .ok (.declaration node, d)) (hmore : declarations [] d = .ok more) :
    declarations tags c = .ok (node :: more) := by
  rw [declarations.eq_def, dif_neg hc]
  split <;> rename_i heq <;> rw [h] at heq <;> cases heq
  simp only [hmore]

theorem declarations_annotations {tags extra : List String} {i : Nat} {rest : List String}
    (h : ∀ tag ∈ extra, isIdentifier tag = true) :
    ∃ j, declarations tags ⟨i, annotationTokens extra ++ rest⟩ =
      declarations (tags ++ extra) ⟨j, rest⟩ := by
  induction extra generalizing tags i with
  | nil => exact ⟨i, by simp [annotationTokens]⟩
  | cons tag extra ih =>
    obtain ⟨j, hj⟩ := @ih (tags ++ [tag]) (i + 4) (fun t ht => h t (.tail _ ht))
    refine ⟨j, ?_⟩
    rw [List.append_assoc, List.singleton_append] at hj
    rw [← hj]
    exact declarations_of_tag (List.cons_ne_nil _ _) (item_tag (h tag (.head _)))

theorem Node.IsDeclaration.annotations {node : Node} (h : node.IsDeclaration) :
    ∀ tag ∈ node.annotations, isIdentifier tag = true := by
  cases node with
  | struct | function | member => exact h.2.1
  | _ => cases h

theorem headTokens_ne_nil (h : node.IsDeclaration) : node.headTokens ≠ [] := by
  cases node with
  | struct | function | member => exact List.cons_ne_nil _ _
  | _ => cases h

theorem declarations_tokens {nodes : List Node} (h : ∀ node ∈ nodes, node.IsDeclaration) :
    declarations [] ⟨i, nodes.flatMap Node.declarationTokens⟩ = .ok nodes := by
  induction nodes generalizing i with
  | nil =>
    rw [declarations]
    simp
  | cons node more ih =>
    have hnode := h node (.head _)
    obtain ⟨j, hj⟩ := @declarations_annotations [] node.annotations i
      (node.headTokens ++ more.flatMap Node.declarationTokens) hnode.annotations
    obtain ⟨k, hk⟩ := @item_tokens node j (more.flatMap Node.declarationTokens) hnode
    rw [List.flatMap_cons, Node.declarationTokens, List.append_assoc, hj, List.nil_append]
    refine declarations_of_declaration ?_ hk (ih fun n hn => h n (.tail _ hn))
    simp [headTokens_ne_nil hnode]

/-! ## Programs -/

theorem normal_of_parse {tokens : List String} {root : Scope} (h : parse tokens = .ok root) :
    root.IsProgram ∧ root.tokens = normalize tokens := by
  unfold parse at h
  cases hnodes : declarations [] ⟨0, tokens⟩ with
  | error e =>
    rw [hnodes] at h
    cases h
  | ok nodes =>
    rw [hnodes] at h
    cases h
    obtain ⟨hdeclarations, hnormal⟩ := @declarations_normal [] nodes .other _ (by decide)
      (by simp) hnodes
    exact ⟨⟨rfl, hdeclarations⟩, hnormal.symm⟩

theorem parse_tokens {root : Scope} (h : root.IsProgram) : parse root.tokens = .ok root := by
  obtain ⟨name, children⟩ := root
  obtain ⟨rfl, hchildren⟩ := h
  rw [parse, Scope.tokens, declarations_tokens hchildren]
  rfl

theorem isProgram_function {name returns : String} {statements : List Node}
    (hname : isIdentifier name = true) (hreturns : isIdentifier returns = true)
    (h : ∀ s ∈ statements, IsExpression s) :
    (Scope.root [.function name [] returns statements []]).IsProgram :=
  ⟨rfl, List.forall_mem_singleton.mpr ⟨hname, List.forall_mem_nil _, rfl, .plain hreturns, h⟩⟩

/-- Reading and writing agree. What is read is a program of the grammar whose tokens are those
read, up to normal form, and every program of the grammar is read back from its tokens. -/
theorem parse_inverts_tokens :
    (∀ tokens root, parse tokens = .ok root → root.IsProgram ∧ root.tokens = normalize tokens) ∧
    ∀ root : Scope, root.IsProgram → parse root.tokens = .ok root :=
  ⟨fun _ _ => normal_of_parse, fun _ => parse_tokens⟩

/-- A comma after the last field, a length in hexadecimal and a plus sign are read and not
written. -/
theorem parse_inverts_tokens_sample :
    let tokens := ["#", "[", "io", "]", "P", ":", "struct", "\x7b", "xs", ":", "f32", "[", "0x10",
      "]", ",", "\x7d", "f", ":", "fn", "(", ")", "->", "f32", "\x7b", "return", "+", "1", ";",
      "\x7d"]
    let root := Scope.root [.struct ⟨"P", [⟨"xs", "f32", 16, []⟩], ["io"]⟩,
      .function "f" [] "f32" [.ret (some (.constant "1"))] []]
    parse tokens = .ok root ∧ root.tokens = normalize tokens ∧ parse root.tokens = .ok root := by
  intro tokens root
  have hfield : field ⟨8, tokens.drop 8⟩ = .ok (⟨"xs", "f32", 16, []⟩, ⟨14, tokens.drop 14⟩) := by
    rfl
  have hend : fields "P" ⟨15, tokens.drop 15⟩ = .ok ([], ⟨16, tokens.drop 16⟩) := by
    rw [fields]
    rfl
  have hfields : fields "P" ⟨8, tokens.drop 8⟩ =
      .ok ([⟨"xs", "f32", 16, []⟩], ⟨16, tokens.drop 16⟩) := by
    rw [fields_of_field rfl hfield]
    change (match fields "P" ⟨15, tokens.drop 15⟩ with | .error e => _ | .ok (more, after) => _) = _
    rw [hend]
  have hstruct : item ["io"] ⟨4, tokens.drop 4⟩ = .ok (.declaration
      (.struct ⟨"P", [⟨"xs", "f32", 16, []⟩], ["io"]⟩), ⟨16, tokens.drop 16⟩) := by
    refine item_declared (by decide) ?_
    change (fields "P" ⟨8, tokens.drop 8⟩ >>= fun p =>
      pure (Node.struct ⟨"P", p.1, ["io"]⟩, p.2)) = _
    rw [hfields]
    rfl
  have hexpression : expression .statement ⟨24, tokens.drop 24⟩ =
      .ok (.ret (some (.constant "1")), ⟨27, tokens.drop 27⟩) :=
    expression_eq_ok_iff.mpr ⟨_, .atom element_return (.atom rfl (.stop rfl)), rfl⟩
  have hstatement : statement ⟨24, tokens.drop 24⟩ =
      .ok (.ret (some (.constant "1")), ⟨28, tokens.drop 28⟩) :=
    statement_eq_ok_iff.mpr ⟨_, hexpression, rfl, rfl⟩
  have hclosed : statements "f" ⟨28, tokens.drop 28⟩ = .ok ([], ⟨29, []⟩) := by
    rw [statements]
    rfl
  have hfunction : item [] ⟨16, tokens.drop 16⟩ =
      .ok (.declaration (.function "f" [] "f32" [.ret (some (.constant "1"))] []), ⟨29, []⟩) := by
    refine item_declared (by decide) ?_
    change (statements "f" ⟨24, tokens.drop 24⟩ >>=
      fun p => pure (Node.function "f" [] "f32" p.1 [], p.2)) = _
    rw [statements_of_statement rfl hstatement hclosed]
    rfl
  have hend : declarations [] ⟨29, []⟩ = .ok [] := by
    rw [declarations]
    rfl
  have hdeclarations := declarations_of_declaration (List.cons_ne_nil _ _) hstruct
    (declarations_of_declaration (List.cons_ne_nil _ _) hfunction hend)
  have hparse : parse tokens = .ok root := by
    rw [parse, declarations_of_tag (List.cons_ne_nil _ _) (item_tag (by decide))]
    change (declarations ["io"] ⟨4, tokens.drop 4⟩).map _ = _
    rw [hdeclarations]
    rfl
  obtain ⟨hprogram, hnormal⟩ := parse_inverts_tokens.1 tokens root hparse
  exact ⟨hparse, hnormal, parse_inverts_tokens.2 root hprogram⟩

end Shader.Program
