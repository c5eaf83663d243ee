import Shader.Proofs.Glsl.Term
import Shader.Proofs.Grammar.Bracketed
import Shader.Proofs.Resolution.Intrinsics

/-!
# Brackets in expressions

The words of a term are always read, as the tree to which its operands and operators are grouped.
That tree is the one the term stands for exactly if no operator lacks the brackets that it needs.
The operands of an operation get them, so a term without inlined calls is read back, whatever its
shape. A call of an intrinsic is written without brackets: as an operand of an operator that binds
tighter than the body, or to the left of a point, it falls apart.
-/

namespace Shader.Glsl.Term

open Arena Program

variable {child op parent : Operator} {symbol : String} {e left right : Term} {q : Nat}
  {first node : Program.Node}

/-! ## Atoms of terms -/

def encloseKinds (brackets : Bool) (kinds : List AtomKind) : List AtomKind :=
  if brackets then [.operand (Bracketed.regroup kinds)] else kinds

mutual

def kinds : Term → List AtomKind
  | .ident name => [.operand (.ident name)]
  | .constant text => [.operand (.constant text)]
  | .call callee args => [.operand (.call (spelling callee) (readings args))]
  | .access left right => left.kinds ++ .operator "." :: right.kinds
  | .operation op left right =>
    encloseKinds (left.isBracketed op false) left.kinds ++
      .operator op.symbol :: encloseKinds (right.isBracketed op true) right.kinds
  | .inlined body => body.kinds

def readings : List Term → List Program.Node
  | [] => []
  | e :: es => Bracketed.regroup e.kinds :: readings es

end

def reading (e : Term) : Program.Node := Bracketed.regroup e.kinds

theorem readings_eq_map (es : List Term) : readings es = es.map reading := by
  induction es with
  | nil => rfl
  | cons e es ih =>
    rw [readings, ih, List.map_cons]
    rfl

theorem bindingPower_of_operator (h : op ∈ Operator.all) :
    0 < bindingPower op.symbol ∧ bindingPower op.symbol < bindingPower "." := by
  have hall : ∀ op ∈ Operator.all,
      0 < bindingPower op.symbol ∧ bindingPower op.symbol < bindingPower "." := by decide
  exact hall op h

/-- Operands and operators of the language alternate. -/
def IsChain (kinds : List AtomKind) : Prop :=
  Alternates kinds ∧ ∀ symbol, .operator symbol ∈ kinds → 0 < bindingPower symbol

theorem isChain_operand (node : Program.Node) : IsChain [.operand node] :=
  ⟨.last node, by simp⟩

theorem IsChain.enclose {kinds : List AtomKind} (h : IsChain kinds) (brackets : Bool) :
    IsChain (encloseKinds brackets kinds) := by
  cases brackets with
  | false => exact h
  | true => exact isChain_operand _

theorem IsChain.append {left right : List AtomKind} (hs : 0 < bindingPower symbol)
    (hl : IsChain left) (hr : IsChain right) : IsChain (left ++ .operator symbol :: right) := by
  refine ⟨?_, fun other hmem => ?_⟩
  · obtain ⟨hleft, -⟩ := hl
    induction hleft with
    | last node => exact .more node symbol hr.1
    | more node next _ ih => exact .more node next ih
  · rcases List.mem_append.mp hmem with hmem | hmem
    · exact hl.2 other hmem
    · rcases List.mem_cons.mp hmem with heq | hmem
      · cases heq
        exact hs
      · exact hr.2 other hmem

theorem IsTerm.isChain (h : IsTerm e) : IsChain e.kinds := by
  induction h with
  | ident | constant | call => exact isChain_operand _
  | access _ _ _ ihl ihr => exact .append (by decide) ihl ihr
  | operation hop _ _ ihl ihr =>
    exact .append (bindingPower_of_operator hop).1 (ihl.enclose _) (ihr.enclose _)
  | inlined _ ih => exact ih

theorem IsTerm.exists_isGrouping {e : Term} (h : IsTerm e) :
    ∃ q, IsGrouping e.kinds q e.reading :=
  Bracketed.exists_isGrouping h.isChain.1 h.isChain.2

/-! ## Reading the words -/

theorem encloseWords_head {brackets : Bool} {ws : List String}
    (h : ∃ token more, ws = token :: more ∧ token ≠ ")") :
    ∃ token more, encloseWords brackets ws = token :: more ∧ token ≠ ")" := by
  cases brackets with
  | false => exact h
  | true => exact ⟨"(", _, rfl, by decide⟩

theorem IsTerm.words_head (h : IsTerm e) : ∃ token more, e.words = token :: more ∧ token ≠ ")" := by
  induction h with
  | ident hname => exact ⟨_, [], rfl, ne_of_isIdentifier hname.1 (by decide)⟩
  | constant htext =>
    rw [words]
    cases htext with
    | plain htext =>
      exact ⟨_, [], constantTokens_of_isLiteral htext, ne_of_isLiteral htext (by decide)⟩
    | negative => exact ⟨"-", _, constantTokens_negative _, by decide⟩
  | call hcallee => exact ⟨_, _, rfl, ne_of_isIdentifier hcallee.1 (by decide)⟩
  | access _ _ _ ihl _ =>
    obtain ⟨token, more, htokens, hne⟩ := ihl
    exact ⟨token, _, by rw [words, htokens, List.cons_append], hne⟩
  | @operation op left _ _ _ _ ihl _ =>
    obtain ⟨token, more, htokens, hne⟩ := @encloseWords_head (left.isBracketed op false) _ ihl
    exact ⟨token, _, by rw [words, htokens, List.cons_append], hne⟩
  | inlined _ ih => exact ih

/-- The words of a term are read where an operand can stand, before a word that does not open a
bracket. -/
def IsPassed (ws : List String) (kinds : List AtomKind) : Prop :=
  ∀ stop prior i rest, signPosition prior = true → rest.head? ≠ some "(" →
    ∃ j, Bracketed.Passes stop prior ⟨i, ws ++ rest⟩ kinds ⟨j, rest⟩

theorem IsPassed.expressionFrom {ws : List String} {kinds : List AtomKind} {q : Nat}
    {node : Program.Node} (h : IsPassed ws kinds) (hgrouping : IsGrouping kinds q node)
    {stop : Stop} {token : String} (hstop : stop.holds token = true) (i : Nat)
    (rest : List String) : ∃ j, Bracketed.expressionFrom stop ⟨i, ws ++ token :: rest⟩ =
      .ok (node, ⟨j, token :: rest⟩) := by
  obtain ⟨j, hj⟩ := h stop none i (token :: rest) rfl (closes_of_holds hstop).2
  exact ⟨j, hj.expressionFrom hstop hgrouping⟩

theorem IsPassed.enclose {ws : List String} {kinds : List AtomKind} (h : IsPassed ws kinds)
    (hchain : IsChain kinds) (brackets : Bool) :
    IsPassed (encloseWords brackets ws) (encloseKinds brackets kinds) := by
  cases brackets with
  | false => exact h
  | true =>
    intro stop prior i rest _ _
    obtain ⟨q, hgrouping⟩ := Bracketed.exists_isGrouping hchain.1 hchain.2
    obtain ⟨j, hj⟩ := @IsPassed.expressionFrom _ _ _ _ h hgrouping .argument ")" rfl (i + 1) rest
    refine ⟨j + 1, ?_⟩
    have hwords : encloseWords true ws ++ rest = "(" :: (ws ++ ")" :: rest) := by
      simp [encloseWords]
    rw [hwords]
    exact @Bracketed.passes_bracket stop prior ⟨i, "(" :: (ws ++ ")" :: rest)⟩ ⟨j, ")" :: rest⟩ _
      rfl hj rfl

theorem IsPassed.operation {symbol : String} {lefts rights : List String}
    {left right : List AtomKind} (hs : 0 < bindingPower symbol) (hl : IsPassed lefts left)
    (hr : IsPassed rights right) :
    IsPassed (lefts ++ symbol :: rights) (left ++ .operator symbol :: right) := by
  intro stop prior i rest hprior hrest
  obtain ⟨j, hj⟩ := hl stop prior i (symbol :: (rights ++ rest)) hprior
    (closes_of_bindingPower hs).2
  obtain ⟨k, hk⟩ := hr stop (some ⟨.operator symbol, symbol, j⟩) (j + 1) rest rfl hrest
  refine ⟨k, ?_⟩
  rw [List.append_assoc, List.cons_append]
  exact hj.operator hs hk

theorem isPassed_ident {name : String} (hname : IsName name) :
    IsPassed [name] [.operand (.ident name)] := by
  intro stop prior i rest _ hrest
  have helement := @element_name stop prior _ i rest hname
  rw [if_neg hrest] at helement
  exact ⟨i + 1, Bracketed.passes_operand helement⟩

theorem isPassed_constant {text : String} (htext : IsConstant text) :
    IsPassed (constantTokens text) [.operand (.constant text)] := by
  intro stop prior i rest hprior _
  cases htext with
  | plain htext =>
    rw [constantTokens_of_isLiteral htext]
    exact ⟨i + 1, Bracketed.passes_operand (element_literal htext)⟩
  | negative hnumber =>
    rw [constantTokens_negative]
    exact ⟨i + 2, Bracketed.passes_operand (element_negative hnumber hprior)⟩

theorem argumentsFrom_words {callee : String} {args : List Term} (hne : args ≠ [])
    (hargs : ∀ arg ∈ args, IsTerm arg) (hpassed : ∀ arg ∈ args, IsPassed arg.words arg.kinds)
    (i : Nat) (rest : List String) :
    ∃ j, Bracketed.argumentsFrom callee ⟨i, commaWords (wordLists args) ++ rest⟩ =
      .ok (readings args, ⟨j, rest⟩) := by
  induction args generalizing i with
  | nil => exact absurd rfl hne
  | cons first more ih =>
    obtain ⟨hfirst, hmore⟩ := List.forall_mem_cons.mp hargs
    obtain ⟨hpass, hpasses⟩ := List.forall_mem_cons.mp hpassed
    obtain ⟨q, hgrouping⟩ := hfirst.exists_isGrouping
    by_cases hend : more = []
    · subst hend
      obtain ⟨j, hj⟩ := @IsPassed.expressionFrom _ _ _ _ hpass hgrouping .argument ")" rfl i rest
      refine ⟨j + 1, ?_⟩
      rw [wordLists, wordLists, commaWords, List.append_assoc]
      exact Bracketed.argumentsFrom_last hj rfl
    · obtain ⟨j, hj⟩ := @IsPassed.expressionFrom _ _ _ _ hpass hgrouping .argument "," rfl i
        (commaWords (wordLists more) ++ rest)
      obtain ⟨k, hk⟩ := ih hend hmore hpasses (j + 1)
      refine ⟨k, ?_⟩
      rw [wordLists, commaWords_cons (by simpa [wordLists_eq_map] using hend), List.append_assoc]
      exact Bracketed.argumentsFrom_more hj rfl hk

theorem callFrom_words {callee : String} {args : List Term} (hargs : ∀ arg ∈ args, IsTerm arg)
    (hpassed : ∀ arg ∈ args, IsPassed arg.words arg.kinds) (i : Nat) (rest : List String) :
    ∃ j, Bracketed.callFrom callee ⟨i, commaWords (wordLists args) ++ rest⟩ =
      .ok (readings args, ⟨j, rest⟩) := by
  rw [Bracketed.callFrom_eq]
  cases args with
  | nil => exact ⟨i + 1, rfl⟩
  | cons first more =>
    obtain ⟨token, later, htokens, htoken⟩ := (hargs first (.head _)).words_head
    have hopen : ∀ ws, commaWords (first.words :: ws) = token :: (commaWords (later :: ws)) := by
      intro ws
      rw [htokens]
      cases ws <;> rfl
    rw [if_neg]
    · exact argumentsFrom_words (List.cons_ne_nil _ _) hargs hpassed i rest
    · rw [wordLists, hopen]
      simpa [Cursor.sees] using htoken

theorem IsTerm.isPassed (h : IsTerm e) : IsPassed e.words e.kinds := by
  induction h with
  | ident hname => exact isPassed_ident hname
  | constant htext => exact isPassed_constant htext
  | @call callee args hcallee hword hargs ih =>
    intro stop prior i rest _ hrest
    obtain ⟨j, hj⟩ := @callFrom_words (spelling callee) args hargs ih (i + 2) rest
    have helement := @element_name stop prior (spelling callee) i
      ("(" :: (commaWords (wordLists args) ++ rest)) hcallee
    rw [List.head?_cons, if_pos rfl] at helement
    exact ⟨j, Bracketed.passes_call helement hj⟩
  | access _ _ _ ihl ihr => exact ihl.operation (by decide) ihr
  | operation hop hleft hright ihl ihr =>
    exact (ihl.enclose hleft.isChain _).operation (bindingPower_of_operator hop).1
      (ihr.enclose hright.isChain _)
  | inlined _ ih => exact ih

/-- The words of a term are read as its reading. -/
theorem IsTerm.read_words (h : IsTerm e) : Bracketed.read e.words = .ok e.reading := by
  obtain ⟨q, hgrouping⟩ := h.exists_isGrouping
  obtain ⟨j, hj⟩ := @IsPassed.expressionFrom _ _ _ _ h.isPassed hgrouping .statement ";" rfl 0 []
  rw [Bracketed.read, hj]
  rfl

/-! ## Brackets that are needed -/

def root? : Term → Option Operator
  | .operation op _ _ => some op
  | .inlined body => body.root?
  | _ => none

/-- The term has the brackets that it needs as an operand. -/
def Fits (parent : Operator) (isRight : Bool) (e : Term) : Prop :=
  ∀ child, e.root? = some child → needsBrackets child parent isRight = true →
    e.isBracketed parent isRight = true

mutual

/-- Every operation has the brackets that it needs: as an operand of another operation, and to the
left of a point, where none are ever written. -/
def Intact : Term → Prop
  | .call _ args => AllIntact args
  | .access left right => left.Intact ∧ right.Intact ∧ left.root? = none
  | .operation op left right =>
    left.Intact ∧ right.Intact ∧ left.Fits op false ∧ right.Fits op true
  | .inlined body => body.Intact
  | _ => True

/-- All terms of a list are intact. -/
def AllIntact : List Term → Prop
  | [] => True
  | e :: es => e.Intact ∧ AllIntact es

end

theorem allIntact_iff {es : List Term} : AllIntact es ↔ ∀ e ∈ es, e.Intact := by
  induction es with
  | nil => simp [AllIntact]
  | cons e es ih => rw [AllIntact, ih, List.forall_mem_cons]

theorem needsBrackets_left (hchild : child ∈ Operator.all) (hparent : parent ∈ Operator.all) :
    needsBrackets child parent false = false ↔
      bindingPower parent.symbol ≤ openPower (bindingPower child.symbol) := by
  have hall : ∀ child ∈ Operator.all, ∀ parent ∈ Operator.all,
      (needsBrackets child parent false = false ↔
        bindingPower parent.symbol ≤ openPower (bindingPower child.symbol)) := by decide
  exact hall child hchild parent hparent

theorem needsBrackets_right (hchild : child ∈ Operator.all) (hparent : parent ∈ Operator.all) :
    needsBrackets child parent true = false ↔
      rightPower parent.symbol < bindingPower child.symbol := by
  have hall : ∀ child ∈ Operator.all, ∀ parent ∈ Operator.all,
      (needsBrackets child parent true = false ↔
        rightPower parent.symbol < bindingPower child.symbol) := by decide
  exact hall child hchild parent hparent

theorem IsTerm.power_of_root (h : IsTerm e) (hroot : e.root? = some op) :
    op ∈ Operator.all ∧ e.node.power = bindingPower op.symbol := by
  induction h with
  | operation hop =>
    cases hroot
    exact ⟨hop, rfl⟩
  | inlined _ ih => exact ih hroot
  | _ => cases hroot

theorem power_of_root_none (hroot : e.root? = none) : bindingPower "." ≤ e.node.power := by
  fun_induction root? e with
  | case1 => cases hroot
  | case2 body ih => exact ih hroot
  | case3 e hoperation hinlined =>
    cases e with
    | operation => exact absurd rfl (hoperation _ _ _)
    | inlined => exact absurd rfl (hinlined _)
    | access => exact Nat.le_refl _
    | _ => exact Nat.le_succ _

/-- A term fits as an operand if it is in brackets, or if the operator at its root, if there is one,
needs none. -/
theorem fits_iff {isRight : Bool} :
    e.Fits parent isRight ↔ e.isBracketed parent isRight = true ∨
      ∀ child, e.root? = some child → needsBrackets child parent isRight = false := by
  unfold Fits
  cases e.isBracketed parent isRight <;> simp

def sidePower (brackets : Bool) (e : Term) : Nat := if brackets then 6 else e.node.power

/-- A term fits on a side exactly if its power does, for a condition on powers that says of
operators when they need no brackets. -/
theorem IsTerm.fits_iff_power {e : Term} (h : IsTerm e) {op : Operator} {isRight : Bool}
    {allowed : Nat → Prop} (htight : ∀ n, bindingPower "." ≤ n → allowed n)
    (hchild : ∀ child ∈ Operator.all,
      needsBrackets child op isRight = false ↔ allowed (bindingPower child.symbol)) :
    e.Fits op isRight ↔ allowed (sidePower (e.isBracketed op isRight) e) := by
  rw [fits_iff]
  unfold sidePower
  cases e.isBracketed op isRight with
  | true => simp [htight 6 (by decide)]
  | false =>
    simp only [Bool.false_eq_true, false_or, if_false]
    cases hroot : e.root? with
    | none => simp [htight _ (power_of_root_none hroot)]
    | some child =>
      obtain ⟨hmem, hpower⟩ := h.power_of_root hroot
      simp [hpower, hchild child hmem]

theorem openPower_of_tight {n : Nat} (h : bindingPower "." ≤ n) : openPower n = n := by
  refine if_neg ?_
  rintro rfl
  exact absurd h (by decide)

/-- The sides of an operation are grouped to it exactly if they have the brackets that they need. -/
theorem groupsPowers_operation_iff (hop : op ∈ Operator.all) (hleft : IsTerm left)
    (hright : IsTerm right) :
    GroupsPowers op.symbol (sidePower (left.isBracketed op false) left)
        (sidePower (right.isBracketed op true) right) ↔
      left.Fits op false ∧ right.Fits op true := by
  have hop' := (bindingPower_of_operator hop).2
  have hlower : rightPower op.symbol ≤ bindingPower op.symbol := by
    unfold rightPower
    split <;> omega
  have hl := @IsTerm.fits_iff_power left hleft op false
    (fun n => bindingPower op.symbol ≤ openPower n)
    (fun n hn => by rw [openPower_of_tight hn]; omega)
    (fun child hchild => needsBrackets_left hchild hop)
  have hr := @IsTerm.fits_iff_power right hright op true (fun n => rightPower op.symbol < n)
    (fun n hn => by omega) (fun child hchild => needsBrackets_right hchild hop)
  rw [groupsPowers_iff (bindingPower_of_operator hop).1, hl, hr]

theorem node_power_of_isField (h : e.IsField) : e.node.power = 6 := by
  cases e with
  | ident | call => rfl
  | _ => exact h.elim

theorem IsTerm.groupsPowers_access_iff (hleft : IsTerm left) (hfield : right.IsField) :
    GroupsPowers "." left.node.power right.node.power ↔ left.root? = none := by
  have hpoint : bindingPower "." = 5 := by decide
  have hright : rightPower "." = 5 := by decide
  rw [groupsPowers_iff (by decide), node_power_of_isField hfield, hpoint, hright]
  cases hroot : left.root? with
  | none =>
    have hpower := power_of_root_none hroot
    rw [openPower_of_tight hpower]
    simp
    omega
  | some child =>
    obtain ⟨hchild, hpower⟩ := hleft.power_of_root hroot
    have hlt := (bindingPower_of_operator hchild).2
    have hopen : openPower left.node.power ≤ left.node.power := by
      unfold openPower
      split <;> omega
    simp
    omega

/-! ## Intact terms are read back -/

theorem isGrouping_enclose (h : IsGrouping e.kinds e.node.power e.node) (brackets : Bool) :
    IsGrouping (encloseKinds brackets e.kinds) (sidePower brackets e) e.node := by
  cases brackets with
  | false => exact h
  | true =>
    have hoperand : encloseKinds true e.kinds = [.operand e.node] := by
      rw [encloseKinds, if_pos rfl, Bracketed.regroup_of_isGrouping h]
    rw [hoperand]
    exact .operand _

theorem join_operator (h : op ∈ Operator.all) (left right : Program.Node) :
    join op.symbol left right = .binary op.symbol left right :=
  if_neg (mem_symbols_of_operator h).2

theorem IsTerm.isGrouping_of_intact (h : IsTerm e) (hintact : e.Intact) :
    IsGrouping e.kinds e.node.power e.node := by
  induction h with
  | ident | constant => exact .operand _
  | @call callee args _ _ _ ih =>
    rw [Intact, allIntact_iff] at hintact
    have hreadings : readings args = nodes args := by
      rw [readings_eq_map, nodes_eq_map]
      exact List.map_congr_left fun arg harg =>
        Bracketed.regroup_of_isGrouping (ih arg harg (hintact arg harg))
    rw [kinds, node, hreadings]
    exact .operand _
  | access hleft _ hfield ihl ihr =>
    obtain ⟨hl, hr, hroot⟩ := hintact
    exact .operator (by decide) (ihl hl) (ihr hr) ((hleft.groupsPowers_access_iff hfield).mpr hroot)
  | @operation op left right hop hleft hright ihl ihr =>
    obtain ⟨hl, hr, hfits⟩ := hintact
    have hgrouping := IsGrouping.operator (bindingPower_of_operator hop).1
      (isGrouping_enclose (ihl hl) (left.isBracketed op false))
      (isGrouping_enclose (ihr hr) (right.isBracketed op true))
      ((groupsPowers_operation_iff hop hleft hright).mpr hfits)
    rw [join_operator hop] at hgrouping
    exact hgrouping
  | inlined _ ih => exact ih hintact

/-! ## What is read back is intact -/

def weight : Program.Node → Nat
  | .binary _ left right => weight left + weight right + 1
  | .access left right => weight left + weight right + 1
  | _ => 1

theorem weight_pos (node : Program.Node) : 0 < weight node := by
  cases node <;> simp [weight]

theorem weight_join (symbol : String) (left right : Program.Node) :
    weight (join symbol left right) = weight left + weight right + 1 := by
  unfold join
  split <;> rfl

def kindWeight : AtomKind → Nat
  | .operand node => weight node
  | _ => 1

def kindsWeight (kinds : List AtomKind) : Nat := (kinds.map kindWeight).sum

theorem kindsWeight_append (left right : List AtomKind) :
    kindsWeight (left ++ right) = kindsWeight left + kindsWeight right := by
  simp [kindsWeight]

theorem kindsWeight_operator (symbol : String) (rights : List AtomKind) :
    kindsWeight (.operator symbol :: rights) = kindsWeight rights + 1 := by
  simp [kindsWeight, kindWeight, Nat.add_comm]

theorem eq_nil_of_kindsWeight {kinds : List AtomKind} (h : kindsWeight kinds = 0) : kinds = [] := by
  cases kinds with
  | nil => rfl
  | cons first rest =>
    have hpos : 0 < kindWeight first := by
      cases first with
      | operand node => exact weight_pos node
      | operator | ret => exact Nat.one_pos
    simp [kindsWeight] at h
    omega

theorem weight_of_isGrouping {kinds : List AtomKind} (h : IsGrouping kinds q node) :
    weight node = kindsWeight kinds := by
  induction h with
  | operand node => simp [kindsWeight, kindWeight]
  | operator _ _ _ _ ihl ihr =>
    rw [weight_join, kindsWeight_append, kindsWeight_operator, ihl, ihr]
    omega

theorem IsTerm.kindsWeight_enclose (h : IsTerm e) (brackets : Bool) :
    kindsWeight (encloseKinds brackets e.kinds) = kindsWeight e.kinds := by
  cases brackets with
  | false => rfl
  | true =>
    obtain ⟨q, hgrouping⟩ := h.exists_isGrouping
    rw [← weight_of_isGrouping hgrouping]
    simp [encloseKinds, kindsWeight, kindWeight, reading]

theorem IsTerm.weight_node (h : IsTerm e) : weight e.node = kindsWeight e.kinds := by
  induction h with
  | ident | constant | call => rfl
  | access _ _ _ ihl ihr =>
    rw [kinds, kindsWeight_append, kindsWeight_operator, ← ihl, ← ihr]
    exact Nat.add_assoc ..
  | operation _ hleft hright ihl ihr =>
    rw [kinds, kindsWeight_append, kindsWeight_operator, hleft.kindsWeight_enclose,
      hright.kindsWeight_enclose, ← ihl, ← ihr]
    exact Nat.add_assoc ..
  | inlined _ ih => exact ih

theorem IsTerm.weight_enclose (h : IsTerm e) (brackets : Bool) :
    weight e.node = kindsWeight (encloseKinds brackets e.kinds) := by
  rw [h.kindsWeight_enclose, h.weight_node]

theorem join_inj {symbol' : String} {left right left' right' : Program.Node}
    (h : join symbol left right = join symbol' left' right') :
    symbol = symbol' ∧ left = left' ∧ right = right' := by
  unfold join at h
  split at h <;> split at h <;> simp_all

theorem isGrouping_sides {lefts rights : List AtomKind} {left right : Program.Node}
    (hweight : weight left = kindsWeight lefts)
    (h : IsGrouping (lefts ++ .operator symbol :: rights) q (join symbol left right)) :
    ∃ p p', IsGrouping lefts p left ∧ IsGrouping rights p' right ∧ GroupsPowers symbol p p' := by
  generalize hkinds : lefts ++ .operator symbol :: rights = kinds at h
  generalize hnode : join symbol left right = node at h
  cases h with
  | operand => cases lefts <;> simp at hkinds
  | @operator symbol' lefts' rights' p p' left' right' hs hl hr hg =>
    obtain ⟨rfl, rfl, rfl⟩ := join_inj hnode
    have hweight' := weight_of_isGrouping hl
    -- two beginnings of a list that weigh the same are equal
    have hlefts : lefts = lefts' := by
      rcases List.append_eq_append_iff.mp hkinds with ⟨more, rfl, -⟩ | ⟨more, rfl, -⟩
      · rw [kindsWeight_append] at hweight'
        have hmore : more = [] := eq_nil_of_kindsWeight (by omega)
        rw [hmore, List.append_nil]
      · rw [kindsWeight_append] at hweight
        have hmore : more = [] := eq_nil_of_kindsWeight (by omega)
        rw [hmore, List.append_nil]
    subst hlefts
    obtain ⟨-, rfl⟩ := List.cons.inj (List.append_cancel_left hkinds)
    exact ⟨p, p', hl, hr, hg⟩

theorem eq_of_isGrouping_operand (h : IsGrouping [.operand first] q node) :
    node = first ∧ q = 6 := by
  generalize hkinds : [AtomKind.operand first] = kinds at h
  cases h with
  | operand =>
    cases hkinds
    exact ⟨rfl, rfl⟩
  | @operator symbol lefts rights => cases lefts <;> simp at hkinds

theorem IsTerm.isGrouping_of_enclose (h : IsTerm e) {brackets : Bool} {p : Nat}
    (hgrouping : IsGrouping (encloseKinds brackets e.kinds) p e.node) :
    ∃ q, IsGrouping e.kinds q e.node ∧ p = if brackets then 6 else q := by
  cases brackets with
  | false => exact ⟨p, hgrouping, rfl⟩
  | true =>
    obtain ⟨hnode, rfl⟩ := eq_of_isGrouping_operand hgrouping
    obtain ⟨q, hq⟩ := h.exists_isGrouping
    rw [reading, ← hnode] at hq
    exact ⟨q, hq, rfl⟩

theorem IsTerm.node_power_of_operand (h : IsTerm e) (hkinds : e.kinds = [.operand first]) :
    e.node.power = 6 := by
  have hoperator : ∀ (lefts rights : List AtomKind) (symbol : String),
      lefts ++ .operator symbol :: rights ≠ [.operand first] := by
    intro lefts rights symbol
    cases lefts <;> simp
  induction h with
  | ident | constant | call => rfl
  | access | operation => exact (hoperator _ _ _ hkinds).elim
  | inlined _ ih => exact ih hkinds

theorem IsTerm.power_of_isGrouping (h : IsTerm e) (hgrouping : IsGrouping e.kinds q e.node) :
    q = e.node.power := by
  generalize hkinds : e.kinds = kinds at hgrouping
  generalize hnode : e.node = node at hgrouping
  cases hgrouping with
  | operand => rw [← hnode, h.node_power_of_operand hkinds]
  | operator => rw [power_join]

theorem IsTerm.intact_of_isGrouping (h : IsTerm e) (hgrouping : IsGrouping e.kinds q e.node) :
    e.Intact := by
  induction h generalizing q with
  | ident | constant => trivial
  | @call callee args _ _ hargs ih =>
    obtain ⟨hnode, -⟩ := eq_of_isGrouping_operand hgrouping
    rw [Intact, allIntact_iff]
    intro arg harg
    have hreading : arg.reading = arg.node := by
      rw [node, readings_eq_map, nodes_eq_map] at hnode
      have hlists := (Program.Node.call.inj hnode).2
      exact (List.map_inj_left.mp hlists arg harg).symm
    obtain ⟨p, hp⟩ := (hargs arg harg).exists_isGrouping
    rw [hreading] at hp
    exact ih arg harg hp
  | access hleft hright hfield ihl ihr =>
    obtain ⟨p, p', hl, hr, hg⟩ := isGrouping_sides hleft.weight_node hgrouping
    rw [hleft.power_of_isGrouping hl, hright.power_of_isGrouping hr] at hg
    exact ⟨ihl hl, ihr hr, (hleft.groupsPowers_access_iff hfield).mp hg⟩
  | @operation op left right hop hleft hright ihl ihr =>
    rw [node, ← join_operator hop] at hgrouping
    obtain ⟨p, p', hl, hr, hg⟩ := isGrouping_sides (hleft.weight_enclose _) hgrouping
    obtain ⟨pl, hlefts, rfl⟩ := hleft.isGrouping_of_enclose hl
    obtain ⟨pr, hrights, rfl⟩ := hright.isGrouping_of_enclose hr
    rw [hleft.power_of_isGrouping hlefts, hright.power_of_isGrouping hrights] at hg
    exact ⟨ihl hlefts, ihr hrights, (groupsPowers_operation_iff hop hleft hright).mp hg⟩
  | inlined _ ih => exact ih hgrouping

/-- A term is read as its tree exactly if it is intact. -/
theorem IsTerm.reading_eq_iff (h : IsTerm e) : e.reading = e.node ↔ e.Intact := by
  constructor
  · intro hreading
    obtain ⟨q, hgrouping⟩ := h.exists_isGrouping
    rw [hreading] at hgrouping
    exact h.intact_of_isGrouping hgrouping
  · intro hintact
    exact Bracketed.regroup_of_isGrouping (h.isGrouping_of_intact hintact)

/-! ## Terms without inlined calls -/

mutual

def tree : Term → Program.Node
  | .ident name => .ident name
  | .constant text => .constant text
  | .call callee args => .call callee (trees args)
  | .access left right => .access left.tree right.tree
  | .operation op left right => .binary op.symbol left.tree right.tree
  | .inlined body => body.tree

def trees : List Term → List Program.Node
  | [] => []
  | e :: es => e.tree :: trees es

end

theorem trees_eq_map (es : List Term) : trees es = es.map tree := by
  induction es with
  | nil => rfl
  | cons e es ih => rw [trees, ih, List.map_cons]

/-- The term is written as it was parsed: no call is inlined, no type is called that the output
spells differently, and an operation is never the left side of an access. -/
inductive Plain : Term → Prop
  | ident (name : String) : Plain (.ident name)
  | constant (text : String) : Plain (.constant text)
  | call {callee : String} {args : List Term} (hcallee : spelling? callee = none)
      (hargs : ∀ arg ∈ args, Plain arg) : Plain (.call callee args)
  | access {left right : Term} (hleft : Plain left) (hright : Plain right)
      (hroot : left.root? = none) : Plain (.access left right)
  | operation {left right : Term} (op : Operator) (hleft : Plain left) (hright : Plain right) :
      Plain (.operation op left right)

theorem Plain.node_eq (h : e.Plain) : e.node = e.tree := by
  induction h with
  | ident | constant => rfl
  | @call callee args hcallee _ ih =>
    have hspelling : spelling callee = callee := by
      rw [spelling, hcallee]
      rfl
    rw [node, tree, hspelling, nodes_eq_map, trees_eq_map, List.map_congr_left ih]
  | access _ _ _ ihl ihr | operation _ _ _ ihl ihr => rw [node, tree, ihl, ihr]

theorem Plain.fits (h : e.Plain) (parent : Operator) (isRight : Bool) : e.Fits parent isRight := by
  intro child hroot hneeds
  cases h with
  | operation =>
    cases hroot
    exact hneeds
  | _ => cases hroot

theorem Plain.intact (h : e.Plain) : e.Intact := by
  induction h with
  | ident | constant => trivial
  | call _ _ ih => exact allIntact_iff.mpr ih
  | access _ _ hroot ihl ihr => exact ⟨ihl, ihr, hroot⟩
  | operation op hleft hright ihl ihr => exact ⟨ihl, ihr, hleft.fits op false, hright.fits op true⟩

/-- The text of an operation of any shape, cut into words and read with brackets around operands,
is the operation again, whether it is written with blanks or without. -/
theorem exprText_read_back {t : Tree} {h : Handle} {e : Term} (he : At t h e) (hterm : IsTerm e)
    (hplain : e.Plain) (s : Spacing) :
    ∃ text ws, exprText t s h = .ok text ∧ Shader.words (Source.ofString text) = .ok ws ∧
      Bracketed.read ws = .ok e.tree := by
  refine ⟨e.text s, e.words, exprText_of_at he s, hterm.words_text s, ?_⟩
  rw [hterm.read_words, hterm.reading_eq_iff.mpr hplain.intact, hplain.node_eq]

/-- In `a - (-1 - b.x)` the brackets keep the right operand together, and the negative number apart
from the operator. -/
theorem exprText_read_back_sample :
    let t : Tree := ⟨#[.scope "root" [], .ident "a" none, .constant "-1", .ident "b" none,
      .ident "x" none, .access (some 3) (some 4), .binary .subtract (some 2) (some 5),
      .binary .subtract (some 1) (some 6)]⟩
    ∀ s : Spacing, ∃ text ws, exprText t s (some 7) = .ok text ∧
      Shader.words (Source.ofString text) = .ok ws ∧
      Bracketed.read ws = .ok (.binary "-" (.ident "a")
        (.binary "-" (.constant "-1") (.access (.ident "b") (.ident "x")))) := by
  intro t
  have hwords : Shader.words (Source.ofString "a - 1 b x") = .ok ["a", "-", "1", "b", "x"] := by
    decide +kernel
  have hsource : ∀ word ∈ ["a", "-", "1", "b", "x"], IsSourceWord word :=
    fun word hword => ⟨_, _, hwords, hword⟩
  have hat : At t (some 7) (.operation .subtract (.ident "a") (.operation .subtract
      (.constant "-1") (.access (.ident "b") (.ident "x")))) :=
    ⟨_, _, rfl, ⟨_, rfl, nofun⟩, _, _, rfl, rfl, _, _, rfl, ⟨_, rfl, nofun⟩, _, rfl, nofun⟩
  have hident {name : String} (hname : isIdentifier name = true)
      (hkey : name ∉ ["let", "return", "true", "false"])
      (hmem : name ∈ ["a", "-", "1", "b", "x"]) : IsTerm (.ident name) :=
    .ident ⟨hname, hkey⟩ (hsource name hmem)
  have ha : IsTerm (.ident "a") := hident (by decide) (by decide) (by decide)
  have hb : IsTerm (.ident "b") := hident (by decide) (by decide) (by decide)
  have hx : IsTerm (.ident "x") := hident (by decide) (by decide) (by decide)
  have hnumber : IsConstant "-1" := @IsConstant.negative "1" (by decide)
  have hnegative : IsTerm (.constant "-1") := by
    refine .constant hnumber fun word hword => hsource word ?_
    have hsub : ["-", "1"] ⊆ ["a", "-", "1", "b", "x"] := by decide
    exact hsub hword
  have hop : Operator.subtract ∈ Operator.all := by decide
  have hterm := IsTerm.operation hop ha (.operation hop hnegative (.access hb hx trivial))
  have hplain := Plain.operation .subtract (.ident "a") (.operation .subtract (.constant "-1")
    (.access (.ident "b") (.ident "x") rfl))
  exact exprText_read_back hat hterm hplain

/-! ## Inlined calls -/

/-- The text of an expression is always read, and as the tree in which each call of an intrinsic is
replaced by what takes its place exactly if the term is intact: no such call is the left side of an
access or an operand with an operator at its root that needs brackets there. What takes the place of
a call in a resolved program is the body with one argument for each parameter. -/
theorem exprText_intact_iff {t : Tree} {h : Handle} {e : Term} (he : At t h e) (hterm : IsTerm e)
    (s : Spacing) :
    (∃ text ws node, exprText t s h = .ok text ∧ Shader.words (Source.ofString text) = .ok ws ∧
      Bracketed.read ws = .ok node ∧ (node = e.node ↔ e.Intact)) ∧
    ∀ root table, Resolution.resolve root table = .ok t →
      ∀ call target element, t.node? call = some (.intrinsicCall target [element]) →
      ∃ decl b args, t.node? target = some (.intrinsic decl) ∧ decl.body = [b] ∧
        args.length = decl.params.length ∧
        Resolution.IsCopy t (decl.params.zip args) b element := by
  refine ⟨⟨e.text s, e.words, e.reading, exprText_of_at he s, hterm.words_text s, hterm.read_words,
    hterm.reading_eq_iff⟩, ?_⟩
  intro root table hresolve call target element hcall
  obtain ⟨decl, args, hnode, hlength, -, hcopies⟩ :=
    (Resolution.resolve_isTidy hresolve).calls hcall
  obtain ⟨b, rest, hcopy, hrest, hbody⟩ := List.forall₂_cons_right_iff.mp hcopies
  rw [List.forall₂_nil_right_iff.mp hrest] at hbody
  exact ⟨decl, b, args, hnode, hbody, hlength, hcopy⟩

/-- A call of `sum(1, 2)`, whose body is the sum of its parameters, is kept together to the left of
a minus sign. -/
theorem exprText_intact_iff_sample :
    let t : Tree := ⟨#[.scope "root" [], .constant "1", .constant "2",
      .binary .add (some 1) (some 2), .intrinsicCall none [some 3],
      .binary .subtract (some 4) (some 1)]⟩
    let e : Term := .operation .subtract (.inlined (.operation .add (.constant "1")
      (.constant "2"))) (.constant "1")
    At t (some 5) e ∧ IsTerm e ∧ e.Intact ∧ ∀ s : Spacing, ∃ text ws,
      exprText t s (some 5) = .ok text ∧ Shader.words (Source.ofString text) = .ok ws ∧
      Bracketed.read ws = .ok (.binary "-" (.binary "+" (.constant "1") (.constant "2"))
        (.constant "1")) := by
  intro t e
  have hwords : Shader.words (Source.ofString "1 2") = .ok ["1", "2"] := by decide +kernel
  have hnumber {text : String} (htext : isLiteral text = true)
      (htokens : constantTokens text = [text]) (hmem : text ∈ ["1", "2"]) :
      IsTerm (.constant text) := by
    refine .constant (.plain htext) fun word hword => ⟨_, _, hwords, ?_⟩
    rw [htokens] at hword
    rwa [List.mem_singleton.mp hword]
  have hone : IsTerm (.constant "1") := hnumber (by decide) rfl (by decide)
  have htwo : IsTerm (.constant "2") := hnumber (by decide) rfl (by decide)
  have hat : At t (some 5) e := ⟨_, _, rfl, ⟨_, _, rfl, _, _, rfl, rfl, rfl⟩, rfl⟩
  have hterm : IsTerm e :=
    .operation (by decide) (.inlined (.operation (by decide) hone htwo)) hone
  have hintact : e.Intact := by
    have hnone (op : Operator) (isRight : Bool) (text : String) : (constant text).Fits op isRight :=
      nofun
    have hsum : (operation .add (.constant "1") (.constant "2")).Intact :=
      ⟨trivial, trivial, hnone _ _ _, hnone _ _ _⟩
    refine ⟨hsum, trivial, ?_, hnone _ _ _⟩
    intro child hroot hneeds
    cases hroot
    cases hneeds
  refine ⟨hat, hterm, hintact, fun s => ?_⟩
  obtain ⟨⟨text, ws, node, htext, hws, hread, hiff⟩, -⟩ := exprText_intact_iff hat hterm s
  rw [hiff.mpr hintact] at hread
  exact ⟨text, ws, htext, hws, hread⟩

/-- The body of `sum` is the sum of its parameters. In the product of `sum(1.0, 2.0)` and `3.0` it
is written without brackets, and falls apart. -/
theorem exprText_splits_inlined :
    let root : Program.Scope := .root [
      .intrinsic "sum" [⟨"a", "f32"⟩, ⟨"b", "f32"⟩] [.binary "+" (.ident "a") (.ident "b")] "f32",
      .function "main" [] "void" [.binary "*" (.call "sum" [.constant "1.0", .constant "2.0"])
        (.constant "3.0")] []]
    let t : Tree := ⟨#[.scope "root" [some 7, some 15], .struct ⟨"f32", none, [], []⟩,
      .parameter "a" (some 1), .parameter "b" (some 1), .ident "a" (some 2), .ident "b" (some 3),
      .binary .add (some 4) (some 5), .intrinsic ⟨"sum", [some 2, some 3], [some 6], some 1⟩,
      .struct ⟨"void", none, [], []⟩, .constant "1.0", .constant "2.0",
      .binary .add (some 9) (some 10), .intrinsicCall (some 7) [some 11], .constant "3.0",
      .binary .multiply (some 12) (some 13), .function ⟨"main", [], some 8, [some 14], []⟩]⟩
    let e : Term := .operation .multiply (.inlined (.operation .add (.constant "1.0")
      (.constant "2.0"))) (.constant "3.0")
    Resolution.resolve (some root) .empty = .ok t ∧ At t (some 14) e ∧
      e.node = .binary "*" (.binary "+" (.constant "1.0") (.constant "2.0")) (.constant "3.0") ∧
      exprText t ⟨false⟩ (some 14) = .ok "1.0 + 2.0 * 3.0" ∧
      Shader.words (Source.ofString "1.0 + 2.0 * 3.0") = .ok ["1.0", "+", "2.0", "*", "3.0"] ∧
      Bracketed.read ["1.0", "+", "2.0", "*", "3.0"] =
        .ok (.binary "+" (.constant "1.0") (.binary "*" (.constant "2.0") (.constant "3.0"))) := by
  intro root t e
  have hat : At t (some 14) e := ⟨_, _, rfl, ⟨_, _, rfl, _, _, rfl, rfl, rfl⟩, rfl⟩
  refine ⟨by cbv, hat, rfl, ?_, by decide +kernel, by cbv⟩
  rw [exprText_of_at hat]
  decide +kernel

end Shader.Glsl.Term
