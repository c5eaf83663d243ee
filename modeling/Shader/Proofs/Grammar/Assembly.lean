import Shader.Proofs.Grammar.Printer

/-!
# Assembly and its inverse

A value written from left to right is a first operand and a list of operators, each with the
operand after it (`Node.firstOperand`, `Node.laterOperands`). Growing a tree from that list gives
the value back, because every operator is grafted exactly where the binding powers put it; and
what is grown from operands is always grouped by binding powers.
-/

namespace Shader.Program

variable {symbol token : String} {left node right : Node} {atoms : List Atom} {last : Atom}
  {index : Nat}
variable {above : String} {operand tree : Node} {tail : List (String × Node)}

/-! ## Binding powers -/

theorem rightPower_assign : rightPower "=" = 0 := by decide

theorem rightPower_of_ne (h : symbol ≠ "=") : rightPower symbol = bindingPower symbol := by
  simp [rightPower, groupsRight, h]

theorem groups_assign : Groups "=" left right ↔ 1 < left.power ∧ 1 ≤ right.power := by
  simp [Groups, groupsRight, bindingPower]

theorem groups_of_ne (h : symbol ≠ "=") :
    Groups symbol left right ↔
      bindingPower symbol ≤ left.power ∧ bindingPower symbol < right.power := by
  simp [Groups, groupsRight, h]

theorem power_join (symbol : String) (left right : Node) :
    (join symbol left right).power = bindingPower symbol := by
  unfold join
  split
  · rename_i h
    rw [h]
    rfl
  · rfl

theorem tokens_join (symbol : String) (left right : Node) :
    (join symbol left right).tokens = left.tokens ++ symbol :: right.tokens := by
  unfold join
  split
  · rename_i h
    rw [h, Node.tokens]
  · rw [Node.tokens]

/-- An operand: a value without an operator at its root. -/
def IsOperand (node : Node) : Prop := IsValue node ∧ node.power = 6

theorem IsValue.join (hs : 0 < bindingPower symbol)
    (hl : IsValue left) (hr : IsValue right) (hg : Groups symbol left right) :
    IsValue (join symbol left right) := by
  unfold Program.join
  split
  · rename_i h
    subst h
    exact .access hl hr hg
  · rename_i h
    exact .binary hs h hl hr hg

/-! ## Grafting -/

theorem tokens_graft (symbol : String) (operand tree : Node) :
    (graft symbol operand tree).tokens = tree.tokens ++ symbol :: operand.tokens := by
  fun_induction graft symbol operand tree with
  | case1 above left right h ih => simp [Node.tokens, ih]
  | case2 above left right h => rw [tokens_join]
  | case3 left right h ih => simp [Node.tokens, ih]
  | case4 left right h => rw [tokens_join]
  | case5 tree => rw [tokens_join]

theorem power_graft (symbol : String) (operand tree : Node) :
    (graft symbol operand tree).power = tree.power ∨
      (graft symbol operand tree).power = bindingPower symbol := by
  fun_induction graft symbol operand tree with
  | case1 => exact Or.inl rfl
  | case2 => exact Or.inr (power_join _ _ _)
  | case3 => exact Or.inl rfl
  | case4 => exact Or.inr (power_join _ _ _)
  | case5 => exact Or.inr (power_join _ _ _)

theorem Groups.graft (hg : Groups above left right) (hs : rightPower above < bindingPower symbol) :
    Groups above left (graft symbol operand right) := by
  by_cases ha : above = "="
  · subst ha
    rw [groups_assign] at hg ⊢
    rw [rightPower_assign] at hs
    rcases power_graft symbol operand right with h | h <;> omega
  · rw [groups_of_ne ha] at hg ⊢
    rw [rightPower_of_ne ha] at hs
    rcases power_graft symbol operand right with h | h <;> omega

theorem groups_of_not_lt
    (hp : tree.power = bindingPower above) (hs : ¬ rightPower above < bindingPower symbol)
    (hsymbol : 0 < bindingPower symbol) (ho : operand.power = 6) :
    Groups symbol tree operand := by
  have hle := bindingPower_le symbol
  have ha : above ≠ "=" := by
    rintro rfl
    rw [rightPower_assign] at hs
    omega
  rw [rightPower_of_ne ha] at hs
  by_cases hsy : symbol = "="
  · subst hsy
    have hone : bindingPower "=" = 1 := by decide
    have hne : bindingPower above ≠ 1 := fun h => ha (eq_assign_of_bindingPower h)
    rw [groups_assign]
    omega
  · rw [groups_of_ne hsy]
    omega

theorem groups_operands (hl : left.power = 6) (hr : right.power = 6) :
    Groups symbol left right := by
  have hle := bindingPower_le symbol
  unfold Groups
  split <;> omega

theorem IsValue.graft (hs : 0 < bindingPower symbol)
    (ho : IsOperand operand) (ht : IsValue tree) : IsValue (graft symbol operand tree) := by
  fun_induction Program.graft symbol operand tree with
  | case1 above left right h ih =>
    cases ht with
    | binary hsymbol haccess hleft hright hgroups =>
      exact .binary hsymbol haccess hleft (ih hright) (hgroups.graft h)
  | case2 above left right h =>
    exact .join hs ht ho.1 (groups_of_not_lt rfl h hs ho.2)
  | case3 left right h ih =>
    cases ht with
    | access hleft hright hgroups => exact .access hleft (ih hright) (hgroups.graft h)
  | case4 left right h =>
    exact .join hs ht ho.1 (@groups_of_not_lt _ "." _ _ rfl h hs ho.2)
  | case5 tree hbinary haccess =>
    refine .join hs ht ho.1 (groups_operands ?_ ho.2)
    cases ht with
    | access => exact absurd rfl (haccess _ _)
    | binary => exact absurd rfl (hbinary _ _ _)
    | _ => rfl

/-! ## Growing -/

theorem grow_cons (tree : Node) (symbol : String) (operand : Node) (tail : List (String × Node)) :
    grow tree ((symbol, operand) :: tail) = grow (graft symbol operand tree) tail := rfl

theorem grow_append (tree : Node) (front back : List (String × Node)) :
    grow tree (front ++ back) = grow (grow tree front) back := by
  simp [grow, List.foldl_append]

def tailTokens (tail : List (String × Node)) : List String :=
  tail.flatMap fun (symbol, operand) => symbol :: operand.tokens

theorem tokens_grow (tree : Node) (tail : List (String × Node)) :
    (grow tree tail).tokens = tree.tokens ++ tailTokens tail := by
  induction tail generalizing tree with
  | nil => simp [grow, tailTokens]
  | cons head tail ih =>
    obtain ⟨symbol, operand⟩ := head
    rw [grow_cons, ih, tokens_graft]
    simp [tailTokens]

/-- What is grown from operands is a value. -/
theorem IsValue.grow (ht : IsValue tree)
    (htail : ∀ p ∈ tail, 0 < bindingPower p.1 ∧ IsOperand p.2) : IsValue (grow tree tail) := by
  induction tail generalizing tree with
  | nil => exact ht
  | cons head tail ih =>
    obtain ⟨symbol, operand⟩ := head
    obtain ⟨hs, ho⟩ := htail _ (.head _)
    rw [grow_cons]
    exact ih (.graft hs ho ht) (fun p hp => htail p (.tail _ hp))

/-! ## The operands of a value -/

def Node.firstOperand : Node → Node
  | .binary _ left _ => left.firstOperand
  | .access left _ => left.firstOperand
  | node => node

/-- The operators of an expression from left to right, each with the operand after it. -/
def Node.laterOperands : Node → List (String × Node)
  | .binary symbol left right =>
    left.laterOperands ++ (symbol, right.firstOperand) :: right.laterOperands
  | .access left right =>
    left.laterOperands ++ (".", right.firstOperand) :: right.laterOperands
  | _ => []

theorem IsValue.isOperand_firstOperand (h : IsValue node) : IsOperand node.firstOperand := by
  fun_induction Node.firstOperand node with
  | case1 symbol left right ih =>
    cases h with
    | binary _ _ hleft _ _ => exact ih hleft
  | case2 left right ih =>
    cases h with
    | access hleft _ _ => exact ih hleft
  | case3 node hbinary haccess =>
    refine ⟨h, ?_⟩
    cases h with
    | access => exact absurd rfl (haccess _ _)
    | binary => exact absurd rfl (hbinary _ _ _)
    | _ => rfl

theorem mem_laterOperands_join
    (hs : 0 < bindingPower symbol) (hright : IsValue right) (hg : Groups symbol left right)
    (hl : ∀ p ∈ left.laterOperands,
      0 < bindingPower p.1 ∧ left.power ≤ bindingPower p.1 ∧ IsOperand p.2)
    (hr : ∀ p ∈ right.laterOperands,
      0 < bindingPower p.1 ∧ right.power ≤ bindingPower p.1 ∧ IsOperand p.2) :
    ∀ p ∈ left.laterOperands ++ (symbol, right.firstOperand) :: right.laterOperands,
      0 < bindingPower p.1 ∧ bindingPower symbol ≤ bindingPower p.1 ∧ IsOperand p.2 := by
  have hpowers : bindingPower symbol ≤ left.power ∧ bindingPower symbol ≤ right.power := by
    unfold Groups at hg
    split at hg <;> omega
  intro p hp
  rcases List.mem_append.mp hp with hp | hp
  · obtain ⟨hpos, hle, ho⟩ := hl p hp
    exact ⟨hpos, by omega, ho⟩
  · rcases List.mem_cons.mp hp with rfl | hp
    · exact ⟨hs, Nat.le_refl _, hright.isOperand_firstOperand⟩
    · obtain ⟨hpos, hle, ho⟩ := hr p hp
      exact ⟨hpos, by omega, ho⟩

theorem IsValue.mem_laterOperands (h : IsValue node) :
    ∀ p ∈ node.laterOperands,
      0 < bindingPower p.1 ∧ node.power ≤ bindingPower p.1 ∧ IsOperand p.2 := by
  fun_induction Node.laterOperands node with
  | case1 symbol left right ihl ihr =>
    cases h with
    | binary hsymbol _ hleft hright hgroups =>
      exact mem_laterOperands_join hsymbol hright hgroups (ihl hleft) (ihr hright)
  | case2 left right ihl ihr =>
    cases h with
    | access hleft hright hgroups =>
      exact mem_laterOperands_join (by decide) hright hgroups (ihl hleft) (ihr hright)
  | case3 => simp

/-- A tree takes up operators on its right side as long as they bind tighter than its root leaves
room for. -/
theorem grow_join (left right : Node) (htail : ∀ p ∈ tail, rightPower symbol < bindingPower p.1) :
    grow (join symbol left right) tail = join symbol left (grow right tail) := by
  induction tail generalizing right with
  | nil => rfl
  | cons head tail ih =>
    obtain ⟨next, operand⟩ := head
    have hnext := htail _ (.head _)
    have hgraft : graft next operand (join symbol left right) =
        join symbol left (graft next operand right) := by
      unfold join
      split
      · rename_i h
        subst h
        rw [graft, if_pos hnext]
      · rw [graft, if_pos hnext]
    rw [grow_cons, grow_cons, hgraft, ih _ (fun p hp => htail p (.tail _ hp))]

theorem not_lt_of_groups (hp : left.power = bindingPower above) (hs : 0 < bindingPower symbol)
    (hg : Groups symbol left right) : ¬ rightPower above < bindingPower symbol := by
  by_cases hsy : symbol = "="
  · subst hsy
    rw [groups_assign, hp] at hg
    have hone : bindingPower "=" = 1 := by decide
    have ha : above ≠ "=" := by
      rintro rfl
      omega
    rw [rightPower_of_ne ha]
    omega
  · rw [groups_of_ne hsy, hp] at hg
    have hne : bindingPower symbol ≠ 1 := fun h => hsy (eq_assign_of_bindingPower h)
    have ha : above ≠ "=" := by
      rintro rfl
      have hone : bindingPower "=" = 1 := by decide
      omega
    rw [rightPower_of_ne ha]
    omega

theorem graft_of_groups (operand : Node) (hs : 0 < bindingPower symbol)
    (hg : Groups symbol left right) : graft symbol operand left = join symbol left operand := by
  unfold graft
  split
  · exact if_neg (not_lt_of_groups rfl hs hg)
  · exact if_neg (@not_lt_of_groups _ _ _ "." rfl hs hg)
  · rfl

theorem grow_laterOperands_join (hs : 0 < bindingPower symbol) (hright : IsValue right)
    (hg : Groups symbol left right) (hl : grow left.firstOperand left.laterOperands = left)
    (hr : grow right.firstOperand right.laterOperands = right) :
    grow left.firstOperand
        (left.laterOperands ++ (symbol, right.firstOperand) :: right.laterOperands) =
      join symbol left right := by
  have htail : ∀ p ∈ right.laterOperands, rightPower symbol < bindingPower p.1 := by
    intro p hp
    obtain ⟨hpos, hle, -⟩ := hright.mem_laterOperands p hp
    by_cases hsy : symbol = "="
    · subst hsy
      rw [rightPower_assign]
      exact hpos
    · rw [groups_of_ne hsy] at hg
      rw [rightPower_of_ne hsy]
      omega
  rw [grow_append, hl, grow_cons, graft_of_groups _ hs hg, grow_join _ _ htail, hr]

/-- A value is grown from its own operands and operators. -/
theorem grow_laterOperands (h : IsValue node) :
    grow node.firstOperand node.laterOperands = node := by
  fun_induction Node.laterOperands node with
  | case1 symbol left right ihl ihr =>
    cases h with
    | binary hsymbol haccess hleft hright hgroups =>
      rw [Node.firstOperand,
        grow_laterOperands_join hsymbol hright hgroups (ihl hleft) (ihr hright), join,
        if_neg haccess]
  | case2 left right ihl ihr =>
    cases h with
    | access hleft hright hgroups =>
      rw [Node.firstOperand,
        grow_laterOperands_join (by decide) hright hgroups (ihl hleft) (ihr hright)]
      rfl
  | case3 node hbinary haccess =>
    unfold Node.firstOperand
    split
    · exact absurd rfl (hbinary _ _ _)
    · exact absurd rfl (haccess _ _)
    · rfl

/-! ## Atoms -/

def AtomKind.tokens : AtomKind → List String
  | .operand node => node.tokens
  | .operator symbol => [symbol]
  | .ret => ["return"]

/-- Whether the atom is one of the grammar. -/
def AtomKind.IsAtom : AtomKind → Prop
  | .operand node => IsOperand node
  | .operator symbol => 0 < bindingPower symbol
  | .ret => True

def atomTokens (atoms : List Atom) : List String := atoms.flatMap fun a => a.kind.tokens

def tailKinds (tail : List (String × Node)) : List AtomKind :=
  tail.flatMap fun (symbol, operand) => [.operator symbol, .operand operand]

theorem except_bind_eq_ok_iff {ε α β : Type} {x : Except ε α} {f : α → Except ε β} {b : β} :
    (x >>= f) = .ok b ↔ ∃ a, x = .ok a ∧ f a = .ok b :=
  ⟨bind_eq_ok, fun ⟨_, hx, hf⟩ => by rw [hx]; exact hf⟩

theorem operands_eq_ok_iff (atoms : List Atom) :
    (∀ last first tail, operandFirst last atoms = .ok (first, tail) ↔
      atoms.map Atom.kind = .operand first :: tailKinds tail) ∧
    (∀ tail, operatorFirst atoms = .ok tail ↔ atoms.map Atom.kind = tailKinds tail) := by
  induction atoms with
  | nil =>
    refine ⟨fun last first tail => ?_, fun tail => ?_⟩
    · rw [operandFirst]
      exact ⟨fun h => (by cases h), fun h => (by cases h)⟩
    · rw [operatorFirst]
      cases tail with
      | nil => exact ⟨fun _ => rfl, fun _ => rfl⟩
      | cons head tail => exact ⟨fun h => (by cases h), fun h => (by cases h)⟩
  | cons a rest ih =>
    refine ⟨fun last first tail => ?_, fun tail => ?_⟩
    · rw [operandFirst]
      cases hk : a.kind with
      | operand node =>
        simp only [except_bind_eq_ok_iff, ih.2, List.map_cons, hk, List.cons.injEq]
        constructor
        · rintro ⟨t, ht, h⟩
          cases h
          exact ⟨rfl, ht⟩
        · rintro ⟨h, ht⟩
          cases h
          exact ⟨tail, ht, rfl⟩
      | _ =>
        simp only [List.map_cons, hk]
        exact ⟨fun h => (by cases h), fun h => (by cases h)⟩
    · rw [operatorFirst]
      cases hk : a.kind with
      | operator symbol =>
        simp only [except_bind_eq_ok_iff, List.map_cons, hk]
        constructor
        · rintro ⟨⟨node, t⟩, ht, h⟩
          cases h
          rw [(ih.1 a node t).mp ht]
          rfl
        · intro h
          cases tail with
          | nil => cases h
          | cons head tail =>
            obtain ⟨next, node⟩ := head
            obtain ⟨hsymbol, hrest⟩ := List.cons.inj h
            cases hsymbol
            exact ⟨(node, tail), (ih.1 a node tail).mpr hrest, rfl⟩
      | _ =>
        simp only [List.map_cons, hk]
        cases tail with
        | nil | cons => exact ⟨fun h => (by cases h), fun h => (by cases h)⟩

theorem atomTokens_of_kinds {kinds : List AtomKind} (h : atoms.map Atom.kind = kinds) :
    atomTokens atoms = kinds.flatMap AtomKind.tokens := by
  rw [← h, atomTokens, List.flatMap_map]

theorem flatMap_tokens_tailKinds (tail : List (String × Node)) :
    (tailKinds tail).flatMap AtomKind.tokens = tailTokens tail := by
  induction tail with
  | nil => rfl
  | cons head tail ih =>
    obtain ⟨symbol, operand⟩ := head
    simp only [tailKinds, tailTokens, List.flatMap_cons, List.flatMap_append] at ih ⊢
    rw [ih]
    simp [AtomKind.tokens]

theorem assembleValue_spec (h : assembleValue last atoms = .ok node) :
    node.tokens = atomTokens atoms ∧ ((∀ a ∈ atoms, a.kind.IsAtom) → IsValue node) := by
  obtain ⟨⟨first, tail⟩, hread, h⟩ := bind_eq_ok h
  cases h
  have hkinds := ((operands_eq_ok_iff atoms).1 last first tail).mp hread
  refine ⟨?_, fun hatoms => ?_⟩
  · rw [tokens_grow, atomTokens_of_kinds hkinds, List.flatMap_cons, flatMap_tokens_tailKinds]
    rfl
  · have hall : ∀ k ∈ AtomKind.operand first :: tailKinds tail, k.IsAtom := by
      intro k hk
      rw [← hkinds] at hk
      obtain ⟨a, ha, rfl⟩ := List.mem_map.mp hk
      exact hatoms a ha
    have hfirst : IsOperand first := hall _ (.head _)
    refine hfirst.1.grow (fun p hp => ?_)
    have hmem : ∀ k ∈ [AtomKind.operator p.1, AtomKind.operand p.2], k.IsAtom := fun k hk =>
      hall k (.tail _ (List.mem_flatMap.mpr ⟨p, hp, hk⟩))
    exact ⟨hmem (.operator p.1) (by simp), hmem (.operand p.2) (by simp)⟩

/-- An assembled tree has the tokens of its atoms and belongs to the grammar if they do. -/
theorem assemble_spec (h : assemble token index atoms = .ok node) :
    node.tokens = atomTokens atoms ∧ ((∀ a ∈ atoms, a.kind.IsAtom) → IsExpression node) := by
  unfold assemble at h
  split at h
  · cases h
  · rename_i first rest
    split at h
    · rename_i hk
      split at h
      · rename_i hrest
        cases h
        rw [List.isEmpty_iff.mp hrest]
        exact ⟨by simp [Node.tokens, atomTokens, hk, AtomKind.tokens], fun _ => .leave⟩
      · obtain ⟨value, hvalue, h⟩ := bind_eq_ok h
        cases h
        obtain ⟨htokens, hgrammar⟩ := assembleValue_spec hvalue
        refine ⟨?_, fun hatoms => .leaveWith (hgrammar fun a ha => hatoms a (by simp [ha]))⟩
        simp [Node.tokens, htokens, atomTokens, hk, AtomKind.tokens]
    · obtain ⟨htokens, hgrammar⟩ := assembleValue_spec h
      exact ⟨htokens, fun hatoms => .value (hgrammar hatoms)⟩

def valueKinds (node : Node) : List AtomKind :=
  .operand node.firstOperand :: tailKinds node.laterOperands

theorem assembleValue_of_kinds (hnode : IsValue node) (h : atoms.map Atom.kind = valueKinds node) :
    assembleValue last atoms = .ok node := by
  have hread := ((operands_eq_ok_iff atoms).1 last _ _).mpr h
  rw [assembleValue, hread]
  exact congrArg Except.ok (grow_laterOperands hnode)

def expressionKinds : Node → List AtomKind
  | .ret none => [.ret]
  | .ret (some value) => .ret :: valueKinds value
  | node => valueKinds node

theorem expressionKinds_of_isValue (h : IsValue node) : expressionKinds node = valueKinds node := by
  cases h <;> rfl

/-- The atoms of an expression are assembled to it. -/
theorem assemble_of_kinds (hnode : IsExpression node)
    (h : atoms.map Atom.kind = expressionKinds node) : assemble token index atoms = .ok node := by
  cases atoms with
  | nil =>
    cases hnode with
    | value hvalue => rw [expressionKinds_of_isValue hvalue] at h; cases h
    | leave | leaveWith => cases h
  | cons first rest =>
    rw [assemble]
    cases hnode with
    | value hvalue =>
      rw [expressionKinds_of_isValue hvalue] at h
      have hfirst : first.kind = .operand node.firstOperand := (List.cons.inj h).1
      rw [hfirst]
      exact assembleValue_of_kinds hvalue h
    | leave =>
      obtain ⟨hfirst, hrest⟩ := List.cons.inj h
      rw [hfirst, List.map_eq_nil_iff.mp hrest]
      rfl
    | leaveWith hvalue =>
      obtain ⟨hfirst, hrest⟩ := List.cons.inj h
      have hne : rest.isEmpty = false := by
        cases rest with
        | nil => cases hrest
        | cons => rfl
      rw [hfirst, hne]
      simp only [Bool.false_eq_true, if_false]
      rw [assembleValue_of_kinds hvalue hrest]
      rfl

end Shader.Program
