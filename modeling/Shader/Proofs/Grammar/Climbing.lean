import Mathlib
import Shader.Proofs.Grammar.RoundTrip

/-!
# Precedence climbing

Assembly grafts one operator after the other onto a tree. The usual way to group a list of atoms is
another one: a reader climbs from operand to operand, takes the operators that bind tighter than
the one it was called for, and leaves the rest to its caller. Both give the same trees and the same
faults, and nothing is ever left over.
-/

namespace Shader.Program

variable {as rest : List Atom} {node tree : Node} {symbol : String} {kinds : List AtomKind}
  {n power : Nat} {stop : Stop} {c d : Cursor} {a last : Atom} {prior : Option Atom}

/-! ## The climbing reader -/

theorem length_lt_cons (h : rest.length ≤ as.length) : rest.length < (a :: as).length :=
  Nat.lt_succ_of_le h

theorem length_lt_cons_of_lt (h : rest.length < as.length) : rest.length < (a :: as).length :=
  length_lt_cons h.le

theorem length_le_cons {between : List Atom} (h : rest.length ≤ between.length)
    (hlt : between.length < (a :: as).length) : rest.length ≤ (a :: as).length :=
  h.trans hlt.le

mutual

/-- Reads an operand and the operators after it that bind tighter than `power`, and gives the atoms
left over; `last` is the atom in front. -/
def climb (power : Nat) (last : Atom) (as : List Atom) :
    Except ParseError (Node × { rest : List Atom // rest.length < as.length }) :=
  match as with
  | [] => .error (last.fault .operandAfter)
  | a :: more =>
    match a.kind with
    | .operand node =>
      match climbOn power node more with
      | .error e => .error e
      | .ok (tree, ⟨rest, h⟩) => .ok (tree, ⟨rest, length_lt_cons h⟩)
    | _ => .error (a.fault .operandExpected)
termination_by as.length

/-- Reads the operators that bind tighter than `power`, each with what it takes to its right, onto
the tree `left`. -/
def climbOn (power : Nat) (left : Node) (as : List Atom) :
    Except ParseError (Node × { rest : List Atom // rest.length ≤ as.length }) :=
  match as with
  | [] => .ok (left, ⟨[], Nat.le_refl _⟩)
  | a :: more =>
    match a.kind with
    | .operator symbol =>
      if bindingPower symbol ≤ power then .ok (left, ⟨a :: more, Nat.le_refl _⟩)
      else
        match climb (rightPower symbol) a more with
        | .error e => .error e
        | .ok (right, ⟨between, h⟩) =>
          have hlt : between.length < (a :: more).length := length_lt_cons_of_lt h
          match climbOn power (join symbol left right) between with
          | .error e => .error e
          | .ok (tree, ⟨rest, h'⟩) => .ok (tree, ⟨rest, length_le_cons h' hlt⟩)
    | _ => .error (a.fault .operatorExpected)
termination_by as.length

end

def climbed (power : Nat) (last : Atom) (as : List Atom) : Except ParseError (Node × List Atom) :=
  (climb power last as).map fun p => (p.1, p.2.1)

def climbedOn (power : Nat) (left : Node) (as : List Atom) : Except ParseError (Node × List Atom) :=
  (climbOn power left as).map fun p => (p.1, p.2.1)

/-- The tree of a list of atoms, and the atoms left over. `token` and `index` are those where the
expression starts. -/
def climbAll (token : String) (index : Nat) : List Atom → Except ParseError (Node × List Atom)
  | [] => .error (.at .emptyExpression token index)
  | first :: rest =>
    match first.kind with
    | .ret =>
      match rest with
      | [] => .ok (.ret none, [])
      | second :: more => do
        let (value, left) ← climbAll second.token second.index (second :: more)
        return (.ret (some value), left)
    | _ => climbed 0 first (first :: rest)

section Steps

variable {power : Nat} {last a : Atom} {left node : Node} {symbol : String} {more : List Atom}

theorem climbed_nil : climbed power last [] = .error (last.fault .operandAfter) := by
  rw [climbed, climb]
  rfl

theorem climbed_operand (ha : a.kind = .operand node) :
    climbed power last (a :: more) = climbedOn power node more := by
  rw [climbed, climb, ha, climbedOn]
  dsimp only
  cases climbOn power node more <;> rfl

theorem climbed_other (ha : ∀ node, a.kind ≠ .operand node) :
    climbed power last (a :: more) = .error (a.fault .operandExpected) := by
  rw [climbed, climb]
  cases hk : a.kind with
  | operand node => exact absurd hk (ha node)
  | operator | ret => rfl

theorem climbedOn_nil : climbedOn power left [] = .ok (left, []) := by
  rw [climbedOn, climbOn]
  rfl

theorem climbedOn_stop (ha : a.kind = .operator symbol) (hs : bindingPower symbol ≤ power) :
    climbedOn power left (a :: more) = .ok (left, a :: more) := by
  rw [climbedOn, climbOn, ha]
  dsimp only
  rw [if_pos hs]
  rfl

theorem climbedOn_operator (ha : a.kind = .operator symbol) (hs : power < bindingPower symbol) :
    climbedOn power left (a :: more) = climbed (rightPower symbol) a more >>= fun p =>
      climbedOn power (join symbol left p.1) p.2 := by
  rw [climbedOn, climbOn, ha, climbed]
  dsimp only
  rw [if_neg (Nat.not_le.mpr hs)]
  cases climb (rightPower symbol) a more with
  | error e => rfl
  | ok p =>
    obtain ⟨right, between, h⟩ := p
    change _ = climbedOn power (join symbol left right) between
    rw [climbedOn]
    dsimp only
    cases climbOn power (join symbol left right) between <;> rfl

theorem climbedOn_other (ha : ∀ symbol, a.kind ≠ .operator symbol) :
    climbedOn power left (a :: more) = .error (a.fault .operatorExpected) := by
  rw [climbedOn, climbOn]
  cases hk : a.kind with
  | operator symbol => exact absurd hk (ha symbol)
  | operand | ret => rfl

theorem climbed_length (h : climbed power last as = .ok (tree, rest)) :
    rest.length < as.length := by
  unfold climbed at h
  cases hrun : climb power last as with
  | error e =>
    rw [hrun] at h
    cases h
  | ok p =>
    rw [hrun] at h
    cases h
    exact p.2.2

end Steps

/-! ## Grouped lists of atoms -/

/-- Sides with these powers are grouped to the operator. -/
def GroupsPowers (symbol : String) (left right : Nat) : Prop :=
  if groupsRight symbol then bindingPower symbol < left ∧ bindingPower symbol ≤ right
  else bindingPower symbol ≤ left ∧ bindingPower symbol < right

/-- The atoms, grouped by binding powers, make a tree whose root has the given power. Operands are
taken as they are, with an operator at their root or without. -/
inductive IsGrouping : List AtomKind → Nat → Node → Prop
  | operand (node : Node) : IsGrouping [.operand node] 6 node
  | operator {symbol : String} {lefts rights : List AtomKind} {p q : Nat} {left right : Node}
      (hs : 0 < bindingPower symbol) (hl : IsGrouping lefts p left) (hr : IsGrouping rights q right)
      (hg : GroupsPowers symbol p q) :
      IsGrouping (lefts ++ .operator symbol :: rights) (bindingPower symbol)
        (join symbol left right)

theorem IsGrouping.pos (h : IsGrouping kinds n node) : 0 < n := by
  cases h with
  | operand => decide
  | operator hs => exact hs

theorem IsGrouping.head (h : IsGrouping kinds n node) :
    ∃ first rest, kinds = .operand first :: rest := by
  induction h with
  | operand node => exact ⟨node, [], rfl⟩
  | operator _ _ _ _ ih _ =>
    obtain ⟨first, rest, rfl⟩ := ih
    exact ⟨first, _, rfl⟩

/-- What the root of a tree leaves to an operator on its right: only an operator that binds tighter
than this goes below the root. -/
def openPower (power : Nat) : Nat := if power = 1 then 0 else power

theorem openPower_bindingPower (symbol : String) :
    openPower (bindingPower symbol) = rightPower symbol := by
  unfold openPower
  by_cases hs : symbol = "="
  · subst hs
    decide
  · rw [rightPower_of_ne hs, if_neg fun h => hs (eq_assign_of_bindingPower h)]

/-- An operator is grouped to its sides if its left side does not take it up and its right side
binds tighter than what it leaves. -/
theorem groupsPowers_iff (hs : 0 < bindingPower symbol) {p q : Nat} :
    GroupsPowers symbol p q ↔ bindingPower symbol ≤ openPower p ∧ rightPower symbol < q := by
  unfold GroupsPowers openPower
  by_cases hsy : symbol = "="
  · subst hsy
    have hone : bindingPower "=" = 1 := by decide
    rw [rightPower_assign, hone, if_pos (by decide)]
    split <;> omega
  · have hne : bindingPower symbol ≠ 1 := fun h => hsy (eq_assign_of_bindingPower h)
    rw [rightPower_of_ne hsy, if_neg (by simp [groupsRight, hsy])]
    split <;> omega

/-- No operator in front binds tighter than this. -/
def Halts (power : Nat) (rest : List Atom) : Prop :=
  ∀ a symbol, rest.head? = some a → a.kind = .operator symbol → bindingPower symbol ≤ power

theorem halts_operand (rest : List Atom) : Halts (openPower 6) rest := by
  intro a symbol _ _
  have hle := bindingPower_le symbol
  change bindingPower symbol ≤ 6
  omega

theorem climbedOn_bind_of_halts {below : Nat} {left right : Node} (h : Halts below rest) :
    (climbedOn below right rest >>= fun p => climbedOn power (join symbol left p.1) p.2) =
      climbedOn power (join symbol left right) rest := by
  cases rest with
  | nil =>
    rw [climbedOn_nil]
    rfl
  | cons a more =>
    cases hk : a.kind with
    | operator next =>
      rw [climbedOn_stop hk (h a next rfl hk)]
      rfl
    | operand | ret =>
      have hother : ∀ symbol, a.kind ≠ .operator symbol := by simp [hk]
      rw [climbedOn_other hother, climbedOn_other hother]
      rfl

/-- A climb over atoms that are grouped to a tree gives that tree and goes on after them, unless
the tree would take up what follows. -/
theorem climbed_of_isGrouping {kinds : List AtomKind} {n : Nat} {node : Node}
    (h : IsGrouping kinds n node) {power : Nat} {last : Atom} {as more : List Atom}
    (has : as.map Atom.kind = kinds) (hpower : power < n) (hmore : Halts (openPower n) more) :
    climbed power last (as ++ more) = climbedOn power node more := by
  induction h generalizing power last as more with
  | operand node =>
    obtain ⟨a, rest, rfl, ha, hrest⟩ := List.map_eq_cons_iff.mp has
    rw [List.map_eq_nil_iff.mp hrest]
    exact climbed_operand ha
  | @operator symbol lefts rights p q left right hs hl hr hg ihl ihr =>
    obtain ⟨ls, rest, rfl, hls, hrest⟩ := List.map_eq_append_iff.mp has
    obtain ⟨a, rs, rfl, ha, hrs⟩ := List.map_eq_cons_iff.mp hrest
    obtain ⟨hleft, hright⟩ := (groupsPowers_iff hs).mp hg
    have hopen : openPower p ≤ p := by
      unfold openPower
      split <;> omega
    have hhalts : Halts (openPower p) (a :: rs ++ more) := by
      intro b next hb hnext
      obtain rfl : a = b := by simpa using hb
      rw [ha] at hnext
      cases hnext
      exact hleft
    -- the right side is left where the whole tree is, and so takes up nothing either
    have hbelow : Halts (rightPower symbol) more := by
      rw [← openPower_bindingPower]
      exact hmore
    have hinner : Halts (openPower q) more := by
      intro b next hb hnext
      have hle := hbelow b next hb hnext
      unfold openPower
      split <;> omega
    rw [List.append_assoc, ihl hls (by omega) hhalts, List.cons_append,
      climbedOn_operator ha hpower, ihr hrs hright hinner, climbedOn_bind_of_halts hbelow]

/-- Where a climb stops: at the end, or at an operator that does not bind tighter. -/
def Stops (power : Nat) (rest : List Atom) : Prop :=
  ∀ a, rest.head? = some a → ∃ symbol, a.kind = .operator symbol ∧ bindingPower symbol ≤ power

theorem Stops.halts (h : Stops power rest) : Halts power rest := by
  intro a symbol ha hk
  obtain ⟨other, hother, hle⟩ := h a ha
  rw [hk] at hother
  cases hother
  exact hle

/-- The atoms `kinds` and a first part of `as` are grouped to the tree, and a climb stops at the
rest. -/
def ClimbsTo (power : Nat) (kinds : List AtomKind) (as : List Atom) (tree : Node)
    (rest : List Atom) : Prop :=
  ∃ front q, as = front ++ rest ∧ IsGrouping (kinds ++ front.map Atom.kind) q tree ∧ power < q ∧
    Stops power rest

theorem ClimbsTo.append {between : List Atom} (front : List Atom)
    (h : ClimbsTo power (kinds ++ front.map Atom.kind) between tree rest) :
    ClimbsTo power kinds (front ++ between) tree rest := by
  obtain ⟨later, q, rfl, hgrouping, hq, hstops⟩ := h
  refine ⟨front ++ later, q, (List.append_assoc ..).symm, ?_, hq, hstops⟩
  rw [List.map_append, ← List.append_assoc]
  exact hgrouping

/-- What a climb has read is grouped to its tree. The right side of an operator is a climb of its
own, over fewer atoms. -/
theorem climbsTo_of_le (n : Nat) :
    (∀ power last as tree rest, as.length ≤ n → power < 6 →
      climbed power last as = .ok (tree, rest) → ClimbsTo power [] as tree rest) ∧
    (∀ power kinds p left as tree rest, as.length ≤ n → IsGrouping kinds p left → power < p →
      Halts (openPower p) as → climbedOn power left as = .ok (tree, rest) →
      ClimbsTo power kinds as tree rest) := by
  induction n using Nat.strongRecOn with
  | ind n ih =>
    refine ⟨fun power last as tree rest hn hpower h => ?_,
      fun power kinds p left as tree rest hn hleft hpower hhalts h => ?_⟩
    · cases as with
      | nil =>
        rw [climbed_nil] at h
        cases h
      | cons a more =>
        cases hk : a.kind with
        | operand node =>
          rw [climbed_operand hk] at h
          refine ClimbsTo.append [a] ((ih more.length hn).2 power _ 6 node more tree rest
            (Nat.le_refl _) ?_ hpower (halts_operand more) h)
          rw [List.map_singleton, hk]
          exact .operand node
        | operator | ret =>
          rw [climbed_other (by simp [hk])] at h
          cases h
    · cases as with
      | nil =>
        rw [climbedOn_nil] at h
        cases h
        exact ⟨[], p, rfl, by simpa using hleft, hpower, by simp [Stops]⟩
      | cons a more =>
        cases hk : a.kind with
        | operator symbol =>
          by_cases hs : bindingPower symbol ≤ power
          · rw [climbedOn_stop hk hs] at h
            cases h
            refine ⟨[], p, rfl, by simpa using hleft, hpower, fun b hb => ?_⟩
            obtain rfl : a = b := by simpa using hb
            exact ⟨symbol, hk, hs⟩
          have hs := Nat.not_le.mp hs
          rw [climbedOn_operator hk hs] at h
          obtain ⟨⟨right, between⟩, hright, hon⟩ := bind_eq_ok h
          have hle := bindingPower_le symbol
          have hlower : rightPower symbol ≤ bindingPower symbol := by
            unfold rightPower
            split <;> omega
          obtain ⟨front, q, rfl, hgrouping, hq, hstops⟩ :=
            (ih more.length hn).1 _ _ _ _ _ (Nat.le_refl _) (by omega) hright
          have hgroups : GroupsPowers symbol p q :=
            (groupsPowers_iff (by omega)).mpr ⟨hhalts a symbol rfl hk, hq⟩
          have hjoin := IsGrouping.operator (by omega) hleft hgrouping hgroups
          refine ClimbsTo.append (a :: front) ((ih between.length ?_).2 power _ _ _ between tree
            rest (Nat.le_refl _) ?_ hs ?_ hon)
          · simp only [List.length_cons, List.length_append] at hn
            omega
          · rw [List.map_cons, hk]
            exact hjoin
          · rw [openPower_bindingPower]
            exact hstops.halts
        | operand | ret =>
          rw [climbedOn_other (by simp [hk])] at h
          cases h

/-! ## Faults -/

/-- A climb fails as the list of atoms does, and if it does not fail, then the list fails only in
what is left over. -/
def FailsAs {α : Type} (run : Except ParseError (Node × List Atom)) (whole : Except ParseError α) :
    Prop :=
  match run with
  | .error e => whole = .error e
  | .ok (_, rest) => ∀ e, operatorFirst rest = .error e → whole = .error e

theorem FailsAs.bind {α β : Type} {run : Except ParseError (Node × List Atom)}
    {part : Except ParseError α} (h : FailsAs run part) (f : α → Except ParseError β) :
    FailsAs run (part >>= f) := by
  unfold FailsAs at h ⊢
  split at h
  · rw [h]
    rfl
  · intro e he
    rw [h e he]
    rfl

theorem FailsAs.then {α : Type} {first : Except ParseError (Node × List Atom)}
    {whole : Except ParseError α} {f : Node × List Atom → Except ParseError (Node × List Atom)}
    (h : FailsAs first whole)
    (hf : ∀ tree rest, first = .ok (tree, rest) → FailsAs (f (tree, rest)) (operatorFirst rest)) :
    FailsAs (first >>= f) whole := by
  cases first with
  | error e => exact h
  | ok p =>
    obtain ⟨tree, rest⟩ := p
    have hrest := hf tree rest rfl
    change FailsAs (f (tree, rest)) whole
    unfold FailsAs at hrest ⊢
    split at hrest
    · exact h _ hrest
    · exact fun e he => h e (hrest e he)

theorem failsAs_of_le (n : Nat) :
    (∀ power last as, as.length ≤ n → FailsAs (climbed power last as) (operandFirst last as)) ∧
    (∀ power left as, as.length ≤ n → FailsAs (climbedOn power left as) (operatorFirst as)) := by
  induction n using Nat.strongRecOn with
  | ind n ih =>
    refine ⟨fun power last as hn => ?_, fun power left as hn => ?_⟩
    · cases as with
      | nil => rw [climbed_nil, operandFirst, FailsAs]
      | cons a more =>
        rw [operandFirst]
        cases hk : a.kind with
        | operand node =>
          rw [climbed_operand hk]
          exact ((ih more.length hn).2 power node more (Nat.le_refl _)).bind _
        | operator | ret => rw [climbed_other (by simp [hk]), FailsAs]
    · cases as with
      | nil =>
        rw [climbedOn_nil]
        exact fun e he => he
      | cons a more =>
        cases hk : a.kind with
        | operator symbol =>
          by_cases hs : bindingPower symbol ≤ power
          · rw [climbedOn_stop hk hs]
            exact fun e he => he
          rw [climbedOn_operator hk (Nat.not_le.mp hs), operatorFirst, hk]
          refine FailsAs.then (((ih more.length hn).1 _ a more (Nat.le_refl _)).bind _) ?_
          intro right between hright
          have hlt := climbed_length hright
          exact (ih between.length (Nat.lt_trans hlt hn)).2 _ _ _ (Nat.le_refl _)
        | operand | ret => rw [climbedOn_other (by simp [hk]), operatorFirst, hk, FailsAs]

/-! ## Climbing and assembly -/

theorem valueKinds_join (symbol : String) (left right : Node) :
    valueKinds (join symbol left right) =
      valueKinds left ++ .operator symbol :: valueKinds right := by
  unfold join
  split
  · rename_i h
    rw [h, valueKinds_access]
  · rw [valueKinds_binary]

theorem valueKinds_of_power (h : node.power = 6) : valueKinds node = [.operand node] := by
  cases node with
  | binary symbol left right =>
    have hle := bindingPower_le symbol
    have hpower : bindingPower symbol = 6 := h
    omega
  | access => cases h
  | _ => rfl

theorem IsGrouping.isValue (h : IsGrouping kinds n node) (hatoms : ∀ k ∈ kinds, k.IsAtom) :
    IsValue node ∧ node.power = n ∧ valueKinds node = kinds := by
  induction h with
  | operand node =>
    obtain ⟨hvalue, hpower⟩ : IsOperand node := hatoms (.operand node) (by simp)
    exact ⟨hvalue, hpower, valueKinds_of_power hpower⟩
  | @operator symbol lefts rights p q left right hs hl hr hg ihl ihr =>
    obtain ⟨hleft, rfl, hlefts⟩ := ihl fun k hk => hatoms k (by simp [hk])
    obtain ⟨hright, rfl, hrights⟩ := ihr fun k hk => hatoms k (by simp [hk])
    refine ⟨.join hs hleft hright hg, power_join .., ?_⟩
    rw [valueKinds_join, hlefts, hrights]

theorem climbed_zero_spec
    (hoperators : ∀ symbol, .operator symbol ∈ as.map Atom.kind → 0 < bindingPower symbol)
    (h : climbed 0 last as = .ok (tree, rest)) :
    rest = [] ∧ ∃ q, IsGrouping (as.map Atom.kind) q tree := by
  obtain ⟨front, q, rfl, hgrouping, -, hstops⟩ :=
    (climbsTo_of_le _).1 0 last as tree rest (Nat.le_refl _) (by decide) h
  cases rest with
  | nil =>
    rw [List.append_nil]
    exact ⟨rfl, q, hgrouping⟩
  | cons a more =>
    obtain ⟨symbol, hk, hle⟩ := hstops a rfl
    have hpos := hoperators symbol (List.mem_map.mpr ⟨a, by simp, hk⟩)
    omega

theorem isAtom_kinds (h : ∀ a ∈ as, a.kind.IsAtom) : ∀ k ∈ as.map Atom.kind, k.IsAtom := by
  intro k hk
  obtain ⟨a, ha, rfl⟩ := List.mem_map.mp hk
  exact h a ha

theorem climbed_eq_assembleValue {last : Atom} {as : List Atom} (h : ∀ a ∈ as, a.kind.IsAtom) :
    climbed 0 last as = (assembleValue last as).map fun node => (node, []) := by
  cases hrun : climbed 0 last as with
  | error e =>
    have hfails := (failsAs_of_le _).1 0 last as (Nat.le_refl _)
    rw [hrun] at hfails
    have hread : operandFirst last as = .error e := hfails
    rw [assembleValue, hread]
    rfl
  | ok p =>
    obtain ⟨tree, rest⟩ := p
    obtain ⟨rfl, q, hgrouping⟩ := climbed_zero_spec (fun _ hs => isAtom_kinds h _ hs) hrun
    obtain ⟨hvalue, -, hkinds⟩ := hgrouping.isValue (isAtom_kinds h)
    rw [assembleValue_of_kinds hvalue hkinds.symm]
    rfl

/-! ## Lists of atoms that are assembled -/

/-- Operands and operators alternate, with an operand first and last. -/
inductive Alternates : List AtomKind → Prop
  | last (node : Node) : Alternates [.operand node]
  | more (node : Node) (symbol : String) {rest : List AtomKind} (h : Alternates rest) :
      Alternates (.operand node :: .operator symbol :: rest)

theorem alternates_iff :
    Alternates kinds ↔ ∃ first tail, kinds = .operand first :: tailKinds tail := by
  constructor
  · intro h
    induction h with
    | last node => exact ⟨node, [], rfl⟩
    | more node symbol _ ih =>
      obtain ⟨first, tail, rfl⟩ := ih
      exact ⟨node, (symbol, first) :: tail, rfl⟩
  · rintro ⟨first, tail, rfl⟩
    induction tail generalizing first with
    | nil => exact .last first
    | cons head tail ih => exact .more first head.1 (ih head.2)

theorem exists_assembleValue_iff (last : Atom) (as : List Atom) :
    (∃ node, assembleValue last as = .ok node) ↔ Alternates (as.map Atom.kind) := by
  rw [alternates_iff]
  constructor
  · rintro ⟨node, h⟩
    obtain ⟨⟨first, tail⟩, hread, -⟩ := bind_eq_ok h
    exact ⟨first, tail, ((operands_eq_ok_iff as).1 last first tail).mp hread⟩
  · rintro ⟨first, tail, h⟩
    refine ⟨grow first tail, ?_⟩
    rw [assembleValue, ((operands_eq_ok_iff as).1 last first tail).mpr h]
    rfl

def Node.inorder : Node → List AtomKind
  | .binary symbol left right => left.inorder ++ .operator symbol :: right.inorder
  | .access left right => left.inorder ++ .operator "." :: right.inorder
  | node => [.operand node]

/-- Every operator of the tree has sides that are grouped to it, and a point is an access. -/
def Node.Grouped : Node → Prop
  | .binary symbol left right =>
    symbol ≠ "." ∧ Groups symbol left right ∧ left.Grouped ∧ right.Grouped
  | .access left right => Groups "." left right ∧ left.Grouped ∧ right.Grouped
  | _ => True

theorem inorder_eq_valueKinds (node : Node) : node.inorder = valueKinds node := by
  fun_induction Node.inorder node with
  | case1 symbol left right ihl ihr => rw [ihl, ihr, valueKinds_binary]
  | case2 left right ihl ihr => rw [ihl, ihr, valueKinds_access]
  | case3 node hbinary haccess =>
    refine (valueKinds_of_power ?_).symm
    cases node with
    | binary => exact absurd rfl (hbinary _ _ _)
    | access => exact absurd rfl (haccess _ _)
    | _ => rfl

theorem IsValue.grouped (h : IsValue node) : node.Grouped := by
  fun_induction Node.Grouped node with
  | case1 symbol left right ihl ihr =>
    cases h with
    | binary _ haccess hleft hright hgroups => exact ⟨haccess, hgroups, ihl hleft, ihr hright⟩
  | case2 left right ihl ihr =>
    cases h with
    | access hleft hright hgroups => exact ⟨hgroups, ihl hleft, ihr hright⟩
  | case3 => trivial

theorem isValue_of_grouped (h : node.Grouped) (hatoms : ∀ k ∈ node.inorder, k.IsAtom) :
    IsValue node := by
  fun_induction Node.inorder node with
  | case1 symbol left right ihl ihr =>
    obtain ⟨haccess, hgroups, hleft, hright⟩ := h
    have hsymbol : 0 < bindingPower symbol := hatoms (.operator symbol) (by simp)
    exact .binary hsymbol haccess (ihl hleft fun k hk => hatoms k (by simp [hk]))
      (ihr hright fun k hk => hatoms k (by simp [hk])) hgroups
  | case2 left right ihl ihr =>
    obtain ⟨hgroups, hleft, hright⟩ := h
    exact .access (ihl hleft fun k hk => hatoms k (by simp [hk]))
      (ihr hright fun k hk => hatoms k (by simp [hk])) hgroups
  | case3 node =>
    have hoperand : IsOperand node := hatoms (.operand node) (by simp)
    exact hoperand.1

theorem assembleValue_eq_ok_iff (h : ∀ a ∈ as, a.kind.IsAtom) :
    assembleValue last as = .ok node ↔
      node.Grouped ∧ node.inorder = as.map Atom.kind := by
  rw [inorder_eq_valueKinds]
  constructor
  · intro hrun
    have hclimbed := @climbed_eq_assembleValue last as h
    rw [hrun] at hclimbed
    obtain ⟨-, q, hgrouping⟩ := climbed_zero_spec (fun _ hs => isAtom_kinds h _ hs) hclimbed
    obtain ⟨hvalue, -, hkinds⟩ := hgrouping.isValue (isAtom_kinds h)
    exact ⟨hvalue.grouped, hkinds⟩
  · rintro ⟨hgrouped, hkinds⟩
    refine assembleValue_of_kinds (isValue_of_grouped hgrouped fun k hk => ?_) hkinds.symm
    rw [inorder_eq_valueKinds, hkinds] at hk
    exact isAtom_kinds h k hk

/-! ## Lists of atoms that are read -/

theorem element_ne_ret {after : Cursor} (hprior : prior.isSome = true)
    (h : element stop prior c = .ok (.atom a after)) : a.kind ≠ .ret := by
  intro hret
  unfold element at h
  split at h
  · cases h
  split at h
  · cases h
  split at h
  · obtain ⟨p, -, h⟩ := bind_eq_ok h
    cases h
    cases hret
  split at h
  · cases h
  -- what is left are operands, operators, calls and a fault
  repeat' split at h
  all_goals
    cases h
    try cases hret

theorem ReadsAtoms.ne_ret {stop : Stop} {prior : Option Atom} {c d : Cursor} {as : List Atom} :
    ReadsAtoms stop prior c as d → prior.isSome = true → ∀ a ∈ as, a.kind ≠ .ret
  | .stop _, _ => by simp
  | .atom h hmore, hprior => by
    refine List.forall_mem_cons.mpr ⟨element_ne_ret hprior h, hmore.ne_ret rfl⟩
  | .call h hargs hmore, hprior => by
    refine List.forall_mem_cons.mpr ⟨by simp, hmore.ne_ret rfl⟩

theorem ReadsAtoms.tail_ne_ret (h : ReadsAtoms stop prior c (a :: as) d) :
    ∀ b ∈ as, b.kind ≠ .ret := by
  cases h with
  | atom h hmore | call h hargs hmore => exact hmore.ne_ret rfl

/-- The list is a return, or an optional return in front of alternating operands and operators. -/
def IsComplete (kinds : List AtomKind) : Prop :=
  kinds = [.ret] ∨ Alternates kinds ∨ ∃ values, kinds = .ret :: values ∧ Alternates values

/-- The tree has these atoms in this order, and its operators are grouped by their binding powers;
a return stands above its value. -/
def Node.IsTreeOf (kinds : List AtomKind) (node : Node) : Prop :=
  (kinds = [.ret] ∧ node = .ret none) ∨ (node.Grouped ∧ node.inorder = kinds) ∨
    ∃ value, node = .ret (some value) ∧ value.Grouped ∧ .ret :: value.inorder = kinds

theorem complete_of_head_ne (h : kinds.head? ≠ some .ret) :
    (IsComplete kinds ↔ Alternates kinds) ∧
      ∀ node : Node, node.IsTreeOf kinds ↔ node.Grouped ∧ node.inorder = kinds := by
  refine ⟨⟨?_, fun hvalues => Or.inr (Or.inl hvalues)⟩,
    fun node => ⟨?_, fun hvalue => Or.inr (Or.inl hvalue)⟩⟩
  · rintro (rfl | hvalues | ⟨values, rfl, -⟩)
    · exact absurd rfl h
    · exact hvalues
    · exact absurd rfl h
  · rintro (⟨rfl, -⟩ | hvalue | ⟨value, -, -, rfl⟩)
    · exact absurd rfl h
    · exact hvalue
    · exact absurd rfl h

theorem complete_ret {values : List AtomKind} :
    (IsComplete (.ret :: values) ↔ values = [] ∨ Alternates values) ∧
      ∀ node : Node, node.IsTreeOf (.ret :: values) ↔ (values = [] ∧ node = .ret none) ∨
        ∃ value, node = .ret (some value) ∧ value.Grouped ∧ value.inorder = values := by
  refine ⟨⟨?_, ?_⟩, fun node => ⟨?_, ?_⟩⟩
  · rintro (hret | hvalues | ⟨values, hret, hvalues⟩)
    · exact Or.inl (List.cons.inj hret).2
    · cases hvalues
    · exact Or.inr ((List.cons.inj hret).2 ▸ hvalues)
  · rintro (rfl | hvalues)
    · exact Or.inl rfl
    · exact Or.inr (Or.inr ⟨values, rfl, hvalues⟩)
  · rintro (⟨hret, rfl⟩ | ⟨-, hkinds⟩ | ⟨value, rfl, hgrouped, hkinds⟩)
    · exact Or.inl ⟨(List.cons.inj hret).2, rfl⟩
    · rw [inorder_eq_valueKinds] at hkinds
      cases hkinds
    · exact Or.inr ⟨value, rfl, hgrouped, (List.cons.inj hkinds).2⟩
  · rintro (⟨rfl, rfl⟩ | ⟨value, rfl, hgrouped, rfl⟩)
    · exact Or.inl ⟨rfl, rfl⟩
    · exact Or.inr (Or.inr ⟨value, rfl, hgrouped, rfl⟩)

section Assembled

variable {token : String} {index : Nat} {first : Atom} {rest : List Atom}

theorem assembleValue_cons (last last' : Atom) :
    assembleValue last (first :: rest) = assembleValue last' (first :: rest) := by
  rw [assembleValue, assembleValue, operandFirst, operandFirst]

theorem assemble_value (hfirst : first.kind ≠ .ret) :
    assemble token index (first :: rest) = assembleValue first (first :: rest) ∧
      climbAll token index (first :: rest) = climbed 0 first (first :: rest) := by
  unfold assemble climbAll
  dsimp only
  cases hk : first.kind with
  | ret => exact absurd hk hfirst
  | operand | operator => exact ⟨rfl, rfl⟩

theorem assemble_ret {second : Atom} (hfirst : first.kind = .ret) (hsecond : second.kind ≠ .ret) :
    assemble token index (first :: second :: rest) =
        (assembleValue second (second :: rest) >>= fun value => .ok (.ret (some value))) ∧
      climbAll token index (first :: second :: rest) =
        climbed 0 second (second :: rest) >>= fun p => .ok (.ret (some p.1), p.2) := by
  have hclimb := (@assemble_value second.token second.index second rest hsecond).2
  constructor
  · unfold assemble
    simp only [hfirst, List.isEmpty_cons, Bool.false_eq_true, if_false]
    rw [assembleValue_cons first second]
    rfl
  · rw [climbAll.eq_def]
    simp only [hfirst, hclimb]
    rfl

end Assembled

/-- The list of atoms is assembled exactly if it is complete, to the only tree it can have, and a
climb does the same. -/
def IsAssembled (token : String) (index : Nat) (as : List Atom) : Prop :=
  ((∃ node, assemble token index as = .ok node) ↔ IsComplete (as.map Atom.kind)) ∧
  (∀ node, assemble token index as = .ok node ↔ node.IsTreeOf (as.map Atom.kind)) ∧
  climbAll token index as = (assemble token index as).map fun node => (node, [])

theorem isAssembled_value (token : String) (index : Nat) (hatoms : ∀ a ∈ as, a.kind.IsAtom)
    (hhead : (as.map Atom.kind).head? ≠ some .ret) : IsAssembled token index as := by
  obtain ⟨hcomplete, htree⟩ := complete_of_head_ne hhead
  unfold IsAssembled
  simp only [hcomplete, htree]
  cases as with
  | nil =>
    refine ⟨⟨fun ⟨_, hnode⟩ => (by cases hnode), fun hvalues => (by cases hvalues)⟩,
      fun node => ⟨fun hnode => (by cases hnode), fun hvalue => ?_⟩, rfl⟩
    rw [inorder_eq_valueKinds] at hvalue
    cases hvalue.2
  | cons first rest =>
    obtain ⟨hassemble, hclimb⟩ := @assemble_value token index first rest (by simpa using hhead)
    rw [hassemble, hclimb]
    exact ⟨exists_assembleValue_iff .., fun node => assembleValue_eq_ok_iff hatoms,
      climbed_eq_assembleValue hatoms⟩

theorem isAssembled_ret (token : String) (index : Nat) {first : Atom} (hfirst : first.kind = .ret)
    (hatoms : ∀ a ∈ rest, a.kind.IsAtom) (hrest : ∀ a ∈ rest, a.kind ≠ .ret) :
    IsAssembled token index (first :: rest) := by
  obtain ⟨hcomplete, htree⟩ := @complete_ret (rest.map Atom.kind)
  unfold IsAssembled
  rw [List.map_cons, hfirst]
  simp only [hcomplete, htree]
  cases rest with
  | nil =>
    have hassemble : assemble token index [first] = .ok (.ret none) := by simp [assemble, hfirst]
    rw [hassemble, climbAll.eq_def]
    simp only [hfirst]
    refine ⟨⟨fun _ => Or.inl rfl, fun _ => ⟨_, rfl⟩⟩, fun node => ⟨?_, ?_⟩, rfl⟩
    · rintro ⟨⟩
      exact Or.inl ⟨rfl, rfl⟩
    · rintro (⟨-, rfl⟩ | ⟨value, -, -, hvalues⟩)
      · rfl
      · rw [inorder_eq_valueKinds] at hvalues
        cases hvalues
  | cons second rest =>
    have hsecond := hrest second (.head _)
    obtain ⟨hassemble, hclimb⟩ := @assemble_ret token index first rest second hfirst hsecond
    rw [hassemble, hclimb, climbed_eq_assembleValue hatoms]
    simp only [except_bind_eq_ok_iff, assembleValue_eq_ok_iff hatoms]
    refine ⟨?_, fun node => ?_, ?_⟩
    · rw [← exists_assembleValue_iff second]
      simp only [assembleValue_eq_ok_iff hatoms]
      constructor
      · rintro ⟨node, value, hvalue, -⟩
        exact Or.inr ⟨value, hvalue⟩
      · rintro (hnil | ⟨value, hvalue⟩)
        · cases hnil
        · exact ⟨_, value, hvalue, rfl⟩
    · constructor
      · rintro ⟨value, hvalue, hnode⟩
        cases hnode
        exact Or.inr ⟨value, rfl, hvalue⟩
      · rintro (⟨hnil, -⟩ | ⟨value, rfl, hvalue⟩)
        · cases hnil
        · exact ⟨value, hvalue, rfl⟩
    · cases assembleValue second (second :: rest) <;> rfl

theorem ReadsAtoms.isAssembled (h : ReadsAtoms stop none c as d) (token : String) (index : Nat) :
    IsAssembled token index as := by
  have hatoms := h.normal.1
  cases as with
  | nil => exact isAssembled_value token index hatoms (by simp)
  | cons first rest =>
    by_cases hfirst : first.kind = .ret
    · exact isAssembled_ret token index hfirst (fun a ha => hatoms a (.tail _ ha))
        h.tail_ne_ret
    · exact isAssembled_value token index hatoms (by simpa using hfirst)

/-- An expression is assembled exactly if it is a return, or an optional return in front of operands
and operators that alternate. The tree is the only one that has its atoms in their order and groups
every operator by its binding power. A climb gives the same tree or the same fault, and never
leaves an atom over. -/
theorem assemble_iff_alternates {stop : Stop} {c d : Cursor} {as : List Atom}
    {hd : d.rest.length ≤ c.rest.length} (h : atoms stop none c = .ok (as, ⟨d, hd⟩))
    (token : String) (index : Nat) :
    ((∃ node, assemble token index as = .ok node) ↔ IsComplete (as.map Atom.kind)) ∧
    (∀ node, assemble token index as = .ok node ↔ node.IsTreeOf (as.map Atom.kind)) ∧
    climbAll token index as = (assemble token index as).map fun node => (node, []) := by
  have hreads : ReadsAtoms stop none c as d := atoms_eq_ok_iff.mp ⟨hd, h⟩
  exact hreads.isAssembled token index

/-- In `return a = -1 + b` the minus sign belongs to the number, and the sum goes below the
assignment. -/
theorem assemble_iff_alternates_sample :
    let as : List Atom := [⟨.ret, "return", 0⟩, ⟨.operand (.ident "a"), "a", 1⟩,
      ⟨.operator "=", "=", 2⟩, ⟨.operand (.constant "-1"), "-", 3⟩, ⟨.operator "+", "+", 5⟩,
      ⟨.operand (.ident "b"), "b", 6⟩]
    let tree : Node := .ret (some (.binary "=" (.ident "a")
      (.binary "+" (.constant "-1") (.ident "b"))))
    atoms .statement none ⟨0, ["return", "a", "=", "-", "1", "+", "b", ";"]⟩ =
        .ok (as, ⟨⟨7, [";"]⟩, by decide⟩) ∧
      IsComplete (as.map Atom.kind) ∧ tree.IsTreeOf (as.map Atom.kind) ∧
      climbAll "return" 0 as = .ok (tree, []) := by
  intro as tree
  have hread : atoms .statement none ⟨0, ["return", "a", "=", "-", "1", "+", "b", ";"]⟩ =
      .ok (as, ⟨⟨7, [";"]⟩, by decide⟩) := by cbv
  have hassemble : assemble "return" 0 as = .ok tree := by cbv
  obtain ⟨hcomplete, htree, hclimb⟩ := assemble_iff_alternates hread "return" 0
  refine ⟨hread, hcomplete.mp ⟨tree, hassemble⟩, (htree tree).mp hassemble, ?_⟩
  rw [hclimb, hassemble]
  rfl

end Shader.Program
