import Mathlib.Logic.Relation
import Mathlib.Tactic.Common
import Shader.Arena.Tree

/-!
# Well-formed trees

A tree is well formed if every node refers to nodes of the kinds it is made for, and only to nodes
that were added before it. Scopes are the exception: they list their declarations, which are added
after them. So references never run in a circle.
-/

namespace Shader.Arena

variable {t : Tree} {i j : Nat} {node : Node} {h : Handle}
variable {a b : Node} {child : Handle}

/-! ## Kinds of nodes -/

/-- The kinds of nodes that references tell apart. -/
inductive Kind where
  | scope
  | struct
  | member
  | function
  | parameter
  /-- A binding, a block of push constants or a specialization. -/
  | resource
  | intrinsic
  /-- What can stand in a statement, pieces of code and named literals among them. -/
  | expression
  deriving Repr, DecidableEq

def Node.kind : Node → Kind
  | .scope .. => .scope
  | .struct _ => .struct
  | .member _ => .member
  | .function _ => .function
  | .parameter .. => .parameter
  | .binding _ => .resource
  | .pushConstant _ => .resource
  | .specialization .. => .resource
  | .intrinsic _ => .intrinsic
  | _ => .expression

def Tree.kind? (t : Tree) (h : Handle) : Option Kind := (t.node? h).map Node.kind

/-- The handle is of a node of the given kind with an index below `i`. -/
def Tree.Below (t : Tree) (i : Nat) (kind : Kind) (h : Handle) : Prop :=
  t.kind? h = some kind ∧ ∃ j < i, h = some j

/-! ## Well-formed nodes -/

/-- What the node at index `i` of a tree may refer to. A reference to no node is possible as the
template of a struct, the source of a name, the target of a call and the value of a return. -/
def Node.WellFormed (t : Tree) (i : Nat) : Node → Prop
  | .scope _ children =>
    ∀ c ∈ children, (t.node? c).isSome ∧ (t.kind? c = some .scope → ∃ j, i < j ∧ c = some j)
  | .struct decl =>
    (decl.template = none ∨ t.Below i .struct decl.template) ∧
      (∀ f ∈ decl.fields, t.Below i .member f) ∧ ∀ a ∈ decl.types, t.Below i .struct a
  | .member decl => t.Below i .struct decl.type
  | .function decl =>
    (∀ p ∈ decl.params, t.Below i .parameter p) ∧ t.Below i .struct decl.returns ∧
      ∀ s ∈ decl.statements, t.Below i .expression s
  | .parameter _ type => t.Below i .struct type
  | .binding decl =>
    (∀ m ∈ decl.members, t.Below i .member m) ∧ ∀ code, decl.kind ≠ .unknown code
  | .pushConstant members => ∀ m ∈ members, t.Below i .member m
  | .specialization _ type => t.Below i .struct type
  | .intrinsic decl =>
    (∀ p ∈ decl.params, t.Below i .parameter p) ∧ t.Below i .struct decl.returns ∧
      ∀ s ∈ decl.body, t.Below i .expression s
  | .sequence elements => ∀ e ∈ elements, t.Below i .expression e
  | .access left right => t.Below i .expression left ∧ t.Below i .expression right
  | .ident _ source => source = none ∨ ∃ kind, kind ≠ .scope ∧ t.Below i kind source
  | .call _ target args =>
    (∀ a ∈ args, t.Below i .expression a) ∧
      (target = none ∨ t.Below i .function target ∨ t.Below i .struct target) ∧
      ∀ decl, t.node? target = some (.function decl) → args.length = decl.params.length
  | .intrinsicCall callee elements =>
    t.Below i .intrinsic callee ∧ ∀ e ∈ elements, t.Below i .expression e
  | .binary _ left right => t.Below i .expression left ∧ t.Below i .expression right
  | .localVar _ type => t.Below i .struct type
  | .ret value => value = none ∨ t.Below i .expression value
  | .fragment _ => True
  | .literal .. => True
  | .placeholder => True
  | .constant _ => True
  | .marker .. => True

/-- Every node of the tree is well formed, and the first is a scope. -/
structure Tree.WellFormed (t : Tree) : Prop where
  root : t.kind? Tree.root = some .scope
  node : ∀ ⦃i node⦄, t.node? (some i) = some node → node.WellFormed t i

/-! ## Extensions of a tree -/

/-- The node is kept, or is a scope that has gained children. -/
inductive Node.Grows : Node → Node → Prop
  | same (node : Node) : Grows node node
  | scope (name : String) (children more : List Handle) :
    Grows (.scope name children) (.scope name (children ++ more))

theorem Node.Grows.trans {c : Node} (hab : a.Grows b) (hbc : b.Grows c) : a.Grows c := by
  cases hab with
  | same => exact hbc
  | scope name children more =>
    cases hbc with
    | same => exact .scope name children more
    | scope _ _ more' =>
      rw [List.append_assoc]
      exact .scope name children (more ++ more')

theorem Node.Grows.kind (h : a.Grows b) : b.kind = a.kind := by
  cases h <;> rfl

theorem Node.Grows.eq (h : a.Grows b) (hkind : b.kind ≠ .scope) : b = a := by
  cases h with
  | same => rfl
  | scope => exact absurd rfl hkind

/-- The second tree has all nodes of the first, each grown. -/
def Extends (t t' : Tree) : Prop :=
  ∀ ⦃h node⦄, t.node? h = some node → ∃ node', t'.node? h = some node' ∧ node.Grows node'

namespace Extends

theorem refl (t : Tree) : Extends t t := fun _ node h => ⟨node, h, .same node⟩

theorem trans {t' t'' : Tree} (h : Extends t t') (h' : Extends t' t'') : Extends t t'' := by
  intro handle node hnode
  obtain ⟨node', hnode', hgrows⟩ := h hnode
  obtain ⟨node'', hnode'', hgrows'⟩ := h' hnode'
  exact ⟨node'', hnode'', hgrows.trans hgrows'⟩

variable {t t' : Tree} {h : Handle}

theorem kind? {kind : Kind} (he : Extends t t') (hk : t.kind? h = some kind) :
    t'.kind? h = some kind := by
  obtain ⟨node, hnode, rfl⟩ := Option.map_eq_some_iff.mp hk
  obtain ⟨node', hnode', hgrows⟩ := he hnode
  rw [Tree.kind?, hnode', Option.map_some, hgrows.kind]

theorem isSome (he : Extends t t') (hs : (t.node? h).isSome) : (t'.node? h).isSome := by
  obtain ⟨node, hnode⟩ := Option.isSome_iff_exists.mp hs
  obtain ⟨node', hnode', -⟩ := he hnode
  rw [hnode']
  rfl

theorem node? (he : Extends t t') (hn : t.node? h = some node)
    (hkind : node.kind ≠ .scope) : t'.node? h = some node := by
  obtain ⟨node', hnode', hgrows⟩ := he hn
  rw [hnode', hgrows.eq (by rw [hgrows.kind]; exact hkind)]

theorem keeps (he : Extends t t') (hn : t.node? h = some node)
    (hkind : (node.kind == .scope) = false) : t'.node? h = some node :=
  he.node? hn (bne_iff_ne.mp (congrArg not hkind))

theorem node?_of_isSome (he : Extends t t') (hs : (t.node? h).isSome)
    (hn : t'.node? h = some node) (hkind : node.kind ≠ .scope) : t.node? h = some node := by
  obtain ⟨old, hold⟩ := Option.isSome_iff_exists.mp hs
  obtain ⟨node', hnode', hgrows⟩ := he hold
  rw [hn] at hnode'
  cases hnode'
  rw [hold, hgrows.eq hkind]

end Extends

/-! ## References in an extension -/

theorem Tree.lt_size_of_node? (h : t.node? (some j) = some node) : j < t.size := by
  obtain ⟨hlt, -⟩ := Array.getElem?_eq_some_iff.mp h
  exact hlt

theorem Tree.lt_size_of_isSome (hs : (t.node? h).isSome) : ∃ j < t.size, h = some j := by
  obtain ⟨node, hnode⟩ := Option.isSome_iff_exists.mp hs
  cases h with
  | none => cases hnode
  | some j => exact ⟨j, Tree.lt_size_of_node? hnode, rfl⟩

theorem Tree.index_of_node? (hnode : t.node? h = some node) : ∃ j < t.size, h = some j :=
  Tree.lt_size_of_isSome (Option.isSome_of_eq_some hnode)

theorem Tree.isSome_of_kind? {kind : Kind} (hk : t.kind? h = some kind) : (t.node? h).isSome := by
  obtain ⟨node, hnode, -⟩ := Option.map_eq_some_iff.mp hk
  rw [hnode]
  rfl

theorem Tree.below_size {kind : Kind} (hk : t.kind? h = some kind) : t.Below t.size kind h :=
  ⟨hk, Tree.lt_size_of_isSome (Tree.isSome_of_kind? hk)⟩

theorem Tree.kind?_of_node? (hn : t.node? h = some node) : t.kind? h = some node.kind := by
  rw [Tree.kind?, hn]
  rfl

theorem Tree.Below.isSome {kind : Kind}
    (hb : t.Below i kind h) : (t.node? h).isSome := Tree.isSome_of_kind? hb.1

theorem Tree.Below.trans {kind : Kind} (hb : t.Below j kind h) (hij : j < i) :
    t.Below i kind h := by
  obtain ⟨hkind, k, hk, rfl⟩ := hb
  exact ⟨hkind, k, by omega, rfl⟩

theorem Tree.Below.extend {t' : Tree} {kind : Kind} (he : Extends t t') (hb : t.Below i kind h) :
    t'.Below i kind h :=
  ⟨he.kind? hb.1, hb.2⟩

theorem Node.WellFormed.extend {t' : Tree} (he : Extends t t')
    (hw : node.WellFormed t i) : node.WellFormed t' i := by
  have hone {kind : Kind} {h : Handle} (hb : t.Below i kind h) : t'.Below i kind h := hb.extend he
  have hall {kind : Kind} {hs : List Handle} (hb : ∀ h ∈ hs, t.Below i kind h) :
      ∀ h ∈ hs, t'.Below i kind h := fun h hh => (hb h hh).extend he
  cases node with
  | scope name children =>
    intro c hc
    obtain ⟨hsome, hscope⟩ := hw c hc
    refine ⟨he.isSome hsome, fun hkind => hscope ?_⟩
    -- the kind of a child that is there already cannot have changed
    obtain ⟨node, hnode⟩ := Option.isSome_iff_exists.mp hsome
    have hold := Tree.kind?_of_node? hnode
    rw [he.kind? hold] at hkind
    rw [hold, hkind]
  | struct decl => exact ⟨hw.1.imp_right hone, hall hw.2.1, hall hw.2.2⟩
  | member decl => exact hone hw
  | function decl => exact ⟨hall hw.1, hone hw.2.1, hall hw.2.2⟩
  | parameter name type => exact hone hw
  | binding decl => exact ⟨hall hw.1, hw.2⟩
  | pushConstant members => exact hall hw
  | specialization name type => exact hone hw
  | intrinsic decl => exact ⟨hall hw.1, hone hw.2.1, hall hw.2.2⟩
  | sequence elements => exact hall hw
  | access left right => exact ⟨hone hw.1, hone hw.2⟩
  | ident name source => exact hw.imp_right fun ⟨kind, hkind, hb⟩ => ⟨kind, hkind, hone hb⟩
  | call callee target args =>
    obtain ⟨hargs, htarget, hcount⟩ := hw
    refine ⟨hall hargs, htarget.imp_right (Or.imp hone hone), fun decl hdecl => hcount decl ?_⟩
    refine he.node?_of_isSome ?_ hdecl nofun
    rcases htarget with rfl | hf | hs
    · cases hdecl
    · exact hf.isSome
    · exact hs.isSome
  | intrinsicCall callee elements => exact ⟨hone hw.1, hall hw.2⟩
  | binary op left right => exact ⟨hone hw.1, hone hw.2⟩
  | localVar name type => exact hone hw
  | ret value => exact hw.imp_right hone
  | fragment | literal | placeholder | constant | marker => trivial

/-! ## Adding a node -/

theorem Tree.node?_add (t : Tree) (node : Node) (h : Handle) :
    (t.add node).2.node? h = if h = some t.size then some node else t.node? h := by
  cases h with
  | none => rfl
  | some j =>
    change (t.nodes.push node)[j]? = _
    rw [Array.getElem?_push]
    simp only [Option.some.injEq]
    rfl

theorem Tree.node?_size (t : Tree) : t.node? (some t.size) = none :=
  Array.getElem?_eq_none (Nat.le_refl _)

theorem Extends.add (t : Tree) (node : Node) : Extends t (t.add node).2 := by
  intro h old hold
  refine ⟨old, ?_, .same old⟩
  rw [Tree.node?_add, if_neg, hold]
  rintro rfl
  rw [Tree.node?_size] at hold
  cases hold

theorem Tree.WellFormed.add (ht : t.WellFormed)
    (hnode : node.WellFormed t t.size) : (t.add node).2.WellFormed := by
  have he := Extends.add t node
  refine ⟨he.kind? ht.root, ?_⟩
  intro i found hfound
  rw [Tree.node?_add] at hfound
  split at hfound
  · rename_i hi
    cases hi
    cases hfound
    exact hnode.extend he
  · exact (ht.node hfound).extend he

/-! ## Adding a child to a scope -/

theorem Tree.appendChild_eq_ok {t' : Tree} {scope : Handle}
    (h : t.appendChild scope child = .ok t') :
    ∃ name children, t.node? scope = some (.scope name children) ∧ (t.node? child).isSome ∧
      ∀ g, t'.node? g =
        if g = scope then some (.scope name (children ++ [child])) else t.node? g := by
  unfold Tree.appendChild at h
  split at h
  · rename_i i name children hscope
    have hnode : t.node? (some i) = some (.scope name children) := by
      unfold Tree.scope? at hscope
      split at hscope
      · rename_i hnode
        cases hscope
        exact hnode
      · cases hscope
    split at h
    · rename_i hchild
      cases h
      refine ⟨name, children, hnode, hchild, ?_⟩
      intro g
      have hlt : i < t.nodes.size := Tree.lt_size_of_node? hnode
      cases g with
      | none => rfl
      | some j =>
        change (t.nodes.setIfInBounds i _)[j]? = _
        rw [Array.getElem?_setIfInBounds]
        by_cases hij : i = j
        · subst hij
          simp [hlt]
        · have hji : ¬ j = i := fun hji => hij hji.symm
          simp only [hij, hji, if_false, Option.some.injEq]
          rfl
    · cases h
  · cases h

/-- Only a scope changes. -/
theorem Tree.node?_of_appendChild {t' : Tree} {scope g : Handle} {node : Node}
    (h : t.appendChild scope child = .ok t') (hnode : t'.node? g = some node)
    (hkind : (node.kind == .scope) = false) : t.node? g = some node := by
  obtain ⟨_, _, -, -, hnodes⟩ := Tree.appendChild_eq_ok h
  rw [hnodes] at hnode
  split at hnode
  · cases hnode
    cases hkind
  · exact hnode

theorem Extends.appendChild {t' : Tree} {scope : Handle}
    (h : t.appendChild scope child = .ok t') : Extends t t' := by
  obtain ⟨name, children, hscope, -, hnodes⟩ := Tree.appendChild_eq_ok h
  intro g node hg
  rw [hnodes]
  split
  · rename_i heq
    subst heq
    rw [hscope] at hg
    cases hg
    exact ⟨_, rfl, .scope name children [child]⟩
  · exact ⟨node, hg, .same node⟩

theorem Tree.WellFormed.appendChild {t' : Tree} (ht : t.WellFormed)
    (hchild : t.kind? child = some .scope → ∃ j, i < j ∧ child = some j)
    (h : t.appendChild (some i) child = .ok t') : t'.WellFormed := by
  have he := Extends.appendChild h
  obtain ⟨name, children, hscope, hsome, hnodes⟩ := Tree.appendChild_eq_ok h
  refine ⟨he.kind? ht.root, ?_⟩
  intro j node hnode
  rw [hnodes] at hnode
  split at hnode
  · rename_i hj
    cases hj
    cases hnode
    refine Node.WellFormed.extend he ?_
    intro c hc
    rcases List.mem_append.mp hc with hc | hc
    · exact ht.node hscope c hc
    · rw [List.mem_singleton.mp hc]
      exact ⟨hsome, hchild⟩
  · exact (ht.node hnode).extend he

theorem Tree.WellFormed.empty : Tree.empty.WellFormed := by
  refine ⟨rfl, ?_⟩
  intro i node hnode
  have hlt : i < 1 := Tree.lt_size_of_node? hnode
  obtain rfl : i = 0 := by omega
  cases hnode
  intro c hc
  cases hc

/-! ## Acyclicity -/

def Node.references : Node → List Handle
  | .scope _ children => children
  | .struct decl => decl.template :: (decl.fields ++ decl.types)
  | .member decl => [decl.type]
  | .function decl => decl.params ++ decl.returns :: decl.statements
  | .parameter _ type => [type]
  | .binding decl => decl.members
  | .pushConstant members => members
  | .specialization _ type => [type]
  | .intrinsic decl => decl.params ++ decl.returns :: decl.body
  | .sequence elements => elements
  | .access left right => [left, right]
  | .ident _ source => [source]
  | .call _ target args => target :: args
  | .intrinsicCall callee elements => callee :: elements
  | .binary _ left right => [left, right]
  | .localVar _ type => [type]
  | .ret value => [value]
  | _ => []

theorem Node.WellFormed.references_below (hw : node.WellFormed t i) (hkind : node.kind ≠ .scope) :
    ∀ h ∈ node.references, h = none ∨ ∃ kind, kind ≠ .scope ∧ t.Below i kind h := by
  have hone {kind : Kind} {h : Handle} (hb : t.Below i kind h) (hk : kind ≠ .scope) :
      h = none ∨ ∃ kind, kind ≠ .scope ∧ t.Below i kind h := Or.inr ⟨kind, hk, hb⟩
  intro h hh
  cases node with
  | scope => exact absurd rfl hkind
  | struct decl =>
    obtain ⟨htemplate, hfields, htypes⟩ := hw
    rcases List.mem_cons.mp hh with rfl | hh
    · rcases htemplate with hnone | hb
      · exact Or.inl hnone
      · exact hone hb nofun
    · rcases List.mem_append.mp hh with hh | hh
      · exact hone (hfields h hh) nofun
      · exact hone (htypes h hh) nofun
  | member decl =>
    rw [List.mem_singleton.mp hh]
    exact hone hw nofun
  | function decl =>
    obtain ⟨hparams, hreturns, hstatements⟩ := hw
    rcases List.mem_append.mp hh with hh | hh
    · exact hone (hparams h hh) nofun
    · rcases List.mem_cons.mp hh with rfl | hh
      · exact hone hreturns nofun
      · exact hone (hstatements h hh) nofun
  | parameter name type =>
    rw [List.mem_singleton.mp hh]
    exact hone hw nofun
  | binding decl => exact hone (hw.1 h hh) nofun
  | pushConstant members => exact hone (hw h hh) nofun
  | specialization name type =>
    rw [List.mem_singleton.mp hh]
    exact hone hw nofun
  | intrinsic decl =>
    obtain ⟨hparams, hreturns, hbody⟩ := hw
    rcases List.mem_append.mp hh with hh | hh
    · exact hone (hparams h hh) nofun
    · rcases List.mem_cons.mp hh with rfl | hh
      · exact hone hreturns nofun
      · exact hone (hbody h hh) nofun
  | sequence elements => exact hone (hw h hh) nofun
  | access left right =>
    rcases List.mem_cons.mp hh with rfl | hh
    · exact hone hw.1 nofun
    · rw [List.mem_singleton.mp hh]
      exact hone hw.2 nofun
  | ident name source =>
    rw [List.mem_singleton.mp hh]
    exact hw
  | call callee target args =>
    obtain ⟨hargs, htarget, -⟩ := hw
    rcases List.mem_cons.mp hh with rfl | hh
    · rcases htarget with hnone | hf | hs
      · exact Or.inl hnone
      · exact hone hf nofun
      · exact hone hs nofun
    · exact hone (hargs h hh) nofun
  | intrinsicCall callee elements =>
    rcases List.mem_cons.mp hh with rfl | hh
    · exact hone hw.1 nofun
    · exact hone (hw.2 h hh) nofun
  | binary op left right =>
    rcases List.mem_cons.mp hh with rfl | hh
    · exact hone hw.1 nofun
    · rw [List.mem_singleton.mp hh]
      exact hone hw.2 nofun
  | localVar name type =>
    rw [List.mem_singleton.mp hh]
    exact hone hw nofun
  | ret value =>
    rw [List.mem_singleton.mp hh]
    rcases hw with hnone | hb
    · exact Or.inl hnone
    · exact hone hb nofun
  | fragment | literal | placeholder | constant | marker => cases hh

/-- The node at index `i` refers to the node at index `j`. -/
def Tree.Contains (t : Tree) (i j : Nat) : Prop :=
  ∃ node, t.node? (some i) = some node ∧ some j ∈ node.references ∧ (t.node? (some j)).isSome

/-- Scopes rank above all other nodes and the later below the earlier, other nodes by their
index. -/
def Tree.rank (t : Tree) (i : Nat) : Nat :=
  if t.kind? (some i) = some .scope then 2 * t.size - i else i

theorem Tree.WellFormed.rank_lt (ht : t.WellFormed) (h : t.Contains i j) : t.rank j < t.rank i := by
  obtain ⟨node, hnode, hmem, hsome⟩ := h
  have hi := Tree.lt_size_of_node? hnode
  obtain ⟨j', hj, hj'⟩ := Tree.lt_size_of_isSome hsome
  cases hj'
  have hkindi := Tree.kind?_of_node? hnode
  by_cases hkind : node.kind = .scope
  · have hranki : t.rank i = 2 * t.size - i := if_pos (by rw [hkindi, hkind])
    cases node with
    | scope name children =>
      obtain ⟨-, hscope⟩ := ht.node hnode _ hmem
      by_cases hchild : t.kind? (some j) = some .scope
      · have hrankj : t.rank j = 2 * t.size - j := if_pos hchild
        obtain ⟨k, hk, heq⟩ := hscope hchild
        cases heq
        omega
      · have hrankj : t.rank j = j := if_neg hchild
        omega
    | _ => cases hkind
  · have hranki : t.rank i = i := if_neg (by rw [hkindi]; simpa using hkind)
    rcases (ht.node hnode).references_below hkind _ hmem with hnone | ⟨kind, hk, hb, k, hlt, heq⟩
    · cases hnone
    · cases heq
      have hrankj : t.rank j = j := if_neg (by rw [hb]; simpa using hk)
      omega

theorem Tree.WellFormed.acyclic (ht : t.WellFormed) (i : Nat) :
    ¬ Relation.TransGen t.Contains i i := by
  have hrank : ∀ {i j}, Relation.TransGen t.Contains i j → t.rank j < t.rank i := by
    intro i j h
    induction h with
    | single hedge => exact ht.rank_lt hedge
    | tail _ hedge ih => exact Nat.lt_trans (ht.rank_lt hedge) ih
  intro h
  exact Nat.lt_irrefl _ (hrank h)

end Shader.Arena
