import Shader.Proofs.Arena.History
import Shader.Proofs.Resolution.Scopes

/-!
# Where nodes come from

The literals of a resolved tree are those of the program. A call refers to a function of the name
that is called or to a struct that answers to it, and every function is a declaration of the tree.
Only the declarations of functions and scopes add nodes that a scope has to adopt, and each of these
is adopted at once.
-/

namespace Shader.Resolution

open Arena Program.TypeName
open Program (TypeTable)

variable {known : List (String × String)} {t t' : Tree} {s s' : State} {name : String}
  {h scope : Handle} {node : Node} {table : TypeTable}

theorem Starred.eq_of_plain {base : String} (h : Starred base name)
    (hplain : isPointer name = false) : base = name := by
  cases h with
  | plain => rfl
  | star => simp [isPointer] at hplain

/-! ## Places -/

/-- Whether a scope adopts the node: it is a function or a scope. -/
def IsPlace : Node → Prop
  | .function _ => True
  | .scope .. => True
  | _ => False

/-- The node is no place, and a literal only if it is known. -/
def IsOrdinary (known : List (String × String)) : Node → Prop
  | .function _ => False
  | .scope .. => False
  | .literal name body => (name, body) ∈ known
  | _ => True

theorem isOrdinary_of_isCommon (known : List (String × String)) ⦃node : Node⦄
    (hnode : IsCommon node) : IsOrdinary known node := by
  cases node with
  | scope | function | literal => exact hnode.elim
  | _ => trivial

/-- The node is a function or a scope, and no scope has adopted it. -/
def Loose (t : Tree) (h : Handle) : Prop :=
  (∃ node, t.node? h = some node ∧ IsPlace node) ∧ h ≠ Tree.root ∧ ∀ scope, ¬ ChildOf t scope h

theorem Loose.of_brings (hb : Brings (IsOrdinary known) t t') (hl : Loose t' h) : Loose t h := by
  obtain ⟨⟨node, hnode, hplace⟩, hroot, hfree⟩ := hl
  refine ⟨⟨node, (hb.new hnode).resolve_right fun hordinary => ?_, hplace⟩, hroot, ?_⟩
  · cases node with
    | scope | function => exact hordinary
    | _ => exact hplace
  · rintro scope ⟨name, children, hscope, hmem⟩
    exact hfree scope ⟨name, children, hb.nodes hscope, hmem⟩

theorem Loose.of_add (hl : Loose (t.add node).2 h) : Loose t h ∨ h = some t.size := by
  obtain ⟨⟨found, hfound, hplace⟩, hroot, hfree⟩ := hl
  rw [Tree.node?_add] at hfound
  split at hfound
  · rename_i hnew
    exact Or.inr hnew
  · exact Or.inl ⟨⟨found, hfound, hplace⟩, hroot,
      fun scope hchild => hfree scope (hchild.extend (.add t node))⟩

/-- All literals of the tree are known. -/
def AllKnown (known : List (String × String)) (t : Tree) : Prop :=
  ∀ ⦃h name body⦄, t.node? h = some (.literal name body) → (name, body) ∈ known

theorem AllKnown.of_brings (hk : AllKnown known t) (hb : Brings (IsOrdinary known) t t') :
    AllKnown known t' :=
  fun _ _ _ hnode => (hb.new hnode).elim (fun hold => hk hold) id

theorem AllKnown.add (hk : AllKnown known t) (hnode : IsPlace node) :
    AllKnown known (t.add node).2 := by
  intro g name body hg
  rw [Tree.node?_add] at hg
  split at hg
  · cases hg
    exact hnode.elim
  · exact hk hg

/-! ## Declarations -/

/-- The run adds only known literals, and leaves nothing loose but what was so before and its
result. -/
structure Gathers (known : List (String × String)) (s : State) (h : Handle) (s' : State) :
    Prop where
  literals : AllKnown known s.tree → AllKnown known s'.tree
  loose : ∀ g, Loose s'.tree g → Loose s.tree g ∨ g = h

theorem resolveFunction_gathers {params : List Program.Parameter} {returns : String}
    {statements : List Program.Node} {annotations : List String}
    (hknown : HasLiterals (IsOrdinary known) (Program.literalsOfAll statements))
    (hrun : resolveFunction table name params returns statements annotations s = .ok (h, s')) :
    Gathers known s h s' := by
  have hR := brings_isRunRelation table (isOrdinary_of_isCommon known)
  obtain ⟨h₁, s₁, hfunction, hrun⟩ := run_bind_eq_ok hrun
  obtain ⟨_, s₂, hdeclare, hrun⟩ := run_bind_eq_ok hrun
  cases hrun
  obtain ⟨returns', s₃, hreturns, hfunction⟩ := run_bind_eq_ok (run_of_within hfunction)
  obtain ⟨_, s₄, hopen, hfunction⟩ := run_bind_eq_ok hfunction
  obtain ⟨params', s₅, hparams, hfunction⟩ := run_bind_eq_ok hfunction
  obtain ⟨statements', s₆, hstatements, hfunction⟩ := run_bind_eq_ok hfunction
  obtain ⟨_, s₇, hclose, hadd⟩ := run_bind_eq_ok hfunction
  have hbody : Brings (IsOrdinary known) s.tree s₇.tree :=
    hR.trans (hR.type _ hreturns) (hR.trans (hR.openBlock hopen)
      (hR.trans (hR.mapM hR.parameter hparams)
        (hR.trans (hR.exprs statements hknown hstatements) (hR.closeBlock hclose))))
  have hlast : Brings (IsOrdinary known) s₁.tree s'.tree := hR.declare _ _ hdeclare
  cases hadd
  refine ⟨fun hs => ((hs.of_brings hbody).add (by trivial)).of_brings hlast, fun g hg => ?_⟩
  exact (hg.of_brings hlast).of_add.imp_left (·.of_brings hbody)

theorem AllKnown.of_adopt {child : Handle} {a : Unit} (hk : AllKnown known s.tree)
    (hrun : adopt scope child s = .ok (a, s')) : AllKnown known s'.tree := by
  obtain ⟨tree, htree, rfl⟩ := exists_of_adopt hrun
  exact fun _ _ _ hnode => hk (Tree.node?_of_appendChild htree hnode rfl)

theorem Loose.of_adopt {child : Handle} {a : Unit}
    (hrun : adopt scope child s = .ok (a, s')) {g : Handle} (hl : Loose s'.tree g) :
    Loose s.tree g ∧ g ≠ child := by
  obtain ⟨tree, htree, rfl⟩ := exists_of_adopt hrun
  have he := Extends.appendChild htree
  obtain ⟨name, children, hscope, -, hnodes⟩ := Tree.appendChild_eq_ok htree
  obtain ⟨⟨node, hnode, hplace⟩, hroot, hfree⟩ := hl
  refine ⟨⟨?_, hroot, fun outer hchild => hfree outer (hchild.extend he)⟩, ?_⟩
  · rw [hnodes] at hnode
    split at hnode
    · rename_i heq
      exact ⟨.scope name children, heq ▸ hscope, trivial⟩
    · exact ⟨node, hnode, hplace⟩
  · rintro rfl
    exact hfree scope ⟨name, children ++ [g], by rw [hnodes]; exact if_pos rfl, by simp⟩

mutual

theorem resolveDeclaration_gathers {s s' : State} {h : Handle} (node : Program.Node)
    (hknown : HasLiterals (IsOrdinary known) node.literals)
    (hrun : resolveDeclaration table node s = .ok (h, s')) : Gathers known s h s' := by
  cases node with
  | scope name children =>
    rw [resolveDeclaration] at hrun
    obtain ⟨h₁, s₁, hadd, hrun⟩ := run_bind_eq_ok hrun
    obtain ⟨_, s₂, hopen, hrun⟩ := run_bind_eq_ok hrun
    obtain ⟨_, s₃, hchildren, hrun⟩ := run_bind_eq_ok hrun
    obtain ⟨_, s₄, hclose, hrun⟩ := run_bind_eq_ok hrun
    cases hrun
    cases hadd
    have hR := brings_isRunRelation table (isOrdinary_of_isCommon known)
    have hfirst := hR.openBlock hopen
    have hlast := hR.closeBlock hclose
    obtain ⟨hliterals, hloose⟩ :=
      resolveChildren_gathers children (fun _ _ _ => run_of_within) hknown hchildren
    refine ⟨fun hs => (hliterals ((hs.add (by trivial)).of_brings hfirst)).of_brings hlast,
      fun g hg => ?_⟩
    exact ((hloose g (hg.of_brings hlast)).of_brings hfirst).of_add
  | function name params returns statements annotations =>
    rw [resolveDeclaration] at hrun
    exact resolveFunction_gathers hknown hrun
  | _ =>
    have hbrings := resolvePlain_brings table (isOrdinary_of_isCommon known) _ (by trivial) hknown
      hrun
    exact ⟨(·.of_brings hbrings), fun g hg => Or.inl (hg.of_brings hbrings)⟩
termination_by structural node

theorem resolveChildren_gathers {s s' : State} {scope : Handle} {a : Unit}
    (nodes : List Program.Node) {place : ResolveM Handle → ResolveM Handle}
    (hplace : ∀ ⦃act : ResolveM Handle⦄ ⦃s : State⦄ ⦃r : Handle × State⦄,
      place act s = .ok r → act s = .ok r)
    (hknown : HasLiterals (IsOrdinary known) (Program.literalsOfAll nodes))
    (hrun : resolveChildren table place scope nodes s = .ok (a, s')) :
    (AllKnown known s.tree → AllKnown known s'.tree) ∧
      ∀ g, Loose s'.tree g → Loose s.tree g := by
  match nodes with
  | [] =>
    rw [resolveChildren] at hrun
    cases hrun
    exact ⟨id, fun _ hg => hg⟩
  | node :: rest =>
    rw [resolveChildren] at hrun
    obtain ⟨child, s₁, hchild, hrun⟩ := run_bind_eq_ok hrun
    obtain ⟨_, s₂, hadopt, hrest⟩ := run_bind_eq_ok hrun
    obtain ⟨hnode, hmore⟩ := List.forall_mem_append.mp hknown
    obtain ⟨hfirst, hchildLoose⟩ := resolveDeclaration_gathers node hnode (hplace hchild)
    obtain ⟨hliterals, hloose⟩ := resolveChildren_gathers rest hplace hmore hrest
    refine ⟨fun hs => hliterals ((hfirst hs).of_adopt hadopt), fun g hg => ?_⟩
    obtain ⟨hg, hne⟩ := (hloose g hg).of_adopt hadopt
    exact (hchildLoose g hg).resolve_right hne
termination_by structural nodes

end

/-! ## Trees of programs -/

/-- The tree from which resolution starts has the root only. -/
theorem eq_root_of_empty (hnode : Tree.empty.node? h = some node) :
    h = Tree.root ∧ node = .scope Program.rootName [] := by
  obtain ⟨j, hj, rfl⟩ := Tree.index_of_node? hnode
  obtain rfl : j = 0 := Nat.lt_one_iff.mp hj
  exact ⟨rfl, (Option.some.inj hnode).symm⟩

theorem ChildOf.index_lt {j : Nat} (ht : t.WellFormed)
    (hc : ChildOf t scope (some j)) (hj : t.kind? (some j) = some .scope) :
    ∃ i < j, scope = some i := by
  obtain ⟨name, children, hscope, hmem⟩ := hc
  obtain ⟨i, -, rfl⟩ := Tree.index_of_node? hscope
  obtain ⟨k, hk, heq⟩ := (ht.node hscope (some j) hmem).2 hj
  cases heq
  exact ⟨i, hk, rfl⟩

theorem ChildOf.kind? (hc : ChildOf t scope h) :
    t.kind? scope = some .scope := by
  obtain ⟨name, children, hscope, -⟩ := hc
  exact Tree.kind?_of_node? hscope

/-- In a tree in which nothing is loose, every scope is inside the root. -/
theorem reaches_scope (ht : t.WellFormed) (htight : ∀ h, ¬ Loose t h) {j : Nat}
    (hj : t.kind? (some j) = some .scope) :
    Relation.ReflTransGen (ChildOf t) Tree.root (some j) := by
  induction j using Nat.strongRecOn with
  | ind j ih =>
    by_cases hroot : (some j : Handle) = Tree.root
    · rw [hroot]
    · obtain ⟨node, hnode, hkind⟩ := Option.map_eq_some_iff.mp hj
      have hplace : IsPlace node := by
        cases node with
        | scope => trivial
        | _ => cases hkind
      obtain ⟨scope, hchild⟩ : ∃ scope, ChildOf t scope (some j) := by
        by_contra hnone
        exact htight _ ⟨⟨node, hnode, hplace⟩, hroot, fun scope hc => hnone ⟨scope, hc⟩⟩
      obtain ⟨i, hi, rfl⟩ := hchild.index_lt ht hj
      exact (ih i hi hchild.kind?).tail hchild

theorem mem_declarationsIn (ht : t.WellFormed) {i depth : Nat}
    (hpath : Relation.ReflTransGen (ChildOf t) (some i) scope) (hchild : ChildOf t scope h)
    (hleaf : t.kind? h ≠ some .scope) (hdepth : t.size ≤ depth + i) :
    h ∈ t.declarationsIn depth (some i) := by
  induction depth generalizing i with
  | zero =>
    -- there is no scope at so high an index
    have hscope : t.kind? (some i) = some .scope := by
      rcases Relation.ReflTransGen.cases_head hpath with rfl | ⟨_, hc, -⟩
      · exact hchild.kind?
      · exact hc.kind?
    obtain ⟨j, hj, heq⟩ := (Tree.below_size hscope).2
    cases heq
    omega
  | succ depth ih =>
    rcases Relation.ReflTransGen.cases_head hpath with rfl | ⟨next, hc, hrest⟩
    · obtain ⟨name, children, hscope, hmem⟩ := hchild
      rw [declarationsIn_scope hscope]
      refine List.mem_flatMap.mpr ⟨h, hmem, ?_⟩
      have hnot : ¬ (t.scope? h).isSome := by
        intro hsome
        obtain ⟨found, hfound⟩ := Option.isSome_iff_exists.mp hsome
        exact hleaf (Tree.kind?_of_node? (Tree.scope?_eq_some_iff.mp hfound))
      rw [declarationsAt, if_neg hnot]
      exact .head _
    · have hkind : t.kind? next = some .scope := by
        rcases Relation.ReflTransGen.cases_head hrest with rfl | ⟨_, hc', -⟩
        · exact hchild.kind?
        · exact hc'.kind?
      obtain ⟨j, -, rfl⟩ := Tree.lt_size_of_isSome (Tree.isSome_of_kind? hkind)
      obtain ⟨i', hlt, heq⟩ := hc.index_lt ht hkind
      cases heq
      obtain ⟨name, children, hscope, hmem⟩ := hc
      rw [declarationsIn_scope hscope]
      refine List.mem_flatMap.mpr ⟨some j, hmem, ?_⟩
      obtain ⟨node, hnode, hnodekind⟩ := Option.map_eq_some_iff.mp hkind
      have hsome : (t.scope? (some j)).isSome := by
        cases node with
        | scope =>
          rw [Tree.scope?_eq_some_iff.mpr hnode]
          rfl
        | _ => cases hnodekind
      rw [declarationsAt, if_pos hsome]
      exact ih hrest (by omega)

/-- What is known about the nodes of a resolved program. -/
structure Originates (scope : Program.Scope) (t : Tree) : Prop where
  wellFormed : t.WellFormed
  literals : ∀ ⦃h name body⦄, t.node? h = some (.literal name body) →
    (name, body) ∈ Program.literalsOfAll scope.children
  names : ∀ ⦃h name source⦄, t.node? h = some (.ident name source) →
    source = none ∨ Bears t name source
  calls : ∀ ⦃h callee target args⦄, t.node? h = some (.call callee target args) →
    target = none ∨ Bears t callee target
  functions : ∀ ⦃h decl⦄, t.node? h = some (.function decl) → h ∈ t.declarations

theorem resolve_originates {scope : Program.Scope} {table : TypeTable}
    (hresolve : resolve (some scope) table = .ok t) : Originates scope t := by
  obtain ⟨sound, rfl, hsound, -⟩ := exists_sound_of_resolve hresolve (Or.inl trivial)
  have ht := hsound.tree
  obtain ⟨s, hrun, htree⟩ := resolve_eq_ok_iff.mp hresolve
  obtain ⟨hliterals, hloose⟩ := resolveChildren_gathers scope.children (fun _ _ _ hact => hact)
    (fun _ hp => hp) hrun
  rw [htree] at hliterals hloose
  have htight (h : Handle) : ¬ Loose sound.tree h := fun hl => by
    obtain ⟨⟨node, hnode, -⟩, hroot, -⟩ := hloose h hl
    exact hroot (eq_root_of_empty hnode).1
  refine ⟨ht, hliterals fun g name body hg => ?_, fun _ _ _ hnode => hsound.nodes hnode,
    fun _ _ _ _ hnode => hsound.nodes hnode, fun h decl hnode => ?_⟩
  · cases (eq_root_of_empty hg).2
  · have hroot : h ≠ Tree.root := by
      rintro rfl
      have hkind := ht.root
      rw [Tree.kind?_of_node? hnode] at hkind
      cases hkind
    obtain ⟨outer, hchild⟩ : ∃ outer, ChildOf sound.tree outer h := by
      by_contra hnone
      exact htight h ⟨⟨_, hnode, trivial⟩, hroot, fun outer hc => hnone ⟨outer, hc⟩⟩
    obtain ⟨j, -, rfl⟩ := Tree.lt_size_of_isSome (Tree.isSome_of_kind? hchild.kind?)
    refine mem_declarationsIn ht (reaches_scope ht htight hchild.kind?) hchild ?_ (Nat.le_refl _)
    rw [Tree.kind?_of_node? hnode]
    intro hkind
    cases hkind

end Shader.Resolution
