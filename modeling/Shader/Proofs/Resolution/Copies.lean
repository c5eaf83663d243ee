import Shader.Proofs.Resolution.Scopes

/-!
# Copies of expressions

A call of an intrinsic gets copies of the expressions of its body, with arguments in the place of
parameters. A copy descends into the parts of a node, but for two: the right side of an access and
the expressions of another inlined call are kept as they are. A parameter that occurs there
survives.
-/

namespace Shader.Resolution

open Arena

variable {t t' : Tree} {copies ps : List Handle} {h h' : Handle} {node : Node}

/-! ## Occurrences -/

/-- A name whose source is one of the given nodes occurs in the expression. -/
inductive Occurs (t : Tree) (ps : List Handle) : Handle → Prop
  | here {name : String} {source h : Handle} (hnode : t.node? h = some (.ident name source))
      (hsource : source ∈ ps) : Occurs t ps h
  | part {node : Node} {part h : Handle} (hnode : t.node? h = some node)
      (hpart : part ∈ node.parts) (hoccurs : Occurs t ps part) : Occurs t ps h

/-- A name whose source is one of the given nodes occurs in the expression where a copy shares a
part with it. -/
inductive Survives (t : Tree) (ps : List Handle) : Handle → Prop
  | kept {node : Node} {part h : Handle} (hnode : t.node? h = some node)
      (hpart : part ∈ node.keptParts) (hoccurs : Occurs t ps part) : Survives t ps h
  | copied {node : Node} {part h : Handle} (hnode : t.node? h = some node)
      (hpart : part ∈ node.copiedParts) (hsurvives : Survives t ps part) : Survives t ps h

theorem Survives.occurs (hs : Survives t ps h) : Occurs t ps h := by
  induction hs with
  | kept hnode hpart hoccurs => exact .part hnode (Node.mem_parts.mpr (Or.inr hpart)) hoccurs
  | copied hnode hpart _ ih => exact .part hnode (Node.mem_parts.mpr (Or.inl hpart)) ih

theorem Occurs.exists_index (ho : Occurs t ps h) : ∃ i, h = some i := by
  cases h with
  | some i => exact ⟨i, rfl⟩
  | none =>
    cases ho with
    | here hnode | part hnode => cases hnode

theorem Extends.node?_of_part {part : Handle} (he : Extends t t') (hnode : t.node? h = some node)
    (hpart : part ∈ node.parts) : t'.node? h = some node := by
  refine he.node? hnode ?_
  rw [Node.parts_of_kind hpart]
  decide

theorem Occurs.extend (he : Extends t t') (ho : Occurs t ps h) : Occurs t' ps h := by
  induction ho with
  | here hnode hsource => exact .here (he.keeps hnode rfl) hsource
  | part hnode hpart _ ih => exact .part (Extends.node?_of_part he hnode hpart) hpart ih

theorem Survives.extend (he : Extends t t') (hs : Survives t ps h) : Survives t' ps h := by
  induction hs with
  | kept hnode hpart hoccurs =>
    have hmem := Node.mem_parts.mpr (Or.inr hpart)
    exact .kept (Extends.node?_of_part he hnode hmem) hpart (hoccurs.extend he)
  | copied hnode hpart _ ih =>
    have hmem := Node.mem_parts.mpr (Or.inl hpart)
    exact .copied (Extends.node?_of_part he hnode hmem) hpart ih

theorem Occurs.of_extends (ht : t.WellFormed) (he : Extends t t') (hsome : (t.node? h).isSome)
    (ho : Occurs t' ps h) : Occurs t ps h := by
  induction ho with
  | here hnode hsource => exact .here (he.node?_of_isSome hsome hnode (by simp [Node.kind])) hsource
  | @part node part h hnode hpart _ ih =>
    have hold : t.node? h = some node := by
      refine he.node?_of_isSome hsome hnode ?_
      rw [Node.parts_of_kind hpart]
      decide
    cases h with
    | none => cases hold
    | some i => exact .part hold hpart (ih ((ht.node hold).part hpart).isSome)

theorem Occurs.exists_source (ht : t.WellFormed) (ho : Occurs t ps h) :
    ∃ source ∈ ps, source = none ∨ (t.node? source).isSome := by
  induction ho with
  | @here name source h hnode hsource =>
    cases h with
    | none => cases hnode
    | some i =>
      refine ⟨source, hsource, (ht.node hnode).imp_right ?_⟩
      rintro ⟨kind, -, hbelow⟩
      exact hbelow.isSome
  | part _ _ _ ih => exact ih

/-! ## Copies -/

/-- The second expression is the first one with arguments in the place of names. -/
inductive IsCopy (t : Tree) (args : List (Handle × Handle)) : Handle → Handle → Prop
  | argument {name : String} {source h arg : Handle}
      (hnode : t.node? h = some (.ident name source)) (harg : argumentFor args source = some arg) :
      IsCopy t args h arg
  | node {node : Node} {h h' : Handle} {copies : List Handle} (hnode : t.node? h = some node)
      (hkind : node.kind = .expression)
      (hname : ∀ name source, node = .ident name source → argumentFor args source = none)
      (hlength : copies.length = node.copiedParts.length)
      (hcopies : ∀ p ∈ node.copiedParts.zip copies, IsCopy t args p.1 p.2)
      (hcopy : t.node? h' = some (node.withCopied copies)) : IsCopy t args h h'

section Copies

variable {args : List (Handle × Handle)} {hs hs' : List Handle}

theorem IsCopy.extend (he : Extends t t') (hc : IsCopy t args h h') : IsCopy t' args h h' := by
  induction hc with
  | argument hnode harg => exact .argument (he.keeps hnode rfl) harg
  | node hnode hkind hname hlength _ hcopy ih =>
    refine .node (he.node? hnode ?_) hkind hname hlength ih (he.node? hcopy ?_)
    · rw [hkind]
      decide
    · rw [Node.kind_withCopied, hkind]
      decide

theorem exists_mem_zip_left {x : Handle} (hlength : hs'.length = hs.length) (hmem : x ∈ hs) :
    ∃ y ∈ hs', (x, y) ∈ hs.zip hs' := by
  rw [← List.map_fst_zip (Nat.le_of_eq hlength.symm), List.mem_map] at hmem
  obtain ⟨p, hp, rfl⟩ := hmem
  exact ⟨p.2, (List.of_mem_zip hp).2, hp⟩

theorem exists_mem_zip_right {y : Handle} (hlength : hs'.length = hs.length) (hmem : y ∈ hs') :
    ∃ x ∈ hs, (x, y) ∈ hs.zip hs' := by
  rw [← List.map_snd_zip (Nat.le_of_eq hlength), List.mem_map] at hmem
  obtain ⟨p, hp, rfl⟩ := hmem
  exact ⟨p.1, (List.of_mem_zip hp).1, hp⟩

theorem Occurs.of_copy {part : Handle} (hcopy : t.node? h' = some (node.withCopied copies))
    (hlength : copies.length = node.copiedParts.length)
    (hpart : part ∈ copies ∨ part ∈ node.keptParts) (ho : Occurs t ps part) : Occurs t ps h' := by
  obtain ⟨i, rfl⟩ := ho.exists_index
  exact .part hcopy ((Node.mem_parts_withCopied hlength).mpr hpart) ho

/-- What survives in an expression occurs in its copies. -/
theorem IsCopy.occurs_of_survives (hc : IsCopy t args h h') (hs : Survives t ps h) :
    Occurs t ps h' := by
  induction hs generalizing h' with
  | kept hnode hpart hoccurs =>
    cases hc with
    | argument hname =>
      cases hnode.symm.trans hname
      cases hpart
    | node hnode' _ _ hlength _ hcopy =>
      cases hnode.symm.trans hnode'
      exact .of_copy hcopy hlength (Or.inr hpart) hoccurs
  | copied hnode hpart _ ih =>
    cases hc with
    | argument hname =>
      cases hnode.symm.trans hname
      cases hpart
    | node hnode' _ _ hlength hcopies hcopy =>
      cases hnode.symm.trans hnode'
      obtain ⟨part', hpart', hpair⟩ := exists_mem_zip_left hlength hpart
      exact .of_copy hcopy hlength (Or.inl hpart') (ih (hcopies _ hpair))

theorem mem_of_argumentFor {source arg : Handle} (h : argumentFor args source = some arg) :
    (source, arg) ∈ args := by
  obtain ⟨p, hp, rfl⟩ := Option.map_eq_some_iff.mp h
  have hfirst := List.find?_some hp
  rw [decide_eq_true_eq] at hfirst
  rw [← hfirst]
  exact List.mem_of_find?_eq_some hp

/-- How something can occur in a copy of the expression: in an argument, because it survives, or as
a name for which there is no argument. -/
def Remains (t : Tree) (args : List (Handle × Handle)) (ps : List Handle) (h : Handle) : Prop :=
  (∃ p ∈ args, Occurs t ps p.2) ∨ Survives t ps h ∨
    Occurs t ps h ∧ ∃ source ∈ ps, argumentFor args source = none

theorem Remains.of_part {part : Handle} (hnode : t.node? h = some node)
    (hpart : part ∈ node.copiedParts) (hr : Remains t args ps part) : Remains t args ps h := by
  rcases hr with harg | hsurvives | ⟨hoccurs, hsource⟩
  · exact Or.inl harg
  · exact Or.inr (Or.inl (.copied hnode hpart hsurvives))
  · exact Or.inr (Or.inr ⟨.part hnode (Node.mem_parts.mpr (Or.inl hpart)) hoccurs, hsource⟩)

/-- What occurs in a copy remains from the expression or its arguments. -/
theorem IsCopy.remains (hc : IsCopy t args h h') (ho : Occurs t ps h') : Remains t args ps h := by
  induction ho generalizing h with
  | here hident hsource =>
    cases hc with
    | argument _ harg => exact Or.inl ⟨_, mem_of_argumentFor harg, .here hident hsource⟩
    | node hnode _ hname _ _ hcopy =>
      cases Node.withCopied_eq_ident (Option.some.inj (hcopy.symm.trans hident))
      exact Or.inr (Or.inr ⟨.here hnode hsource, _, hsource, hname _ _ rfl⟩)
  | @part node part h' hparent hpart hoccurs ih =>
    cases hc with
    | argument _ harg => exact Or.inl ⟨_, mem_of_argumentFor harg, .part hparent hpart hoccurs⟩
    | node hnode _ _ hlength hcopies hcopy =>
      cases hcopy.symm.trans hparent
      obtain ⟨i, rfl⟩ := hoccurs.exists_index
      rcases (Node.mem_parts_withCopied hlength).mp hpart with hcopied | hkept
      · obtain ⟨original, hmem, hpair⟩ := exists_mem_zip_right hlength hcopied
        exact (ih (hcopies _ hpair)).of_part hnode hmem
      · exact Or.inr (Or.inl (.kept hnode hkept hoccurs))

end Copies

/-! ## Runs -/

theorem Ends.sound {α : Type} {code : Prop} {s : State} {act : ResolveM α}
    {mid : Tree → α → Prop} {post : State → α → Prop} (hact : Ends s act post)
    (hyields : Yields code s act mid) : Ends s act fun s' a =>
      s'.Sound code ∧ Extends s.tree s'.tree ∧ mid s'.tree a ∧ post s' a := by
  intro a s' hrun
  obtain ⟨hs', he, hmid⟩ := hyields a s' hrun
  exact ⟨hs', he, hmid, hact a s' hrun⟩

/-! ## Substitution -/

section Substitution

variable {code : Prop} {s : State} {args : List (Handle × Handle)}

theorem copy_ends (hnode : s.tree.node? h = some node) (hkind : node.kind = .expression)
    (hname : ∀ name source, node ≠ .ident name source)
    (hcopies : List.Forall₂ (IsCopy s.tree args) node.copiedParts copies) :
    Ends s (if copies = node.copiedParts then pure h else addNode (node.withCopied copies))
      fun s' h' => IsCopy s'.tree args h h' := by
  obtain ⟨hlength, hzip⟩ := List.forall₂_iff_zip.mp hcopies
  have hnames : ∀ name source, node = .ident name source → argumentFor args source = none :=
    fun name source heq => absurd heq (hname name source)
  split
  · rename_i hsame
    refine ends_pure (.node hnode hkind hnames hlength.symm (fun p hp => hzip hp) ?_)
    rw [hnode, hsame, Node.withCopied_copiedParts]
  · intro h' s' hrun
    cases hrun
    have he := Extends.add s.tree (node.withCopied copies)
    refine .node (he.node? hnode ?_) hkind hnames hlength.symm (fun p hp => (hzip hp).extend he) ?_
    · rw [hkind]
      decide
    · exact (Tree.node?_add s.tree _ _).trans (if_pos rfl)

theorem substituteAll_isCopy {depth : Nat} {hs : List Handle}
    (hone : ∀ s h, State.Sound code s → ArgumentsOk s.tree args →
      s.tree.Below depth .expression h →
      Ends s (substitute args depth h) fun s' h' => IsCopy s'.tree args h h')
    (hsound : s.Sound code) (ha : ArgumentsOk s.tree args)
    (hbelow : ∀ h ∈ hs, s.tree.Below depth .expression h) :
    Ends s (substituteAll args depth hs) fun s' hs' =>
      List.Forall₂ (IsCopy s'.tree args) hs hs' := by
  induction hs generalizing s with
  | nil =>
    rw [substituteAll]
    exact ends_pure .nil
  | cons h rest ih =>
    rw [substituteAll]
    have hh := hbelow h (.head _)
    refine ((hone s h hsound ha hh).sound (substitute_yields depth hsound ha hh.1)).bind ?_
    rintro h' s₁ ⟨hs₁, he₁, -, hcopy⟩
    have hrest : ∀ g ∈ rest, s₁.tree.Below depth .expression g :=
      fun g hg => (hbelow g (.tail _ hg)).extend he₁
    have hyields := substituteAll_yields (fun _ _ hs ha hh => substitute_yields depth hs ha hh) hs₁
      (ha.extend he₁) fun g hg => (hrest g hg).1
    refine ((ih hs₁ (ha.extend he₁) hrest).sound hyields).bind ?_
    rintro rest' s₂ ⟨-, he₂, -, hcopies⟩
    exact ends_pure (.cons (hcopy.extend he₂) hcopies)

/-- The result of a substitution is a copy, if the substitution may go deep enough. -/
theorem substitute_isCopy (depth : Nat) (hs : s.Sound code) (ha : ArgumentsOk s.tree args)
    (hbelow : s.tree.Below depth .expression h) :
    Ends s (substitute args depth h) fun s' h' => IsCopy s'.tree args h h' := by
  induction depth generalizing s h with
  | zero =>
    obtain ⟨-, j, hj, -⟩ := hbelow
    omega
  | succ depth ih =>
    obtain ⟨hkind, i, hi, rfl⟩ := hbelow
    obtain ⟨node, hnode, hexpression⟩ := Option.map_eq_some_iff.mp hkind
    by_cases hident : ∃ name source, node = .ident name source
    · obtain ⟨name, source, rfl⟩ := hident
      rw [substitute]
      refine ends_get ?_
      rw [hnode]
      refine ends_pure ?_
      cases harg : argumentFor args source with
      | some arg => exact .argument hnode harg
      | none =>
        refine .node hnode rfl ?_ rfl (by simp [Node.copiedParts]) hnode
        intro name' source' heq
        cases heq
        exact harg
    · have hname : ∀ name source, node ≠ .ident name source :=
        fun name source heq => hident ⟨name, source, heq⟩
      have hparts : ∀ p ∈ node.copiedParts, s.tree.Below depth .expression p := by
        intro p hp
        obtain ⟨hk, j, hj, rfl⟩ := (hs.tree.node hnode).part (Node.mem_parts.mpr (Or.inl hp))
        exact ⟨hk, j, by omega, rfl⟩
      have hcopies := substituteAll_isCopy (fun _ _ hs ha hh => ih hs ha hh) hs ha hparts
      have hyields := substituteAll_yields (fun _ _ hs ha hh => substitute_yields depth hs ha hh) hs
        ha fun p hp => (hparts p hp).1
      refine Ends.of_eq (substitute_of_node depth hnode hname) ((hcopies.sound hyields).bind ?_)
      rintro copies s₁ ⟨-, he₁, -, hcopies₁⟩
      refine copy_ends (he₁.node? hnode ?_) hexpression hname hcopies₁
      rw [hexpression]
      decide

end Substitution

end Shader.Resolution
