import Shader.Proofs.Resolution.Copies

/-!
# Inlined calls

The parameters of an intrinsic are out of sight once it has been resolved, and so are all names that
refer to them, but for the body of the intrinsic itself. So what takes the place of a call has a
parameter of the intrinsic left in it only if the body has one where copies do not reach.
-/

namespace Shader.Resolution

open Arena
open Program (TypeTable)

variable {decl : Intrinsic} {node : Node} {t : Tree} {h target : Handle} {name : String}
  {args : List Handle}

/-! ## Parameters of intrinsics -/

/-- Every parameter in the body of the intrinsic is replaced in a copy of it. -/
def IsReplaced (t : Tree) (decl : Intrinsic) : Prop := ∀ b ∈ decl.body, ¬ Survives t decl.params b

/-- The handle is not of a parameter of an intrinsic. -/
def Unclaimed (t : Tree) (h : Handle) : Prop :=
  ∀ ⦃i decl⦄, t.node? i = some (.intrinsic decl) → h ∉ decl.params

/-- The expression has no parameter of an intrinsic in whose copies all parameters are replaced. -/
structure Fair (t : Tree) (h : Handle) : Prop where
  isSome : (t.node? h).isSome
  apart : ∀ ⦃i decl⦄, t.node? i = some (.intrinsic decl) → IsReplaced t decl →
    ¬ Occurs t decl.params h

/-- The expressions are the body of the intrinsic with arguments in the place of its parameters. -/
def IsInlined (t : Tree) (target : Handle) (elements : List Handle) : Prop :=
  ∃ decl args, t.node? target = some (.intrinsic decl) ∧ args.length = decl.params.length ∧
    (∀ a ∈ args, OfKind .expression t a ∧ (IsReplaced t decl → ¬ Occurs t decl.params a)) ∧
    List.Forall₂ (IsCopy t (decl.params.zip args)) decl.body elements

/-- The second tree extends the first and has no more intrinsics. -/
structure Adds (t t' : Tree) : Prop where
  tree : Extends t t'
  intrinsics : ∀ ⦃i decl⦄, t'.node? i = some (.intrinsic decl) → t.node? i = some (.intrinsic decl)

theorem Adds.refl (t : Tree) : Adds t t := ⟨.refl t, fun _ _ h => h⟩

theorem Adds.trans {t t' t'' : Tree} (h : Adds t t') (h' : Adds t' t'') : Adds t t'' :=
  ⟨h.tree.trans h'.tree, fun _ _ hnode => h.intrinsics (h'.intrinsics hnode)⟩

section Extension

variable {t t' : Tree} {h : Handle}

theorem IsReplaced.of_extends (he : Extends t t') (hr : IsReplaced t' decl) :
    IsReplaced t decl := fun b hb hs => hr b hb (hs.extend he)

theorem Unclaimed.extend (ha : Adds t t') (hu : Unclaimed t h) : Unclaimed t' h :=
  fun _ _ hnode => hu (ha.intrinsics hnode)

theorem Fair.extend (ht : t.WellFormed) (ha : Adds t t') (hf : Fair t h) : Fair t' h := by
  refine ⟨ha.tree.isSome hf.isSome, ?_⟩
  intro i decl hnode hreplaced hoccurs
  exact hf.apart (ha.intrinsics hnode) (hreplaced.of_extends ha.tree)
    (hoccurs.of_extends ht ha.tree hf.isSome)

theorem IsInlined.extend {target : Handle} {elements : List Handle} (ht : t.WellFormed)
    (he : Extends t t') (hi : IsInlined t target elements) : IsInlined t' target elements := by
  obtain ⟨decl, args, hnode, hlength, hargs, hcopies⟩ := hi
  refine ⟨decl, args, he.keeps hnode rfl, hlength, ?_, ?_⟩
  · intro a ha
    obtain ⟨hkind, hapart⟩ := hargs a ha
    refine ⟨hkind.extend he, fun hreplaced hoccurs => ?_⟩
    exact hapart (hreplaced.of_extends he)
      (hoccurs.of_extends ht he (Tree.isSome_of_kind? hkind))
  · exact hcopies.imp fun _ _ hc => hc.extend he

theorem parameter_ofKind (ht : t.WellFormed) {i p : Handle}
    (hnode : t.node? i = some (.intrinsic decl)) (hp : p ∈ decl.params) :
    OfKind .parameter t p := by
  cases i with
  | none => cases hnode
  | some i => exact ((ht.node hnode).1 p hp).1

theorem body_ofKind (ht : t.WellFormed) {i b : Handle} (hnode : t.node? i = some (.intrinsic decl))
    (hb : b ∈ decl.body) : OfKind .expression t b := by
  cases i with
  | none => cases hnode
  | some i => exact ((ht.node hnode).2.2 b hb).1

theorem unclaimed_of_kind (ht : t.WellFormed) (hkind : t.kind? h ≠ some .parameter) :
    Unclaimed t h :=
  fun _ _ hnode hp => hkind (parameter_ofKind ht hnode hp)

end Extension

/-! ## The invariant -/

/-- Calls are inlined. The parameters of an intrinsic are different nodes, and do not occur in the
bodies of others. -/
structure IsTidy (t : Tree) : Prop where
  calls : ∀ ⦃h target elements⦄, t.node? h = some (.intrinsicCall target elements) →
    IsInlined t target elements
  params : ∀ ⦃i decl⦄, t.node? i = some (.intrinsic decl) → decl.params.Nodup
  bodies : ∀ ⦃i decl j other⦄, t.node? i = some (.intrinsic decl) →
    t.node? j = some (.intrinsic other) → i ≠ j → IsReplaced t decl →
    ∀ b ∈ other.body, ¬ Occurs t decl.params b

/-- The tree is tidy, and no parameter of an intrinsic can be seen. -/
structure State.Tidy (s : State) : Prop where
  tree : IsTidy s.tree
  blocks : ∀ block ∈ s.blocks, ∀ entry ∈ block, Unclaimed s.tree entry.2

theorem IsTidy.extend {t t' : Tree} (ht : t.WellFormed) (hi : IsTidy t) (ha : Adds t t')
    (hcalls : ∀ ⦃h target elements⦄, t'.node? h = some (.intrinsicCall target elements) →
      t.node? h = some (.intrinsicCall target elements) ∨ IsInlined t' target elements) :
    IsTidy t' := by
  refine ⟨?_, fun i decl hnode => hi.params (ha.intrinsics hnode), ?_⟩
  · intro h target elements hnode
    rcases hcalls hnode with hold | hnew
    · exact (hi.calls hold).extend ht ha.tree
    · exact hnew
  · intro i decl j other hnode hother hne hreplaced b hb hoccurs
    have hold := ha.intrinsics hother
    have hsome := Tree.isSome_of_kind? (body_ofKind ht hold hb)
    exact hi.bodies (ha.intrinsics hnode) hold hne (hreplaced.of_extends ha.tree) b hb
      (hoccurs.of_extends ht ha.tree hsome)

/-! ## Steps -/

/-- What a computation keeps that adds no intrinsics and opens no block. -/
structure Within (s s' : State) : Prop where
  adds : Adds s.tree s'.tree
  outer : ∀ ⦃block outer⦄, s.blocks = block :: outer → ∃ block', s'.blocks = block' :: outer

theorem Within.trans {s s' s'' : State} (h : Within s s') (h' : Within s' s'') : Within s s'' := by
  refine ⟨h.adds.trans h'.adds, fun block outer hblocks => ?_⟩
  obtain ⟨block', hblocks'⟩ := h.outer hblocks
  exact h'.outer hblocks'

/-- Every successful run of the computation leaves a tidy state, adds no intrinsics and opens no
block, and ends in the postcondition. -/
def Expands {α : Type} (s : State) (act : ResolveM α) (post : State → α → Prop) : Prop :=
  Ends s act fun s' a => s'.Tidy ∧ Within s s' ∧ post s' a

section Rules

variable {α β : Type} {s : State} {act : ResolveM α} {f : α → ResolveM β}

theorem expands_pure {a : α} {post : State → α → Prop} (ht : s.Tidy) (h : post s a) :
    Expands s (pure a) post :=
  ends_pure ⟨ht, ⟨.refl _, fun block _ hblocks => ⟨block, hblocks⟩⟩, h⟩

theorem expands_get {g : State → ResolveM β} {post : State → β → Prop}
    (h : Expands s (g s) post) : Expands s (get >>= g) post := h

theorem Expands.within {place : String} {post : State → α → Prop} (hact : Expands s act post) :
    Expands s (within place act) post := Ends.within hact

theorem Expands.imp {mid post : State → α → Prop} (hact : Expands s act mid)
    (h : ∀ s' a, Within s s' → mid s' a → post s' a) : Expands s act post := by
  intro a s' hrun
  obtain ⟨ht', hw, hmid⟩ := hact a s' hrun
  exact ⟨ht', hw, h s' a hw hmid⟩

theorem Expands.ends {mid post : State → α → Prop} (hact : Expands s act mid)
    (hends : Ends s act post) : Expands s act post := by
  intro a s' hrun
  obtain ⟨ht', hw, -⟩ := hact a s' hrun
  exact ⟨ht', hw, hends a s' hrun⟩

theorem Expands.bind {mid : State → α → Prop} {kinds : Tree → α → Prop} {post : State → β → Prop}
    (hact : Expands s act mid) (hyields : Yields True s act kinds)
    (hf : ∀ a s₁, s₁.Sound True → s₁.Tidy → Within s s₁ → kinds s₁.tree a → mid s₁ a →
      Expands s₁ (f a) post) : Expands s (act >>= f) post := by
  refine (Ends.sound hact hyields).bind ?_
  rintro a s₁ ⟨hs₁, -, hkinds, ht₁, hw₁, hmid⟩ b s' hrun
  obtain ⟨ht', hw', hpost⟩ := hf a s₁ hs₁ ht₁ hw₁ hkinds hmid b s' hrun
  exact ⟨ht', hw₁.trans hw', hpost⟩

end Rules

/-! ## Computations that only add inert nodes -/

/-- The second state has the blocks of the first and its nodes, and but for them inert nodes. -/
structure AddsInert (s s' : State) : Prop where
  blocks : s'.blocks = s.blocks
  tree : Brings IsInert s.tree s'.tree

section Inert

variable {α : Type} {s : State} {act : ResolveM α}

theorem addNode_addsInert (hnode : IsInert node) : Moves AddsInert (addNode node) := by
  intro s h s' hrun
  cases hrun
  exact ⟨rfl, .add _ hnode⟩

theorem addsInert_isStepRelation : IsStepRelation AddsInert where
  refl s := ⟨rfl, .refl _⟩
  trans s s' s'' h h' := ⟨h'.blocks.trans h.blocks, h.tree.trans h'.tree⟩
  add _ hnode _ := addNode_addsInert hnode
  shared key decl s h s' hrun := by
    rcases sharedStruct_run hrun with ⟨-, rfl⟩ | ⟨-, -, rfl⟩
    · exact ⟨rfl, .refl _⟩
    · exact ⟨rfl, .add _ trivial⟩
  share key h s a s' hrun := by
    cases hrun
    exact ⟨rfl, .refl _⟩

theorem Moves.expands (hi : Moves AddsInert act) (hs : s.Sound True) (ht : s.Tidy) :
    Expands s act fun s' _ => s'.blocks = s.blocks := by
  intro a s' hrun
  obtain ⟨hblocks, hkeeps, hnodes⟩ := hi hrun
  have hadds : Adds s.tree s'.tree := by
    refine ⟨fun h node hnode => ⟨node, hkeeps hnode, .same node⟩, fun i decl hnode => ?_⟩
    exact (hnodes hnode).resolve_right id
  refine ⟨⟨ht.tree.extend hs.tree hadds ?_, ?_⟩, ⟨hadds, ?_⟩, hblocks⟩
  · exact fun h target elements hnode => Or.inl ((hnodes hnode).resolve_right id)
  · intro block hblock entry hentry
    rw [hblocks] at hblock
    exact (ht.blocks block hblock entry hentry).extend hadds
  · intro block outer houter
    exact ⟨block, hblocks.trans houter⟩

theorem typesExpand (table : TypeTable) : IsTypeInduction table
    (fun _ _ s _ s' => AddsInert s s') (fun _ _ s _ s' => AddsInert s s')
    fun _ _ s _ s' => AddsInert s s' := addsInert_isStepRelation.isTypeInduction table

end Inert

/-! ## Expressions -/

section Expressions

variable {s : State} {table : TypeTable}

theorem fair_add (ht : t.WellFormed) (hnode : ∀ decl, node ≠ .intrinsic decl)
    (hparts : ∀ p ∈ node.parts, Fair t p)
    (hsource : ∀ name source, node = .ident name source → Unclaimed t source) :
    Fair (t.add node).2 (some t.size) := by
  have he := Extends.add t node
  have hadded : (t.add node).2.node? (some t.size) = some node :=
    (Tree.node?_add t node _).trans (if_pos rfl)
  refine ⟨by rw [hadded]; rfl, ?_⟩
  intro i decl hdecl hreplaced hoccurs
  have hold : t.node? i = some (.intrinsic decl) := by
    rw [Tree.node?_add] at hdecl
    split at hdecl
    · exact absurd (Option.some.inj hdecl) (hnode decl)
    · exact hdecl
  cases hoccurs with
  | here hident hmem =>
    cases hadded.symm.trans hident
    exact hsource _ _ rfl hold hmem
  | part hparent hpart hoccurs =>
    cases hadded.symm.trans hparent
    have hfair := hparts _ hpart
    exact hfair.apart hold (hreplaced.of_extends he) (hoccurs.of_extends ht he hfair.isSome)

theorem addNode_expands {node : Node} (hs : s.Sound True) (ht : s.Tidy) (hinert : IsInert node)
    (hparts : ∀ p ∈ node.parts, Fair s.tree p)
    (hsource : ∀ name source, node = .ident name source → Unclaimed s.tree source) :
    Expands s (addNode node) fun s' h => Fair s'.tree h ∧ h = some s.tree.size := by
  have hexpands := (addNode_addsInert hinert).expands hs ht
  intro h s' hrun
  obtain ⟨ht', hw, -⟩ := hexpands h s' hrun
  cases hrun
  refine ⟨ht', hw, fair_add hs.tree ?_ hparts hsource, rfl⟩
  rintro decl rfl
  exact hinert

theorem addExpr_expands (hs : s.Sound True) (ht : s.Tidy) (hinert : IsInert node)
    (hparts : ∀ p ∈ node.parts, Fair s.tree p)
    (hsource : ∀ name source, node = .ident name source → Unclaimed s.tree source) :
    Expands s (addNode node) fun s' h => Fair s'.tree h :=
  (addNode_expands hs ht hinert hparts hsource).imp fun _ _ _ h => h.1

theorem unclaimed_of_none (ht : t.WellFormed) (hnone : t.node? h = none) : Unclaimed t h := by
  refine unclaimed_of_kind ht ?_
  simp [Tree.kind?, hnone]

theorem declare_expands (ht : s.Tidy) (hh : Unclaimed s.tree h) :
    Expands s (declare name h) fun s' _ => s'.tree = s.tree := by
  intro a s' hrun
  cases hrun
  dsimp only
  split
  · exact ⟨ht, ⟨.refl _, fun block _ hblocks => ⟨block, hblocks⟩⟩, rfl⟩
  · split
    · rename_i block outer hblocks
      refine ⟨⟨ht.tree, ?_⟩, ⟨.refl _, ?_⟩, rfl⟩
      · have hold := ht.blocks
        rw [hblocks] at hold
        exact forall_entry_cons hold hh
      · intro b o hbo
        cases hblocks.symm.trans hbo
        exact ⟨_, rfl⟩
    · exact ⟨ht, ⟨.refl _, fun block _ hblocks => ⟨block, hblocks⟩⟩, rfl⟩

theorem addDeclared_expands (hs : s.Sound True) (ht : s.Tidy) (hinert : IsInert node)
    (hparts : node.parts = []) (hname : ∀ name source, node ≠ .ident name source) :
    Expands s (do let h ← addNode node; declare name h; return h) fun s' h =>
      Fair s'.tree h ∧ h = some s.tree.size := by
  have hnew : Unclaimed s.tree (some s.tree.size) := unclaimed_of_none hs.tree (Tree.node?_size _)
  refine Ends.bind (addNode_expands hs ht hinert (by simp [hparts]) ?_) ?_
  · exact fun name source heq => absurd heq (hname name source)
  rintro h s₁ ⟨ht₁, hw₁, hfair, rfl⟩
  refine Ends.bind (declare_expands ht₁ (hnew.extend hw₁.adds)) ?_
  rintro _ s₂ ⟨ht₂, hw₂, htree⟩
  refine ends_pure ⟨ht₂, hw₁.trans hw₂, ?_, rfl⟩
  rwa [htree]

theorem declareAll_expands {names : List String} (ht : s.Tidy) (hh : Unclaimed s.tree h) :
    Expands s (names.forM (declare · h)) fun s' _ => s'.tree = s.tree := by
  induction names generalizing s with
  | nil => exact expands_pure ht rfl
  | cons name names ih =>
    refine Ends.bind (declare_expands ht hh) ?_
    rintro _ s₁ ⟨ht₁, hw₁, htree₁⟩ _ s₂ hrun
    obtain ⟨ht₂, hw₂, htree₂⟩ := ih ht₁ (hh.extend hw₁.adds) _ _ hrun
    exact ⟨ht₂, hw₁.trans hw₂, htree₂.trans htree₁⟩

theorem resolveFragment_expands {decl : Program.Fragment} (hs : s.Sound True) (ht : s.Tidy) :
    Expands s (resolveFragment decl) fun s' h => Fair s'.tree h := by
  have hnew : Unclaimed s.tree (some s.tree.size) := unclaimed_of_none hs.tree (Tree.node?_size _)
  unfold resolveFragment
  refine Ends.bind (addNode_expands hs ht trivial nofun nofun) ?_
  rintro h s₁ ⟨ht₁, hw₁, hfair, rfl⟩
  refine Ends.bind (declareAll_expands ht₁ (hnew.extend hw₁.adds)) ?_
  rintro _ s₂ ⟨ht₂, hw₂, htree⟩
  rw [← htree] at hfair
  exact ends_pure ⟨ht₂, hw₁.trans hw₂, hfair⟩

theorem argumentFor_zip_ne_none {params : List Handle} {source : Handle}
    (hlength : args.length = params.length) (hmem : source ∈ params) :
    argumentFor (params.zip args) source ≠ none := by
  obtain ⟨arg, -, hpair⟩ := exists_mem_zip_left hlength hmem
  unfold argumentFor
  rw [ne_eq, Option.map_eq_none_iff, List.find?_eq_none]
  intro hnone
  exact hnone _ hpair (by simp)

theorem IsTidy.fair_copy (hi : IsTidy t) (hnode : t.node? target = some (.intrinsic decl))
    (hlength : args.length = decl.params.length) (hargs : ∀ a ∈ args, Fair t a) {b e : Handle}
    (hb : b ∈ decl.body) (hcopy : IsCopy t (decl.params.zip args) b e)
    (hsome : (t.node? e).isSome) : Fair t e := by
  refine ⟨hsome, fun i decl' hnode' hreplaced hoccurs => ?_⟩
  rcases hcopy.remains hoccurs with ⟨p, hp, harg⟩ | hrest
  · exact (hargs p.2 (List.of_mem_zip hp).2).apart hnode' hreplaced harg
  · by_cases heq : i = target
    · -- all parameters of the intrinsic itself have an argument
      subst heq
      cases hnode.symm.trans hnode'
      rcases hrest with hsurvives | ⟨-, source, hmem, hnone⟩
      · exact hreplaced b hb hsurvives
      · exact argumentFor_zip_ne_none hlength hmem hnone
    · refine hi.bodies hnode' hnode heq hreplaced b hb ?_
      rcases hrest with hsurvives | ⟨hoccurs, -⟩
      · exact hsurvives.occurs
      · exact hoccurs

theorem addInlined_expands {elements : List Handle} (hs : s.Sound True) (ht : s.Tidy)
    (hinlined : IsInlined s.tree target elements) (helements : ∀ e ∈ elements, Fair s.tree e) :
    Expands s (addNode (.intrinsicCall target elements)) fun s' h => Fair s'.tree h := by
  intro h s' hrun
  cases hrun
  have hadds : Adds s.tree (s.tree.add (.intrinsicCall target elements)).2 := by
    refine ⟨.add s.tree _, fun i decl hnode => ?_⟩
    rw [Tree.node?_add] at hnode
    split at hnode
    · cases hnode
    · exact hnode
  refine ⟨⟨ht.tree.extend hs.tree hadds ?_, ?_⟩, ⟨hadds, ?_⟩,
    fair_add hs.tree nofun helements nofun⟩
  · intro g target' elements' hnode
    change (s.tree.add _).2.node? g = _ at hnode
    rw [Tree.node?_add] at hnode
    split at hnode
    · cases hnode
      exact Or.inr (hinlined.extend hs.tree hadds.tree)
    · exact Or.inl hnode
  · intro block hblock entry hentry
    exact (ht.blocks block hblock entry hentry).extend hadds
  · exact fun block _ hblocks => ⟨block, hblocks⟩

theorem substituteBody_expands (hs : s.Sound True) (ht : s.Tidy)
    (hnode : s.tree.node? target = some (.intrinsic decl))
    (hlength : args.length = decl.params.length) (hkinds : AllOfKind .expression s.tree args)
    (hargs : ∀ a ∈ args, Fair s.tree a) :
    Expands s (do
      let elements ← substituteAll (decl.params.zip args) (s.tree.size + 1) decl.body
      addNode (.intrinsicCall target elements)) fun s' h => Fair s'.tree h := by
  have hbody : AllOfKind .expression s.tree decl.body := fun b hb => body_ofKind hs.tree hnode hb
  have hpairs : ArgumentsOk s.tree (decl.params.zip args) :=
    fun p hp => hkinds p.2 (List.of_mem_zip hp).2
  have hdepth : ∀ b ∈ decl.body, s.tree.Below (s.tree.size + 1) .expression b :=
    fun b hb => (hbody b hb).below.trans (Nat.lt_succ_self _)
  have hcopies := substituteAll_isCopy (fun _ _ hs ha hh => substitute_isCopy _ hs ha hh) hs hpairs
    hdepth
  obtain ⟨hrefl, htrans, hadd, -, -⟩ := addsInert_isStepRelation
  have hinert : Moves AddsInert
      (substituteAll (decl.params.zip args) (s.tree.size + 1) decl.body) :=
    moves_substituteAll hrefl htrans (moves_substitute hrefl htrans hadd _) _
  refine ((hinert.expands hs ht).ends hcopies).bind (substituteAll_yields
    (fun _ _ hs ha hh => substitute_yields _ hs ha hh) hs hpairs hbody) ?_
  intro elements s₁ hs₁ ht₁ hw₁ hkinds₁ hcopies₁
  have hnode₁ := hw₁.adds.tree.keeps hnode rfl
  have hargs₁ : ∀ a ∈ args, Fair s₁.tree a := fun a ha => (hargs a ha).extend hs.tree hw₁.adds
  have helements : ∀ e ∈ elements, Fair s₁.tree e := by
    intro e he
    obtain ⟨hsame, hzip⟩ := List.forall₂_iff_zip.mp hcopies₁
    obtain ⟨b, hb, hpair⟩ := exists_mem_zip_right hsame.symm he
    exact ht₁.tree.fair_copy hnode₁ hlength hargs₁ hb (hzip hpair)
      (Tree.isSome_of_kind? (hkinds₁.1 e he))
  refine addInlined_expands hs₁ ht₁ ⟨decl, args, hnode₁, hlength, ?_, hcopies₁⟩ helements
  intro a ha
  exact ⟨(hkinds a ha).extend hw₁.adds.tree, (hargs₁ a ha).apart hnode₁⟩

theorem resolveCall_expands {callee : String} (hs : s.Sound True) (ht : s.Tidy)
    (hkinds : AllOfKind .expression s.tree args) (hargs : ∀ a ∈ args, Fair s.tree a) :
    Expands s (resolveCall table callee args) fun s' h => Fair s'.tree h := by
  have hcall {s : State} {target : Handle} (hs : s.Sound True) (ht : s.Tidy)
      (hargs : ∀ a ∈ args, Fair s.tree a) :
      Expands s (addNode (.call callee target args)) fun s' h => Fair s'.tree h := by
    refine addExpr_expands hs ht trivial ?_ nofun
    simpa [Node.parts, Node.copiedParts, Node.keptParts] using hargs
  unfold resolveCall
  refine Expands.bind ((addsInert_isStepRelation.callee table callee).expands hs ht)
    (calleeHandle_yields hs) ?_
  intro target s₁ hs₁ ht₁ hw₁ _ _
  have hargs₁ : ∀ a ∈ args, Fair s₁.tree a := fun a ha => (hargs a ha).extend hs.tree hw₁.adds
  refine expands_get ?_
  dsimp only
  split
  · split
    · exact hcall hs₁ ht₁ hargs₁
    · exact ends_throw _
  · rename_i decl hnode
    split
    · rename_i hlength
      exact substituteBody_expands hs₁ ht₁ hnode hlength.symm (hkinds.extend hw₁.adds.tree) hargs₁
    · exact ends_throw _
  · exact hcall hs₁ ht₁ hargs₁
  · exact hcall hs₁ ht₁ hargs₁

theorem resolveType_expands (hs : s.Sound True) (ht : s.Tidy) :
    Expands s (resolveType table name) fun s' _ => s'.blocks = s.blocks :=
  Moves.expands (fun _ _ _ => (typesExpand table).type _ name) hs ht

theorem State.Tidy.source_unclaimed (hs : s.Sound True) (ht : s.Tidy) (container : Handle)
    (name : String) : Unclaimed s.tree (s.source container name) := by
  unfold State.source
  cases hfield : fieldOf s.tree container name with
  | some j =>
    refine unclaimed_of_kind hs.tree ?_
    have hkind : s.tree.kind? (some j) = some .member := fieldOf_ofKind hs.tree hfield
    rw [Option.some_or, hkind]
    decide
  | none =>
    rw [Option.none_or]
    cases hl : s.lookup? name with
    | none => exact unclaimed_of_none hs.tree rfl
    | some h =>
      obtain ⟨block, hblock, hfind⟩ := List.exists_of_findSome?_eq_some hl
      obtain ⟨entry, hentry, rfl⟩ := Option.map_eq_some_iff.mp hfind
      exact ht.blocks block hblock entry (List.mem_of_find?_eq_some hentry)

mutual

/-- What an expression is resolved to is fair. -/
theorem resolveExpr_expands {s : State} (table : TypeTable) (container : Handle)
    (node : Program.Node) (hs : s.Sound True) (ht : s.Tidy) :
    Expands s (resolveExpr table container node) fun s' h => Fair s'.tree h := by
  unfold resolveExpr
  cases node with
  | ident name =>
    refine expands_get (addExpr_expands hs ht trivial nofun ?_)
    intro _ _ heq
    cases heq
    exact ht.source_unclaimed hs container name
  | constant text => exact addExpr_expands hs ht trivial nofun nofun
  | access left right =>
    refine (resolveExpr_expands table container left hs ht).bind
      (resolveExpr_yields table container left hs (Or.inl trivial)) ?_
    intro left' s₁ hs₁ ht₁ _ _ hleft
    refine expands_get ?_
    refine (resolveExpr_expands table _ right hs₁ ht₁).bind
      (resolveExpr_yields table _ right hs₁ (Or.inl trivial)) ?_
    intro right' s₂ hs₂ ht₂ hw₂ _ hright
    refine addExpr_expands hs₂ ht₂ trivial ?_ nofun
    intro p hp
    rcases List.mem_pair.mp hp with rfl | rfl
    · exact hleft.extend hs₁.tree hw₂.adds
    · exact hright
  | call callee args =>
    refine (resolveExprs_expands table args hs ht).within.bind
      (resolveExprs_yields table args hs (Or.inl trivial)).within ?_
    intro args' s₁ hs₁ ht₁ _ hkinds hargs
    exact resolveCall_expands hs₁ ht₁ hkinds hargs
  | binary symbol left right =>
    dsimp only
    split
    · refine (resolveExpr_expands table none left hs ht).bind
        (resolveExpr_yields table none left hs (Or.inl trivial)) ?_
      intro left' s₁ hs₁ ht₁ _ _ hleft
      refine (resolveExpr_expands table none right hs₁ ht₁).bind
        (resolveExpr_yields table none right hs₁ (Or.inl trivial)) ?_
      intro right' s₂ hs₂ ht₂ hw₂ _ hright
      refine addExpr_expands hs₂ ht₂ trivial ?_ nofun
      intro p hp
      rcases List.mem_pair.mp hp with rfl | rfl
      · exact hleft.extend hs₁.tree hw₂.adds
      · exact hright
    · exact ends_throw _
  | localVar name type =>
    refine (resolveType_expands hs ht).within.bind (resolveType_yields hs).within ?_
    intro type' s₁ hs₁ ht₁ _ _ _
    exact Expands.imp (addDeclared_expands hs₁ ht₁ trivial rfl nofun) fun _ _ _ h => h.1
  | sequence elements =>
    refine (resolveExprs_expands table elements hs ht).bind
      (resolveExprs_yields table elements hs (Or.inl trivial)) ?_
    intro elements' s₁ hs₁ ht₁ _ _ helements
    refine addExpr_expands hs₁ ht₁ trivial ?_ nofun
    simpa [Node.parts, Node.copiedParts, Node.keptParts] using helements
  | ret value =>
    cases value with
    | none => exact addExpr_expands hs ht trivial nofun nofun
    | some value =>
      refine (resolveExpr_expands table none value hs ht).bind
        (resolveExpr_yields table none value hs (Or.inl trivial)) ?_
      intro value' s₁ hs₁ ht₁ _ _ hvalue
      refine addExpr_expands hs₁ ht₁ trivial ?_ nofun
      intro p hp
      cases value' with
      | none => cases hp
      | some value' =>
        cases List.mem_singleton.mp hp
        exact hvalue
  | marker name body => exact addExpr_expands hs ht trivial nofun nofun
  | fragment decl => exact resolveFragment_expands hs ht
  | literal name body =>
    exact Expands.imp (addDeclared_expands hs ht trivial rfl nofun) fun _ _ _ h => h.1
  | placeholder => exact addExpr_expands hs ht trivial nofun nofun
  | _ => exact ends_throw _
termination_by structural node

theorem resolveExprs_expands {s : State} (table : TypeTable) (nodes : List Program.Node)
    (hs : s.Sound True) (ht : s.Tidy) :
    Expands s (resolveExprs table nodes) fun s' hs' => ∀ h ∈ hs', Fair s'.tree h := by
  match nodes with
  | [] =>
    rw [resolveExprs]
    exact expands_pure ht nofun
  | node :: rest =>
    rw [resolveExprs]
    refine (resolveExpr_expands table none node hs ht).bind
      (resolveExpr_yields table none node hs (Or.inl trivial)) ?_
    intro h s₁ hs₁ ht₁ _ _ hh
    refine (resolveExprs_expands table rest hs₁ ht₁).bind
      (resolveExprs_yields table rest hs₁ (Or.inl trivial)) ?_
    intro more s₂ hs₂ ht₂ hw₂ _ hmore
    exact expands_pure ht₂ (List.forall_mem_cons.mpr ⟨hh.extend hs₁.tree hw₂.adds, hmore⟩)
termination_by structural nodes

end

end Expressions

end Shader.Resolution
