import Mathlib
import Shader.Proofs.Resolution.Causality
import Shader.Proofs.Resolution.Inlining

/-!
# Calls of intrinsics

Declarations keep trees tidy. That of an intrinsic closes the block in which its parameters were
declared, so no later name refers to them, and no earlier one did.
-/

namespace Shader.Resolution

open Arena

variable {s : State} {table : Program.TypeTable} {t t' t₀ : Tree} {h : Handle}
  {params : List Program.Parameter} {name returns : String} {decl : Intrinsic}

/-! ## Parameters -/

/-- The node has been added to the first tree. -/
def IsAdded (t t' : Tree) (h : Handle) : Prop := t.node? h = none ∧ (t'.node? h).isSome

theorem node?_eq_none_of_extends (he : Extends t t') (hnone : t'.node? h = none) :
    t.node? h = none := by
  cases hold : t.node? h with
  | none => rfl
  | some node =>
    have hsome := he.isSome (h := h) (by rw [hold]; rfl)
    rw [hnone] at hsome
    cases hsome

theorem IsAdded.extend (ha : IsAdded t₀ t h) (he : Extends t t') :
    IsAdded t₀ t' h := ⟨ha.1, he.isSome ha.2⟩

theorem resolveParameter_expands (p : Program.Parameter) (hs : s.Sound True) (ht : s.Tidy) :
    Expands s (resolveParameter table p) fun s' h => IsAdded s.tree s'.tree h := by
  unfold resolveParameter
  refine (resolveType_expands hs ht).within.bind (resolveType_yields hs).within ?_
  intro type s₁ hs₁ ht₁ hw₁ _ _
  refine Expands.imp (addDeclared_expands hs₁ ht₁ trivial rfl nofun) ?_
  rintro s₂ h - ⟨hfair, rfl⟩
  exact ⟨node?_eq_none_of_extends hw₁.adds.tree (Tree.node?_size _), hfair.isSome⟩

theorem resolveParameters_expands (params : List Program.Parameter) (hs : s.Sound True)
    (ht : s.Tidy) : Expands s (params.mapM (resolveParameter table)) fun s' hs' =>
      (∀ h ∈ hs', IsAdded s.tree s'.tree h) ∧ hs'.Nodup := by
  induction params generalizing s with
  | nil => exact expands_pure ht ⟨nofun, List.nodup_nil⟩
  | cons p params ih =>
    rw [List.mapM_cons]
    refine (resolveParameter_expands p hs ht).bind (resolveParameter_yields p hs) ?_
    intro h s₁ hs₁ ht₁ hw₁ _ hh
    refine (ih hs₁ ht₁).bind (yields_mapM hs₁ fun p _ _ hs => resolveParameter_yields p hs) ?_
    intro more s₂ hs₂ ht₂ hw₂ _ ⟨hmore, hnodup⟩
    refine expands_pure ht₂ ⟨List.forall_mem_cons.mpr ⟨hh.extend hw₂.adds.tree, ?_⟩, ?_⟩
    · intro g hg
      exact ⟨node?_eq_none_of_extends hw₁.adds.tree (hmore g hg).1, (hmore g hg).2⟩
    · refine List.nodup_cons.mpr ⟨fun hmem => ?_, hnodup⟩
      have hsome := hh.2
      rw [(hmore h hmem).1] at hsome
      cases hsome

/-! ## Blocks -/

theorem openBlock_tidy (ht : s.Tidy) :
    Ends s openBlock fun s' _ => s'.Tidy ∧ s'.tree = s.tree ∧ s'.blocks = [] :: s.blocks := by
  intro _ s' hrun
  cases hrun
  refine ⟨⟨ht.tree, ?_⟩, rfl, rfl⟩
  intro block hblock entry hentry
  rcases List.mem_cons.mp hblock with rfl | hblock
  · cases hentry
  · exact ht.blocks block hblock entry hentry

theorem closeBlock_tidy (ht : s.Tidy) :
    Ends s closeBlock fun s' _ => s'.Tidy := by
  intro _ s' hrun
  cases hrun
  exact ⟨ht.tree, fun block hblock => ht.blocks block (List.mem_of_mem_tail hblock)⟩

theorem resolveBlock_ends {α : Type}
    {nodes : List Program.Node} {f : List Handle → List Handle → ResolveM α}
    {post : State → α → Prop} (hs : s.Sound True) (ht : s.Tidy)
    (hf : ∀ ps es s₁, s₁.Sound True → s₁.Tidy → Adds s.tree s₁.tree →
      (∃ block, s₁.blocks = block :: s.blocks) → (∀ p ∈ ps, IsAdded s.tree s₁.tree p) → ps.Nodup →
      (∀ e ∈ es, Fair s₁.tree e) → Ends s₁ (f ps es) post) :
    Ends s (do
      openBlock
      let ps ← params.mapM (resolveParameter table)
      let es ← resolveExprs table nodes
      f ps es) post := by
  refine ((openBlock_tidy ht).sound (openBlock_yields hs)).bind ?_
  rintro _ s₁ ⟨hs₁, -, -, ht₁, htree, hblocks⟩
  refine (Ends.sound (resolveParameters_expands params hs₁ ht₁)
    (yields_mapM hs₁ fun p _ _ hs => resolveParameter_yields p hs)).bind ?_
  rintro ps s₂ ⟨hs₂, -, -, ht₂, hw₂, hps, hnodup⟩
  refine (Ends.sound (resolveExprs_expands table nodes hs₂ ht₂)
    (resolveExprs_yields table nodes hs₂ (Or.inl trivial))).bind ?_
  rintro es s₃ ⟨hs₃, he₃, -, ht₃, hw₃, hes⟩
  have hw := hw₂.trans hw₃
  rw [htree] at hps
  have hadds := hw.adds
  rw [htree] at hadds
  exact hf ps es s₃ hs₃ ht₃ hadds (hw.outer hblocks) (fun p hp => (hps p hp).extend he₃) hnodup hes

/-! ## Functions and intrinsics -/

theorem resolveFunction_tidy {statements : List Program.Node} {annotations : List String}
    (hs : s.Sound True) (ht : s.Tidy) :
    Ends s (resolveFunction table name params returns statements annotations)
      fun s' _ => s'.Tidy := by
  unfold resolveFunction
  have hadd : Ends s (within ("function " ++ name) do
      let returns ← resolveReturn table returns
      openBlock
      let params ← params.mapM (resolveParameter table)
      let statements ← resolveExprs table statements
      closeBlock
      addNode (.function ⟨name, params, returns, statements, annotations⟩))
      fun s' h => s'.Tidy ∧ Unclaimed s'.tree h := by
    refine Ends.within ((Ends.sound (resolveType_expands hs ht) (resolveType_yields hs)).bind ?_)
    rintro returns' s₁ ⟨hs₁, -, -, ht₁, -⟩
    refine resolveBlock_ends hs₁ ht₁ ?_
    intro ps es s₂ hs₂ ht₂ _ _ _ _ _
    refine ((closeBlock_tidy ht₂).sound (closeBlock_yields hs₂)).bind ?_
    rintro _ s₃ ⟨hs₃, -, -, ht₃⟩ h s₄ hrun
    have hfunction := @addNode_expands s₃
      (.function ⟨name, ps, returns', es, annotations⟩) hs₃ ht₃ trivial nofun nofun
    obtain ⟨ht₄, hw₄, -, rfl⟩ := hfunction h s₄ hrun
    exact ⟨ht₄, (unclaimed_of_none hs₃.tree (Tree.node?_size _)).extend hw₄.adds⟩
  refine hadd.bind ?_
  rintro h s₁ ⟨ht₁, hh⟩
  refine Ends.bind (declare_expands ht₁ hh) ?_
  rintro _ s₂ ⟨ht₂, -, -⟩
  exact ends_pure ht₂

theorem intrinsic_of_add {found : Intrinsic} {i : Handle}
    (hnode : (t.add (.intrinsic decl)).2.node? i = some (.intrinsic found)) :
    i = some t.size ∧ found = decl ∨ t.node? i = some (.intrinsic found) := by
  rw [Tree.node?_add] at hnode
  split at hnode
  · cases hnode
    exact Or.inl ⟨by assumption, rfl⟩
  · exact Or.inr hnode

theorem IsTidy.addIntrinsic (ht₀ : t₀.WellFormed) (ht : t.WellFormed) (hi : IsTidy t)
    (hadds : Adds t₀ t) (hparams : ∀ p ∈ decl.params, IsAdded t₀ t p) (hnodup : decl.params.Nodup)
    (hbody : ∀ b ∈ decl.body, Fair t b) : IsTidy (t.add (.intrinsic decl)).2 := by
  have he := Extends.add t (.intrinsic decl)
  refine ⟨?_, ?_, ?_⟩
  · intro h target elements hnode
    rw [Tree.node?_add] at hnode
    split at hnode
    · cases hnode
    · exact (hi.calls hnode).extend ht he
  · intro i found hnode
    rcases intrinsic_of_add hnode with ⟨-, rfl⟩ | hold
    · exact hnodup
    · exact hi.params hold
  · intro i found j other hnode hother hne hreplaced b hb hoccurs
    rcases intrinsic_of_add hother with ⟨rfl, rfl⟩ | hotherOld
    · rcases intrinsic_of_add hnode with ⟨rfl, rfl⟩ | hold
      · exact hne rfl
      · have hfair := hbody b hb
        exact hfair.apart hold (hreplaced.of_extends he) (hoccurs.of_extends ht he hfair.isSome)
    · rcases intrinsic_of_add hnode with ⟨rfl, rfl⟩ | hold
      · have hkind := body_ofKind ht₀ (hadds.intrinsics hotherOld) hb
        have hbefore := hoccurs.of_extends ht₀ (hadds.tree.trans he) (Tree.isSome_of_kind? hkind)
        obtain ⟨source, hmem, hsource⟩ := hbefore.exists_source ht₀
        obtain ⟨hnone, hsome⟩ := hparams source hmem
        rcases hsource with rfl | hsource
        · cases hsome
        · rw [hnone] at hsource
          cases hsource
      · have hsome := Tree.isSome_of_kind? (body_ofKind ht hotherOld hb)
        exact hi.bodies hold hotherOld hne (hreplaced.of_extends he) b hb
          (hoccurs.of_extends ht he hsome)

theorem declareOutside_run {a : Unit} {s' : State} (hrun : declareOutside name h s = .ok (a, s')) :
    s'.tree = s.tree ∧
      ∀ block ∈ s'.blocks.tail, ∀ entry ∈ block,
        entry = (name, h) ∨ ∃ block ∈ s.blocks.tail, entry ∈ block := by
  cases hrun
  dsimp only
  split
  · rename_i inner block outer hblocks
    refine ⟨rfl, fun b hb entry hentry => ?_⟩
    rw [hblocks]
    rcases List.mem_cons.mp hb with rfl | hb
    · rcases List.mem_cons.mp hentry with heq | hentry
      · exact Or.inl heq
      · exact Or.inr ⟨block, .head _, hentry⟩
    · exact Or.inr ⟨b, .tail _ hb, hentry⟩
  · exact ⟨rfl, fun b hb entry hentry => Or.inr ⟨b, hb, hentry⟩⟩

/-- After an intrinsic has been resolved nothing refers to its parameters. -/
theorem resolveIntrinsic_tidy {body : List Program.Node} (hs : s.Sound True) (ht : s.Tidy) :
    Ends s (resolveIntrinsic table name params body returns) fun s' _ => s'.Tidy := by
  suffices htidy : Ends s (resolveIntrinsic table name params body returns) fun s' _ =>
      s'.tree.WellFormed → s'.Tidy by
    intro h s' hrun
    exact htidy h s' hrun (resolveIntrinsic_yields hs (Or.inl trivial) h s' hrun).1.tree
  unfold resolveIntrinsic
  refine Ends.within ((Ends.sound (resolveType_expands hs ht) (resolveType_yields hs)).bind ?_)
  rintro returns' s₁ ⟨hs₁, -, -, ht₁, -⟩
  refine resolveBlock_ends hs₁ ht₁ ?_
  intro ps es s₂ hs₂ ht₂ hadds ⟨block, hblocks⟩ hps hnodup hes h s' hrun hwell
  obtain ⟨h', s₃, hadd, hrun⟩ := run_bind_eq_ok hrun
  obtain ⟨_, s₄, hdeclare, hrun⟩ := run_bind_eq_ok hrun
  obtain ⟨_, s₅, hclose, hrun⟩ := run_bind_eq_ok hrun
  cases hadd
  cases hclose
  cases hrun
  obtain ⟨hsame, houter⟩ := declareOutside_run hdeclare
  have htree : s₄.tree = (s₂.tree.add (.intrinsic ⟨name, ps, es, returns'⟩)).2 := hsame
  have htidy : IsTidy s₄.tree := by
    rw [htree]
    exact ht₂.tree.addIntrinsic hs₁.tree hs₂.tree hadds hps hnodup hes
  refine ⟨htidy, ?_⟩
  intro b hb entry hentry
  rcases houter b hb entry hentry with rfl | ⟨b', hb', hentry'⟩
  · have hadded : s₄.tree.node? (some s₂.tree.size) =
        some (.intrinsic ⟨name, ps, es, returns'⟩) := by
      rw [htree, Tree.node?_add, if_pos rfl]
    refine unclaimed_of_kind hwell ?_
    rw [Tree.kind?_of_node? hadded]
    nofun
  · rw [hblocks] at hb'
    intro i found hnode hp
    rcases intrinsic_of_add (htree ▸ hnode) with ⟨-, rfl⟩ | hold
    · obtain ⟨⟨kind, -, hkind⟩, -⟩ := hs₁.blocks b' hb' entry hentry'
      have hsome := Tree.isSome_of_kind? hkind
      rw [(hps entry.2 hp).1] at hsome
      cases hsome
    · have hmem : b' ∈ s₂.blocks := by
        rw [hblocks]
        exact .tail _ hb'
      exact ht₂.blocks b' hmem entry hentry' hold hp

/-! ## Declarations -/

theorem Expands.tidy {α : Type} {act : ResolveM α} {post : State → α → Prop}
    (h : Expands s act post) : Ends s act fun s' _ => s'.Tidy :=
  fun a s' hrun => (h a s' hrun).1

theorem resolveMembers_expands {members : List Program.Member} (hs : s.Sound True) (ht : s.Tidy) :
    Expands s (resolveMembers table members) fun s' _ => s'.blocks = s.blocks :=
  Moves.expands (fun _ _ _ => (typesExpand table).members _ members) hs ht

theorem resolveBinding_tidy {b : Program.Binding} (hs : s.Sound True) (ht : s.Tidy) :
    Ends s (resolveBinding table b) fun s' _ => s'.Tidy := by
  have hresource : Expands s (resolveResource table b.name b.resource) fun _ _ => True := by
    unfold resolveResource
    split
    · refine (resolveMembers_expands hs ht).within.bind (resolveMembers_yields hs).within ?_
      intro members s₁ _ ht₁ _ _ _
      exact expands_pure ht₁ trivial
    · exact expands_pure ht trivial
    · exact expands_pure ht trivial
    · exact ends_throw _
  unfold resolveBinding
  refine (Ends.sound hresource (resolveResource_yields hs)).bind ?_
  rintro ⟨kind, members, format⟩ s₁ ⟨hs₁, -, -, ht₁, -⟩
  exact Expands.tidy (addDeclared_expands hs₁ ht₁ trivial rfl nofun)

theorem resolveStructDecl_tidy {decl : Program.Struct} (hs : s.Sound True) (ht : s.Tidy) :
    Ends s (resolveStructDecl table decl) fun s' _ => s'.Tidy := by
  have hreached : (s.reach decl).Tidy := ⟨ht.tree, ht.blocks⟩
  have hstruct : Expands _ (resolveStruct table decl) _ :=
    Moves.expands (fun _ _ _ => (typesExpand table).struct _ decl) (hs.reach decl) hreached
  have hreach : Ends s (modify (State.reach · decl) : ResolveM Unit) fun s' _ =>
      s' = s.reach decl := by
    intro _ s' hrun
    cases hrun
    rfl
  unfold resolveStructDecl
  refine Ends.bind hreach ?_
  rintro _ s₁ rfl
  refine (Ends.sound hstruct (resolveStruct_yields (hs.reach decl))).bind ?_
  rintro h s₂ ⟨hs₂, -, hkind, ht₂, -⟩
  have hh : Unclaimed s₂.tree h := by
    refine unclaimed_of_kind hs₂.tree ?_
    rw [show s₂.tree.kind? h = some .struct from hkind.ofKind]
    decide
  refine Ends.bind (declare_expands ht₂ hh) ?_
  rintro _ s₃ ⟨ht₃, -, -⟩
  exact ends_pure ht₃

theorem resolvePlain_tidy (node : Program.Node) (hplain : node.IsPlain) (hs : s.Sound True)
    (ht : s.Tidy) : Ends s (resolveDeclaration table node) fun s' _ => s'.Tidy := by
  unfold resolveDeclaration
  cases node with
  | scope | function => exact hplain.elim
  | struct decl => exact resolveStructDecl_tidy hs ht
  | member decl =>
    refine (Ends.sound (resolveType_expands hs ht) (resolveType_yields hs)).within.bind ?_
    rintro type s₁ ⟨hs₁, -, -, ht₁, -⟩
    exact Expands.tidy (addDeclared_expands hs₁ ht₁ trivial rfl (by simp))
  | binding decl => exact resolveBinding_tidy hs ht
  | pushConstant members =>
    refine (Ends.sound (resolveMembers_expands hs ht) (resolveMembers_yields hs)).within.bind ?_
    rintro members' s₁ ⟨hs₁, -, -, ht₁, -⟩
    exact Expands.tidy (addDeclared_expands hs₁ ht₁ trivial rfl (by simp))
  | specialization name type =>
    refine (Ends.sound (resolveType_expands hs ht) (resolveType_yields hs)).within.bind ?_
    rintro type' s₁ ⟨hs₁, -, -, ht₁, -⟩
    exact Expands.tidy (addDeclared_expands hs₁ ht₁ trivial rfl (by simp))
  | fragment decl => exact (resolveFragment_expands hs ht).tidy
  | intrinsic name params body returns => exact resolveIntrinsic_tidy hs ht
  | literal name body => exact Expands.tidy (addDeclared_expands hs ht trivial rfl (by simp))
  | parameter decl => exact (resolveParameter_expands decl hs ht).tidy
  | placeholder =>
    exact Expands.tidy (addExpr_expands hs ht trivial (List.forall_mem_nil _) (by simp))
  | _ => exact ends_throw _

theorem adopt_tidy {i : Nat} {child : Handle} (hs : s.Sound True) (ht : s.Tidy) :
    Ends s (adopt (some i) child) fun s' _ => s'.Tidy := by
  intro _ s' hrun
  obtain ⟨tree, htree, rfl⟩ := exists_of_adopt hrun
  have hadds : Adds s.tree tree :=
    ⟨.appendChild htree, fun _ _ hnode => Tree.node?_of_appendChild htree hnode rfl⟩
  refine ⟨ht.tree.extend hs.tree hadds ?_, ?_⟩
  · exact fun _ _ _ hnode => Or.inl (Tree.node?_of_appendChild htree hnode rfl)
  · exact fun block hblock entry hentry => (ht.blocks block hblock entry hentry).extend hadds

mutual

theorem resolveDeclaration_tidy {s : State} (table : Program.TypeTable) (node : Program.Node)
    (hs : s.Sound True) (ht : s.Tidy) :
    Ends s (resolveDeclaration table node) fun s' _ => s'.Tidy := by
  cases node with
  | scope name children =>
    rw [resolveDeclaration]
    have hscope : (Node.scope name []).WellFormed s.tree s.tree.size := List.forall_mem_nil _
    have hadded : Expands s (addNode (.scope name [])) _ :=
      addNode_expands hs ht trivial nofun nofun
    refine (Ends.sound hadded (addNode_yields hs hscope trivial)).bind ?_
    rintro h s₁ ⟨hs₁, -, ⟨hnode, rfl⟩, ht₁, -⟩
    refine ((openBlock_tidy ht₁).sound (openBlock_yields hs₁)).bind ?_
    rintro _ s₂ ⟨hs₂, he₂, -, ht₂, -⟩
    have hi := he₂.kind? (Tree.kind?_of_node? hnode)
    refine (resolveChildren_tidy table children (fun _ _ _ => run_of_within) hs₂ ht₂ hi).bind
      fun _ s₃ ht₃ => ?_
    exact (closeBlock_tidy ht₃).bind fun _ s₄ ht₄ => ends_pure ht₄
  | function name params returns statements annotations =>
    rw [resolveDeclaration]
    exact resolveFunction_tidy hs ht
  | _ => exact resolvePlain_tidy _ trivial hs ht
termination_by structural node

theorem resolveChildren_tidy {s : State} {i : Nat} (table : Program.TypeTable)
    (nodes : List Program.Node) {place : ResolveM Handle → ResolveM Handle}
    (hplace : ∀ ⦃act : ResolveM Handle⦄ ⦃s : State⦄ ⦃r : Handle × State⦄,
      place act s = .ok r → act s = .ok r) (hs : s.Sound True) (ht : s.Tidy)
    (hi : s.tree.kind? (some i) = some .scope) :
    Ends s (resolveChildren table place (some i) nodes) fun s' _ => s'.Tidy := by
  match nodes with
  | [] =>
    rw [resolveChildren]
    exact ends_pure ht
  | node :: rest =>
    rw [resolveChildren]
    have hnode : Ends s (place (resolveDeclaration table node)) _ := fun h s' hrun =>
      (resolveDeclaration_tidy table node hs ht).sound
        (resolveDeclaration_yields table node hs (Or.inl trivial)) h s' (hplace hrun)
    refine hnode.bind ?_
    rintro child s₁ ⟨hs₁, he₁, ⟨hadoptable, -⟩, ht₁⟩
    refine ((adopt_tidy hs₁ ht₁).sound (adopt_yields hs₁ (hadoptable.of_scope hi))).bind ?_
    rintro _ s₂ ⟨hs₂, he₂, -, ht₂⟩
    exact resolveChildren_tidy table rest hplace hs₂ ht₂ ((he₁.trans he₂).kind? hi)
termination_by structural nodes

end

/-! ## Programs -/

theorem State.Tidy.initial (children : List Program.Node) : (State.initial children).Tidy := by
  have hroot : ∀ ⦃h node⦄, Tree.empty.node? h = some node → node = .scope "root" [] := by
    intro h node hnode
    obtain ⟨j, hj, rfl⟩ := Tree.index_of_node? hnode
    obtain rfl : j = 0 := Nat.lt_one_iff.mp hj
    cases hnode
    rfl
  refine ⟨⟨?_, ?_, ?_⟩, ?_⟩
  · intro h target elements hnode
    cases hroot hnode
  · intro i decl hnode
    cases hroot hnode
  · intro i decl j other hnode
    cases hroot hnode
  · intro block hblock entry hentry
    rw [List.mem_singleton.mp hblock] at hentry
    cases hentry

/-- The tree of every program that can be resolved is tidy. -/
theorem resolve_isTidy {root : Option Program.Scope} (h : resolve root table = .ok t) :
    IsTidy t := by
  cases root with
  | none => cases h
  | some scope =>
    obtain ⟨s, hrun, rfl⟩ := resolve_eq_ok_iff.mp h
    exact (resolveChildren_tidy table scope.children (fun _ _ _ hrun => hrun)
      (State.Sound.initial scope.children) (State.Tidy.initial scope.children) rfl () s hrun).tree

/-- A parameter of the intrinsic occurs in what takes the place of a call exactly if it survives in
the body. -/
theorem occurs_iff_survives {elements : List Handle} {args : List Handle}
    (hlength : args.length = decl.params.length)
    (hargs : IsReplaced t decl → ∀ a ∈ args, ¬ Occurs t decl.params a)
    (hcopies : List.Forall₂ (IsCopy t (decl.params.zip args)) decl.body elements) :
    (∃ e ∈ elements, Occurs t decl.params e) ↔ ∃ b ∈ decl.body, Survives t decl.params b := by
  obtain ⟨hsame, hzip⟩ := List.forall₂_iff_zip.mp hcopies
  constructor
  · rintro ⟨e, he, hoccurs⟩
    by_contra hnone
    have hreplaced : IsReplaced t decl := fun b hb hs => hnone ⟨b, hb, hs⟩
    obtain ⟨b, hb, hpair⟩ := exists_mem_zip_right hsame.symm he
    rcases (hzip hpair).remains hoccurs with ⟨p, hp, harg⟩ | hsurvives | ⟨-, source, hmem, hno⟩
    · exact hargs hreplaced p.2 (List.of_mem_zip hp).2 harg
    · exact hreplaced b hb hsurvives
    · exact argumentFor_zip_ne_none hlength hmem hno
  · rintro ⟨b, hb, hsurvives⟩
    obtain ⟨e, he, hpair⟩ := exists_mem_zip_left hsame.symm hb
    exact ⟨e, he, (hzip hpair).occurs_of_survives hsurvives⟩

/-- What takes the place of the call of an intrinsic is its body with one argument for each
parameter. A parameter is left in it exactly if one occurs in the body where copies do not reach: to
the right of a point, or in what takes the place of another call. -/
theorem resolve_inlines {root : Option Program.Scope} {t : Tree} (h : resolve root table = .ok t)
    {call target : Handle} {elements : List Handle}
    (hcall : t.node? call = some (.intrinsicCall target elements)) :
    ∃ decl args, t.node? target = some (.intrinsic decl) ∧ decl.params.Nodup ∧
      args.length = decl.params.length ∧ AllOfKind .expression t args ∧
      List.Forall₂ (IsCopy t (decl.params.zip args)) decl.body elements ∧
      ((∃ e ∈ elements, Occurs t decl.params e) ↔ ∃ b ∈ decl.body, Survives t decl.params b) := by
  have htidy := resolve_isTidy h
  obtain ⟨decl, args, hnode, hlength, hargs, hcopies⟩ := htidy.calls hcall
  refine ⟨decl, args, hnode, htidy.params hnode, hlength, fun a ha => (hargs a ha).1, hcopies, ?_⟩
  exact occurs_iff_survives hlength (fun hreplaced a ha => (hargs a ha).2 hreplaced) hcopies

/-- A call of `scale(v, k)`, whose body is the product of its parameters, becomes the product of
the arguments. -/
theorem resolve_inlines_sample :
    let root : Program.Scope := .root [
      .intrinsic "scale" [⟨"v", "f32"⟩, ⟨"k", "f32"⟩] [.binary "*" (.ident "v") (.ident "k")] "f32",
      .function "main" [] "void" [.call "scale" [.ident "p", .constant "0.5"]] []]
    let t : Tree := ⟨#[.scope "root" [some 7, some 13], .struct ⟨"f32", none, [], []⟩,
      .parameter "v" (some 1), .parameter "k" (some 1), .ident "v" (some 2), .ident "k" (some 3),
      .binary .multiply (some 4) (some 5),
      .intrinsic ⟨"scale", [some 2, some 3], [some 6], some 1⟩, .struct ⟨"void", none, [], []⟩,
      .ident "p" none, .constant "0.5", .binary .multiply (some 9) (some 10),
      .intrinsicCall (some 7) [some 11], .function ⟨"main", [], some 8, [some 12], []⟩]⟩
    resolve (some root) .empty = .ok t ∧
      t.node? (some 12) = some (.intrinsicCall (some 7) [some 11]) ∧
      ∃ decl args, t.node? (some 7) = some (.intrinsic decl) ∧ decl.params.Nodup ∧
        args.length = decl.params.length ∧ AllOfKind .expression t args ∧
        List.Forall₂ (IsCopy t (decl.params.zip args)) decl.body [some 11] ∧
        ((∃ e ∈ [some 11], Occurs t decl.params e) ↔
          ∃ b ∈ decl.body, Survives t decl.params b) := by
  intro root t
  have hresolve : resolve (some root) .empty = .ok t := by cbv
  have hcall : t.node? (some 12) = some (.intrinsicCall (some 7) [some 11]) := rfl
  exact ⟨hresolve, hcall, resolve_inlines hresolve hcall⟩

/-- The body of `outer` is a call of `inner` with the parameter `b`. A call of `outer` shares it,
and `b` is left. -/
theorem resolve_keeps_parameter :
    let t : Tree := ⟨#[.scope "root" [some 5, some 10, some 14], .struct ⟨"f32", none, [], []⟩,
      .parameter "a" (some 1), .ident "a" (some 2), .call "g" none [some 3],
      .intrinsic ⟨"inner", [some 2], [some 4], some 1⟩, .parameter "b" (some 1),
      .ident "b" (some 6), .call "g" none [some 7], .intrinsicCall (some 5) [some 8],
      .intrinsic ⟨"outer", [some 6], [some 9], some 1⟩, .struct ⟨"void", none, [], []⟩,
      .constant "0.5", .intrinsicCall (some 10) [some 9],
      .function ⟨"main", [], some 11, [some 13], []⟩]⟩
    resolve (some (.root [
      .intrinsic "inner" [⟨"a", "f32"⟩] [.call "g" [.ident "a"]] "f32",
      .intrinsic "outer" [⟨"b", "f32"⟩] [.call "inner" [.ident "b"]] "f32",
      .function "main" [] "void" [.call "outer" [.constant "0.5"]] []])) .empty = .ok t ∧
      t.node? (some 13) = some (.intrinsicCall (some 10) [some 9]) ∧
      t.node? (some 10) = some (.intrinsic ⟨"outer", [some 6], [some 9], some 1⟩) ∧
      Occurs t [some 6] (some 9) := by
  intro t
  have hname : Occurs t [some 6] (some 7) := @Occurs.here _ _ "b" (some 6) _ rfl (by simp)
  have hcall : Occurs t [some 6] (some 8) :=
    @Occurs.part _ _ (.call "g" none [some 7]) (some 7) _ rfl
      (by simp [Node.parts, Node.copiedParts]) hname
  refine ⟨by cbv, rfl, rfl, ?_⟩
  exact @Occurs.part _ _ (.intrinsicCall (some 5) [some 8]) (some 8) _ rfl
    (by simp [Node.parts, Node.copiedParts, Node.keptParts]) hcall

end Shader.Resolution
