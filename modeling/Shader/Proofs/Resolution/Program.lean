import Shader.Proofs.Resolution.Evaluation
import Shader.Proofs.Resolution.Expressions
import Shader.Resolution.Program

/-!
# Resolution of programs is sound

Every declaration of a program becomes a node that its scope can adopt, a function becomes a
function of its name, and the tree of a program is well formed.
-/

namespace Shader.Program

/-- Whether the declaration is neither a scope nor a function. -/
def Node.IsPlain : Node → Prop
  | .scope .. => False
  | .function .. => False
  | _ => True

end Shader.Program

namespace Shader.Resolution

open Arena
open Program (TypeTable)

variable {code : Prop} {s : State} {name returns : String} {params : List Program.Parameter}
  {t t' : Tree} {child h scope : Handle} {i n : Nat} {node : Program.Node}
  {rest : List Program.Node}
variable {table : TypeTable}

/-! ## Parts of declarations -/

theorem resolveParameter_yields (p : Program.Parameter)
    (hs : s.Sound code) : Yields code s (resolveParameter table p) (OfKind .parameter) := by
  unfold resolveParameter
  refine (resolveType_yields hs).within.bind fun type s₁ hs₁ _ htype => ?_
  exact addDeclared_yields hs₁ htype.below rfl (by decide) trivial trivial

theorem resolveMembers_yields {members : List Program.Member}
    (hs : s.Sound code) : Yields code s (resolveMembers table members) (AllOfKind .member) :=
  fun _ _ hrun => (yields_isTypeInduction table).members _ members hrun hs

theorem resolveFunction_yields {statements : List Program.Node}
    {annotations : List String} (hs : s.Sound code)
    (hcode : code ∨ Program.AllCodeFree statements) :
    Yields code s (resolveFunction table name params returns statements annotations)
      fun t h => ∃ decl, t.node? h = some (.function decl) ∧ decl.name = name := by
  unfold resolveFunction
  have hadd : Yields code s (within ("function " ++ name) do
      let returns ← resolveReturn table returns
      openBlock
      let params ← params.mapM (resolveParameter table)
      let statements ← resolveExprs table statements
      closeBlock
      addNode (.function ⟨name, params, returns, statements, annotations⟩))
      fun t h => ∃ decl, t.node? h = some (.function decl) ∧ decl.name = name := by
    refine Yields.within ?_
    refine (resolveType_yields hs).bind fun returns' s₁ hs₁ _ hreturns => ?_
    refine (openBlock_yields hs₁).bind fun _ s₂ hs₂ he₂ _ => ?_
    refine (yields_mapM hs₂ fun p _ _ hs => resolveParameter_yields p hs).bind
      fun params' s₃ hs₃ he₃ hparams => ?_
    refine (resolveExprs_yields table statements hs₃ hcode).bind
      fun statements' s₄ hs₄ he₄ hstatements => ?_
    refine (closeBlock_yields hs₄).bind fun _ s₅ hs₅ he₅ _ => ?_
    have hfunction : (Node.function ⟨name, params', returns', statements', annotations⟩).WellFormed
        s₅.tree s₅.tree.size :=
      ⟨(hparams.extend (he₄.trans he₅)).below,
        (hreturns.extend (he₂.trans (he₃.trans (he₄.trans he₅)))).below,
        (hstatements.extend he₅).below⟩
    refine (addNode_yields hs₅ hfunction trivial).imp ?_
    rintro t h - ⟨hnode, -⟩
    exact ⟨_, hnode, rfl⟩
  refine hadd.bind fun h s₁ hs₁ _ hh => ?_
  obtain ⟨decl, hnode, hname⟩ := hh
  refine (declare_yields hs₁ (bears_of_node? hnode (by simp [Node.kind]) hname)).bind
    fun _ s₂ hs₂ he₂ _ => ?_
  exact yields_pure hs₂ ⟨decl, he₂.keeps hnode rfl, hname⟩

theorem resolveIntrinsic_yields {body : List Program.Node}
    (hs : s.Sound code) (hcode : code ∨ Program.AllCodeFree body) :
    Yields code s (resolveIntrinsic table name params body returns) (OfKind .intrinsic) := by
  unfold resolveIntrinsic
  refine Yields.within ?_
  refine (resolveType_yields hs).bind fun returns' s₁ hs₁ _ hreturns => ?_
  refine (openBlock_yields hs₁).bind fun _ s₂ hs₂ he₂ _ => ?_
  refine (yields_mapM hs₂ fun p _ _ hs => resolveParameter_yields p hs).bind
    fun params' s₃ hs₃ he₃ hparams => ?_
  refine (resolveExprs_yields table body hs₃ hcode).bind fun body' s₄ hs₄ he₄ hbody => ?_
  have hintrinsic : (Node.intrinsic ⟨name, params', body', returns'⟩).WellFormed s₄.tree
      s₄.tree.size :=
    ⟨(hparams.extend he₄).below, (hreturns.extend (he₂.trans (he₃.trans he₄))).below,
      hbody.below⟩
  refine (addNode_ofKind hs₄ hintrinsic rfl trivial).bind fun h s₅ hs₅ _ hh => ?_
  change OfKind .intrinsic s₅.tree h at hh
  refine (declareOutside_yields hs₅ (hh.bears (by decide) name)).bind fun _ s₆ hs₆ he₆ _ => ?_
  refine (closeBlock_yields hs₆).bind fun _ s₇ hs₇ he₇ _ => ?_
  exact yields_pure hs₇ (hh.extend (he₆.trans he₇))

theorem resolveResource_yields {resource : Option Program.Resource}
    (hs : s.Sound code) :
    Yields code s (resolveResource table name resource) fun t r =>
      AllOfKind .member t r.2.1 ∧ ∀ c, r.1 ≠ .unknown c := by
  unfold resolveResource
  split
  · refine (resolveMembers_yields hs).within.bind fun members s₁ hs₁ _ hmembers => ?_
    exact yields_pure hs₁ ⟨hmembers, by simp⟩
  · exact yields_pure hs ⟨.nil, by simp⟩
  · exact yields_pure hs ⟨.nil, by simp⟩
  · exact ends_throw _

theorem resolveBinding_yields {b : Program.Binding}
    (hs : s.Sound code) : Yields code s (resolveBinding table b) (OfKind .resource) := by
  unfold resolveBinding
  refine (resolveResource_yields hs).bind fun r s₁ hs₁ _ hr => ?_
  obtain ⟨kind, members, format⟩ := r
  have hbinding : (Node.binding ⟨b.name, kind, members, format, b.set, b.slot, b.read, b.write,
      b.count⟩).WellFormed s₁.tree s₁.tree.size := ⟨hr.1.below, hr.2⟩
  exact addDeclared_yields hs₁ hbinding rfl (by decide) trivial trivial

def State.reach (s : State) (decl : Program.Struct) : State :=
  { s with
    pending := s.pending.filter (· ≠ decl.name)
    registry :=
      if Program.isIntrinsicType decl.name then
        (s.registry.remove decl.name).remove (decl.name ++ "*")
      else s.registry }

theorem State.Sound.reach (hs : s.Sound code) (decl : Program.Struct) :
    (s.reach decl).Sound code := by
  refine ⟨hs.tree, ?_, hs.blocks, hs.nodes⟩
  intro entry hentry
  unfold State.reach at hentry
  dsimp only at hentry
  split at hentry
  · exact hs.registry entry (mem_of_mem_remove (mem_of_mem_remove hentry))
  · exact hs.registry entry hentry

theorem resolveStructDecl_yields {decl : Program.Struct}
    (hs : s.Sound code) : Yields code s (resolveStructDecl table decl) (OfKind .struct) := by
  unfold resolveStructDecl
  refine (yields_modify (hs.reach decl) (.refl _)).bind fun _ s₁ hs₁ _ _ => ?_
  refine (resolveStruct_yields hs₁).bind fun h s₂ hs₂ _ hh => ?_
  refine (declare_yields hs₂ hh.bears).bind fun _ s₃ hs₃ he₃ _ => ?_
  exact yields_pure hs₃ (hh.ofKind.extend he₃)

theorem resolvePlain_yields (table : TypeTable) (node : Program.Node)
    (hplain : node.IsPlain) (hs : s.Sound code) (hcode : code ∨ node.CodeFree) :
    ∃ kind, kind ≠ .scope ∧ kind ≠ .function ∧
      Yields code s (resolveDeclaration table node) (OfKind kind) := by
  unfold resolveDeclaration
  cases node with
  | scope | function => exact hplain.elim
  | struct decl => exact ⟨.struct, by decide, by decide, resolveStructDecl_yields hs⟩
  | member decl =>
    refine ⟨.member, by decide, by decide, ?_⟩
    refine (resolveType_yields hs).within.bind fun type s₁ hs₁ _ htype => ?_
    exact addDeclared_yields hs₁ htype.below rfl (by decide) trivial trivial
  | binding decl => exact ⟨.resource, by decide, by decide, resolveBinding_yields hs⟩
  | pushConstant members =>
    refine ⟨.resource, by decide, by decide, ?_⟩
    refine (resolveMembers_yields hs).within.bind fun members' s₁ hs₁ _ hmembers => ?_
    exact addDeclared_yields hs₁ hmembers.below rfl (by decide) trivial trivial
  | specialization name type =>
    refine ⟨.resource, by decide, by decide, ?_⟩
    refine (resolveType_yields hs).within.bind fun type' s₁ hs₁ _ htype => ?_
    exact addDeclared_yields hs₁ htype.below rfl (by decide) trivial trivial
  | fragment decl =>
    exact ⟨.expression, by decide, by decide,
      resolveFragment_yields hs (hcode.elim id False.elim)⟩
  | intrinsic name params body returns =>
    exact ⟨.intrinsic, by decide, by decide, resolveIntrinsic_yields hs hcode⟩
  | literal name body => exact ⟨.expression, by decide, by decide, resolveLiteral_yields hs⟩
  | parameter decl => exact ⟨.parameter, by decide, by decide, resolveParameter_yields decl hs⟩
  | placeholder =>
    exact ⟨.expression, by decide, by decide, addNode_ofKind hs trivial rfl trivial⟩
  | _ => exact ⟨.struct, by decide, by decide, ends_throw _⟩

/-! ## Scopes -/

/-- A node that a scope of an index below `n` can adopt: it exists, and a scope has an index from
`n` on. -/
def Adoptable (n : Nat) (t : Tree) (h : Handle) : Prop :=
  (t.node? h).isSome ∧ (t.kind? h = some .scope → ∃ j, n ≤ j ∧ h = some j)

theorem OfKind.adoptable {kind : Kind} (hk : OfKind kind t h) (hkind : kind ≠ .scope) (n : Nat) :
    Adoptable n t h := by
  refine ⟨Tree.isSome_of_kind? hk, fun hscope => ?_⟩
  rw [hk] at hscope
  cases hscope
  exact absurd rfl hkind

theorem Adoptable.weaken {m : Nat} (ha : Adoptable n t h) (hle : m ≤ n) : Adoptable m t h := by
  refine ⟨ha.1, fun hscope => ?_⟩
  obtain ⟨j, hj, heq⟩ := ha.2 hscope
  exact ⟨j, Nat.le_trans hle hj, heq⟩

theorem Adoptable.of_scope (ha : Adoptable t.size t' child) (hi : t.kind? (some i) = some .scope) :
    Adoptable (i + 1) t' child := by
  obtain ⟨j, hj, heq⟩ := (Tree.below_size hi).2
  cases heq
  exact ha.weaken hj

/-- The node is a child of the scope. -/
def ChildOf (t : Tree) (scope child : Handle) : Prop :=
  ∃ name children, t.node? scope = some (.scope name children) ∧ child ∈ children

theorem ChildOf.extend (he : Extends t t') (hc : ChildOf t scope child) :
    ChildOf t' scope child := by
  obtain ⟨name, children, hscope, hmem⟩ := hc
  obtain ⟨node', hnode', hgrows⟩ := he hscope
  cases hgrows with
  | same => exact ⟨name, children, hnode', hmem⟩
  | scope _ _ more => exact ⟨name, children ++ more, hnode', List.mem_append_left _ hmem⟩

theorem exists_of_adopt {scope child : Handle} {a : Unit}
    (hrun : adopt scope child s = .ok (a, s')) :
    ∃ tree, s.tree.appendChild scope child = .ok tree ∧ s' = { s with tree } := by
  unfold adopt at hrun
  split at hrun
  · rename_i tree htree
    cases hrun
    exact ⟨tree, htree, rfl⟩
  · cases hrun

theorem adopt_yields (hs : s.Sound code) (hchild : Adoptable (i + 1) s.tree child) :
    Yields code s (adopt (some i) child) fun t _ => ChildOf t (some i) child := by
  intro a s' hrun
  obtain ⟨tree, htree, rfl⟩ := exists_of_adopt hrun
  have he := Extends.appendChild htree
  obtain ⟨name, children, -, -, hnodes⟩ := Tree.appendChild_eq_ok htree
  refine ⟨⟨hs.tree.appendChild hchild.2 htree, ?_, ?_, ?_⟩, he, ?_⟩
  · intro entry hentry
    exact (hs.registry entry hentry).extend he
  · intro block hblock entry hentry
    exact (hs.blocks block hblock entry hentry).extend he
  · intro g found hg
    rw [hnodes] at hg
    split at hg
    · cases hg
      trivial
    · exact (hs.nodes hg).extend he
  · exact ⟨name, children ++ [child], by rw [hnodes]; exact if_pos rfl, by simp⟩

/-- What a declaration has become: a node to adopt, and for a function a function of its name. -/
def Becomes (n : Nat) (node : Program.Node) (t : Tree) (h : Handle) : Prop :=
  Adoptable n t h ∧ ∀ name params returns statements annotations,
    node = .function name params returns statements annotations →
      ∃ decl, t.node? h = some (.function decl) ∧ decl.name = name

theorem resolvePlain_becomes (table : TypeTable) (node : Program.Node)
    (hplain : node.IsPlain) (hs : s.Sound code) (hcode : code ∨ node.CodeFree) :
    Yields code s (resolveDeclaration table node) (Becomes n node) := by
  obtain ⟨kind, hscope, -, hyields⟩ := resolvePlain_yields table node hplain hs hcode
  refine hyields.imp fun t h _ hk => ⟨hk.adoptable hscope n, ?_⟩
  rintro _ _ _ _ _ rfl
  exact hplain.elim

mutual

theorem resolveDeclaration_yields {s : State} (table : TypeTable) (node : Program.Node)
    (hs : s.Sound code) (hcode : code ∨ node.CodeFree) :
    Yields code s (resolveDeclaration table node) (Becomes s.tree.size node) := by
  cases node with
  | scope name children =>
    rw [resolveDeclaration]
    have hscope : (Node.scope name []).WellFormed s.tree s.tree.size := List.forall_mem_nil _
    refine (addNode_yields hs hscope trivial).bind fun h s₁ hs₁ _ hh => ?_
    obtain ⟨hnode, rfl⟩ := hh
    refine (openBlock_yields hs₁).bind fun _ s₂ hs₂ he₂ _ => ?_
    refine (resolveChildren_yields table children (fun _ hact => hact.within) hs₂
      (he₂.kind? (Tree.kind?_of_node? hnode)) hcode).bind fun _ s₃ hs₃ he₃ _ => ?_
    refine (closeBlock_yields hs₃).bind fun _ s₄ hs₄ he₄ _ => ?_
    refine yields_pure hs₄ ⟨⟨?_, fun _ => ⟨_, Nat.le_refl _, rfl⟩⟩, by simp⟩
    exact (he₂.trans (he₃.trans he₄)).isSome (by rw [hnode]; rfl)
  | function name params returns statements annotations =>
    rw [resolveDeclaration]
    refine (resolveFunction_yields hs hcode).imp ?_
    rintro t h - ⟨decl, hnode, hname⟩
    refine ⟨OfKind.adoptable (Tree.kind?_of_node? hnode) (by simp [Node.kind]) _, ?_⟩
    intro _ _ _ _ _ heq
    cases heq
    exact ⟨decl, hnode, hname⟩
  | _ => exact resolvePlain_becomes table _ trivial hs hcode
termination_by structural node

theorem resolveChildren_yields {s : State} {i : Nat} (table : TypeTable)
    (nodes : List Program.Node) {place : ResolveM Handle → ResolveM Handle}
    (hplace : ∀ {s : State} {act : ResolveM Handle} (post : Tree → Handle → Prop),
      Yields code s act post → Yields code s (place act) post) (hs : s.Sound code)
    (hi : s.tree.kind? (some i) = some .scope) (hcode : code ∨ Program.AllCodeFree nodes) :
    Yields code s (resolveChildren table place (some i) nodes) fun t _ =>
      ∀ name params returns statements annotations,
        .function name params returns statements annotations ∈ nodes →
        ∃ child decl, ChildOf t (some i) child ∧ t.node? child = some (.function decl) ∧
          decl.name = name := by
  match nodes with
  | [] =>
    rw [resolveChildren]
    exact yields_pure hs (by simp)
  | node :: rest =>
    rw [resolveChildren]
    refine (hplace _ (resolveDeclaration_yields table node hs (hcode.imp_right And.left))).bind
      fun child s₁ hs₁ he₁ hchild => ?_
    obtain ⟨hadoptable, hfunction⟩ := hchild
    refine (adopt_yields hs₁ (hadoptable.of_scope hi)).bind fun _ s₂ hs₂ he₂ hmem => ?_
    refine (resolveChildren_yields table rest hplace hs₂ ((he₁.trans he₂).kind? hi)
      (hcode.imp_right And.right)).imp fun t _ he₃ hrest => ?_
    intro name params returns statements annotations hin
    rcases List.mem_cons.mp hin with heq | hin
    · obtain ⟨decl, hdecl, hname⟩ := hfunction _ _ _ _ _ heq.symm
      exact ⟨child, decl, hmem.extend he₃, (he₂.trans he₃).keeps hdecl rfl, hname⟩
    · exact hrest _ _ _ _ _ hin
termination_by structural nodes

end

/-! ## Programs -/

theorem State.Sound.initial (children : List Program.Node) :
    (State.initial children).Sound code := by
  have hroot {h : Handle} {node : Node} (hnode : Tree.empty.node? h = some node) :
      node = .scope "root" [] := by
    obtain ⟨j, hj, rfl⟩ := Tree.index_of_node? hnode
    obtain rfl : j = 0 := Nat.lt_one_iff.mp hj
    exact (Option.some.inj hnode).symm
  refine ⟨Tree.WellFormed.empty, List.forall_mem_nil _, ?_, fun h node hnode => ?_⟩
  · exact List.forall_mem_singleton.mpr (List.forall_mem_nil _)
  · rw [hroot hnode]
    trivial

/-- The last state of a resolution is sound, and the functions of the program are declarations of
its root. -/
theorem exists_sound_of_resolve {scope : Program.Scope}
    (h : resolve (some scope) table = .ok t)
    (hcode : code ∨ Program.AllCodeFree scope.children) :
    ∃ s : State, s.tree = t ∧ s.Sound code ∧
      ∀ name params returns statements annotations,
        .function name params returns statements annotations ∈ scope.children →
        ∃ child decl, ChildOf t Tree.root child ∧ t.node? child = some (.function decl) ∧
          decl.name = name := by
  unfold resolve at h
  split at h
  · cases h
  · rename_i found hfound
    cases hfound
    split at h
    · rename_i s hrun
      cases h
      obtain ⟨hs, -, hfunctions⟩ :=
        @resolveChildren_yields code _ 0 table scope.children id (fun _ hact => hact)
          (State.Sound.initial scope.children) rfl hcode () s hrun
      exact ⟨s, rfl, hs, hfunctions⟩
    · cases h

/-- The tree of a program is well formed, it has pieces of code only if the program has, and the
functions of the program are declarations of its root. -/
theorem resolve_sound {scope : Program.Scope}
    (h : resolve (some scope) table = .ok t) :
    t.WellFormed ∧
      (Program.AllCodeFree scope.children → ∀ h decl, t.node? h ≠ some (.fragment decl)) ∧
      ∀ name params returns statements annotations,
        .function name params returns statements annotations ∈ scope.children →
        ∃ child decl, ChildOf t Tree.root child ∧ t.node? child = some (.function decl) ∧
          decl.name = name := by
  obtain ⟨s, rfl, hs, hfunctions⟩ := exists_sound_of_resolve h (Or.inl trivial)
  refine ⟨hs.tree, fun hfree g decl hnode => ?_, hfunctions⟩
  obtain ⟨s', heq, hs', -⟩ := exists_sound_of_resolve h (Or.inr hfree)
  rw [← heq] at hnode
  exact hs'.nodes hnode

/-! ## The trees of programs -/

/-- The tree of every program that can be resolved is well formed, and no node of it contains
itself. -/
theorem resolve_wellFormed (root : Option Program.Scope) (table : TypeTable) (t : Tree)
    (h : resolve root table = .ok t) :
    t.WellFormed ∧ ∀ i, ¬ Relation.TransGen t.Contains i i := by
  cases root with
  | none => cases h
  | some scope =>
    have ht := (resolve_sound h).1
    exact ⟨ht, ht.acyclic⟩

/-- The tree of a scope in a scope and of a function that calls itself. -/
theorem resolve_wellFormed_sample :
    let t : Tree := ⟨#[.scope "root" [some 1, some 5], .scope "outer" [some 2], .scope "inner" [],
      .struct ⟨"void", none, [], []⟩, .call "f" none [],
      .function ⟨"f", [], some 3, [some 4], []⟩]⟩
    resolve (some (.root [.scope "outer" [.scope "inner" []],
      .function "f" [] "void" [.call "f" []] []])) .empty = .ok t ∧
      t.WellFormed ∧ ∀ i, ¬ Relation.TransGen t.Contains i i := by
  intro t
  refine ⟨?run, resolve_wellFormed _ _ _ ?run⟩
  exact resolve_of_evaluate 9 (by decide +kernel)

end Shader.Resolution
