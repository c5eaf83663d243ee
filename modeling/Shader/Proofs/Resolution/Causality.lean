import Shader.Proofs.Grammar.Composition
import Shader.Proofs.Resolution.Layout
import Shader.Proofs.Resolution.Scopes
import Shader.Proofs.Resolution.Twins

/-!
# Earlier declarations do not see later ones

The beginning of a program is resolved in the same way whatever follows it. A struct that is
declared further down is in the table already, but it is not visible until it is reached, and once
it has a node the table is not asked for it.
-/

namespace Shader.Resolution

open Arena Program.TypeName
open Program (TypeTable)

variable {s s' : State} {decl : Program.Struct} {name : String} {more nodes : List Program.Node}
  {scope : Program.Scope}
variable {table : TypeTable}

/-! ## Declarations -/

/-- Two states between declarations. The structs that have been reached have their nodes. -/
structure Abreast (reached : List String) (table₁ table₂ : TypeTable) (s₁ s₂ : State) :
    Prop where
  alike : Alike s₁ s₂
  left : Reads reached table₁ s₁.pending
  right : Reads reached table₂ s₂.pending
  registered : ∀ name ∈ reached, s₁.registry.lookup? name ≠ none

theorem adopt_blind (scope child : Handle) : Blind (adopt scope child) := by
  intro s₁ s₂ ha
  unfold Twins adopt
  rw [ha.tree]
  cases s₂.tree.appendChild scope child with
  | ok tree => exact .ok ⟨⟨rfl, ha.registry, ha.blocks⟩, ⟨rfl, fun _ h => h⟩, ⟨rfl, fun _ h => h⟩⟩
  | error e => exact .error _

section Declarations

variable {reached : List String} {table₁ table₂ : TypeTable} {s₁ s₂ : State}

theorem Abreast.peers (hb : Abreast reached table₁ table₂ s₁ s₂) :
    Peers reached table₁ table₂ s₁ s₂ where
  alike := hb.alike
  left := hb.left
  right := hb.right
  busy name hname hnone := absurd hnone (hb.registered name hname)
  intrinsic _ hdecl _ := iff_of_true (mem_structNames_of_intrinsic table₁ hdecl)
    (mem_structNames_of_intrinsic table₂ hdecl)

theorem Abreast.mono {s₁' s₂' : State} (hb : Abreast reached table₁ table₂ s₁ s₂)
    (ha : Alike s₁' s₂') (hg₁ : Grown s₁ s₁') (hg₂ : Grown s₂ s₂') :
    Abreast reached table₁ table₂ s₁' s₂' where
  alike := ha
  left := hg₁.pending ▸ hb.left
  right := hg₂.pending ▸ hb.right
  registered name hname hnone := hb.registered name hname (hg₁.keeps name hnone)

theorem Twins.abreast {α : Type} {x₁ x₂ : ResolveM α} (hx : Twins s₁ s₂ x₁ x₂)
    (hb : Abreast reached table₁ table₂ s₁ s₂) :
    Paired (Abreast reached table₁ table₂) (x₁ s₁) (x₂ s₂) :=
  hx.imp fun _ _ ⟨ha, hg₁, hg₂⟩ => hb.mono ha hg₁ hg₂

theorem Reads.reach (hr : Reads reached table s.pending) (hdecl : decl ∈ table.structs) :
    Reads (decl.name :: reached) table (s.reach decl).pending where
  named := hr.named
  declared := List.forall_mem_cons.mpr ⟨List.mem_map_of_mem hdecl, hr.declared⟩
  pending name := by
    change name ∈ s.pending.filter (· ≠ decl.name) ↔ _
    rw [List.mem_filter, hr.pending name, List.mem_cons]
    simp only [decide_eq_true_eq, not_or]
    constructor
    · rintro ⟨⟨hmem, hnot⟩, hne⟩
      exact ⟨hmem, hne, hnot⟩
    · rintro ⟨hmem, hne, hnot⟩
      exact ⟨⟨hmem, hnot⟩, hne⟩

theorem lookup?_reach (hplain : PlainName name) (hne : name ≠ decl.name) :
    (s.reach decl).registry.lookup? name = s.registry.lookup? name := by
  unfold State.reach
  dsimp only
  split
  · rw [Registry.lookup?_remove, Registry.lookup?_remove, if_neg (hplain.ne_star _).symm,
      if_neg hne.symm]
  · rfl

theorem structHandle_registers {names : List String} {h : Handle}
    (hrun : structHandle table names decl s = .ok (h, s')) :
    s'.registry.lookup? decl.name ≠ none := by
  cases hl : s.registry.lookup? decl.name with
  | some found =>
    rw [structHandle_known hl] at hrun
    cases hrun
    rw [hl]
    simp
  | none =>
    by_cases hmem : decl.name ∈ names
    · rw [structHandle, run_get, hl] at hrun
      dsimp only at hrun
      rw [dif_pos hmem] at hrun
      obtain ⟨fields, s₁, -, hrun⟩ := run_bind_eq_ok hrun
      obtain ⟨shared, s₂, hshared, hrun⟩ := run_bind_eq_ok hrun
      have hregistered : s₂.registry.lookup? decl.name ≠ none := by
        rcases sharedStruct_run hshared with ⟨hfound, rfl⟩ | ⟨-, -, rfl⟩
        · rw [hfound]
          simp
        · rw [Registry.lookup?_assign, if_pos rfl]
          simp
      cases hrun
      exact fun hnone => hregistered (lookup?_of_assign hnone)
    · rw [structHandle_busy hl hmem] at hrun
      cases hrun

theorem Paired.and_left {α : Type} {post : State → State → Prop} {Q : State → Prop}
    {r₁ r₂ : Except ResolveError (α × State)} (h : Paired post r₁ r₂)
    (hleft : ∀ a s, r₁ = .ok (a, s) → Q s) : Paired (fun s₁ s₂ => post s₁ s₂ ∧ Q s₁) r₁ r₂ := by
  cases h with
  | ok h => exact .ok ⟨h, hleft _ _ rfl⟩
  | error e => exact .error e

theorem Abreast.mates_reach (hb : Abreast reached table₁ table₂ s₁ s₂) (h₁ : decl ∈ table₁.structs)
    (h₂ : decl ∈ table₂.structs) :
    Mates (decl.name :: reached) table₁ table₂ ((structNames table₁).filter (· ≠ decl.name))
      ((structNames table₂).filter (· ≠ decl.name)) (s₁.reach decl) (s₂.reach decl) where
  alike := by
    refine ⟨hb.alike.tree, ?_, hb.alike.blocks⟩
    unfold State.reach
    rw [hb.alike.registry]
  left := hb.left.reach h₁
  right := hb.right.reach h₂
  busy name hname hnone := by
    by_cases hne : name = decl.name
    · subst hne
      simp
    · have hreached := (List.mem_cons.mp hname).resolve_left hne
      obtain ⟨other, hother, rfl⟩ := List.mem_map.mp (hb.left.declared name hreached)
      have hplain := plainName_of_isIdentifier (hb.left.named other hother)
      rw [lookup?_reach hplain hne] at hnone
      exact absurd hnone (hb.registered _ hreached)
  intrinsic other hother hnot := by
    have hne : decide (other.name ≠ decl.name) = true :=
      decide_eq_true fun heq => hnot (heq ▸ (.head _))
    exact iff_of_true
      (List.mem_filter.mpr ⟨mem_structNames_of_intrinsic table₁ hother, hne⟩)
      (List.mem_filter.mpr ⟨mem_structNames_of_intrinsic table₂ hother, hne⟩)

theorem resolveStructDecl_paired (hfields : ∀ m ∈ decl.fields, Program.IsTypeName m.type)
    (hb : Abreast reached table₁ table₂ s₁ s₂) (h₁ : decl ∈ table₁.structs)
    (h₂ : decl ∈ table₂.structs) :
    Paired (Abreast (decl.name :: reached) table₁ table₂) (resolveStructDecl table₁ decl s₁)
      (resolveStructDecl table₂ decl s₂) := by
  have hm := hb.mates_reach h₁ h₂
  change Paired _
    ((resolveStruct table₁ decl >>= fun h => declare decl.name h >>= fun _ => pure h)
      (s₁.reach decl))
    ((resolveStruct table₂ decl >>= fun h => declare decl.name h >>= fun _ => pure h)
      (s₂.reach decl))
  have hstruct := (resolveStruct_twins decl hfields hm).and_left
    fun _ _ hrun => structHandle_registers hrun
  refine hstruct.bind fun h s₁' s₂' ⟨⟨ha, hg₁, hg₂⟩, hregistered⟩ => ?_
  have hb' : Abreast (decl.name :: reached) table₁ table₂ s₁' s₂' := by
    refine ⟨ha, hg₁.pending ▸ hm.left, hg₂.pending ▸ hm.right, fun name hname hnone => ?_⟩
    by_cases hne : name = decl.name
    · exact hregistered (hne ▸ hnone)
    · have hmem := (hm.busy name hname (hg₁.keeps name hnone)).1
      refine hmem (List.mem_filter.mpr ⟨?_, decide_eq_true hne⟩)
      exact List.mem_append_left _ (hm.left.declared name hname)
  exact Twins.abreast (((declare_blind decl.name h).bind fun _ => blind_pure h) ha) hb'

theorem resolveFunction_twins {returns : String} {statements : List Program.Node}
    {annotations : List String} (hreturns : Program.IsTypeName returns)
    (hstatements : ∀ node ∈ statements, Program.IsExpression node)
    (hm : Peers reached table₁ table₂ s₁ s₂) :
    Twins s₁ s₂ (resolveFunction table₁ name [] returns statements annotations)
      (resolveFunction table₂ name [] returns statements annotations) := by
  have htype : Program.IsTypeName (if returns = "" then "void" else returns) := by
    split
    · exact .plain (by decide)
    · exact hreturns
  unfold resolveFunction
  refine Twins.bind (Twins.within ?_) fun h _ _ ha _ _ =>
    (declare_blind name h).bind (fun _ => blind_pure h) ha
  refine (typeHandle_twins _ htype hm).bind fun type _ _ ha₁ hg₁ hg₁' => ?_
  refine (openBlock_blind ha₁).bind fun _ _ _ ha₂ hg₂ hg₂' => ?_
  rw [List.mapM_nil, List.mapM_nil, pure_bind, pure_bind]
  have hm₂ := (hm.mono ha₁ hg₁ hg₁').mono ha₂ hg₂ hg₂'
  refine (resolveExprs_twins statements hstatements hm₂).bind fun body _ _ ha₃ _ _ => ?_
  exact closeBlock_blind.bind (fun _ => addNode_blind _) ha₃

/-- A declaration of the grammar in two programs that hold it. -/
theorem resolveDeclaration_paired {node : Program.Node} (hnode : node.IsDeclaration)
    (hb : Abreast reached table₁ table₂ s₁ s₂)
    (h₁ : ∀ decl, node = .struct decl → decl ∈ table₁.structs)
    (h₂ : ∀ decl, node = .struct decl → decl ∈ table₂.structs) :
    Paired (fun s₁' s₂' => ∃ reached, Abreast reached table₁ table₂ s₁' s₂')
      (resolveDeclaration table₁ node s₁) (resolveDeclaration table₂ node s₂) := by
  cases node with
  | struct decl =>
    rw [resolveDeclaration, resolveDeclaration]
    exact (resolveStructDecl_paired (fun m hmember => (hnode.2.2 m hmember).2.1) hb (h₁ decl rfl)
      (h₂ decl rfl)).imp fun _ _ hb' => ⟨_, hb'⟩
  | member decl =>
    rw [resolveDeclaration, resolveDeclaration]
    refine (Twins.abreast ?_ hb).imp fun _ _ hb' => ⟨_, hb'⟩
    exact (typeHandle_twins decl.type hnode.2.2.1 hb.peers).within.bind
      fun _ _ _ ha _ _ => addDeclared_blind _ decl.name ha
  | function name params returns statements annotations =>
    obtain ⟨-, -, rfl, hreturns, hstatements⟩ := hnode
    rw [resolveDeclaration, resolveDeclaration]
    exact ((resolveFunction_twins hreturns hstatements hb.peers).abreast hb).imp
      fun _ _ hb' => ⟨_, hb'⟩
  | _ => exact hnode.elim

/-- The beginning of two programs. -/
theorem resolveChildren_paired {scope : Handle} (hnodes : ∀ node ∈ nodes, node.IsDeclaration)
    (hb : Abreast reached table₁ table₂ s₁ s₂)
    (h₁ : ∀ decl, .struct decl ∈ nodes → decl ∈ table₁.structs)
    (h₂ : ∀ decl, .struct decl ∈ nodes → decl ∈ table₂.structs) :
    Paired Alike (resolveChildren table₁ id scope nodes s₁)
      (resolveChildren table₂ id scope nodes s₂) := by
  induction nodes generalizing reached s₁ s₂ with
  | nil =>
    rw [resolveChildren, resolveChildren]
    exact .ok hb.alike
  | cons node nodes ih =>
    obtain ⟨hnode, hrest⟩ := List.forall_mem_cons.mp hnodes
    rw [resolveChildren, resolveChildren]
    have hfirst := resolveDeclaration_paired hnode hb
      (fun decl heq => h₁ decl (heq ▸ (.head _)))
      fun decl heq => h₂ decl (heq ▸ (.head _))
    refine hfirst.bind fun child s₁' s₂' ⟨reached', hb'⟩ => ?_
    refine ((adopt_blind scope child hb'.alike).abreast hb').bind fun _ s₁'' s₂'' hb'' => ?_
    exact ih hrest hb'' (fun decl hdecl => h₁ decl (.tail _ hdecl))
      fun decl hdecl => h₂ decl (.tail _ hdecl)

end Declarations

/-! ## Programs -/

theorem resolveChildren_append
    {place : ResolveM Handle → ResolveM Handle} {scope : Handle} (nodes more : List Program.Node) :
    resolveChildren table place scope (nodes ++ more) = (do
      resolveChildren table place scope nodes
      resolveChildren table place scope more) := by
  induction nodes with
  | nil =>
    rw [List.nil_append, resolveChildren, pure_bind]
  | cons node nodes ih =>
    rw [List.cons_append, resolveChildren, resolveChildren, ih]
    simp only [bind_assoc]

theorem Reads.initial (hnodes : ∀ node ∈ nodes, node.IsDeclaration) :
    Reads [] ⟨Program.structsOfAll nodes⟩ (State.initial nodes).pending := by
  have hroot : ∀ node ∈ nodes, node.IsRoot := fun node hnode => Or.inr (hnodes node hnode)
  refine ⟨plainTable_of_isRoot hroot, nofun, fun name => ?_⟩
  refine ⟨fun hmem => ⟨?_, List.not_mem_nil⟩, fun ⟨hmem, _⟩ => ?_⟩
  · obtain ⟨node, hnode, hname⟩ := List.mem_filterMap.mp hmem
    cases node with
    | struct decl =>
      cases hname
      exact List.mem_map_of_mem ((Program.mem_structsOfAll hroot).mpr hnode)
    | _ => cases hname
  · obtain ⟨decl, hdecl, rfl⟩ := List.mem_map.mp hmem
    exact mem_declaredStructs hroot hdecl

theorem abreast_initial (hnodes : ∀ node ∈ nodes, node.IsDeclaration)
    (hmore : ∀ node ∈ more, node.IsDeclaration) :
    Abreast [] ⟨Program.structsOfAll nodes⟩ ⟨Program.structsOfAll more⟩ (State.initial nodes)
      (State.initial more) :=
  ⟨⟨rfl, rfl, rfl⟩, .initial hnodes, .initial hmore, nofun⟩

/-- The second tree has the nodes of the first, and its root has further children. -/
def Continues (t t' : Tree) : Prop :=
  (∀ h node, h ≠ Tree.root → t.node? h = some node → t'.node? h = some node) ∧
    t.rootChildren <+: t'.rootChildren

theorem continues_of_run {before children : List Program.Node}
    (hbefore : resolveChildren table id Tree.root before (State.initial children) = .ok ((), s))
    (hrun : resolveChildren table id Tree.root nodes s = .ok ((), s')) :
    Continues s.tree s'.tree := by
  obtain ⟨hs, -, -⟩ := resolveChildren_yields table before (fun _ hact => hact)
    (.initial children) rfl (Or.inl trivial) () s hbefore
  obtain ⟨-, old, hold, -⟩ := resolveChildren_mirrors table before (fun _ _ _ hact => hact)
    (.initial children) rfl hbefore
  obtain ⟨hkeeps, new, hnew, -⟩ := resolveChildren_mirrors table nodes (fun _ _ _ hact => hact)
    hs hold hrun
  refine ⟨fun h node hne hnode => hkeeps hne hnode, ?_⟩
  simp only [Tree.rootChildren, Tree.scope?, Tree.root, hold, hnew]
  exact List.prefix_append _ new

/-- Declarations after a program. -/
theorem resolve_append (hscope : ∀ node ∈ scope.children, node.IsDeclaration)
    (hmore : ∀ node ∈ more, node.IsDeclaration) :
    (∀ e, resolve (some scope) scope.table = .error e →
      resolve (some (scope.append more)) (scope.append more).table = .error e) ∧
    ∀ t t', resolve (some scope) scope.table = .ok t →
      resolve (some (scope.append more)) (scope.append more).table = .ok t' → Continues t t' := by
  have hroot : ∀ node ∈ scope.children, node.IsRoot := fun node hnode => Or.inr (hscope node hnode)
  have hmem (decl : Program.Struct) (hdecl : .struct decl ∈ scope.children) :
      decl ∈ Program.structsOfAll scope.children := (Program.mem_structsOfAll hroot).mpr hdecl
  have hmem' (decl : Program.Struct) (hdecl : .struct decl ∈ scope.children) :
      decl ∈ Program.structsOfAll (scope.children ++ more) := by
    rw [Program.structsOfAll_append]
    exact List.mem_append_left _ (hmem decl hdecl)
  have hpaired : Paired Alike
      (resolveChildren scope.table id Tree.root scope.children (State.initial scope.children))
      (resolveChildren (scope.append more).table id Tree.root scope.children
        (State.initial (scope.children ++ more))) :=
    resolveChildren_paired hscope
      (abreast_initial hscope (List.forall_mem_append.mpr ⟨hscope, hmore⟩)) hmem hmem'
  have hall : (scope.append more).children = scope.children ++ more := rfl
  refine ⟨fun e herror => ?_, fun t t' hok hok' => ?_⟩
  · rw [resolve_eq_error_iff] at herror ⊢
    rw [hall, resolveChildren_append]
    exact run_bind_error (hpaired.of_error herror)
  · obtain ⟨s₁, hrun₁, rfl⟩ := resolve_eq_ok_iff.mp hok
    obtain ⟨s', hrun', rfl⟩ := resolve_eq_ok_iff.mp hok'
    rw [hall, resolveChildren_append] at hrun'
    obtain ⟨_, s₂, hrun₂, hrest⟩ := run_bind_eq_ok hrun'
    obtain ⟨_, hbefore, halike⟩ := hpaired.of_ok hrun₁
    cases hbefore.symm.trans hrun₂
    rw [halike.tree]
    exact continues_of_run hrun₂ hrest

/-- Resolution is causal. A program that fails to resolve fails in the same way with any
declarations after it; and the tree of one that can be resolved is the beginning of the tree with
those declarations. -/
theorem resolve_causal (ts us : List String) (root all : Program.Scope)
    (hroot : Program.parse ts = .ok root) (hall : Program.parse (ts ++ us) = .ok all) :
    (∀ e, resolve (some root) root.table = .error e → resolve (some all) all.table = .error e) ∧
    ∀ t t', resolve (some root) root.table = .ok t → resolve (some all) all.table = .ok t' →
      (∀ h node, h ≠ Tree.root → t.node? h = some node → t'.node? h = some node) ∧
      t.rootChildren <+: t'.rootChildren := by
  have happend := Program.parse_append_of_ok hroot us
  rw [hall] at happend
  cases hus : Program.parse us with
  | error e =>
    rw [hus] at happend
    cases happend
  | ok more =>
    rw [hus] at happend
    cases happend
    exact resolve_append (Program.normal_of_parse hroot).1.2 (Program.normal_of_parse hus).1.2

/-- A member keeps the intrinsic type of its name, though a later struct takes its place. -/
theorem resolve_causal_sample :
    let ts := ["a", ":", "f32", ";"]
    let us := ["f32", ":", "struct", "\x7b", "\x7d"]
    let root : Program.Scope := .root [.member ⟨"a", "f32", 0, []⟩]
    let all := root.append [.struct ⟨"f32", [], []⟩]
    let t : Tree := ⟨#[.scope "root" [some 2], .struct ⟨"f32", none, [], []⟩,
      .member ⟨"a", some 1, 0, []⟩]⟩
    let t' : Tree := ⟨#[.scope "root" [some 2, some 3], .struct ⟨"f32", none, [], []⟩,
      .member ⟨"a", some 1, 0, []⟩, .struct ⟨"f32", none, [], []⟩]⟩
    (Program.parse ts = .ok root ∧ Program.parse (ts ++ us) = .ok all ∧
      resolve (some root) root.table = .ok t ∧ resolve (some all) all.table = .ok t') ∧
    (∀ h node, h ≠ Tree.root → t.node? h = some node → t'.node? h = some node) ∧
      t.rootChildren <+: t'.rootChildren := by
  intro ts us root all t t'
  have hmember : (Program.Node.member ⟨"a", "f32", 0, []⟩).IsDeclaration :=
    ⟨by decide, nofun, .plain (by decide), by decide⟩
  have hstruct : (Program.Node.struct ⟨"f32", [], []⟩).IsDeclaration := ⟨by decide, nofun, nofun⟩
  have hroot : Program.parse ts = .ok root :=
    @Program.parse_tokens root ⟨rfl, List.forall_mem_singleton.mpr hmember⟩
  have hall : Program.parse (ts ++ us) = .ok all :=
    @Program.parse_tokens all ⟨rfl, List.forall_mem_cons.mpr ⟨hmember,
      List.forall_mem_singleton.mpr hstruct⟩⟩
  have hok : resolve (some root) root.table = .ok t :=
    resolve_of_evaluate 9 (by decide +kernel)
  have hok' : resolve (some all) all.table = .ok t' :=
    resolve_of_evaluate 9 (by decide +kernel)
  exact ⟨⟨hroot, hall, hok, hok'⟩, (resolve_causal ts us root all hroot hall).2 t t' hok hok'⟩

end Shader.Resolution
