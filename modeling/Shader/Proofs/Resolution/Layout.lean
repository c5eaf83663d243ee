import Shader.Proofs.Resolution.Bodies
import Shader.Proofs.Resolution.Program

/-!
# The layout of a resolved program

A program of declarations of the grammar and of resources is resolved to a tree whose root has one
child for each of them. What a child is depends on the declaration and on the names declared before
it; which nodes stand in between does not matter.
-/

namespace Shader.Program

variable {decl : Struct} {nodes : List Node}

/-- Whether the node declares a resource of the shader or a value that passes between stages. -/
def Node.isResource : Node → Bool
  | .member _ => true
  | .binding _ => true
  | .pushConstant _ => true
  | .specialization .. => true
  | _ => false

def Node.isStruct : Node → Bool
  | .struct _ => true
  | _ => false

/-- Whether the node can be a declaration of a program here: it is one of the grammar, or a
resource. -/
def Node.IsRoot (node : Node) : Prop := node.isResource = true ∨ node.IsDeclaration

/-- No declaration takes the place of an intrinsic type. -/
def KeepsIntrinsics (nodes : List Node) : Prop :=
  ∀ decl ∈ structsOfAll nodes, isIntrinsicType decl.name = false

/-- The struct is the first of its name, counted from the intrinsic types. -/
def Canonical (nodes : List Node) (decl : Struct) : Prop :=
  (intrinsicTypes ++ structsOfAll nodes).find? (·.name = decl.name) = some decl

/-- What is known about the structs of a program. -/
structure Admits (nodes : List Node) (decl : Struct) : Prop where
  declared : decl ∈ intrinsicTypes ∨ decl ∈ structsOfAll nodes
  canonical : KeepsIntrinsics nodes → Canonical nodes decl

theorem mem_structsOfAll (hroot : ∀ node ∈ nodes, node.IsRoot) :
    decl ∈ structsOfAll nodes ↔ .struct decl ∈ nodes := by
  induction nodes with
  | nil => exact ⟨nofun, nofun⟩
  | cons node nodes ih =>
    obtain ⟨hnode, hnodes⟩ := List.forall_mem_cons.mp hroot
    have hfirst : decl ∈ node.structs ↔ .struct decl = node := by
      cases node with
      | scope => exact absurd (hnode.resolve_left nofun) id
      | _ => simp [Node.structs]
    rw [structsOfAll, List.mem_append, List.mem_cons, ih hnodes, hfirst]

theorem canonical_of_intrinsic (h : decl ∈ intrinsicTypes) : Canonical nodes decl := by
  have hfirst : ∀ decl ∈ intrinsicTypes,
      intrinsicTypes.find? (·.name = decl.name) = some decl := by decide
  unfold Canonical
  rw [List.find?_append, hfirst decl h]
  rfl

theorem canonical_of_first {before after : List Node}
    (hintrinsic : isIntrinsicType decl.name = false)
    (hbefore : ∀ other ∈ structsOfAll before, other.name ≠ decl.name) :
    Canonical (before ++ .struct decl :: after) decl := by
  have hnone : intrinsicTypes.find? (·.name = decl.name) = none := by
    simpa [isIntrinsicType, intrinsicType?] using hintrinsic
  have hnone' : (structsOfAll before).find? (·.name = decl.name) = none := by
    rw [List.find?_eq_none]
    intro other hother
    simpa using hbefore other hother
  unfold Canonical
  rw [structsOfAll_append, List.find?_append, List.find?_append, hnone, hnone']
  simp [structsOfAll, Node.structs]

end Shader.Program

namespace Shader.Resolution

open Arena Program

/-! ## Declarations and their nodes -/

/-- The class, members and format of a resource. -/
inductive IsResource (v : View) :
    Option Program.Resource → BindingKind → List Handle → String → Prop
  | buffer {members hs} (hmembers : List.Forall₂ (IsMember v.types v.tree) members hs) :
      IsResource v (some (.buffer members)) .buffer hs ""
  | image (format : String) : IsResource v (some (.image format)) .image [] format
  | sampler (format : String) :
      IsResource v (some (.combinedImageSampler format)) .combinedImageSampler [] format

/-- The node stands for the declaration. The struct of a name can be shared with other
declarations; every other declaration has a node of its own. -/
inductive Placed (v : View) : Program.Node → Handle → Prop
  | struct {decl : Program.Struct} {h : Handle} (htype : v.types decl.name h) :
      Placed v (.struct decl) h
  | member {decl : Program.Member} {h : Handle} (hmember : IsMember v.types v.tree decl h) :
      Placed v (.member decl) h
  | function {name returns statements annotations type h hs ms}
      (hnode : v.tree.node? h = some (.function ⟨name, [], type, hs, annotations⟩))
      (htype : v.types returns type) (hbody : RepresentsAll v [] statements hs)
      (hmentions : MentionsAll v.tree statements hs ms) (hscoped : Scoped v.tree [] v.outer ms) :
      Placed v (.function name [] returns statements annotations) h
  | binding {b kind hs format h}
      (hnode : v.tree.node? h = some (.binding ⟨b.name, kind, hs, format, b.set, b.slot, b.read,
        b.write, b.count⟩))
      (hresource : IsResource v b.resource kind hs format) : Placed v (.binding b) h
  | pushConstant {members hs h} (hnode : v.tree.node? h = some (.pushConstant hs))
      (hmembers : List.Forall₂ (IsMember v.types v.tree) members hs) :
      Placed v (.pushConstant members) h
  | specialization {name type typeHandle h}
      (hnode : v.tree.node? h = some (.specialization name typeHandle))
      (htype : v.types type typeHandle) : Placed v (.specialization name type) h

/-- The nodes stand for the declarations, of which each sees those before it. `n` is below the
handles of all declarations but structs. -/
inductive Layout (t : Tree) (G : String → Handle → Prop) :
    Nat → Block → List Program.Node → List Handle → Prop
  | nil {n outer} : Layout t G n outer [] []
  | cons {n n' : Nat} {outer : Block} {node : Program.Node} {nodes : List Program.Node}
      {h : Handle} {hs : List Handle} (hplaced : Placed ⟨t, G, outer⟩ node h) (hle : n ≤ n')
      (hfresh : node.isStruct = false → ∃ k, h = some k ∧ n ≤ k ∧ k < n')
      (hrest : Layout t G n' (outer.declare node.name h) nodes hs) :
      Layout t G n outer (node :: nodes) (h :: hs)

variable {resource : Option Program.Resource} {hs : List Handle} {t : Tree} {format name : String}
  {h : Handle} {n : Nat} {node : Program.Node} {kind : BindingKind}
variable {decl : Program.Struct} {rest nodes : List Program.Node}

section Growth

variable {v v' : View}

theorem View.Grows.members (hv : v.Grows v') {members : List Program.Member}
    (h : List.Forall₂ (IsMember v.types v.tree) members hs) :
    List.Forall₂ (IsMember v'.types v'.tree) members hs :=
  h.imp fun _ _ hm => hm.mono hv.tree hv.types

theorem IsResource.grow (hv : v.Grows v') (hr : IsResource v resource kind hs format) :
    IsResource v' resource kind hs format := by
  cases hr with
  | buffer hmembers => exact .buffer (hv.members hmembers)
  | image => exact .image format
  | sampler => exact .sampler format

theorem Placed.grow (hv : v.Grows v') (hp : Placed v node h) :
    Placed v' node h := by
  cases hp with
  | struct htype => exact .struct (hv.types _ _ htype)
  | member hmember => exact .member (hmember.mono hv.tree hv.types)
  | function hnode htype hbody hmentions hscoped =>
    rw [← hv.outer] at hscoped
    exact .function (hv.node? hnode rfl) (hv.types _ _ htype) (hbody.grow hv)
      (hmentions.extend hv.tree) (hscoped.extend hv.tree)
  | binding hnode hresource =>
    exact .binding (hv.node? hnode rfl) (hresource.grow hv)
  | pushConstant hnode hmembers =>
    exact .pushConstant (hv.node? hnode rfl) (hv.members hmembers)
  | specialization hnode htype =>
    exact .specialization (hv.node? hnode rfl) (hv.types _ _ htype)

end Growth

/-! ## Declarations other than structs -/

section Declarations

variable {Ok : Program.Struct → Prop} {table : TypeTable} {G : String → Handle → Prop}
  {s s₁ : State} {outer : Block}

theorem gives_blocks {g : State → State} (hs : Typed Ok G s) (hsound : (g s).Sound False)
    (htree : (g s).tree = s.tree) (hregistry : (g s).registry = s.registry)
    (hpending : (g s).pending = s.pending) : Gives Ok G s (modify g) fun s' _ => s' = g s := by
  intro a s' hrun
  cases hrun
  refine ⟨⟨hs.of_lookup hsound htree fun key => by rw [hregistry], ?_, ?_, hpending⟩, rfl⟩
  · intro h node hnode
    rwa [htree]
  · intro key h hl
    rwa [hregistry]

theorem openBlock_gives (hs : Typed Ok G s) :
    Gives Ok G s openBlock fun s' _ => s'.blocks = [] :: s.blocks := by
  have hsound := (openBlock_yields hs.sound _ _ rfl).1
  refine (gives_blocks hs hsound rfl rfl rfl).imp ?_
  rintro s' a - rfl
  rfl

theorem closeBlock_gives (hs : Typed Ok G s) :
    Gives Ok G s closeBlock fun s' _ => s'.blocks = s.blocks.tail := by
  have hsound := (closeBlock_yields hs.sound _ _ rfl).1
  refine (gives_blocks hs hsound rfl rfl rfl).imp ?_
  rintro s' a - rfl
  rfl

/-- The handle is of a node that was added after the first `n`. -/
def IsNew (n : Nat) (t : Tree) (h : Handle) : Prop := ∃ k, h = some k ∧ n ≤ k ∧ k < t.size

/-- What the resolution of a declaration leads to: its node, and a block with its name. -/
structure Settles (G : String → Handle → Prop) (outer : Block) (n : Nat) (node : Program.Node)
    (s : State) (h : Handle) : Prop where
  blocks : s.blocks = [outer.declare node.name h]
  placed : Placed (s.view G outer) node h
  fresh : node.isStruct = false → IsNew n s.tree h

theorem resolveMembers_gives {members : List Program.Member} (hs : Typed Ok G s)
    (hr : Ready Ok table outer s) :
    Gives Ok G s (resolveMembers table members) fun s' hs' =>
      List.Forall₂ (IsMember (Known G s') s'.tree) members hs' ∧ s'.blocks = s.blocks :=
  memberHandles_gives hr.plain _ members hs hr.creates

theorem declareAdded_gives {node : Arena.Node} (hs : Typed Ok G s) (hblocks : s.blocks = [outer])
    (hnode : s.tree.node? h = some node) (hbears : Bears s.tree name h) :
    Gives Ok G s (do declare name h; return h) fun s' h' =>
      h' = h ∧ s'.blocks = [outer.declare name h] ∧ s'.tree.node? h = some node := by
  refine (declare_gives hs hbears).bind fun _ s₁ h₁ ⟨htree, hblocks₁⟩ => ?_
  exact gives_pure h₁.typed ⟨rfl, hblocks₁ _ _ hblocks, by rw [htree, hnode]⟩

theorem addDeclared_gives {node : Arena.Node} (hs : Typed Ok G s) (hblocks : s.blocks = [outer])
    (hnode : node.WellFormed s.tree s.tree.size) (hsuits : Suits False s.tree node)
    (hdirect : IsDirect node) (hkind : node.kind ≠ .scope) (hnamed : Named name node) :
    Gives Ok G s (do let h ← addNode node; declare name h; return h) fun s' h =>
      s'.blocks = [outer.declare name h] ∧ s'.tree.node? h = some node ∧
        IsNew s.tree.size s'.tree h := by
  refine (addNode_gives hs hnode hsuits hdirect).bind fun h s₁ h₁ ⟨hadded, hsize, hblocks₁⟩ => ?_
  refine (declareAdded_gives h₁.typed (hblocks₁.trans hblocks) hadded
    (bears_of_node? hadded hkind hnamed)).imp ?_
  rintro s₂ h' h₂ ⟨rfl, hblocks₂, hnode₂⟩
  subst hsize
  exact ⟨hblocks₂, hnode₂, _, rfl, Nat.le_refl _, Tree.lt_size_of_node? hnode₂⟩

theorem IsNew.mono {n' : Nat} (hn : IsNew n t h) (hle : n' ≤ n) : IsNew n' t h := by
  obtain ⟨k, rfl, hk, hlt⟩ := hn
  exact ⟨k, rfl, Nat.le_trans hle hk, hlt⟩

theorem ne_empty_of_isTypeName {type : String} (h : IsTypeName type) : type ≠ "" := by
  have happend (a b : String) (hb : b ≠ "") : a ++ b ≠ "" := by
    intro heq
    exact hb (String.append_eq_empty_iff.mp heq).2
  cases h with
  | plain hname => exact ne_of_isIdentifier hname rfl
  | generic | pointer => exact happend _ _ (by decide)

theorem view_grows_of_blocks (hs : Typed Ok G s) (hblocks : s.blocks = [outer])
    (h : Steps Ok G s s₁) : (s.view G outer).Grows (s₁.view G outer) := by
  refine ⟨h.grows, h.known, rfl, fun name g hl => ?_⟩
  exact (hs.sound.blocks outer (by rw [hblocks]; simp) _ (Block.mem_of_latest? hl)).1

theorem resolveFunction_gives {returns : String} {statements : List Program.Node}
    {annotations : List String} (hs : Typed Ok G s) (hr : Ready Ok table outer s)
    (hblocks : s.blocks = [outer]) (hreturns : IsTypeName returns)
    (hstatements : ∀ node ∈ statements, IsExpression node) :
    Gives Ok G s (resolveFunction table name [] returns statements annotations)
      (Settles G outer s.tree.size (.function name [] returns statements annotations)) := by
  unfold resolveFunction
  have hadd : Gives Ok G s (within ("function " ++ name) do
      let returns ← resolveReturn table returns
      openBlock
      let params ← [].mapM (resolveParameter table)
      let statements ← resolveExprs table statements
      closeBlock
      addNode (.function ⟨name, params, returns, statements, annotations⟩)) fun s' h =>
        s'.blocks = [outer] ∧ (∃ type hs ms, s'.tree.node? h =
          some (.function ⟨name, [], type, hs, annotations⟩) ∧ Known G s' returns type ∧
          RepresentsAll (s'.view G outer) [] statements hs ∧
          MentionsAll s'.tree statements hs ms ∧ Scoped s'.tree [] outer ms) ∧
          IsNew s.tree.size s'.tree h := by
    refine Gives.within ?_
    unfold resolveReturn
    rw [if_neg (ne_empty_of_isTypeName hreturns)]
    refine (resolveType_gives hs hr).bind fun type s₁ h₁ hpost => ?_
    obtain ⟨htype, hblocks₁⟩ := hpost
    refine (openBlock_gives h₁.typed).bind fun _ s₂ h₂ hblocks₂ => ?_
    rw [List.mapM_nil, pure_bind]
    have hb₂ : InBody s₂ [] outer := ⟨by rw [hblocks₂, hblocks₁, hblocks], List.forall_mem_nil _⟩
    refine (resolveExprs_gives statements hstatements h₂.typed hb₂
      ((hr.steps h₁).steps h₂)).bind fun body s₃ h₃ hpost => ?_
    obtain ⟨ms, hd₃, hmentions, hrep⟩ := hpost
    have hb₃ := hd₃.body
    refine (closeBlock_gives h₃.typed).bind fun _ s₄ h₄ hblocks₄ => ?_
    have h₁₄ := (h₂.trans h₃).trans h₄
    have hgrows := hb₃.view_grows h₃.typed h₄
    have hfunction : (Arena.Node.function ⟨name, [], type, body, annotations⟩).WellFormed s₄.tree
        s₄.tree.size :=
      ⟨List.forall_mem_nil _, (h₄.typed.sound.lookup_struct (h₁₄.keeps _ _ htype)).below,
        (hrep.grow hgrows).ofKind.below⟩
    refine (addNode_gives h₄.typed hfunction trivial trivial).imp fun s₅ h h₅ hpost => ?_
    obtain ⟨hadded, hsize, hblocks₅⟩ := hpost
    have hblocks₃ : s₄.blocks = [outer] := by rw [hblocks₄, hb₃.blocks, List.tail_cons]
    have hgrows₅ := view_grows_of_blocks h₄.typed hblocks₃ h₅
    have he := h₄.grows.trans h₅.grows
    refine ⟨hblocks₅.trans hblocks₃, ⟨type, body, ms, hadded, ?_, ?_, hmentions.extend he,
      hd₃.names.extend he⟩, s₄.tree.size, hsize, ?_, ?_⟩
    · exact Or.inr (h₅.keeps _ _ (h₁₄.keeps _ _ htype))
    · exact (hrep.grow hgrows).grow hgrows₅
    · exact size_le_of_extends (h₁.trans h₁₄).grows
    · subst hsize
      exact Tree.lt_size_of_node? hadded
  refine hadd.bind fun h s₁ h₁ hpost => ?_
  obtain ⟨hblocks₁, ⟨type, body, ms, hnode, htype, hbody, hmentions, hscoped⟩, hnew⟩ := hpost
  refine (declareAdded_gives h₁.typed hblocks₁ hnode
    (bears_of_node? hnode (by simp [Node.kind]) rfl)).imp ?_
  rintro s₂ h' h₂ ⟨rfl, hblocks₂, hnode₂⟩
  have hgrows := view_grows_of_blocks h₁.typed hblocks₁ h₂
  obtain ⟨k, rfl, hk, -⟩ := hnew
  exact ⟨hblocks₂, .function hnode₂ (h₂.known _ _ htype) (hbody.grow hgrows)
    (hmentions.extend h₂.grows) (hscoped.extend h₂.grows),
    fun _ => ⟨k, rfl, hk, Tree.lt_size_of_node? hnode₂⟩⟩

theorem resolveResource_gives (hs : Typed Ok G s) (hr : Ready Ok table outer s) :
    Gives Ok G s (resolveResource table name resource) fun s' r =>
      IsResource (s'.view G outer) resource r.1 r.2.1 r.2.2 ∧ s'.blocks = s.blocks := by
  unfold resolveResource
  split
  · refine (resolveMembers_gives hs hr).within.bind fun hs' s₁ h₁ ⟨hmembers, hblocks⟩ => ?_
    exact gives_pure h₁.typed ⟨.buffer hmembers, hblocks⟩
  · exact gives_pure hs ⟨.image _, rfl⟩
  · exact gives_pure hs ⟨.sampler _, rfl⟩
  · exact ends_throw _

theorem IsResource.members {v : View} (h : IsResource v resource kind hs format) :
    AllOfKind .member v.tree hs ∧ ∀ code, kind ≠ .unknown code := by
  cases h with
  | buffer hmembers => exact ⟨allOfKind_of_isMember hmembers, nofun⟩
  | image | sampler => exact ⟨.nil, nofun⟩

theorem resolveResourceDecl_gives (hs : Typed Ok G s) (hr : Ready Ok table outer s)
    (hblocks : s.blocks = [outer]) (hnode : node.isResource = true) :
    Gives Ok G s (resolveDeclaration table node) (Settles G outer s.tree.size node) := by
  cases node with
  | member decl =>
    rw [resolveDeclaration]
    refine (resolveType_gives hs hr).within.bind fun type s₁ h₁ hpost => ?_
    obtain ⟨htype, hblocks₁⟩ := hpost
    have hwell : (Arena.Node.member ⟨decl.name, type, decl.count, decl.annotations⟩).WellFormed
        s₁.tree s₁.tree.size := (h₁.typed.sound.lookup_struct htype).below
    refine (addDeclared_gives h₁.typed (hblocks₁.trans hblocks) hwell trivial trivial
      (by simp [Node.kind]) trivial).imp fun s₂ h h₂ hpost => ?_
    obtain ⟨hblocks₂, hadded, hnew⟩ := hpost
    exact ⟨hblocks₂, .member ⟨type, hadded, Or.inr (h₂.keeps _ _ htype)⟩,
      fun _ => hnew.mono (size_le_of_extends h₁.grows)⟩
  | binding b =>
    rw [resolveDeclaration]
    refine (resolveResource_gives hs hr).bind fun r s₁ h₁ hpost => ?_
    obtain ⟨hresource, hblocks₁⟩ := hpost
    obtain ⟨kind, hs', format⟩ := r
    have hwell : (Arena.Node.binding ⟨b.name, kind, hs', format, b.set, b.slot, b.read, b.write,
        b.count⟩).WellFormed s₁.tree s₁.tree.size :=
      ⟨hresource.members.1.below, hresource.members.2⟩
    refine (addDeclared_gives h₁.typed (hblocks₁.trans hblocks) hwell trivial trivial
      (by simp [Node.kind]) trivial).imp fun s₂ h h₂ hpost => ?_
    obtain ⟨hblocks₂, hadded, hnew⟩ := hpost
    have hgrows := view_grows_of_blocks h₁.typed (hblocks₁.trans hblocks) h₂
    exact ⟨hblocks₂, .binding hadded (hresource.grow hgrows),
      fun _ => hnew.mono (size_le_of_extends h₁.grows)⟩
  | pushConstant members =>
    rw [resolveDeclaration]
    refine (resolveMembers_gives hs hr).within.bind fun hs' s₁ h₁ hpost => ?_
    obtain ⟨hmembers, hblocks₁⟩ := hpost
    have hwell : (Arena.Node.pushConstant hs').WellFormed s₁.tree s₁.tree.size :=
      (allOfKind_of_isMember hmembers).below
    refine (addDeclared_gives h₁.typed (hblocks₁.trans hblocks) hwell trivial trivial
      (by simp [Node.kind]) trivial).imp fun s₂ h h₂ hpost => ?_
    obtain ⟨hblocks₂, hadded, hnew⟩ := hpost
    have hgrows := view_grows_of_blocks h₁.typed (hblocks₁.trans hblocks) h₂
    exact ⟨hblocks₂, .pushConstant hadded (hgrows.members hmembers),
      fun _ => hnew.mono (size_le_of_extends h₁.grows)⟩
  | specialization name type =>
    rw [resolveDeclaration]
    refine (resolveType_gives hs hr).within.bind fun type' s₁ h₁ hpost => ?_
    obtain ⟨htype, hblocks₁⟩ := hpost
    have hwell : (Arena.Node.specialization name type').WellFormed s₁.tree s₁.tree.size :=
      (h₁.typed.sound.lookup_struct htype).below
    refine (addDeclared_gives h₁.typed (hblocks₁.trans hblocks) hwell trivial trivial
      (by simp [Node.kind]) trivial).imp fun s₂ h h₂ hpost => ?_
    obtain ⟨hblocks₂, hadded, hnew⟩ := hpost
    exact ⟨hblocks₂, .specialization hadded (Or.inr (h₂.keeps _ _ htype)),
      fun _ => hnew.mono (size_le_of_extends h₁.grows)⟩
  | _ => cases hnode

end Declarations

/-! ## Structs -/

section Structs

variable {Ok : Program.Struct → Prop} {table : TypeTable} {G : String → Handle → Prop}
  {s s₀ : State}

theorem Typed.forget (hs : Typed Ok G s) (removed : List String) (hsound : s₀.Sound False)
    (htree : s₀.tree = s.tree)
    (hlookup : ∀ key, s₀.registry.lookup? key =
      if key ∈ removed then none else s.registry.lookup? key)
    (hstar : ∀ name ∈ removed, ∀ h, s.registry.lookup? (name ++ "*") = some h →
      name ++ "*" ∈ removed)
    (hstarred : ∀ name, name ++ "*" ∈ removed → name ∈ removed) : Typed Ok (Known G s) s₀ := by
  have hold {key : String} {h : Handle} (hl : s₀.registry.lookup? key = some h) :
      key ∉ removed ∧ s.registry.lookup? key = some h := by
    rw [hlookup] at hl
    split at hl
    · cases hl
    · rename_i hmem
      exact ⟨hmem, hl⟩
  refine ⟨hsound, ?_, ?_, ?_, ?_, ?_⟩
  · rw [htree]
    exact hs.direct
  · intro key h hk
    have hknown : Known G s key h := hk.elim id fun hl => Or.inr (hold hl).2
    rw [htree]
    exact (hs.content key h hknown).mono (.refl _) fun _ _ hk => Or.inl hk
  · intro name h hl
    obtain ⟨hmem, hl⟩ := hold hl
    rw [hlookup, if_neg fun hname => hmem (hstar name hname h hl)]
    exact hs.star name h hl
  · intro name fields types h hl hnode
    obtain ⟨hmem, hl⟩ := hold hl
    rw [htree] at hnode
    rw [hlookup, if_neg fun hname => hmem (hstarred name hname)]
    exact hs.starred name fields types h hl hnode
  · intro key other h hl hl'
    exact hs.shared key other h (hold hl).2 (hold hl').2

theorem Typed.lookup?_two_stars (hs : Typed Ok G s) (hplain : PlainName name) (h : Handle) :
    s.registry.lookup? (name ++ "*" ++ "*") ≠ some h := by
  intro hl
  have hopen : '<' ∉ (name ++ "*" ++ "*").toList := by simpa using hplain.1
  obtain ⟨decl, -, -, hplain', hkey, -⟩ := (hs.content _ _ (Or.inr hl)).of_notMem hopen
  rcases hkey with hkey | hkey
  · exact hplain'.ne_star _ hkey.symm
  · exact hplain'.ne_star _ ((String.append_left_inj "*").mp hkey).symm

theorem Typed.reach (hs : Typed Ok G s) (hplain : PlainName decl.name) :
    Typed Ok (Known G s) (s.reach decl) := by
  have hsound : (s.reach decl).Sound False := hs.sound.reach decl
  by_cases hintrinsic : isIntrinsicType decl.name = true
  · refine hs.forget [decl.name, decl.name ++ "*"] hsound rfl ?_ ?_ ?_
    · intro key
      unfold State.reach
      rw [if_pos hintrinsic, Registry.lookup?_remove, Registry.lookup?_remove]
      by_cases hkey : key = decl.name
      · simp [hkey]
      · by_cases hkey' : key = decl.name ++ "*"
        · simp [hkey']
        · simp [hkey, hkey', Ne.symm hkey, Ne.symm hkey']
    · intro name hname h hl
      rcases List.mem_pair.mp hname with rfl | rfl
      · simp
      · exact absurd hl (hs.lookup?_two_stars hplain h)
    · intro name hname
      rcases List.mem_pair.mp hname with heq | heq
      · exact absurd heq.symm (hplain.ne_star name)
      · rw [(String.append_left_inj "*").mp heq]
        exact .head _
  · refine hs.forget [] hsound rfl ?_ nofun nofun
    intro key
    unfold State.reach
    rw [if_neg hintrinsic]
    simp

end Structs

/-! ## Programs -/

/-- The state between two declarations of a program. -/
structure Boundary (program done : List Program.Node) (G : String → Handle → Prop) (outer : Block)
    (s : State) : Prop where
  typed : Typed (Admits program) G s
  blocks : s.blocks = [outer]
  reached : ∀ decl ∈ structsOfAll program, decl.name ∉ s.pending →
    (outer.latest? decl.name).isSome
  done : ∀ decl ∈ structsOfAll done, decl.name ∉ s.pending
  kept : KeepsIntrinsics program → ∀ key h, G key h → s.registry.lookup? key = some h
  registered : KeepsIntrinsics program → ∀ decl ∈ structsOfAll program, decl.name ∉ s.pending →
    (s.registry.lookup? decl.name).isSome

section Programs

variable {program done : List Program.Node} {G : String → Handle → Prop} {s s' : State}
  {outer : Block}

theorem plainTable_of_isRoot (hroot : ∀ node ∈ program, node.IsRoot) :
    ∀ decl ∈ structsOfAll program, isIdentifier decl.name = true := by
  intro decl hdecl
  have hmem := (mem_structsOfAll hroot).mp hdecl
  exact ((hroot _ hmem).resolve_left nofun).1

theorem Block.latest?_declare (block : Block) (name other : String) (h : Handle) :
    (block.declare name h).latest? other =
      if name = other ∧ name ≠ "" then some h else block.latest? other := by
  unfold Block.declare Block.latest?
  by_cases hempty : name = ""
  · simp [hempty]
  · by_cases hname : name = other
    · subst hname
      simp [hempty]
    · simp [hempty, hname]

theorem Boundary.creates (hb : Boundary program done G outer s) {names : List String} {s₀ : State}
    (hroot : ∀ node ∈ program, node.IsRoot)
    (hpending : ∀ name ∈ names, name ∉ s₀.pending → name ∉ s.pending)
    (hregistry : KeepsIntrinsics program → s₀.registry = s.registry) :
    Creates (Admits program) ⟨structsOfAll program⟩ names s₀ := by
  intro name decl hvisible hmem hnone
  obtain ⟨hwhere, hname⟩ := visibleStruct?_spec hvisible
  rcases hwhere with ⟨hdecl, hreached⟩ | hdecl
  · refine ⟨Or.inr hdecl, fun hkeeps => ?_⟩
    have hplain := plainName_of_isIdentifier (plainTable_of_isRoot hroot decl hdecl)
    have hstar : TypeName.withoutStar name = decl.name := by
      rcases hname with rfl | rfl
      · simp [TypeName.withoutStar, hplain.2]
      · exact withoutStar_star decl.name
    rw [hstar] at hreached
    have hsome := hb.registered hkeeps decl hdecl (hpending _ hmem hreached)
    rw [hregistry hkeeps] at hnone
    rw [hnone] at hsome
    cases hsome
  · exact ⟨Or.inl hdecl, fun _ => canonical_of_intrinsic hdecl⟩

theorem Boundary.ready (hb : Boundary program done G outer s)
    (hroot : ∀ node ∈ program, node.IsRoot) :
    Ready (Admits program) ⟨structsOfAll program⟩ outer s where
  plain decl hdecl := plainName_of_isIdentifier (plainTable_of_isRoot hroot decl hdecl)
  creates := hb.creates hroot (fun _ _ h => h) fun _ => rfl
  reached := hb.reached

theorem Boundary.steps (hb : Boundary program done G outer s)
    (hsteps : Steps (Admits program) G s s') (hsettles : Settles G outer n node s' h)
    (hstructs : node.structs = []) :
    Boundary program (done ++ [node]) G (outer.declare node.name h) s' where
  typed := hsteps.typed
  blocks := hsettles.blocks
  reached decl hdecl hpending := by
    rw [hsteps.pending] at hpending
    rw [Block.latest?_declare]
    split
    · rfl
    · exact hb.reached decl hdecl hpending
  done decl hdecl := by
    rw [structsOfAll_append, structsOfAll, hstructs, structsOfAll, List.append_nil,
      List.append_nil] at hdecl
    rw [hsteps.pending]
    exact hb.done decl hdecl
  kept hkeeps key h hk := hsteps.keeps _ _ (hb.kept hkeeps key h hk)
  registered hkeeps decl hdecl hpending := by
    rw [hsteps.pending] at hpending
    obtain ⟨x, hx⟩ := Option.isSome_iff_exists.mp (hb.registered hkeeps decl hdecl hpending)
    rw [hsteps.keeps _ _ hx]
    rfl

theorem Boundary.struct (hb : Boundary program done G outer s)
    (hroot : ∀ node ∈ program, node.IsRoot)
    (hprogram : program = done ++ .struct decl :: rest)
    (hrun : resolveStructDecl ⟨structsOfAll program⟩ decl s = .ok (h, s')) :
    Boundary program (done ++ [.struct decl]) (Known G s) (outer.declare decl.name h) s' ∧
      Steps (Admits program) (Known G s) (s.reach decl) s' ∧
      Settles (Known G s) outer s.tree.size (.struct decl) s' h := by
  have hmem : decl ∈ structsOfAll program := by
    rw [hprogram, structsOfAll_append]
    exact List.mem_append_right _ (List.mem_append_left _ (List.mem_singleton_self _))
  have hname := plainTable_of_isRoot hroot decl hmem
  have hplain := plainName_of_isIdentifier hname
  have hne : decl.name ≠ "" := ne_of_isIdentifier hname rfl
  have hregistry (hkeeps : KeepsIntrinsics program) : (s.reach decl).registry = s.registry := by
    unfold State.reach
    rw [if_neg (by rw [hkeeps decl hmem]; exact Bool.false_ne_true)]
  have hreach := hb.typed.reach hplain
  have hfirst : (s.reach decl).registry.lookup? decl.name = none → Admits program decl := by
    intro hnone
    refine ⟨Or.inr hmem, fun hkeeps => ?_⟩
    rw [hregistry hkeeps] at hnone
    rw [hprogram]
    refine canonical_of_first (hkeeps decl hmem) fun other hother heq => ?_
    have hother' : other ∈ structsOfAll program := by
      rw [hprogram, structsOfAll_append]
      exact List.mem_append_left _ hother
    have hsome := hb.registered hkeeps other hother' (hb.done other hother)
    rw [heq, hnone] at hsome
    cases hsome
  have hcreates : Creates (Admits program) ⟨structsOfAll program⟩
      ((decl.name :: structNames ⟨structsOfAll program⟩).filter (· ≠ decl.name))
      (s.reach decl) := by
    refine hb.creates hroot (fun name hname hpending hmem' => hpending ?_) hregistry
    exact List.mem_filter.mpr ⟨hmem', (List.mem_filter.mp hname).2⟩
  have hgives : Gives (Admits program) (Known G s) (s.reach decl) (do
      let h ← resolveStruct ⟨structsOfAll program⟩ decl
      declare decl.name h
      return h) fun s' h => s'.registry.lookup? decl.name = some h ∧
        s'.blocks = [outer.declare decl.name h] := by
    refine (structHandle_gives (hb.ready hroot).plain _ decl hreach hcreates (fun _ => hfirst)
      hplain).bind fun h s₁ h₁ ⟨hl, hblocks⟩ => ?_
    have hstruct := h₁.typed.sound.isStruct hl
    have hbears := hstruct.bears
    obtain ⟨node, hnode, -⟩ := hstruct
    refine (declareAdded_gives h₁.typed (hblocks.trans hb.blocks) hnode hbears).imp ?_
    rintro s₂ h' h₂ ⟨rfl, hblocks₂, -⟩
    exact ⟨h₂.keeps _ _ hl, hblocks₂⟩
  obtain ⟨hsteps, hl, hblocks⟩ := hgives h s' hrun
  have hpending (other : String) (hother : other ∉ s'.pending) :
      other = decl.name ∨ other ∉ s.pending := by
    rw [hsteps.pending] at hother
    by_cases heq : other = decl.name
    · exact Or.inl heq
    · exact Or.inr fun hmem => hother (List.mem_filter.mpr ⟨hmem, by simpa using heq⟩)
  refine ⟨⟨hsteps.typed, hblocks, ?_, ?_, ?_, ?_⟩, hsteps, hblocks, .struct (Or.inr hl), nofun⟩
  · intro other hother hreached
    rw [Block.latest?_declare]
    rcases hpending _ hreached with heq | hreached
    · rw [if_pos ⟨heq.symm, hne⟩]
      rfl
    · split
      · rfl
      · exact hb.reached other hother hreached
  · intro other hother
    rw [hsteps.pending]
    intro hmem'
    obtain ⟨hmem', hother'⟩ := List.mem_filter.mp hmem'
    rw [structsOfAll_append] at hother
    rcases List.mem_append.mp hother with hother | hother
    · exact hb.done other hother hmem'
    · rw [List.mem_singleton.mp hother] at hother'
      simp at hother'
  · intro hkeeps key x hk
    refine hsteps.keeps _ _ ?_
    rw [hregistry hkeeps]
    exact hk.elim (hb.kept hkeeps key x) id
  · intro hkeeps other hother hreached
    rcases hpending _ hreached with heq | hreached
    · rw [heq, hl]
      rfl
    · obtain ⟨x, hx⟩ := Option.isSome_iff_exists.mp (hb.registered hkeeps other hother hreached)
      rw [← hregistry hkeeps] at hx
      rw [hsteps.keeps _ _ hx]
      rfl

theorem Boundary.declaration (hb : Boundary program done G outer s)
    (hroot : ∀ node ∈ program, node.IsRoot) (hprogram : program = done ++ node :: rest)
    (hrun : resolveDeclaration ⟨structsOfAll program⟩ node s = .ok (h, s')) :
    ∃ G', Boundary program (done ++ [node]) G' (outer.declare node.name h) s' ∧
      Settles G' outer s.tree.size node s' h ∧
      (∀ g node, s.tree.node? g = some node → s'.tree.node? g = some node) ∧
      ∀ key x, Known G s key x → Known G' s' key x := by
  have hready := hb.ready hroot
  have hnode : node.IsRoot := hroot node (by rw [hprogram]; simp)
  by_cases hresource : node.isResource = true
  · obtain ⟨hsteps, hsettles⟩ :=
      resolveResourceDecl_gives hb.typed hready hb.blocks hresource h s' hrun
    refine ⟨G, hb.steps hsteps hsettles ?_, hsettles, hsteps.nodes, hsteps.known⟩
    cases node <;> first | rfl | cases hresource
  · cases node with
    | struct decl =>
      rw [resolveDeclaration] at hrun
      obtain ⟨hnext, hsteps, hsettles⟩ := hb.struct hroot hprogram hrun
      exact ⟨Known G s, hnext, hsettles, hsteps.nodes, fun key x hk => Or.inl hk⟩
    | function name params returns statements annotations =>
      obtain ⟨-, -, rfl, hreturns, hstatements⟩ := hnode.resolve_left hresource
      rw [resolveDeclaration] at hrun
      obtain ⟨hsteps, hsettles⟩ :=
        resolveFunction_gives hb.typed hready hb.blocks hreturns hstatements h s' hrun
      exact ⟨G, hb.steps hsteps hsettles rfl, hsettles, hsteps.nodes, hsteps.known⟩
    | member => exact absurd rfl hresource
    | _ => exact absurd (hnode.resolve_left hresource) id

theorem Boundary.adopt (hb : Boundary program done G outer s) {child : Handle}
    (hchild : Declared s.tree child) (hrun : Resolution.adopt Tree.root child s = .ok ((), s')) :
    Boundary program done G outer s' ∧ Known G s' = Known G s ∧ Extends s.tree s'.tree ∧
      ∀ name children, s.tree.node? Tree.root = some (.scope name children) →
        s'.tree.node? Tree.root = some (.scope name (children ++ [child])) := by
  obtain ⟨kind, hkind, hchild⟩ := hchild
  obtain ⟨hsound, he, -⟩ := adopt_yields hb.typed.sound (hchild.adoptable hkind 1) _ _ hrun
  obtain ⟨tree, htree, rfl⟩ := exists_of_adopt hrun
  obtain ⟨name, children, hscope, -, hnodes⟩ := Tree.appendChild_eq_ok htree
  have htyped : Typed (Admits program) G { s with tree := tree } := by
    refine ⟨hsound, ?_, ?_, hb.typed.star, ?_, hb.typed.shared⟩
    · intro g node hg
      rw [hnodes] at hg
      split at hg
      · cases hg
        trivial
      · exact hb.typed.direct g node hg
    · exact fun key x hk => (hb.typed.content key x hk).mono he fun _ _ hk => hk
    · intro name fields types x hl hx
      exact hb.typed.starred name fields types x hl (Tree.node?_of_appendChild htree hx rfl)
  refine ⟨⟨htyped, hb.blocks, hb.reached, hb.done, hb.kept, hb.registered⟩, rfl, he, ?_⟩
  intro name' children' hroot
  rw [hscope] at hroot
  cases hroot
  rw [hnodes, if_pos rfl]

/-- A declaration is no expression. -/
theorem Placed.ofKind {Ok : Program.Struct → Prop} {v : View}
    (htypes : ∀ key h, v.types key h → IsType Ok v.types v.tree key h) (hp : Placed v node h) :
    ∃ kind, kind ≠ .scope ∧ kind ≠ .expression ∧ OfKind kind v.tree h := by
  cases hp with
  | struct htype =>
    refine ⟨.struct, by decide, by decide, ?_⟩
    cases htypes _ _ htype with
    | struct _ _ _ hnode | generic _ _ _ hnode | pointee _ _ _ _ hnode =>
      exact Tree.kind?_of_node? hnode
  | member hmember =>
    obtain ⟨type, hnode, -⟩ := hmember
    exact ⟨.member, by decide, by decide, Tree.kind?_of_node? hnode⟩
  | function hnode => exact ⟨.function, by decide, by decide, Tree.kind?_of_node? hnode⟩
  | binding hnode | pushConstant hnode | specialization hnode =>
    exact ⟨.resource, by decide, by decide, Tree.kind?_of_node? hnode⟩

theorem Placed.declared {Ok : Program.Struct → Prop} {v : View}
    (htypes : ∀ key h, v.types key h → IsType Ok v.types v.tree key h) (hp : Placed v node h) :
    Declared v.tree h :=
  (hp.ofKind htypes).imp fun _ hkind => ⟨hkind.1, hkind.2.2⟩

theorem Boundary.children {children : List Handle}
    (hb : Boundary program done G outer s) (hroot : ∀ node ∈ program, node.IsRoot)
    (hprogram : program = done ++ nodes)
    (hscope : s.tree.node? Tree.root = some (.scope rootName children))
    (hrun : resolveChildren ⟨structsOfAll program⟩ id Tree.root nodes s = .ok ((), s')) :
    ∃ G' outer' hs, Boundary program program G' outer' s' ∧ Extends s.tree s'.tree ∧
      (∀ key x, Known G s key x → Known G' s' key x) ∧
      s'.tree.node? Tree.root = some (.scope rootName (children ++ hs)) ∧
      Layout s'.tree (Known G' s') s.tree.size outer nodes hs := by
  induction nodes generalizing done G outer s children with
  | nil =>
    rw [resolveChildren] at hrun
    cases hrun
    rw [List.append_nil] at hprogram
    subst hprogram
    refine ⟨G, outer, [], hb, .refl _, fun _ _ h => h, ?_, .nil⟩
    rw [hscope, List.append_nil]
  | cons node nodes ih =>
    rw [resolveChildren] at hrun
    obtain ⟨h, s₁, hnode, hrun⟩ := run_bind_eq_ok hrun
    obtain ⟨_, s₂, hadopt, hrun⟩ := run_bind_eq_ok hrun
    obtain ⟨G₁, hb₁, hsettles, hnodes, hknown⟩ := hb.declaration hroot hprogram hnode
    obtain ⟨hb₂, hknown₂, he₂, hchild⟩ :=
      hb₁.adopt (hsettles.placed.declared hb₁.typed.content) hadopt
    have hprogram' : program = (done ++ [node]) ++ nodes := by
      rw [hprogram, List.append_assoc, List.singleton_append]
    obtain ⟨G', outer', hs, hb', he', hknown', hscope', hlayout⟩ :=
      ih hb₂ hprogram' (hchild _ _ (hnodes _ _ hscope)) hrun
    have he₁ : Extends s.tree s₁.tree := fun g node hg => ⟨node, hnodes g node hg, .same node⟩
    have hgrows : (s₁.view G₁ outer).Grows ⟨s'.tree, Known G' s', outer⟩ := by
      refine ⟨he₂.trans he', fun key x hk => hknown' key x ?_, rfl, fun name g hl => ?_⟩
      · rw [hknown₂]
        exact hk
      · have hmem : outer ∈ s.blocks := by rw [hb.blocks]; exact List.mem_singleton_self _
        exact (hb.typed.sound.blocks outer hmem _ (Block.mem_of_latest? hl)).1.extend he₁
    refine ⟨G', outer', h :: hs, hb', he₁.trans (he₂.trans he'), fun key x hk => ?_, ?_, ?_⟩
    · refine hknown' key x ?_
      rw [hknown₂]
      exact hknown key x hk
    · rw [hscope', List.append_assoc, List.singleton_append]
    · refine .cons (hsettles.placed.grow hgrows) ?_ (fun hstruct => ?_) hlayout
      · exact size_le_of_extends (he₁.trans he₂)
      · obtain ⟨k, rfl, hk, hlt⟩ := hsettles.fresh hstruct
        exact ⟨k, rfl, hk, Nat.lt_of_lt_of_le hlt (size_le_of_extends he₂)⟩

end Programs

/-! ## Resolved programs -/

/-- What is known about the tree of a program: what type names stand for and how the declarations
are laid out. In a program that redeclares no intrinsic type a type name stands for one struct, and
the type names of a struct are its name and that of the pointer to it. -/
structure Laid (t : Tree) (program : List Program.Node) (G : String → Handle → Prop)
    (hs : List Handle) : Prop where
  layout : Layout t G 1 [] program hs
  declarations : t.declarations = hs
  tree : t.WellFormed
  types : ∀ key h, G key h → IsType (Admits program) G t key h
  direct : ∀ h node, t.node? h = some node → IsDirect node
  single : KeepsIntrinsics program → ∀ key h h', G key h → G key h' → h = h'
  star : KeepsIntrinsics program → ∀ name h, G (name ++ "*") h → G name h
  shared : KeepsIntrinsics program → ∀ key other h, G key h → G other h → Alias key other

theorem declarations_of_root {children : List Handle}
    (hroot : t.node? Tree.root = some (.scope name children))
    (hchildren : ∀ h ∈ children, Declared t h) : t.declarations = children := by
  have hsize : 0 < t.size := Tree.lt_size_of_node? hroot
  obtain ⟨n, hn⟩ := Nat.exists_eq_succ_of_ne_zero (Nat.pos_iff_ne_zero.mp hsize)
  have hscope : t.scope? Tree.root = some (name, children) := by rw [Tree.scope?, hroot]
  have hnone : ∀ h ∈ children, (t.scope? h).isSome = false := by
    intro h hmem
    obtain ⟨kind, hkind, hk⟩ := hchildren h hmem
    obtain ⟨node, hnode, rfl⟩ := Option.map_eq_some_iff.mp hk
    unfold Tree.scope?
    rw [hnode]
    cases node with
    | scope => exact absurd rfl hkind
    | _ => rfl
  unfold Tree.declarations
  rw [hn, Tree.declarationsIn, hscope]
  dsimp only
  calc children.flatMap (fun child =>
        if (t.scope? child).isSome then t.declarationsIn n child else [child])
      = children.flatMap (fun child => [child]) := by
        refine List.flatMap_congr fun child hmem => ?_
        rw [hnone child hmem, if_neg Bool.false_ne_true]
    _ = children := List.flatMap_singleton' children

theorem mem_declaredStructs {program : List Program.Node}
    (hroot : ∀ node ∈ program, node.IsRoot) (h : decl ∈ structsOfAll program) :
    decl.name ∈ declaredStructs program :=
  List.mem_filterMap.mpr ⟨.struct decl, (mem_structsOfAll hroot).mp h, rfl⟩

theorem Boundary.initial {program : List Program.Node} (hroot : ∀ node ∈ program, node.IsRoot) :
    Boundary program [] (fun _ _ => False) [] (State.initial program) := by
  have hempty (key : String) : (State.initial program).registry.lookup? key = none := rfl
  have hknown {key : String} {h : Handle} :
      ¬ Known (fun _ _ => False) (State.initial program) key h := by
    rintro (hk | hk)
    · exact hk
    · rw [hempty] at hk
      cases hk
  have hpending (decl : Program.Struct) (hdecl : decl ∈ structsOfAll program)
      (h : decl.name ∉ (State.initial program).pending) : False :=
    h (mem_declaredStructs hroot hdecl)
  refine ⟨⟨.initial program, ?_, fun _ _ hk => absurd hk hknown, ?_, ?_, ?_⟩, rfl, ?_, ?_, ?_, ?_⟩
  · intro h node hnode
    obtain ⟨j, hj, rfl⟩ := Tree.index_of_node? hnode
    have hzero : j = 0 := Nat.lt_one_iff.mp hj
    subst hzero
    cases hnode
    trivial
  · exact fun _ _ hl => absurd (Or.inr hl) hknown
  · exact fun _ _ _ _ hl _ => absurd (Or.inr hl) hknown
  · exact fun _ _ _ hl _ => absurd (Or.inr hl) hknown
  · exact fun decl hdecl h => (hpending decl hdecl h).elim
  · exact List.forall_mem_nil _
  · exact fun _ _ _ hk => hk.elim
  · exact fun _ decl hdecl h => (hpending decl hdecl h).elim

theorem Layout.declared {G : String → Handle → Prop} {outer : Block}
    (hl : Layout t G n outer nodes hs)
    (hplaced : ∀ {outer node h}, Placed ⟨t, G, outer⟩ node h → Declared t h) :
    ∀ h ∈ hs, Declared t h := by
  induction hl with
  | nil => exact List.forall_mem_nil _
  | cons hp _ _ _ ih => exact List.forall_mem_cons.mpr ⟨hplaced hp, ih⟩

/-- The tree of a resolved program is laid out in the order of its declarations. -/
theorem resolve_laid {scope : Program.Scope} (hroot : ∀ node ∈ scope.children, node.IsRoot)
    (h : resolve (some scope) scope.table = .ok t) : ∃ G hs, Laid t scope.children G hs := by
  unfold resolve at h
  dsimp only at h
  split at h
  · rename_i s' hrun
    cases h
    obtain ⟨G, outer, hs, hb, -, -, hscope, hlayout⟩ :=
      (Boundary.initial hroot).children hroot rfl rfl hrun
    rw [List.nil_append] at hscope
    have hlookup (hkeeps : KeepsIntrinsics scope.children) {key : String} {x : Handle}
        (hk : Known G s' key x) : s'.registry.lookup? key = some x :=
      hk.elim (hb.kept hkeeps key x) id
    refine ⟨Known G s', hs, hlayout, ?_, hb.typed.sound.tree, hb.typed.content, hb.typed.direct, ?_,
      ?_, ?_⟩
    · exact declarations_of_root hscope (hlayout.declared fun hp => hp.declared hb.typed.content)
    · intro hkeeps key x x' hx hx'
      have hl := hlookup hkeeps hx
      rw [hlookup hkeeps hx'] at hl
      exact (Option.some.inj hl).symm
    · exact fun hkeeps name x hx => Or.inr (hb.typed.star name x (hlookup hkeeps hx))
    · exact fun hkeeps key other x hx hx' =>
        hb.typed.shared key other x (hlookup hkeeps hx) (hlookup hkeeps hx')
  · cases h

end Shader.Resolution
