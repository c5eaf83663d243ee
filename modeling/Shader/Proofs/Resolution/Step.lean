import Shader.Proofs.Arena.WellFormed
import Shader.Proofs.Resolution.Runs

/-!
# What resolution keeps

Every state of a resolution has a well-formed tree, a registry of structs and blocks of declared
nodes, and every step extends the tree. This is said once for each step, as a postcondition of its
successful runs, and carried through sequences of steps.
-/

namespace Shader.Resolution

open Arena Program.TypeName

variable {kind : Kind} {node : Node} {r : Registry} {key : String} {h : Handle}
  {entry : String × Handle}

/-- The handle is of a node of the given kind. -/
def OfKind (kind : Kind) (t : Tree) (h : Handle) : Prop := t.kind? h = some kind

/-- All handles are of nodes of the given kind. -/
def AllOfKind (kind : Kind) (t : Tree) (hs : List Handle) : Prop := ∀ h ∈ hs, OfKind kind t h

/-- The handle is of a node that is no scope. -/
def Declared (t : Tree) (h : Handle) : Prop := ∃ kind, kind ≠ .scope ∧ OfKind kind t h

/-- The second name is the first, followed by stars. -/
inductive Starred (base : String) : String → Prop
  | plain : Starred base base
  | star {name} (h : Starred base name) : Starred base (name ++ "*")

/-- Whether the struct answers to the name. An instance or a pointee stands for no struct of the
program. -/
def Answers (decl : Struct) (name : String) : Prop :=
  decl.isInstance = true ∨ Starred decl.name name

/-- Whether the node can be declared under the name. A literal and a function have their own name, a
struct answers to the name, and an expression that refers to other nodes is not declared. -/
def Named (name : String) : Node → Prop
  | .literal other _ => other = name
  | .function decl => decl.name = name
  | .struct decl => Answers decl name
  | .ident .. => False
  | .access .. => False
  | .call .. => False
  | .intrinsicCall .. => False
  | _ => True

/-- The handle is of a node that is no scope and can be declared under the name. -/
def Bears (t : Tree) (name : String) (h : Handle) : Prop :=
  Declared t h ∧ ∀ ⦃node⦄, t.node? h = some node → Named name node

/-- The handle is of a struct that answers to the name. -/
def IsStruct (t : Tree) (name : String) (h : Handle) : Prop :=
  ∃ decl, t.node? h = some (.struct decl) ∧ Answers decl name

/-- What the invariant asks of a node: a name and a call refer to what can be declared under their
name, and only if `code` holds there are pieces of code. -/
def Suits (code : Prop) (t : Tree) : Node → Prop
  | .fragment _ => code
  | .ident name source => source = none ∨ Bears t name source
  | .call callee target _ => target = none ∨ Bears t callee target
  | _ => True

/-- The invariant of resolution. -/
structure State.Sound (code : Prop) (s : State) : Prop where
  tree : s.tree.WellFormed
  registry : ∀ entry ∈ s.registry.entries, IsStruct s.tree entry.1 entry.2
  blocks : ∀ block ∈ s.blocks, ∀ entry ∈ block, Bears s.tree entry.1 entry.2
  nodes : ∀ ⦃h node⦄, s.tree.node? h = some node → Suits code s.tree node

/-- Every successful run of the computation leaves a sound state with an extended tree, and its
result satisfies the postcondition there. -/
def Yields {α : Type} (code : Prop) (s : State) (act : ResolveM α) (post : Tree → α → Prop) :
    Prop :=
  ∀ a s', act s = .ok (a, s') → s'.Sound code ∧ Extends s.tree s'.tree ∧ post s'.tree a

/-! ## References in an extended tree -/

section Extension

variable {t t' : Tree} {kind : Kind} {h : Handle} {hs : List Handle}

theorem OfKind.extend (he : Extends t t') (hk : OfKind kind t h) : OfKind kind t' h := he.kind? hk

theorem AllOfKind.extend (he : Extends t t') (hk : AllOfKind kind t hs) : AllOfKind kind t' hs :=
  fun h hh => (hk h hh).extend he

theorem Declared.extend (he : Extends t t') (hd : Declared t h) : Declared t' h := by
  obtain ⟨kind, hkind, hk⟩ := hd
  exact ⟨kind, hkind, hk.extend he⟩

theorem Bears.extend {name : String} (he : Extends t t') (hb : Bears t name h) :
    Bears t' name h := by
  refine ⟨hb.1.extend he, fun node hnode => ?_⟩
  obtain ⟨kind, hkind, hk⟩ := hb.1
  obtain ⟨old, hold, rfl⟩ := Option.map_eq_some_iff.mp hk
  cases (he.node? hold hkind).symm.trans hnode
  exact hb.2 hold

theorem bears_of_node? {node : Node} {name : String} (hnode : t.node? h = some node)
    (hkind : node.kind ≠ .scope) (hnamed : Named name node) : Bears t name h := by
  refine ⟨⟨node.kind, hkind, Tree.kind?_of_node? hnode⟩, fun node' hnode' => ?_⟩
  cases hnode.symm.trans hnode'
  exact hnamed

theorem OfKind.bears (hk : OfKind kind t h)
    (hkind : kind ∉ [.scope, .expression, .struct, .function]) (name : String) :
    Bears t name h := by
  refine ⟨⟨kind, fun hscope => hkind (hscope ▸ .head _), hk⟩, fun node hnode => ?_⟩
  rw [OfKind, Tree.kind?, hnode] at hk
  obtain rfl : node.kind = kind := Option.some.inj hk
  cases node <;> first | trivial | simp [Node.kind] at hkind

theorem Suits.extend {code : Prop} (he : Extends t t') (hs : Suits code t node) :
    Suits code t' node := by
  cases node with
  | ident | call => exact hs.imp_right (·.extend he)
  | _ => exact hs

section Structs

variable {name other : String}

theorem IsStruct.extend (he : Extends t t') : IsStruct t name h → IsStruct t' name h
  | ⟨decl, hnode, hanswers⟩ => ⟨decl, he.keeps hnode rfl, hanswers⟩

theorem IsStruct.ofKind : IsStruct t name h → OfKind .struct t h
  | ⟨_, hnode, _⟩ => Tree.kind?_of_node? hnode

theorem IsStruct.bears : IsStruct t name h → Bears t name h
  | ⟨_, hnode, hanswers⟩ => bears_of_node? hnode (by simp [Node.kind]) hanswers

theorem IsStruct.star : IsStruct t name h → IsStruct t (name ++ "*") h
  | ⟨decl, hnode, hanswers⟩ => ⟨decl, hnode, hanswers.imp_right .star⟩

end Structs

theorem OfKind.below (hk : OfKind kind t h) : t.Below t.size kind h := Tree.below_size hk

theorem AllOfKind.below (hk : AllOfKind kind t hs) : ∀ h ∈ hs, t.Below t.size kind h :=
  fun h hh => (hk h hh).below

theorem AllOfKind.nil : AllOfKind kind t [] := List.forall_mem_nil _

theorem AllOfKind.cons (h₁ : OfKind kind t h) (h₂ : AllOfKind kind t hs) :
    AllOfKind kind t (h :: hs) := List.forall_mem_cons.mpr ⟨h₁, h₂⟩

end Extension

/-! ## Sequences of steps -/

section Rules

variable {α β : Type} {code : Prop} {s : State} {act : ResolveM α} {f : α → ResolveM β}

theorem yields_pure {a : α} {post : Tree → α → Prop} (hs : s.Sound code) (h : post s.tree a) :
    Yields code s (pure a) post :=
  ends_pure ⟨hs, .refl _, h⟩

theorem Yields.bind {mid : Tree → α → Prop} {post : Tree → β → Prop} (hact : Yields code s act mid)
    (hf : ∀ a s', s'.Sound code → Extends s.tree s'.tree → mid s'.tree a →
      Yields code s' (f a) post) : Yields code s (act >>= f) post := by
  refine Ends.bind hact ?_
  rintro a s₁ ⟨hs₁, he₁, hmid⟩ b s₂ hrun
  obtain ⟨hs₂, he₂, hpost⟩ := hf a s₁ hs₁ he₁ hmid b s₂ hrun
  exact ⟨hs₂, he₁.trans he₂, hpost⟩

theorem yields_get {g : State → ResolveM β} {post : Tree → β → Prop}
    (h : Yields code s (g s) post) : Yields code s (get >>= g) post := h

theorem yields_modify {g : State → State} (hs : (g s).Sound code)
    (he : Extends s.tree (g s).tree) : Yields code s (modify g) fun _ _ => True := by
  intro b s' hb
  cases hb
  exact ⟨hs, he, trivial⟩

theorem Yields.imp {mid post : Tree → α → Prop} (hact : Yields code s act mid)
    (h : ∀ t a, Extends s.tree t → mid t a → post t a) : Yields code s act post := by
  intro a s' hrun
  obtain ⟨hs', he, hmid⟩ := hact a s' hrun
  exact ⟨hs', he, h _ _ he hmid⟩

theorem Yields.within {place : String} {post : Tree → α → Prop} (hact : Yields code s act post) :
    Yields code s (within place act) post := Ends.within hact

theorem yields_mapM {xs : List α} {g : α → ResolveM Handle} (hs : s.Sound code)
    (hg : ∀ x ∈ xs, ∀ s, State.Sound code s → Yields code s (g x) (OfKind kind)) :
    Yields code s (xs.mapM g) (AllOfKind kind) := by
  induction xs generalizing s with
  | nil => exact yields_pure hs .nil
  | cons x xs ih =>
    rw [List.mapM_cons]
    refine (hg x (.head _) s hs).bind fun h s₁ hs₁ _ hh => ?_
    have hrest := ih hs₁ fun y hy => hg y (.tail _ hy)
    refine hrest.bind fun more s₂ hs₂ he₂ hmore => ?_
    exact yields_pure hs₂ (.cons (hh.extend he₂) hmore)

end Rules

/-! ## Single steps -/

section Steps

variable {code : Prop} {s : State}

theorem addNode_yields (hs : s.Sound code) (hnode : node.WellFormed s.tree s.tree.size)
    (hsuits : Suits code s.tree node) :
    Yields code s (addNode node) fun t h => t.node? h = some node ∧ h = some s.tree.size := by
  intro h s' hrun
  cases hrun
  have he := Extends.add s.tree node
  refine ⟨⟨hs.tree.add hnode, ?_, ?_, ?_⟩, he, ?_, rfl⟩
  · intro entry hentry
    exact (hs.registry entry hentry).extend he
  · intro block hblock entry hentry
    exact (hs.blocks block hblock entry hentry).extend he
  · intro g found hg
    change (s.tree.add node).2.node? g = _ at hg
    rw [Tree.node?_add] at hg
    split at hg
    · cases hg
      exact hsuits.extend he
    · exact (hs.nodes hg).extend he
  · exact (Tree.node?_add s.tree node _).trans (if_pos rfl)

theorem addNode_ofKind (hs : s.Sound code) (hnode : node.WellFormed s.tree s.tree.size)
    (hkind : node.kind = kind) (hsuits : Suits code s.tree node) :
    Yields code s (addNode node) (OfKind kind) := by
  refine (addNode_yields hs hnode hsuits).imp ?_
  rintro t h - ⟨hh, -⟩
  rw [← hkind]
  exact Tree.kind?_of_node? hh

theorem State.Sound.isStruct (hs : s.Sound code) (hl : s.registry.lookup? key = some h) :
    IsStruct s.tree key h := by
  obtain ⟨entry, hentry, rfl⟩ := Option.map_eq_some_iff.mp hl
  obtain rfl : entry.1 = key := by simpa using List.find?_some hentry
  exact hs.registry entry (List.mem_of_find?_eq_some hentry)

theorem State.Sound.lookup_struct (hs : s.Sound code) (hl : s.registry.lookup? key = some h) :
    OfKind .struct s.tree h := (hs.isStruct hl).ofKind

theorem mem_of_mem_remove (h : entry ∈ (r.remove key).entries) : entry ∈ r.entries :=
  (List.mem_filter.mp h).1

theorem mem_assign (hentry : entry ∈ (r.assign key h).entries) :
    entry = (key, h) ∨ entry ∈ r.entries := by
  rcases List.mem_cons.mp hentry with rfl | hentry
  · exact Or.inl rfl
  · exact Or.inr (mem_of_mem_remove hentry)

theorem sharedStruct_yields {decl : Struct} (hs : s.Sound code)
    (hdecl : (Node.struct decl).WellFormed s.tree s.tree.size) (hkey : Answers decl key) :
    Yields code s (sharedStruct key decl) fun t => IsStruct t key := by
  intro h s' hrun
  rcases sharedStruct_run hrun with ⟨hl, rfl⟩ | ⟨-, rfl, rfl⟩
  · exact ⟨hs, .refl _, hs.isStruct hl⟩
  · obtain ⟨hadded, he, hnode, -⟩ := addNode_yields hs hdecl trivial _ _ rfl
    refine ⟨⟨hadded.tree, ?_, hadded.blocks, hadded.nodes⟩, he, decl, hnode, hkey⟩
    intro entry hentry
    rcases mem_assign hentry with rfl | hentry
    · exact ⟨decl, hnode, hkey⟩
    · exact hadded.registry entry hentry

theorem shareAs_yields (hs : s.Sound code) (hh : IsStruct s.tree key h) :
    Yields code s (shareAs key h) fun _ _ => True := by
  refine yields_modify ⟨hs.tree, ?_, hs.blocks, hs.nodes⟩ (.refl _)
  intro entry hentry
  rcases mem_assign hentry with rfl | hentry
  · exact hh
  · exact hs.registry entry hentry

theorem registerStruct_yields {decl : Program.Struct} {fields : List Handle} (hs : s.Sound code)
    (hfields : AllOfKind .member s.tree fields) :
    Yields code s (registerStruct decl fields) fun t => IsStruct t decl.name := by
  have hdecl : (Node.struct ⟨decl.name, none, fields, []⟩).WellFormed s.tree s.tree.size :=
    ⟨Or.inl rfl, hfields.below, nofun⟩
  refine (sharedStruct_yields hs hdecl (Or.inr .plain)).bind fun h s₁ hs₁ _ hh => ?_
  refine (shareAs_yields hs₁ hh.star).bind fun _ s₂ hs₂ he₂ _ => ?_
  exact yields_pure hs₂ (hh.extend he₂)

theorem sharedInstance_yields {s₁ : State} {template argument : Handle}
    (hs : s.Sound code) (he : Extends s₁.tree s.tree) (htemplate : OfKind .struct s₁.tree template)
    (hargument : OfKind .struct s.tree argument) :
    Yields code s (sharedStruct key ⟨key, template, [], [argument]⟩) fun t => IsStruct t key :=
  sharedStruct_yields hs
    ⟨Or.inr (htemplate.extend he).below, nofun, (AllOfKind.cons hargument .nil).below⟩
    (Or.inr .plain)

end Steps

/-! ## Types -/

section Types

variable {code : Prop}

/-- The last state of a run is sound if the first is, and what has been resolved is as described. -/
def KeepsSound (code : Prop) (s s' : State) (post : Tree → Prop) : Prop :=
  s.Sound code → s'.Sound code ∧ Extends s.tree s'.tree ∧ post s'.tree

theorem KeepsSound.trans {s s₁ s₂ : State} {mid post : Tree → Prop} (h : KeepsSound code s s₁ mid)
    (h' : s₁.Sound code → mid s₁.tree → KeepsSound code s₁ s₂ post) :
    KeepsSound code s s₂ post := by
  intro hs
  obtain ⟨hs₁, he₁, hmid⟩ := h hs
  obtain ⟨hs₂, he₂, hpost⟩ := h' hs₁ hmid hs₁
  exact ⟨hs₂, he₁.trans he₂, hpost⟩

theorem yields_isTypeInduction (table : Program.TypeTable) : IsTypeInduction table
    (fun _ decl s h s' => KeepsSound code s s' fun t => IsStruct t decl.name h)
    (fun _ _ s h s' => KeepsSound code s s' fun t => OfKind .struct t h)
    fun _ _ s hs s' => KeepsSound code s s' fun t => AllOfKind .member t hs where
  struct_known hl hs := ⟨hs, .refl _, hs.isStruct hl⟩
  struct_made _ _ hfields hregister :=
    hfields.trans fun _ hfields hs₁ => registerStruct_yields hs₁ hfields _ _ hregister
  type_known hl hs := ⟨hs, .refl _, hs.lookup_struct hl⟩
  type_pointer {_ _ _ inner _ template s₁ _ _ _ _} _ _ _ houter hpointee hshared := by
    refine houter.trans fun hs₁ htemplate _ => ?_
    have hdecl : (Node.struct ⟨inner, template, [], []⟩).WellFormed s₁.tree s₁.tree.size :=
      ⟨Or.inr htemplate.below, nofun, nofun⟩
    obtain ⟨_, -, rfl⟩ := htemplate.below.2
    obtain ⟨hs₂, he₂, hargument⟩ := sharedStruct_yields hs₁ hdecl (Or.inl rfl) _ _ hpointee
    obtain ⟨hs₃, he₃, hh⟩ := sharedInstance_yields hs₂ he₂ htemplate hargument.ofKind _ _ hshared
    exact ⟨hs₃, he₂.trans he₃, hh.ofKind⟩
  type_generic _ _ _ houter hinner hshared := by
    refine houter.trans fun hs₁ htemplate _ => ?_
    obtain ⟨hs₂, he₂, hargument⟩ := hinner hs₁
    obtain ⟨hs₃, he₃, hh⟩ := sharedInstance_yields hs₂ he₂ htemplate hargument _ _ hshared
    exact ⟨hs₃, he₂.trans he₃, hh.ofKind⟩
  type_struct _ _ _ hstruct hs := (hstruct hs).imp_right (And.imp_right IsStruct.ofKind)
  nil hs := ⟨hs, .refl _, .nil⟩
  cons {_ m _ _ type s₁ _ _ _ _} htype hadd hmore := by
    refine htype.trans fun hs₁ hkind _ => ?_
    have hmember : (Node.member ⟨m.name, type, m.count, m.annotations⟩).WellFormed s₁.tree
        s₁.tree.size := hkind.below
    obtain ⟨hs₂, he₂, hh⟩ := addNode_ofKind hs₁ hmember rfl trivial _ _ hadd
    obtain ⟨hs₃, he₃, hmore⟩ := hmore hs₂
    exact ⟨hs₃, he₂.trans he₃, .cons (hh.extend he₃) hmore⟩

end Types

end Shader.Resolution
