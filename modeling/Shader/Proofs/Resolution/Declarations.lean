import Mathlib.Logic.Relation
import Shader.Proofs.Resolution.Scopes
import Shader.Proofs.Resolution.Types

/-!
# The declarations of a resolved program

The children of a resolved root stand for the declarations of the program one by one, with their
kinds and names. A struct goes through the registry, where a name has one struct: a name that is no
intrinsic type keeps the struct that was declared first, however often it is declared, while an
intrinsic type is replaced by every struct of its name.
-/

namespace Shader.Program

def Struct.shape (decl : Struct) : List (String × UInt32) :=
  decl.fields.map fun m => (m.name, m.count)

/-- The struct that a declared struct of the program is resolved as: one that takes the place of an
intrinsic type as itself, any other one as the first struct of its name. -/
def Struct.origin (decl : Struct) (structs : List Struct) : Struct :=
  if isIntrinsicType decl.name then decl
  else (structs.find? (·.name = decl.name)).getD decl

/-- The node of a resolved tree is of the kind of the declaration. -/
def Node.Resembles : Node → Arena.Node → Prop
  | .scope .., .scope .. => True
  | .struct _, .struct _ => True
  | .member _, .member _ => True
  | .function .., .function _ => True
  | .parameter _, .parameter .. => True
  | .binding _, .binding _ => True
  | .specialization .., .specialization .. => True
  | .pushConstant _, .pushConstant _ => True
  | .fragment _, .fragment _ => True
  | .intrinsic .., .intrinsic _ => True
  | .literal .., .literal .. => True
  | .placeholder, .placeholder => True
  | _, _ => False

end Shader.Program

namespace Shader.Arena

def Tree.field? (t : Tree) (h : Handle) : Option (String × UInt32) :=
  match t.node? h with
  | some (.member decl) => some (decl.name, decl.count)
  | _ => none

def Tree.shape (t : Tree) (h : Handle) : List (Option (String × UInt32)) :=
  match t.node? h with
  | some (.struct decl) => decl.fields.map t.field?
  | _ => []

end Shader.Arena

namespace Shader.Resolution

open Arena Program.TypeName
open Program (TypeTable)

variable {key name : String} {h : Handle} {decl : Program.Struct} {s s' : State} {t t' : Tree}
  {node : Program.Node} {new : String → Prop}

/-! ## Keys written like the name of a struct -/

/-- The run has kept the nodes and what plain names stand for, and a plain name that stands for a
struct only now is one of `new`. -/
structure Advances (new : String → Prop) (s s' : State) : Prop where
  nodes : Keeps s.tree s'.tree
  pending : s'.pending = s.pending
  keeps : ∀ ⦃key h⦄, PlainName key → s.registry.lookup? key = some h →
    s'.registry.lookup? key = some h
  fresh : ∀ ⦃key⦄, PlainName key → s.registry.lookup? key = none →
    s'.registry.lookup? key ≠ none → new key

theorem Advances.of_leaves {Q : Node → Prop} (h : Leaves Q s s') : Advances new s s' :=
  ⟨h.tree.nodes, h.pending, fun _ _ _ hl => h.registry ▸ hl,
    fun _ _ hnone hsome => absurd (h.registry ▸ hnone) hsome⟩

theorem Advances.refl (s : State) : Advances new s s :=
  @Advances.of_leaves _ _ _ (fun _ => False) ⟨rfl, rfl, .refl _⟩

theorem Advances.trans {s'' : State} (h : Advances new s s') (h' : Advances new s' s'') :
    Advances new s s'' where
  nodes := h.nodes.trans h'.nodes
  pending := h'.pending.trans h.pending
  keeps _ _ hplain hl := h'.keeps hplain (h.keeps hplain hl)
  fresh key hplain hnone hsome := by
    cases hl : s'.registry.lookup? key with
    | none => exact h'.fresh hplain hl hsome
    | some found => exact h.fresh hplain hnone (by simp [hl])

theorem Advances.imp {new' : String → Prop} (h : Advances new s s')
    (hnew : ∀ key, new key → new' key) : Advances new' s s' :=
  { h with fresh := fun key hplain hnone hsome => hnew key (h.fresh hplain hnone hsome) }

theorem Advances.of_lookup (hnodes : Keeps s.tree s'.tree) (hpending : s'.pending = s.pending)
    (hlookup : ∀ ⦃key⦄, PlainName key → s'.registry.lookup? key = s.registry.lookup? key) :
    Advances new s s' :=
  ⟨hnodes, hpending, fun _ _ hplain hl => (hlookup hplain).trans hl,
    fun _ hplain hnone hsome => absurd ((hlookup hplain).trans hnone) hsome⟩

theorem sharedStruct_advances {decl : Struct} (hkey : ¬ PlainName key)
    (hrun : sharedStruct key decl s = .ok (h, s')) : Advances new s s' := by
  have hnodes := (brings_any.shared key decl hrun).nodes
  rcases sharedStruct_run hrun with ⟨-, rfl⟩ | ⟨-, -, rfl⟩
  · exact .refl _
  · refine .of_lookup hnodes rfl fun other hplain => ?_
    rw [Registry.lookup?_assign, if_neg]
    rintro rfl
    exact hkey hplain

theorem shareAs_star_advances {base : String} {a : Unit}
    (hrun : shareAs (base ++ "*") h s = .ok (a, s')) : Advances new s s' := by
  have hnodes := (brings_any.share (base ++ "*") h hrun).nodes
  cases hrun
  refine .of_lookup hnodes rfl fun other hplain => ?_
  exact (Registry.lookup?_assign ..).trans (if_neg (hplain.ne_star base).symm)

theorem sharedStruct_named_advances {decl : Struct} (hnew : new key)
    (hrun : sharedStruct key decl s = .ok (h, s')) : Advances new s s' := by
  have hnodes := (brings_any.shared key decl hrun).nodes
  rcases sharedStruct_run hrun with ⟨-, rfl⟩ | ⟨habsent, -, rfl⟩
  · exact .refl _
  · refine ⟨hnodes, rfl, fun other found _ hl => ?_, fun other _ hnone hsome => ?_⟩
    · refine (Registry.lookup?_assign ..).trans ((if_neg ?_).trans hl)
      rintro rfl
      rw [habsent] at hl
      cases hl
    · by_cases heq : key = other
      · exact heq ▸ hnew
      · exact absurd ((Registry.lookup?_assign ..).trans ((if_neg heq).trans hnone)) hsome

theorem registerStruct_advances {fields : List Handle} (hnew : new decl.name)
    (hrun : registerStruct decl fields s = .ok (h, s')) : Advances new s s' := by
  obtain ⟨h₁, s₁, hshared, hrun⟩ := run_bind_eq_ok hrun
  obtain ⟨_, s₂, hshare, hrun⟩ := run_bind_eq_ok hrun
  cases hrun
  exact (sharedStruct_named_advances hnew hshared).trans (shareAs_star_advances hshare)

theorem not_plainName_of_split {outer inner : String}
    (hsplit : splitInstance? name = some (outer, inner)) : ¬ PlainName name := by
  intro hplain
  rw [hplain.splitInstance?] at hsplit
  cases hsplit

theorem not_plainName_pointee (outer inner : String) :
    ¬ PlainName (outer ++ "<" ++ inner ++ ">#pointee") := by
  intro hplain
  exact hplain.1 (by simp)

/-- The node is a member of the name and count of the field. -/
abbrev IsField (t : Tree) (m : Program.Member) (h : Handle) : Prop :=
  IsMember (fun _ _ => True) t m h

theorem IsField.keep {m : Program.Member}
    (hnodes : ∀ g found, found.kind ≠ .scope → t.node? g = some found → t'.node? g = some found)
    (hm : IsField t m h) : IsField t' m h := by
  obtain ⟨type, hnode, htype⟩ := hm
  exact ⟨type, hnodes h _ (by simp [Node.kind]) hnode, htype⟩

section Types

variable {table : TypeTable}

theorem visibleStruct?_congr (h : s'.pending = s.pending) (name : String) :
    visibleStruct? table s' name = visibleStruct? table s name := by
  unfold visibleStruct?
  rw [h]

/-- The structs that are visible and may be entered are known. -/
def Knows (known : String → Prop) (table : TypeTable) (names : List String) (s : State) :
    Prop :=
  ∀ name decl, visibleStruct? table s name = some decl → decl.name ∈ names → known decl.name

theorem Knows.mono {known : String → Prop} {names names' : List String}
    (h : Knows known table names s) (hpending : s'.pending = s.pending) (hnames : names' ⊆ names) :
    Knows known table names' s' := by
  intro name decl hvisible hmem
  rw [visibleStruct?_congr hpending] at hvisible
  exact h name decl hvisible (hnames hmem)

theorem advances_isTypeInduction (table : TypeTable) (new : String → Prop) :
    IsTypeInduction table
      (fun names decl s _ s' => Knows new table (names.filter (· ≠ decl.name)) s →
        (decl.name ∈ names → new decl.name) → Advances new s s')
      (fun names _ s _ s' => Knows new table names s → Advances new s s')
      (fun names members s hs s' => Knows new table names s →
        Advances new s s' ∧ List.Forall₂ (IsField s'.tree) members hs) where
  struct_known _ _ _ := .refl _
  struct_made _ hmem hfields hregister hknows hdecl :=
    (hfields hknows).1.trans (registerStruct_advances (hdecl hmem) hregister)
  type_known _ _ := .refl _
  type_pointer _ hsplit _ houter hpointee hshared hknows := by
    refine (houter hknows).trans ?_
    refine (sharedStruct_advances (not_plainName_pointee _ _) hpointee).trans ?_
    exact sharedStruct_advances (not_plainName_of_split hsplit) hshared
  type_generic _ hsplit _ houter hinner hshared hknows := by
    have h₁ := houter hknows
    refine h₁.trans ((hinner (hknows.mono h₁.pending (List.Subset.refl _))).trans ?_)
    exact sharedStruct_advances (not_plainName_of_split hsplit) hshared
  type_struct _ _ hvisible hstruct hknows :=
    hstruct (hknows.mono rfl (List.filter_subset_self _)) (hknows _ _ hvisible)
  nil _ := ⟨.refl _, .nil⟩
  cons htype hadd hrest hknows := by
    have h₂ := (htype hknows).trans (.of_leaves (addNode_leaves _ hadd))
    obtain ⟨h₃, hfields⟩ := hrest (hknows.mono h₂.pending (List.Subset.refl _))
    exact ⟨h₂.trans h₃, .cons ⟨_, h₃.nodes (addNode_node? hadd), trivial⟩ hfields⟩

/-- A struct that a name stands for is in sight. -/
def Seen (table : TypeTable) (s : State) (key : String) : Prop :=
  ∃ name decl, visibleStruct? table s name = some decl ∧ decl.name = key

theorem Seen.of_pending (hseen : Seen table s' key) (hpending : s'.pending = s.pending) :
    Seen table s key := by
  obtain ⟨name, decl, hvisible, hname⟩ := hseen
  exact ⟨name, decl, (visibleStruct?_congr hpending name).symm.trans hvisible, hname⟩

theorem advances_isRunRelation (table : TypeTable) :
    IsRunRelation table (fun _ => True) fun s s' => Advances (Seen table s) s s' where
  common _ _ := trivial
  leaves _ _ h := .of_leaves h
  trans _ _ _ h h' := h.trans (h'.imp fun _ hseen => hseen.of_pending h.pending)
  type name s _ _ hrun := (advances_isTypeInduction table (Seen table s)).type _ name hrun
    fun name decl hvisible _ => ⟨name, decl, hvisible, rfl⟩
  struct s _ name decl _ hvisible hrun :=
    (advances_isTypeInduction table (Seen table s)).struct _ decl hrun
      (fun name decl hvisible _ => ⟨name, decl, hvisible, rfl⟩) fun _ => ⟨name, decl, hvisible, rfl⟩

/-- The node is a struct of the name and with the fields of a declared one. -/
def IsStructOf (t : Tree) (decl : Program.Struct) (h : Handle) : Prop :=
  ∃ fields, t.node? h = some (.struct ⟨decl.name, none, fields, []⟩) ∧
    List.Forall₂ (IsField t) decl.fields fields

theorem IsStructOf.keep
    (hnodes : ∀ g found, found.kind ≠ .scope → t.node? g = some found → t'.node? g = some found)
    (hstruct : IsStructOf t decl h) : IsStructOf t' decl h := by
  obtain ⟨fields, hnode, hfields⟩ := hstruct
  exact ⟨fields, hnodes h _ (by simp [Node.kind]) hnode, hfields.imp fun _ _ => .keep hnodes⟩

theorem structHandle_makes {names : List String} (hplain : PlainName decl.name)
    (hnone : s.registry.lookup? decl.name = none)
    (hrun : structHandle table names decl s = .ok (h, s')) :
    IsStructOf s'.tree decl h ∧ s'.registry.lookup? decl.name = some h := by
  cases structHandle_run hrun with
  | known hknown =>
    rw [hnone] at hknown
    cases hknown
  | @made fields s₁ _ _ hmembers hregister =>
    -- the struct cannot be entered again, so its name stands for nothing after its fields
    have hknows : Knows (· ≠ decl.name) table (names.filter (· ≠ decl.name)) s :=
      fun _ _ _ hmem => of_decide_eq_true (List.mem_filter.mp hmem).2
    obtain ⟨hadvances, hfields⟩ :=
      (advances_isTypeInduction table (· ≠ decl.name)).members _ _ hmembers hknows
    have hnone₁ : s₁.registry.lookup? decl.name = none := by
      by_contra hsome
      exact hadvances.fresh hplain hnone hsome rfl
    obtain ⟨h₁, s₂, hshared, hrest⟩ := run_bind_eq_ok hregister
    have hkeeps := (brings_any.shared _ _ hshared).nodes
    cases hrest
    rcases sharedStruct_run hshared with ⟨hknown, -⟩ | ⟨-, rfl, rfl⟩
    · rw [hnone₁] at hknown
      cases hknown
    · refine ⟨⟨fields, (Tree.node?_add ..).trans (if_pos rfl), ?_⟩, ?_⟩
      · exact hfields.imp fun _ _ => .keep fun _ _ _ hnode => hkeeps hnode
      · refine (Registry.lookup?_assign ..).trans ((if_neg ?_).trans ?_)
        · exact (hplain.ne_star _).symm
        · exact (Registry.lookup?_assign ..).trans (if_pos rfl)

end Types

/-! ## Structs in document order -/

/-- What a name stands for that a root struct has and no intrinsic type: the first struct of the
name, and nothing before that one has been reached. -/
def Standing (s : State) (name : String) : Option Program.Struct → Prop
  | none => name ∈ s.pending ∧ s.registry.lookup? name = none
  | some first => ∃ h, s.registry.lookup? name = some h ∧ IsStructOf s.tree first h

/-- The names of the root structs of a program stand for what they should after the structs
`before`. -/
def Follows (program : List Program.Node) (before : List Program.Struct) (s : State) : Prop :=
  ∀ name ∈ declaredStructs program, PlainName name → Program.isIntrinsicType name = false →
    Standing s name (before.find? (·.name = name))

section Structs

variable {table : TypeTable} {program : List Program.Node} {before : List Program.Struct}

theorem not_seen_of_pending (hplain : PlainName name)
    (hintrinsic : Program.isIntrinsicType name = false) (hpending : name ∈ s.pending) :
    ¬ Seen table s name := by
  rintro ⟨other, decl, hvisible, rfl⟩
  rcases (visibleStruct?_spec hvisible).1 with ⟨-, hnot⟩ | hmem
  · rw [withoutStar_of_plain hplain (visibleStruct?_spec hvisible).2] at hnot
    exact hnot hpending
  · rw [isIntrinsicType_of_mem hmem] at hintrinsic
    cases hintrinsic

theorem Standing.advance {first? : Option Program.Struct} (hs : Standing s name first?)
    (hpending : name ∈ s.pending → name ∈ s'.pending)
    (hnodes : ∀ g found, found.kind ≠ .scope → s.tree.node? g = some found →
      s'.tree.node? g = some found)
    (hkeeps : ∀ h, s.registry.lookup? name = some h → s'.registry.lookup? name = some h)
    (hfresh : name ∈ s.pending → s.registry.lookup? name = none →
      s'.registry.lookup? name = none) : Standing s' name first? := by
  cases first? with
  | none => exact ⟨hpending hs.1, hfresh hs.1 hs.2⟩
  | some first =>
    obtain ⟨h, hl, hstruct⟩ := hs
    exact ⟨h, hkeeps h hl, hstruct.keep hnodes⟩

theorem structHandle_lookup? {names : List String} (hplain : PlainName decl.name)
    (hrun : structHandle table names decl s = .ok (h, s')) :
    s'.registry.lookup? decl.name = some h := by
  cases structHandle_run hrun with
  | known hknown hsame => exact hsame ▸ hknown
  | made hnone => exact (structHandle_makes hplain hnone hrun).2

theorem Follows.reach_of_ne (hf : Follows program before s)
    (hadvances : Advances (fun key => Seen table (s.reach decl) key ∨ key = decl.name)
      (s.reach decl) s') (hname : name ∈ declaredStructs program) (hplain : PlainName name)
    (hintrinsic : Program.isIntrinsicType name = false) (hne : name ≠ decl.name) :
    Standing s' name (before.find? (·.name = name)) := by
  have hlookup : (s.reach decl).registry.lookup? name = s.registry.lookup? name := by
    rw [reach_lookup?, if_neg]
    rintro ⟨-, heq | heq⟩
    · exact hne heq
    · exact hplain.ne_star _ heq
  have hpending (h : name ∈ s.pending) : name ∈ (s.reach decl).pending :=
    List.mem_filter.mpr ⟨h, decide_eq_true hne⟩
  refine (hf name hname hplain hintrinsic).advance ?_ ?_ ?_ ?_
  · exact fun h => hadvances.pending ▸ hpending h
  · exact fun _ _ _ hnode => hadvances.nodes hnode
  · exact fun found hl => hadvances.keeps hplain (hlookup.trans hl)
  · intro hmem hnone
    by_contra hsome
    rcases hadvances.fresh hplain (hlookup.trans hnone) hsome with hseen | heq
    · exact not_seen_of_pending hplain hintrinsic (hpending hmem) hseen
    · exact hne heq

theorem Follows.reach_self (hf : Follows program before s)
    (hstruct : resolveStruct table decl (s.reach decl) = .ok (h, s'))
    (hname : decl.name ∈ declaredStructs program) (hplain : PlainName decl.name)
    (hintrinsic : Program.isIntrinsicType decl.name = false) :
    Standing s' decl.name ((before ++ [decl]).find? (·.name = decl.name)) := by
  have hlookup : (s.reach decl).registry.lookup? decl.name = s.registry.lookup? decl.name := by
    rw [reach_lookup?, if_neg (by simp [hintrinsic])]
  have hstanding := hf decl.name hname hplain hintrinsic
  rw [List.find?_append]
  cases hfirst : before.find? (·.name = decl.name) with
  | none =>
    rw [hfirst] at hstanding
    obtain ⟨hmade, hl⟩ := structHandle_makes hplain (hlookup.trans hstanding.2) hstruct
    simpa using ⟨h, hl, hmade⟩
  | some first =>
    rw [hfirst] at hstanding
    obtain ⟨found, hl, hfound⟩ := hstanding
    cases structHandle_run hstruct with
    | known _ hsame =>
      subst hsame
      exact ⟨found, hlookup.trans hl, hfound⟩
    | made hnone =>
      rw [hlookup, hl] at hnone
      cases hnone

theorem Follows.struct (hf : Follows program before s)
    (hrun : resolveStructDecl table decl s = .ok (h, s')) :
    Follows program (before ++ [decl]) s' ∧ (decl.name ∈ declaredStructs program →
      PlainName decl.name → IsStructOf s'.tree (decl.origin (before ++ [decl])) h) := by
  obtain ⟨s₁, hstruct, hdeclare⟩ := resolveStructDecl_eq_ok hrun
  have hleaves := declare_leaves _ _ hdeclare
  have hadvances : Advances (fun key => Seen table (s.reach decl) key ∨ key = decl.name)
      (s.reach decl) s₁ :=
    (advances_isTypeInduction table _).struct _ decl hstruct
      (fun name decl hvisible _ => Or.inl ⟨name, decl, hvisible, rfl⟩) fun _ => Or.inr rfl
  have hkeep (first? : Option Program.Struct) {name : String} (hs : Standing s₁ name first?) :
      Standing s' name first? :=
    hs.advance (hleaves.pending ▸ ·) (fun _ _ _ hnode => hleaves.tree.nodes hnode)
      (fun _ => (hleaves.registry ▸ ·)) fun _ => (hleaves.registry ▸ ·)
  refine ⟨fun name hname hplain hintrinsic => hkeep _ ?_, fun hname hplain => ?_⟩
  · by_cases heq : name = decl.name
    · subst heq
      exact hf.reach_self hstruct hname hplain hintrinsic
    · have hne : decl.name ≠ name := Ne.symm heq
      rw [List.find?_append]
      simpa [hne] using hf.reach_of_ne hadvances hname hplain hintrinsic heq
  · refine IsStructOf.keep (fun _ _ _ hnode => hleaves.tree.nodes hnode) ?_
    unfold Program.Struct.origin
    split
    · rename_i hintrinsic
      refine (structHandle_makes hplain ?_ hstruct).1
      rw [reach_lookup?, if_pos ⟨hintrinsic, Or.inl rfl⟩]
    · rename_i hintrinsic
      have hstanding := hf.reach_self hstruct hname hplain (Bool.eq_false_iff.mpr hintrinsic)
      cases hfirst : (before ++ [decl]).find? (·.name = decl.name) with
      | none => simp at hfirst
      | some first =>
        rw [hfirst] at hstanding
        obtain ⟨found, hl, hfound⟩ := hstanding
        rw [structHandle_lookup? hplain hstruct] at hl
        cases hl
        exact hfound

theorem follows_isDocumentInvariant (table : TypeTable) (program : List Program.Node) :
    IsDocumentInvariant table (Follows program) where
  run := by
    refine (advances_isRunRelation table).mono ?_ fun _ _ _ h h' before hs => h' _ (h _ hs)
    intro s s' hadvances before hf name hname hplain hintrinsic
    refine (hf name hname hplain hintrinsic).advance ?_ ?_ ?_ ?_
    · exact fun hmem => hadvances.pending ▸ hmem
    · exact fun _ _ _ hnode => hadvances.nodes hnode
    · exact fun _ hl => hadvances.keeps hplain hl
    · intro hmem hnone
      by_contra hsome
      exact not_seen_of_pending hplain hintrinsic hmem (hadvances.fresh hplain hnone hsome)
  adopt _ _ _ _ _ hrun hf name hname hplain hintrinsic := by
    obtain ⟨hregistry, hpending, -, hnodes⟩ := adopt_eq_ok hrun
    exact (hf name hname hplain hintrinsic).advance (hpending ▸ ·) hnodes (fun _ => (hregistry ▸ ·))
      fun _ => (hregistry ▸ ·)
  struct _ _ _ _ _ hrun hf := (hf.struct hrun).1

theorem Follows.initial (program : List Program.Node) :
    Follows program [] (State.initial program) :=
  fun _ hname _ _ => ⟨hname, rfl⟩

end Structs

/-! ## Kinds and names -/

section Kinds

variable {table : TypeTable} {found : Node}

theorem node?_of_addDeclared
    (hrun : (do let h ← addNode found; declare name h; return h : ResolveM Handle) s =
      .ok (h, s')) : s'.tree.node? h = some found := by
  obtain ⟨i, s₁, hadd, hrun⟩ := run_bind_eq_ok hrun
  obtain ⟨_, s₂, hdeclare, hrun⟩ := run_bind_eq_ok hrun
  cases hrun
  exact (declare_leaves _ _ hdeclare).tree.nodes (addNode_node? hadd)

theorem node?_of_resolveFragment {decl : Program.Fragment}
    (hrun : resolveFragment decl s = .ok (h, s')) : s'.tree.node? h = some (.fragment decl) := by
  obtain ⟨i, s₁, hadd, hrun⟩ := run_bind_eq_ok hrun
  obtain ⟨_, s₂, hdeclare, hrun⟩ := run_bind_eq_ok hrun
  cases hrun
  have hR := brings_isRunRelation ⟨[]⟩ fun _ hnode => hnode
  exact (hR.forM (fun name => hR.declare name h) hdeclare).nodes (addNode_node? hadd)

theorem node?_of_resolveIntrinsic {params : List Program.Parameter} {body : List Program.Node}
    {returns : String} (hrun : resolveIntrinsic table name params body returns s = .ok (h, s')) :
    ∃ decl, s'.tree.node? h = some (.intrinsic decl) ∧ decl.name = name := by
  obtain ⟨_, s₁, -, hrun⟩ := run_bind_eq_ok (run_of_within hrun)
  obtain ⟨_, s₂, -, hrun⟩ := run_bind_eq_ok hrun
  obtain ⟨_, s₃, -, hrun⟩ := run_bind_eq_ok hrun
  obtain ⟨_, s₄, -, hrun⟩ := run_bind_eq_ok hrun
  obtain ⟨i, s₅, hadd, hrun⟩ := run_bind_eq_ok hrun
  obtain ⟨_, s₆, hdeclare, hrun⟩ := run_bind_eq_ok hrun
  obtain ⟨_, s₇, hclose, hrun⟩ := run_bind_eq_ok hrun
  cases hrun
  have hnode := (declareOutside_leaves _ _ hdeclare).tree.nodes (addNode_node? hadd)
  exact ⟨_, (closeBlock_leaves hclose).tree.nodes hnode, rfl⟩

theorem resolveDeclaration_resembles (node : Program.Node) (hs : s.Sound True)
    (hrun : resolveDeclaration table node s = .ok (h, s')) :
    ∃ found, s'.tree.node? h = some found ∧ node.Resembles found ∧
      ((∀ decl, node ≠ .struct decl) → found.name = node.name) := by
  have hreflects := (resolveDeclaration_reflects table _ hs hrun).2
  unfold resolveDeclaration at hrun
  cases node with
  | scope =>
    cases hreflects with
    | scope _ hnode _ => exact ⟨_, hnode, trivial, fun _ => rfl⟩
    | plain hplain => exact hplain.elim
  | function =>
    cases hreflects with
    | function hnode => exact ⟨_, hnode, trivial, fun _ => rfl⟩
    | plain hplain => exact hplain.elim
  | struct decl =>
    obtain ⟨-, -, hkind⟩ := resolveStructDecl_yields hs _ _ hrun
    obtain ⟨found, hnode, hkind⟩ := Option.map_eq_some_iff.mp hkind
    cases found with
    | struct => exact ⟨_, hnode, trivial, fun hne => absurd rfl (hne decl)⟩
    | _ => cases hkind
  | member decl =>
    obtain ⟨_, s₁, -, hrun⟩ := run_bind_eq_ok hrun
    exact ⟨_, node?_of_addDeclared hrun, trivial, fun _ => rfl⟩
  | binding decl =>
    obtain ⟨⟨kind, members, format⟩, s₁, -, hrun⟩ := run_bind_eq_ok hrun
    exact ⟨_, node?_of_addDeclared hrun, trivial, fun _ => rfl⟩
  | pushConstant members =>
    obtain ⟨_, s₁, -, hrun⟩ := run_bind_eq_ok hrun
    exact ⟨_, node?_of_addDeclared hrun, trivial, fun _ => rfl⟩
  | specialization name type =>
    obtain ⟨_, s₁, -, hrun⟩ := run_bind_eq_ok hrun
    exact ⟨_, node?_of_addDeclared hrun, trivial, fun _ => rfl⟩
  | fragment decl => exact ⟨_, node?_of_resolveFragment hrun, trivial, fun _ => rfl⟩
  | intrinsic name params body returns =>
    obtain ⟨decl, hnode, hname⟩ := node?_of_resolveIntrinsic hrun
    exact ⟨_, hnode, trivial, fun _ => hname⟩
  | literal name body => exact ⟨_, node?_of_addDeclared hrun, trivial, fun _ => rfl⟩
  | parameter decl =>
    obtain ⟨_, s₁, -, hrun⟩ := run_bind_eq_ok hrun
    exact ⟨_, node?_of_addDeclared hrun, trivial, fun _ => rfl⟩
  | placeholder => exact ⟨_, addNode_node? hrun, trivial, fun _ => rfl⟩
  | _ => cases hrun

end Kinds

/-! ## The children of the root -/

section Children

variable {structs : List Program.Struct} {table : TypeTable}

theorem origin_append {rest : List Program.Struct} (hmem : decl ∈ structs) :
    decl.origin (structs ++ rest) = decl.origin structs := by
  unfold Program.Struct.origin
  split
  · rfl
  · have hsome : (structs.find? (·.name = decl.name)).isSome :=
      List.find?_isSome.mpr ⟨decl, hmem, decide_eq_true rfl⟩
    rw [List.find?_append, Option.or_of_isSome hsome]

theorem origin_name (decl : Program.Struct) (structs : List Program.Struct) :
    (decl.origin structs).name = decl.name := by
  unfold Program.Struct.origin
  split
  · rfl
  · cases hfirst : structs.find? (·.name = decl.name) with
    | none => rfl
    | some first => simpa using List.find?_some hfirst

theorem IsStructOf.shape (hstruct : IsStructOf t decl h) : t.shape h = decl.shape.map some := by
  obtain ⟨fields, hnode, hfields⟩ := hstruct
  have hall : fields.map t.field? = decl.fields.map fun m => some (m.name, m.count) := by
    clear hnode
    generalize decl.fields = members at hfields
    induction hfields with
    | nil => rfl
    | cons hfield _ ih =>
      obtain ⟨type, hmember, -⟩ := hfield
      simp [Tree.field?, hmember, ih]
  unfold Tree.shape
  rw [hnode]
  exact hall.trans (List.map_map ..).symm

/-- The node of a tree stands for a declaration: it has its kind, its name and, if the declaration
is a struct, the fields of the struct that it is resolved as. -/
structure Renders (structs : List Program.Struct) (t : Tree) (node : Program.Node) (h : Handle) :
    Prop where
  kind : ∃ found, t.node? h = some found ∧ node.Resembles found
  name : (∀ decl, node ≠ .struct decl) → t.name h = node.name
  struct : ∀ decl, node = .struct decl → PlainName decl.name →
    t.name h = decl.name ∧ t.shape h = (decl.origin structs).shape.map some

theorem renders_of_run {found : Node} (hkeeps : KeepsBut 0 s.tree t)
    (hroot : s.tree.kind? (some 0) = some .scope) (hne : h ≠ some 0)
    (hnode : s.tree.node? h = some found) (hresembles : node.Resembles found)
    (hname : (∀ decl, node ≠ .struct decl) → found.name = node.name)
    (hstruct : ∀ decl, node = .struct decl → PlainName decl.name →
      IsStructOf s.tree (decl.origin structs) h) : Renders structs t node h where
  kind := ⟨found, hkeeps hne hnode, hresembles⟩
  name hnot := by
    rw [Tree.name, hkeeps hne hnode]
    exact hname hnot
  struct decl hdecl hplain := by
    have hstands : IsStructOf t (decl.origin structs) h :=
      (hstruct decl hdecl hplain).keep fun _ _ hkind hnode => hkeeps.node? hroot hnode hkind
    refine ⟨?_, hstands.shape⟩
    obtain ⟨fields, hnode, -⟩ := hstands
    rw [Tree.name, hnode]
    exact origin_name decl structs

theorem Adoptable.ne_of_scope {i : Nat} (ha : Adoptable t.size t' h) (hkeeps : Keeps t t')
    (hscope : t.kind? (some i) = some .scope) : h ≠ some i := by
  rintro rfl
  obtain ⟨found, hnode, hkind⟩ := Option.map_eq_some_iff.mp hscope
  obtain ⟨j, hj, heq⟩ := ha.2 (hkind ▸ Tree.kind?_of_node? (hkeeps hnode))
  cases heq
  exact absurd (Tree.lt_size_of_node? hnode) (Nat.not_lt.mpr hj)

theorem resolveChildren_renders {program nodes : List Program.Node} {before : List Program.Struct}
    {rootName : String} {old : List Handle} (hs : s.Sound True) (hf : Follows program before s)
    (hroot : s.tree.node? (some 0) = some (.scope rootName old))
    (hstructs : Program.structsOfAll program = before ++ Program.structsOfAll nodes)
    (hmem : ∀ node ∈ nodes, node ∈ program)
    (hrun : resolveChildren table id (some 0) nodes s = .ok ((), s')) :
    ∃ new, s'.tree.node? (some 0) = some (.scope rootName (old ++ new)) ∧
      List.Forall₂ (Renders (Program.structsOfAll program) s'.tree) nodes new := by
  induction nodes generalizing before s old with
  | nil =>
    rw [resolveChildren] at hrun
    cases hrun
    exact ⟨[], by rw [List.append_nil, hroot], .nil⟩
  | cons node rest ih =>
    have hinvariant := follows_isDocumentInvariant table program
    rw [resolveChildren] at hrun
    obtain ⟨child, s₁, hchild, hrun⟩ := run_bind_eq_ok hrun
    obtain ⟨_, s₂, hadopt, hrest⟩ := run_bind_eq_ok hrun
    obtain ⟨hkeeps, -⟩ := resolveDeclaration_reflects table node hs hchild
    obtain ⟨hs₁, -, hadoptable, -⟩ :=
      resolveDeclaration_yields table node hs (Or.inl trivial) _ _ hchild
    have hlt : 1 ≤ s.tree.size := Tree.lt_size_of_node? hroot
    obtain ⟨hs₂, -, -⟩ := adopt_yields hs₁ (hadoptable.weaken hlt) _ _ hadopt
    obtain ⟨_, _, hbefore, hafter, hkeeps₂⟩ := adopt_run hadopt
    rw [hkeeps hroot] at hbefore
    cases hbefore
    have hf₁ := hinvariant.declaration node hf hchild
    rw [Program.structsOfAll, ← List.append_assoc] at hstructs
    obtain ⟨hkeeps₃, -⟩ := resolveChildren_mirrors table rest (fun _ _ _ hact => hact) hs₂ hafter
      hrest
    obtain ⟨new, hnew, hall⟩ := ih hs₂ (hinvariant.adopt hadopt hf₁) hafter hstructs
      (fun other hother => hmem other (.tail _ hother)) hrest
    refine ⟨child :: new, by rw [hnew, List.append_assoc, List.singleton_append], .cons ?_ hall⟩
    obtain ⟨found, hnode, hresembles, hname⟩ := resolveDeclaration_resembles node hs hchild
    have hne := hadoptable.ne_of_scope hkeeps (Tree.kind?_of_node? hroot)
    refine renders_of_run (hkeeps₂.trans hkeeps₃) (Tree.kind?_of_node? (hkeeps hroot)) hne hnode
      hresembles hname ?_
    rintro decl rfl hplain
    rw [resolveDeclaration] at hchild
    rw [hstructs, Program.Node.structs, origin_append (by simp)]
    refine (hf.struct hchild).2 ?_ hplain
    exact List.mem_filterMap.mpr ⟨_, hmem _ (.head _), rfl⟩

end Children

/-- The children of a resolved root stand for the declarations of the program, one by one and in
order. A struct has its own fields if its name is an intrinsic type or no struct of the name stands
before it in the program. -/
theorem resolve_keeps_declarations {scope : Program.Scope} {table : TypeTable} {t : Tree}
    (h : resolve (some scope) table = .ok t) :
    t.rootChildren.length = scope.children.length ∧
      List.Forall₂ (Renders (Program.structsOfAll scope.children) t) scope.children
        t.rootChildren := by
  obtain ⟨s, hrun, rfl⟩ := resolve_eq_ok_iff.mp h
  obtain ⟨new, hroot, hall⟩ := resolveChildren_renders (.initial scope.children) (.initial _) rfl
    (List.nil_append _).symm (fun _ hnode => hnode) hrun
  have hchildren : s.tree.rootChildren = new := by
    simp [Tree.rootChildren, Tree.scope?, Tree.root, hroot]
  rw [hchildren]
  exact ⟨hall.length_eq.symm, hall⟩

/-- An intrinsic type is mentioned, replaced and replaced again. -/
theorem resolve_keeps_declarations_sample :
    let red : Program.Struct := ⟨"vec2f", [⟨"r", "f32", 0, []⟩], []⟩
    let green : Program.Struct := ⟨"vec2f", [⟨"g", "f32", 4, []⟩], []⟩
    let scope : Program.Scope :=
      .root [.member ⟨"a", "vec2f", 0, []⟩, .struct red, .scope "inner" [.struct green]]
    let t : Tree := ⟨#[.scope "root" [some 5, some 7, some 8], .struct ⟨"f32", none, [], []⟩,
      .member ⟨"x", some 1, 0, []⟩, .member ⟨"y", some 1, 0, []⟩,
      .struct ⟨"vec2f", none, [some 2, some 3], []⟩, .member ⟨"a", some 4, 0, []⟩,
      .member ⟨"r", some 1, 0, []⟩, .struct ⟨"vec2f", none, [some 6], []⟩,
      .scope "inner" [some 10], .member ⟨"g", some 1, 4, []⟩,
      .struct ⟨"vec2f", none, [some 9], []⟩]⟩
    resolve (some scope) scope.table = .ok t ∧ t.rootChildren.length = scope.children.length ∧
      List.Forall₂ (Renders [red, green] t) scope.children t.rootChildren := by
  intro red green scope t
  have hresolve : resolve (some scope) scope.table = .ok t :=
    resolve_of_evaluate 9 (by decide +kernel)
  exact ⟨hresolve, resolve_keeps_declarations hresolve⟩

/-- A second struct of a name is resolved as the first one, with the fields of that. -/
theorem resolve_merges_structs :
    let first : Program.Struct := ⟨"A", [⟨"x", "f32", 0, []⟩], []⟩
    let second : Program.Struct := ⟨"A", [⟨"y", "u32", 0, []⟩], []⟩
    let scope : Program.Scope := .root [.struct first, .struct second]
    let t : Tree := ⟨#[.scope "root" [some 3, some 3], .struct ⟨"f32", none, [], []⟩,
      .member ⟨"x", some 1, 0, []⟩, .struct ⟨"A", none, [some 2], []⟩]⟩
    resolve (some scope) scope.table = .ok t ∧ t.rootChildren.map t.shape =
      [first.shape.map some, first.shape.map some] ∧ first.shape ≠ second.shape := by
  intro first second scope t
  exact ⟨resolve_of_evaluate 9 (by decide +kernel), by decide, by decide⟩

end Shader.Resolution
