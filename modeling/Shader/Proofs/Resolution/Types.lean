import Mathlib.Data.List.Forall2
import Shader.Proofs.Resolution.Step

/-!
# What a registry stands for

Each key of the registry leads to a struct that is made for it: a struct of the program with the
types of its fields, an instance with its template and argument, or the pointee of an instance. A
struct of the program that takes the place of an intrinsic type removes keys, so what keys have
stood for so far is kept apart from the registry, as a relation between keys and handles.
-/

namespace Shader.Arena.Registry

end Shader.Arena.Registry

namespace Shader.Resolution

open Arena Program.TypeName
open Program (TypeTable)

variable {inner key name outer : String} {h : Handle} {s s' : State} {t : Tree} {node : Node}
  {decl : Program.Struct}
variable {fields : List Handle}

/-! ## Keys -/

/-- The name is that of a struct: it has no argument and is no pointer. -/
def PlainName (name : String) : Prop := '<' ∉ name.toList ∧ isPointer name = false

theorem PlainName.ne_star (h : PlainName name) (other : String) : name ≠ other ++ "*" := by
  rintro rfl
  have hstar : isPointer (other ++ "*") = true := by simp [isPointer]
  rw [h.2] at hstar
  cases hstar

theorem PlainName.splitInstance? (h : PlainName name) :
    splitInstance? name = none := by
  have hall : ∀ c ∈ name.toList, decide (c ≠ '<') = true := by
    intro c hc
    rw [decide_eq_true_eq]
    rintro rfl
    exact h.1 hc
  have hdrop := @List.dropWhile_append_of_pos _ _ _ [] hall
  rw [List.append_nil] at hdrop
  unfold Program.TypeName.splitInstance?
  rw [hdrop]
  rfl

theorem withoutStar_of_plain {base : String} (hplain : PlainName base)
    (h : name = base ∨ name = base ++ "*") : withoutStar name = base := by
  unfold withoutStar
  rcases h with rfl | rfl
  · rw [hplain.2, if_neg Bool.false_ne_true]
  · have hstar : isPointer (base ++ "*") = true := by simp [isPointer]
    rw [if_pos hstar]
    simp

theorem splitInstance?_eq_some (h : splitInstance? name = some (outer, inner)) :
    name = outer ++ "<" ++ inner ++ ">" ∧ isPointer name = false := by
  have hparts : name.toList.takeWhile (· ≠ '<') ++ name.toList.dropWhile (· ≠ '<') =
      name.toList := List.takeWhile_append_dropWhile
  unfold splitInstance? at h
  dsimp only at h
  split at h
  · rename_i c rest hdrop
    have hhead : c = '<' := by
      have hc := List.head?_dropWhile_not (fun c : Char => decide (c ≠ '<')) name.toList
      rw [hdrop] at hc
      simpa using hc
    split at h
    · rename_i hlast
      cases h
      simp only [Bool.and_eq_true, decide_eq_true_eq] at hlast
      have hrest : rest = rest.dropLast ++ ['>'] := by
        obtain ⟨front, hfront⟩ := List.getLast?_eq_some_iff.mp hlast.2
        rw [hfront, List.dropLast_concat]
      rw [hdrop, hhead, hrest] at hparts
      have hname : name = String.ofList (name.toList.takeWhile (· ≠ '<')) ++ "<" ++
          String.ofList rest.dropLast ++ ">" := by
        apply String.toList_inj.mp
        simpa using hparts.symm
      have hopen (text : String) : isPointer (text ++ ">") = false := by simp [isPointer]
      exact ⟨hname, hname ▸ hopen _⟩
    · cases h
  · cases h

/-- Two keys of one struct: they are equal, or one is the pointer of the other. -/
def Alias (key other : String) : Prop :=
  key = other ∨ key = other ++ "*" ∨ other = key ++ "*"

/-- The key of the argument of an instance. A pointee has a key of its own. -/
def argumentKey (outer inner : String) : String :=
  if isPointer inner then outer ++ "<" ++ inner ++ ">#pointee" else inner

/-! ## What keys stand for -/

/-- The node of a member, whose type is what its name stands for. -/
def IsMember (G : String → Handle → Prop) (t : Tree) (m : Program.Member) (h : Handle) : Prop :=
  ∃ type, t.node? h = some (.member ⟨m.name, type, m.count, m.annotations⟩) ∧ G m.type type

/-- The struct that a key stands for, where `G` tells what other keys stand for. The structs of
the program that can come up satisfy `Ok`. -/
inductive IsType (Ok : Program.Struct → Prop) (G : String → Handle → Prop) (t : Tree) :
    String → Handle → Prop
  | struct {decl : Program.Struct} {key : String} {fields : List Handle} {h : Handle}
      (hok : Ok decl)
      (hplain : PlainName decl.name) (hkey : key = decl.name ∨ key = decl.name ++ "*")
      (hnode : t.node? h = some (.struct ⟨decl.name, none, fields, []⟩))
      (hfields : List.Forall₂ (IsMember G t) decl.fields fields) : IsType Ok G t key h
  | generic {key outer inner : String} {template argument h : Handle}
      (hsplit : splitInstance? key = some (outer, inner)) (htemplate : G outer template)
      (hargument : G (argumentKey outer inner) argument)
      (hnode : t.node? h = some (.struct ⟨key, template, [], [argument]⟩)) : IsType Ok G t key h
  | pointee {key outer inner : String} {template h : Handle}
      (hkey : key = outer ++ "<" ++ inner ++ ">#pointee")
      (hsplit : splitInstance? (outer ++ "<" ++ inner ++ ">") = some (outer, inner))
      (hpointer : isPointer inner = true) (htemplate : G outer template)
      (hnode : t.node? h = some (.struct ⟨inner, template, [], []⟩)) : IsType Ok G t key h

section Growth

variable {Ok : Program.Struct → Prop} {G G' : String → Handle → Prop} {t t' : Tree}

theorem IsMember.mono (he : Extends t t') (hG : ∀ key h, G key h → G' key h) {m : Program.Member}
    (hm : IsMember G t m h) : IsMember G' t' m h := by
  obtain ⟨type, hnode, htype⟩ := hm
  exact ⟨type, he.keeps hnode rfl, hG _ _ htype⟩

theorem IsType.mono (he : Extends t t') (hG : ∀ key h, G key h → G' key h)
    (ht : IsType Ok G t key h) : IsType Ok G' t' key h := by
  cases ht with
  | struct hok hplain hkey hnode hfields =>
    exact .struct hok hplain hkey (he.keeps hnode rfl)
      (hfields.imp fun _ _ hm => hm.mono he hG)
  | generic hsplit htemplate hargument hnode =>
    exact .generic hsplit (hG _ _ htemplate) (hG _ _ hargument)
      (he.keeps hnode rfl)
  | pointee hkey hsplit hpointer htemplate hnode =>
    exact .pointee hkey hsplit hpointer (hG _ _ htemplate) (he.keeps hnode rfl)

theorem IsType.of_notMem (ht : IsType Ok G t key h) (hkey : '<' ∉ key.toList) :
    ∃ decl fields, Ok decl ∧ PlainName decl.name ∧ (key = decl.name ∨ key = decl.name ++ "*") ∧
      t.node? h = some (.struct ⟨decl.name, none, fields, []⟩) ∧
      List.Forall₂ (IsMember G t) decl.fields fields := by
  cases ht with
  | struct hok hplain hname hnode hfields =>
    exact ⟨_, _, hok, hplain, hname, hnode, hfields⟩
  | generic hsplit =>
    refine absurd ?_ hkey
    rw [(splitInstance?_eq_some hsplit).1]
    simp
  | pointee hpointee =>
    refine absurd ?_ hkey
    rw [hpointee]
    simp

theorem IsType.of_plainName (ht : IsType Ok G t key h) (hplain : PlainName key) :
    ∃ decl fields, Ok decl ∧ decl.name = key ∧
      t.node? h = some (.struct ⟨key, none, fields, []⟩) ∧
      List.Forall₂ (IsMember G t) decl.fields fields := by
  obtain ⟨decl, fields, hok, -, hname, hnode, hfields⟩ := ht.of_notMem hplain.1
  rcases hname with rfl | rfl
  · exact ⟨decl, fields, hok, rfl, hnode, hfields⟩
  · exact absurd rfl (hplain.ne_star decl.name)

theorem pointee_eq (text : String) : text ++ ">#pointee" = text ++ ">" ++ "#pointee" := by
  rw [String.append_assoc]
  rfl

theorem splitInstance?_pointee (text : String) : splitInstance? (text ++ ">#pointee") = none := by
  have hopen (text : String) : (text ++ ">").toList.getLast? = some '>' := by simp
  have hpointee : (text ++ ">#pointee").toList.getLast? = some 'e' := by simp
  cases hsplit : splitInstance? (text ++ ">#pointee") with
  | none => rfl
  | some parts =>
    rw [(splitInstance?_eq_some hsplit).1, hopen] at hpointee
    cases hpointee

theorem IsType.of_splitInstance (ht : IsType Ok G t key h)
    (hkey : splitInstance? key = some (outer, inner)) :
    ∃ template argument, G outer template ∧ G (argumentKey outer inner) argument ∧
      t.node? h = some (.struct ⟨key, template, [], [argument]⟩) := by
  cases ht with
  | struct _ hplain hname =>
    have hopen : '<' ∉ key.toList := by
      rcases hname with rfl | rfl
      · exact hplain.1
      · simpa using hplain.1
    refine absurd ?_ hopen
    rw [(splitInstance?_eq_some hkey).1]
    simp
  | generic hsplit htemplate hargument hnode =>
    rw [hkey] at hsplit
    cases hsplit
    exact ⟨_, _, htemplate, hargument, hnode⟩
  | pointee hpointee =>
    rw [hpointee, splitInstance?_pointee] at hkey
    cases hkey

theorem IsType.of_pointee (ht : IsType Ok G t (outer ++ "<" ++ inner ++ ">#pointee") h)
    (hkey : splitInstance? (outer ++ "<" ++ inner ++ ">") = some (outer, inner)) :
    ∃ template, G outer template ∧ t.node? h = some (.struct ⟨inner, template, [], []⟩) := by
  cases ht with
  | @struct decl _ _ _ _ hplain hname =>
    have hopen : '<' ∉ (outer ++ "<" ++ inner ++ ">#pointee").toList := by
      rcases hname with hname | hname
      · rw [hname]
        exact hplain.1
      · rw [hname]
        simpa using hplain.1
    exact absurd (by simp) hopen
  | generic hsplit =>
    rw [splitInstance?_pointee] at hsplit
    cases hsplit
  | pointee hpointee hsplit _ htemplate hnode =>
    rw [pointee_eq, pointee_eq] at hpointee
    have hname := (String.append_left_inj "#pointee").mp hpointee
    rw [← hname, hkey] at hsplit
    cases hsplit
    exact ⟨_, htemplate, hnode⟩

end Growth

/-! ## The invariant -/

/-- The node is neither a named literal nor an intrinsic, whose uses are replaced by other code. -/
def IsDirect : Node → Prop
  | .literal .. => False
  | .intrinsic _ => False
  | _ => True

/-- What keys stood for in the past, and what the registry has for them now. -/
def Known (G : String → Handle → Prop) (s : State) (key : String) (h : Handle) : Prop :=
  G key h ∨ s.registry.lookup? key = some h

/-- Each key stands for a struct made for it, now and in the past `G`, and only a struct and its
pointer share a handle. -/
structure Typed (Ok : Program.Struct → Prop) (G : String → Handle → Prop) (s : State) : Prop where
  sound : s.Sound False
  direct : ∀ h node, s.tree.node? h = some node → IsDirect node
  content : ∀ key h, Known G s key h → IsType Ok (Known G s) s.tree key h
  star : ∀ name h, s.registry.lookup? (name ++ "*") = some h → s.registry.lookup? name = some h
  starred : ∀ name fields types h, s.registry.lookup? name = some h →
    s.tree.node? h = some (.struct ⟨name, none, fields, types⟩) →
    s.registry.lookup? (name ++ "*") = some h
  shared : ∀ key other h, s.registry.lookup? key = some h → s.registry.lookup? other = some h →
    Alias key other

/-- What a run keeps: the invariant, the nodes of the tree, the keys of the registry and the
structs that have not been reached. -/
structure Steps (Ok : Program.Struct → Prop) (G : String → Handle → Prop) (s s' : State) :
    Prop where
  typed : Typed Ok G s'
  nodes : ∀ h node, s.tree.node? h = some node → s'.tree.node? h = some node
  keeps : ∀ key h, s.registry.lookup? key = some h → s'.registry.lookup? key = some h
  pending : s'.pending = s.pending

/-- Every successful run of the computation keeps what is known, and its result satisfies the
postcondition. -/
def Gives {α : Type} (Ok : Program.Struct → Prop) (G : String → Handle → Prop) (s : State)
    (act : ResolveM α) (post : State → α → Prop) : Prop :=
  Ends s act fun s' a => Steps Ok G s s' ∧ post s' a

section Rules

variable {Ok : Program.Struct → Prop} {G : String → Handle → Prop} {s s₁ s₂ : State}

theorem Steps.refl (hs : Typed Ok G s) : Steps Ok G s s :=
  ⟨hs, fun _ _ h => h, fun _ _ h => h, rfl⟩

theorem Steps.trans (h₁ : Steps Ok G s s₁) (h₂ : Steps Ok G s₁ s₂) : Steps Ok G s s₂ :=
  ⟨h₂.typed, fun h node hnode => h₂.nodes h node (h₁.nodes h node hnode),
    fun key h hl => h₂.keeps key h (h₁.keeps key h hl), h₂.pending.trans h₁.pending⟩

theorem Steps.grows (h : Steps Ok G s s₁) : Extends s.tree s₁.tree :=
  fun g node hnode => ⟨node, h.nodes g node hnode, .same node⟩

theorem Steps.known (h : Steps Ok G s s₁) (key : String) (hd : Handle) (hk : Known G s key hd) :
    Known G s₁ key hd := hk.imp_right (h.keeps key hd)

variable {α β : Type} {act : ResolveM α} {f : α → ResolveM β} {post : State → β → Prop}

theorem gives_pure {a : β} (hs : Typed Ok G s) (h : post s a) : Gives Ok G s (pure a) post :=
  ends_pure ⟨.refl hs, h⟩

theorem gives_get {g : State → ResolveM β} (h : Gives Ok G s (g s) post) :
    Gives Ok G s (get >>= g) post := h

theorem Gives.bind {mid : State → α → Prop} (hact : Gives Ok G s act mid)
    (hf : ∀ a s₁, Steps Ok G s s₁ → mid s₁ a → Gives Ok G s₁ (f a) post) :
    Gives Ok G s (act >>= f) post := by
  refine Ends.bind hact ?_
  rintro a s₁ ⟨h₁, hmid⟩ b s₂ hrun
  obtain ⟨h₂, hpost⟩ := hf a s₁ h₁ hmid b s₂ hrun
  exact ⟨h₁.trans h₂, hpost⟩

theorem Gives.imp {mid post : State → α → Prop} (hact : Gives Ok G s act mid)
    (h : ∀ s₁ a, Steps Ok G s s₁ → mid s₁ a → post s₁ a) : Gives Ok G s act post := by
  intro a s' hrun
  obtain ⟨h₁, hmid⟩ := hact a s' hrun
  exact ⟨h₁, h s' a h₁ hmid⟩

theorem Gives.yields {mid : State → α → Prop} {kinds : Tree → α → Prop}
    (hact : Gives Ok G s act mid)
    (hkinds : Yields False s act kinds) :
    Gives Ok G s act fun s' a => mid s' a ∧ kinds s'.tree a :=
  fun a s' hrun => (hact a s' hrun).imp_right (⟨·, (hkinds a s' hrun).2.2⟩)

theorem Gives.within {place : String} {post : State → α → Prop} (hact : Gives Ok G s act post) :
    Gives Ok G s (within place act) post := Ends.within hact

end Rules

/-! ## Single steps -/

section Steps

variable {Ok : Program.Struct → Prop} {G : String → Handle → Prop} {s : State}

theorem Typed.isSome (hs : Typed Ok G s)
    (hl : s.registry.lookup? key = some h) : (s.tree.node? h).isSome :=
  Tree.isSome_of_kind? (hs.sound.lookup_struct hl)

theorem Typed.ne_size (hs : Typed Ok G s) (hl : s.registry.lookup? key = some h) :
    h ≠ some s.tree.size := by
  rintro rfl
  have hsome := hs.isSome hl
  rw [Tree.node?_size] at hsome
  cases hsome

theorem node?_add_of_ne (hne : h ≠ some t.size) : (t.add node).2.node? h = t.node? h := by
  rw [Tree.node?_add, if_neg hne]

theorem node?_add_of_some {other : Node} (hnode : t.node? h = some other) :
    (t.add node).2.node? h = some other := by
  rw [node?_add_of_ne, hnode]
  rintro rfl
  rw [Tree.node?_size] at hnode
  cases hnode

theorem addNode_gives (hs : Typed Ok G s) (hnode : node.WellFormed s.tree s.tree.size)
    (hsuits : Suits False s.tree node) (hdirect : IsDirect node) :
    Gives Ok G s (addNode node) fun s' h =>
      s'.tree.node? h = some node ∧ h = some s.tree.size ∧ s'.blocks = s.blocks := by
  intro h s' hrun
  obtain ⟨hsound, he, hadded, rfl⟩ := addNode_yields hs.sound hnode hsuits h s' hrun
  cases hrun
  refine ⟨⟨?_, fun _ _ => node?_add_of_some, fun _ _ hl => hl, rfl⟩, hadded, rfl, rfl⟩
  refine ⟨hsound, ?_, fun key h hk => (hs.content key h hk).mono he fun _ _ hk => hk, hs.star, ?_,
    hs.shared⟩
  · intro h other hother
    by_cases hsize : h = some s.tree.size
    · subst hsize
      rw [hadded] at hother
      cases hother
      exact hdirect
    · change (s.tree.add node).2.node? h = _ at hother
      rw [node?_add_of_ne hsize] at hother
      exact hs.direct h other hother
  · intro name fields types h hl hstruct
    change (s.tree.add node).2.node? h = _ at hstruct
    rw [node?_add_of_ne (hs.ne_size hl)] at hstruct
    exact hs.starred name fields types h hl hstruct

theorem Typed.register (hs : Typed Ok G s) {decl : Struct} {keys : List String}
    (hsound : s'.Sound False) (htree : s'.tree = (s.tree.add (.struct decl)).2)
    (hlookup : ∀ key, s'.registry.lookup? key =
      if key ∈ keys then some (some s.tree.size) else s.registry.lookup? key)
    (hnew : ∀ key ∈ keys, s.registry.lookup? key = none)
    (hstar : ∀ name, name ++ "*" ∈ keys → name ∈ keys)
    (hstarred : decl.template = none → decl.name ∈ keys → decl.name ++ "*" ∈ keys)
    (halias : ∀ key ∈ keys, ∀ other ∈ keys, Alias key other)
    (hcontent : ∀ key ∈ keys, IsType Ok (Known G s') s'.tree key (some s.tree.size)) :
    Typed Ok G s' := by
  have he : Extends s.tree s'.tree := htree ▸ Extends.add s.tree _
  have hold {key : String} {h : Handle} (hl : s.registry.lookup? key = some h) : key ∉ keys := by
    intro hmem
    rw [hnew key hmem] at hl
    cases hl
  have hnode {h : Handle} (hne : h ≠ some s.tree.size) : s'.tree.node? h = s.tree.node? h := by
    rw [htree, node?_add_of_ne hne]
  have hadded : s'.tree.node? (some s.tree.size) = some (.struct decl) := by
    rw [htree, Tree.node?_add]
    exact if_pos rfl
  have hknown (key : String) (h : Handle) (hk : Known G s key h) : Known G s' key h := by
    refine hk.imp_right fun hl => ?_
    rw [hlookup, if_neg (hold hl), hl]
  refine ⟨hsound, ?_, ?_, ?_, ?_, ?_⟩
  · intro h other hother
    by_cases hsize : h = some s.tree.size
    · subst hsize
      rw [hadded] at hother
      cases hother
      trivial
    · rw [hnode hsize] at hother
      exact hs.direct h other hother
  · intro key h hk
    have hbefore (hk : Known G s key h) : IsType Ok (Known G s') s'.tree key h :=
      (hs.content key h hk).mono he hknown
    rcases hk with hG | hl
    · exact hbefore (Or.inl hG)
    · rw [hlookup] at hl
      split at hl
      · rename_i hmem
        cases hl
        exact hcontent key hmem
      · exact hbefore (Or.inr hl)
  · intro name h hl
    rw [hlookup] at hl ⊢
    split at hl
    · rename_i hmem
      rw [if_pos (hstar name hmem), hl]
    · have hl' := hs.star name h hl
      rw [if_neg (hold hl'), hl']
  · intro name fields types h hl hstruct
    rw [hlookup] at hl ⊢
    split at hl
    · rename_i hmem
      cases hl
      rw [hadded] at hstruct
      cases hstruct
      rw [if_pos (hstarred rfl hmem)]
    · rw [hnode (hs.ne_size hl)] at hstruct
      have hl' := hs.starred name fields types h hl hstruct
      rw [if_neg (hold hl'), hl']
  · intro key other h hl hl'
    rw [hlookup] at hl hl'
    split at hl
    · rename_i hmem
      cases hl
      split at hl'
      · rename_i hmem'
        exact halias key hmem other hmem'
      · exact absurd rfl (hs.ne_size hl')
    · split at hl'
      · cases hl'
        exact absurd rfl (hs.ne_size hl)
      · exact hs.shared key other h hl hl'

theorem sharedStruct_gives {decl : Struct} (hs : Typed Ok G s)
    (hdecl : (Node.struct decl).WellFormed s.tree s.tree.size) (htemplate : decl.template ≠ none)
    (hkey : isPointer key = false)
    (hcontent : ∀ {G' : String → Handle → Prop} {t : Tree} {h : Handle},
      (∀ key h, Known G s key h → G' key h) → t.node? h = some (.struct decl) →
        IsType Ok G' t key h) :
    Gives Ok G s (sharedStruct key decl) fun s' h =>
      s'.registry.lookup? key = some h ∧ s'.blocks = s.blocks := by
  intro h s' hrun
  obtain ⟨hsound, he, -⟩ := sharedStruct_yields hs.sound hdecl
    (Or.inl (Option.isSome_iff_ne_none.mpr htemplate)) h s' hrun
  rcases sharedStruct_run hrun with ⟨hl, rfl⟩ | ⟨hl, rfl, rfl⟩
  · exact ⟨.refl hs, hl, rfl⟩
  · have hlookup (other : String) : (s.registry.assign key (some s.tree.size)).lookup? other =
        if other ∈ [key] then some (some s.tree.size) else s.registry.lookup? other := by
      rw [Registry.lookup?_assign]
      simp only [List.mem_singleton, eq_comm]
    have hkeeps (k : String) (h : Handle) (hk : s.registry.lookup? k = some h) :
        (s.registry.assign key (some s.tree.size)).lookup? k = some h := by
      rw [Registry.lookup?_assign, if_neg, hk]
      rintro rfl
      rw [hl] at hk
      cases hk
    refine ⟨⟨hs.register hsound rfl hlookup ?_ ?_ ?_ ?_ ?_, fun _ _ => node?_add_of_some, hkeeps,
      rfl⟩, ?_, rfl⟩
    · simpa using hl
    · intro name hmem
      rw [← List.mem_singleton.mp hmem] at hkey
      simp [isPointer] at hkey
    · exact fun hnone => absurd hnone htemplate
    · intro k hk k' hk'
      rw [List.mem_singleton.mp hk, List.mem_singleton.mp hk']
      exact Or.inl rfl
    · intro k hk
      rw [List.mem_singleton.mp hk]
      refine hcontent (fun k h hk => hk.imp_right (hkeeps k h)) ?_
      exact (Tree.node?_add _ _ _).trans (if_pos rfl)
    · rw [Registry.lookup?_assign, if_pos rfl]

theorem Typed.of_lookup (hs : Typed Ok G s) (hsound : s'.Sound False) (htree : s'.tree = s.tree)
    (hlookup : ∀ key, s'.registry.lookup? key = s.registry.lookup? key) : Typed Ok G s' := by
  have hknown : Known G s' = Known G s := by
    funext key h
    rw [Known, Known, hlookup]
  refine ⟨hsound, ?_, ?_, ?_, ?_, ?_⟩
  all_goals simp only [hlookup, htree, hknown]
  · exact hs.direct
  · exact hs.content
  · exact hs.star
  · exact hs.starred
  · exact hs.shared

theorem allOfKind_of_isMember {members : List Program.Member}
    (h : List.Forall₂ (IsMember G t) members fields) : AllOfKind .member t fields := by
  induction h with
  | nil => exact .nil
  | cons hm _ ih =>
    obtain ⟨type, hnode, -⟩ := hm
    exact .cons (Tree.kind?_of_node? hnode) ih

theorem registerStruct_gives (hs : Typed Ok G s)
    (hok : s.registry.lookup? decl.name = none → Ok decl) (hplain : PlainName decl.name)
    (hfields : List.Forall₂ (IsMember (Known G s) s.tree) decl.fields fields) :
    Gives Ok G s (do
      let h ← sharedStruct decl.name ⟨decl.name, none, fields, []⟩
      shareAs (decl.name ++ "*") h
      return h) fun s' h => s'.registry.lookup? decl.name = some h ∧ s'.blocks = s.blocks := by
  intro h s' hrun
  obtain ⟨hsound, he, -⟩ :=
    registerStruct_yields hs.sound (allOfKind_of_isMember hfields) h s' hrun
  have hne : decl.name ++ "*" ≠ decl.name := (hplain.ne_star decl.name).symm
  obtain ⟨h₁, s₁, hshared, hrun⟩ := run_bind_eq_ok hrun
  cases hrun
  rcases sharedStruct_run hshared with ⟨hl, rfl⟩ | ⟨hl, rfl, rfl⟩
  · -- the name has its struct already, and so has its pointer
    obtain ⟨_, _, -, -, hnode, -⟩ := (hs.content _ _ (Or.inr hl)).of_plainName hplain
    have hpointer := hs.starred _ _ _ _ hl hnode
    have hlookup (key : String) : (s₁.registry.assign (decl.name ++ "*") h).lookup? key =
        s₁.registry.lookup? key := by
      rw [Registry.lookup?_assign]
      split
      · rename_i hkey
        rw [← hkey, hpointer]
      · rfl
    refine ⟨⟨hs.of_lookup hsound rfl hlookup, fun _ _ h => h, fun key h hk => ?_, rfl⟩, ?_, rfl⟩
    · exact (hlookup key).trans hk
    · exact (hlookup decl.name).trans hl
  · have hl' : s.registry.lookup? (decl.name ++ "*") = none := by
      cases hstar : s.registry.lookup? (decl.name ++ "*") with
      | none => rfl
      | some found =>
        rw [hs.star decl.name found hstar] at hl
        cases hl
    have hlookup (key : String) :
        ((s.registry.assign decl.name (some s.tree.size)).assign (decl.name ++ "*")
          (some s.tree.size)).lookup? key =
        if key ∈ [decl.name, decl.name ++ "*"] then some (some s.tree.size)
        else s.registry.lookup? key := by
      rw [Registry.lookup?_assign, Registry.lookup?_assign]
      by_cases hkey : key = decl.name
      · simp [hkey]
      · by_cases hkey' : key = decl.name ++ "*"
        · simp [hkey']
        · simp [hkey, hkey', Ne.symm hkey, Ne.symm hkey']
    have hold {key : String} {h : Handle} (hk : s.registry.lookup? key = some h) :
        key ∉ [decl.name, decl.name ++ "*"] := by
      intro hmem
      rcases List.mem_pair.mp hmem with rfl | rfl
      · rw [hl] at hk
        cases hk
      · rw [hl'] at hk
        cases hk
    have hkeeps (key : String) (h : Handle) (hk : s.registry.lookup? key = some h) :=
      (hlookup key).trans ((if_neg (hold hk)).trans hk)
    refine ⟨⟨hs.register hsound rfl hlookup ?_ ?_ ?_ ?_ ?_, fun _ _ => node?_add_of_some, hkeeps,
      rfl⟩, ?_, rfl⟩
    · intro key hmem
      rcases List.mem_pair.mp hmem with rfl | rfl
      · exact hl
      · exact hl'
    · intro name hmem
      rcases List.mem_pair.mp hmem with heq | heq
      · exact absurd heq.symm (hplain.ne_star name)
      · rw [(String.append_left_inj "*").mp heq]
        exact .head _
    · simp
    · intro key hmem other hmem'
      rcases List.mem_pair.mp hmem with rfl | rfl
      · rcases List.mem_pair.mp hmem' with rfl | rfl
        · exact Or.inl rfl
        · exact Or.inr (Or.inr rfl)
      · rcases List.mem_pair.mp hmem' with rfl | rfl
        · exact Or.inr (Or.inl rfl)
        · exact Or.inl rfl
    · intro key hmem
      refine .struct (hok hl) hplain (List.mem_pair.mp hmem) ?_
        (hfields.imp fun _ _ hm => hm.mono he fun key h hk => hk.imp_right (hkeeps key h))
      exact (Tree.node?_add _ _ _).trans (if_pos rfl)
    · exact (hlookup decl.name).trans (if_pos (.head _))

end Steps

/-! ## Types -/

theorem isIntrinsicType_of_mem (h : decl ∈ Program.intrinsicTypes) :
    Program.isIntrinsicType decl.name = true := by
  unfold Program.isIntrinsicType Program.intrinsicType?
  rw [List.find?_isSome]
  exact ⟨decl, h, by simp⟩

/-- The structs of a table have plain names. -/
def PlainTable (table : TypeTable) : Prop := ∀ decl ∈ table.structs, PlainName decl.name

/-- A visible struct that has no key yet and may be entered is one that can come up. -/
def Creates (Ok : Program.Struct → Prop) (table : TypeTable) (names : List String)
    (s : State) : Prop :=
  ∀ name decl, visibleStruct? table s name = some decl → decl.name ∈ names →
    s.registry.lookup? decl.name = none → Ok decl

theorem plainName_of_intrinsic (h : decl ∈ Program.intrinsicTypes) : PlainName decl.name := by
  revert decl
  unfold PlainName
  decide

theorem visibleStruct?_spec {table : TypeTable} (h : visibleStruct? table s name = some decl) :
    (decl ∈ table.structs ∧ withoutStar name ∉ s.pending ∨ decl ∈ Program.intrinsicTypes) ∧
      (name = decl.name ∨ name = decl.name ++ "*") := by
  have hintrinsic (h : Program.intrinsicType? name = some decl) :
      decl ∈ Program.intrinsicTypes ∧ name = decl.name := by
    have hname : decide (decl.name = name) = true :=
      List.find?_some (p := fun d : Program.Struct => decide (d.name = name)) h
    exact ⟨List.mem_of_find?_eq_some h, (of_decide_eq_true hname).symm⟩
  unfold visibleStruct? at h
  split at h
  · obtain ⟨hmem, hname⟩ := hintrinsic h
    exact ⟨Or.inr hmem, Or.inl hname⟩
  · rename_i hpending
    unfold TypeTable.lookup? at h
    cases hown : table.own? name with
    | none =>
      rw [hown] at h
      obtain ⟨hmem, hname⟩ := hintrinsic h
      exact ⟨Or.inr hmem, Or.inl hname⟩
    | some found =>
      rw [hown] at h
      cases h
      have hanswers := List.find?_some hown
      have hmem := List.mem_reverse.mp (List.mem_of_find?_eq_some hown)
      unfold Program.Struct.answers at hanswers
      rw [Bool.or_eq_true, decide_eq_true_eq, decide_eq_true_eq] at hanswers
      exact ⟨Or.inl ⟨hmem, hpending⟩, hanswers.imp Eq.symm Eq.symm⟩

theorem PlainTable.visible {table : TypeTable} (ht : PlainTable table)
    (h : visibleStruct? table s name = some decl) : PlainName decl.name := by
  rcases (visibleStruct?_spec h).1 with ⟨hmem, -⟩ | hmem
  · exact ht decl hmem
  · exact plainName_of_intrinsic hmem

section Types

variable {Ok : Program.Struct → Prop} {table : TypeTable}

theorem Creates.mono {G : String → Handle → Prop} {names names' : List String}
    (h : Creates Ok table names s) (hs : Steps Ok G s s') (hnames : names' ⊆ names) :
    Creates Ok table names' s' := by
  intro name decl hvisible hmem hnone
  refine h name decl ?_ (hnames hmem) ?_
  · unfold visibleStruct? at hvisible ⊢
    rwa [hs.pending] at hvisible
  · cases hl : s.registry.lookup? decl.name with
    | none => rfl
    | some found =>
      rw [hs.keeps _ _ hl] at hnone
      cases hnone

mutual

theorem structHandle_gives {G : String → Handle → Prop} {s : State} (ht : PlainTable table)
    (names : List String) (decl : Program.Struct) (hs : Typed Ok G s)
    (hnames : Creates Ok table (names.filter (· ≠ decl.name)) s)
    (hdecl : decl.name ∈ names → s.registry.lookup? decl.name = none → Ok decl)
    (hplain : PlainName decl.name) :
    Gives Ok G s (structHandle table names decl) fun s' h =>
      s'.registry.lookup? decl.name = some h ∧ s'.blocks = s.blocks := by
  rw [structHandle]
  refine gives_get ?_
  split
  · rename_i h hl
    exact gives_pure hs ⟨hl, rfl⟩
  · rename_i hnone
    split
    · rename_i hmem
      refine (memberHandles_gives ht _ decl.fields hs hnames).within.bind
        fun fields s₁ h₁ ⟨hfields, hblocks⟩ => ?_
      refine (registerStruct_gives h₁.typed (fun _ => hdecl hmem hnone) hplain hfields).imp ?_
      rintro s₂ h h₂ ⟨hl, hblocks'⟩
      exact ⟨hl, hblocks'.trans hblocks⟩
    · exact ends_throw _
termination_by (names.length, 0, 0)
decreasing_by
  apply Prod.Lex.left
  exact length_filter_ne_lt (by assumption)

theorem typeHandle_gives {G : String → Handle → Prop} {s : State} (ht : PlainTable table)
    (names : List String) (name : String) (hs : Typed Ok G s)
    (hnames : Creates Ok table names s) :
    Gives Ok G s (typeHandle table names name) fun s' h =>
      s'.registry.lookup? name = some h ∧ s'.blocks = s.blocks := by
  rw [typeHandle]
  refine gives_get ?_
  split
  · rename_i h hl
    exact gives_pure hs ⟨hl, rfl⟩
  · split
    · rename_i outer inner hsplit
      obtain ⟨hname, hpointer⟩ := splitInstance?_eq_some hsplit
      refine (typeHandle_gives ht names outer hs hnames).bind
        fun template s₁ h₁ ⟨houter, hblocks⟩ => ?_
      have hsome : template ≠ none := by
        rintro rfl
        exact absurd (h₁.typed.isSome houter) (by simp [Tree.node?])
      have hinstance {s₂ : State} {argument : Handle} (h₂ : Steps Ok G s₁ s₂)
          (hargument : s₂.registry.lookup? (argumentKey outer inner) = some argument)
          (hblocks' : s₂.blocks = s₁.blocks) :
          Gives Ok G s₂ (sharedStruct name ⟨name, template, [], [argument]⟩) fun s' h =>
            s'.registry.lookup? name = some h ∧ s'.blocks = s.blocks := by
        have hkind := h₂.typed.sound.lookup_struct (h₂.keeps _ _ houter)
        have hkind' := h₂.typed.sound.lookup_struct hargument
        have hdecl : (Node.struct ⟨name, template, [], [argument]⟩).WellFormed s₂.tree
            s₂.tree.size := ⟨Or.inr hkind.below, nofun, (AllOfKind.cons hkind' .nil).below⟩
        refine (sharedStruct_gives h₂.typed hdecl hsome hpointer fun hG hnode => ?_).imp ?_
        · exact .generic hsplit (hG _ _ (Or.inr (h₂.keeps _ _ houter))) (hG _ _ (Or.inr hargument))
            hnode
        · rintro s₃ h - ⟨hl, hblocks''⟩
          exact ⟨hl, hblocks''.trans (hblocks'.trans hblocks)⟩
      split
      · rename_i hinner
        have hkey : argumentKey outer inner = outer ++ "<" ++ inner ++ ">#pointee" := if_pos hinner
        have hkind := h₁.typed.sound.lookup_struct houter
        have hdecl : (Node.struct ⟨inner, template, [], []⟩).WellFormed s₁.tree s₁.tree.size :=
          ⟨Or.inr hkind.below, nofun, nofun⟩
        have hopen (text : String) : isPointer (text ++ ">#pointee") = false := by
          simp [isPointer]
        refine (sharedStruct_gives h₁.typed hdecl hsome (hopen _)
          fun hG hnode => ?_).bind fun argument s₂ h₂ ⟨hl, hblocks'⟩ => ?_
        · exact .pointee rfl (hname ▸ hsplit) hinner (hG _ _ (Or.inr houter)) hnode
        · exact hinstance h₂ (hkey.symm ▸ hl) hblocks'
      · rename_i hinner
        have hkey : argumentKey outer inner = inner := if_neg hinner
        refine (typeHandle_gives ht names inner h₁.typed (hnames.mono h₁ (List.Subset.refl _))).bind
          fun argument s₂ h₂ ⟨hl, hblocks'⟩ => ?_
        exact hinstance h₂ (hkey.symm ▸ hl) hblocks'
    · refine gives_get ?_
      split
      · rename_i decl hvisible
        have hplain := ht.visible hvisible
        have hfilter : Creates Ok table (names.filter (· ≠ decl.name)) s :=
          hnames.mono (.refl hs) (List.filter_subset_self _)
        refine (structHandle_gives ht names decl hs hfilter (hnames name decl hvisible)
          hplain).imp ?_
        rintro s₁ h h₁ ⟨hl, hblocks⟩
        refine ⟨?_, hblocks⟩
        rcases (visibleStruct?_spec hvisible).2 with rfl | rfl
        · exact hl
        · obtain ⟨_, _, -, -, hnode, -⟩ :=
            (h₁.typed.content _ _ (Or.inr hl)).of_plainName hplain
          exact h₁.typed.starred _ _ _ _ hl hnode
      · exact ends_throw _
termination_by (names.length, 1, name.length)
decreasing_by
  · exact Prod.Lex.right _ (Prod.Lex.right _ (splitInstance?_lt (by assumption)).1)
  · exact Prod.Lex.right _ (Prod.Lex.right _ (splitInstance?_lt (by assumption)).2)
  · exact Prod.Lex.right _ (Prod.Lex.left _ _ (by omega))

theorem memberHandles_gives {G : String → Handle → Prop} {s : State} (ht : PlainTable table)
    (names : List String) (members : List Program.Member) (hs : Typed Ok G s)
    (hnames : Creates Ok table names s) :
    Gives Ok G s (memberHandles table names members) fun s' hs' =>
      List.Forall₂ (IsMember (Known G s') s'.tree) members hs' ∧ s'.blocks = s.blocks := by
  match members with
  | [] =>
    rw [memberHandles]
    exact gives_pure hs ⟨.nil, rfl⟩
  | m :: rest =>
    rw [memberHandles]
    refine (typeHandle_gives ht names m.type hs hnames).within.bind
      fun type s₁ h₁ ⟨htype, hblocks₁⟩ => ?_
    have hkind := h₁.typed.sound.lookup_struct htype
    have hmember : (Node.member ⟨m.name, type, m.count, m.annotations⟩).WellFormed s₁.tree
        s₁.tree.size := hkind.below
    refine (addNode_gives h₁.typed hmember trivial trivial).bind
      fun h s₂ h₂ ⟨hnode, _, hblocks₂⟩ => ?_
    have hnames₂ := (hnames.mono h₁ (List.Subset.refl _)).mono h₂ (List.Subset.refl _)
    refine (memberHandles_gives ht names rest h₂.typed hnames₂).bind
      fun more s₃ h₃ ⟨hmore, hblocks₃⟩ => ?_
    have hfirst : IsMember (Known G s₃) s₃.tree m h :=
      ⟨type, h₃.grows.keeps hnode rfl,
        Or.inr (h₃.keeps _ _ (h₂.keeps _ _ htype))⟩
    exact gives_pure h₃.typed ⟨.cons hfirst hmore, hblocks₃.trans (hblocks₂.trans hblocks₁)⟩
termination_by (names.length, 2, members.length)
decreasing_by
  · exact Prod.Lex.right _ (Prod.Lex.left _ _ (by omega))
  · exact Prod.Lex.right _ (Prod.Lex.right _ (by simp))

end

end Types

end Shader.Resolution
