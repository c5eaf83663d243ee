import Mathlib.Data.List.Forall2
import Mathlib.Tactic.Common
import Shader.Glsl.Generate

/-!
# Trees that declare the same

Two trees can hold the same declarations under different handles. A relation between their handles
that pairs nodes of the same content leads to the same shader: the dependencies of paired
declarations are paired, so the declarations are listed in the same order and written alike.
-/

namespace Shader.Glsl

open Arena

/-! ## Two computations that succeed -/

/-- Where both computations succeed, their results are related. -/
def Both {α β : Type} (R : α → β → Prop) (x : Except GenerateError α)
    (y : Except GenerateError β) : Prop :=
  ∀ a b, x = .ok a → y = .ok b → R a b

section Rules

variable {α β γ δ ι κ : Type} {R : α → β → Prop} {S : γ → δ → Prop}
  {x : Except GenerateError α} {y : Except GenerateError β}

theorem both_ok {a : α} {b : β} (h : R a b) : Both R (.ok a) (.ok b) := by
  intro a' b' ha hb
  cases ha
  cases hb
  exact h

theorem both_error : Both R (.error e) y := by
  intro a b ha
  cases ha

theorem both_error_right : Both R x (.error e) := by
  intro a b _ hb
  cases hb

theorem Both.bind {f : α → Except GenerateError γ} {g : β → Except GenerateError δ}
    (h : Both R x y) (hfg : ∀ a b, R a b → Both S (f a) (g b)) : Both S (x >>= f) (y >>= g) := by
  cases x with
  | error e => exact both_error
  | ok a =>
    cases y with
    | error e => exact both_error_right
    | ok b => exact hfg a b (h a b rfl rfl)

theorem Both.bind_eq {y : Except GenerateError α} {f : α → Except GenerateError γ}
    {g : α → Except GenerateError δ} (h : Both (· = ·) x y) (hfg : ∀ a, Both S (f a) (g a)) :
    Both S (x >>= f) (y >>= g) := by
  refine h.bind fun a b hab => ?_
  rw [hab]
  exact hfg b

theorem Both.map {f : α → γ} {g : β → δ} (h : Both R x y) (hfg : ∀ a b, R a b → S (f a) (g b)) :
    Both S (x.map f) (y.map g) := by
  cases x with
  | error e => exact both_error
  | ok a =>
    cases y with
    | error e => exact both_error_right
    | ok b => exact both_ok (hfg a b (h a b rfl rfl))

theorem Both.within {place place' : String} (h : Both R x y) :
    Both R (within place x) (Glsl.within place' y) := by
  cases x with
  | error e => exact both_error
  | ok a =>
    cases y with
    | error e => exact both_error_right
    | ok b => exact both_ok (h a b rfl rfl)

theorem both_mapM {Q : ι → κ → Prop} {f : ι → Except GenerateError α}
    {g : κ → Except GenerateError β} {is : List ι} {ks : List κ} (hs : List.Forall₂ Q is ks)
    (hfg : ∀ i k, Q i k → Both R (f i) (g k)) :
    Both (List.Forall₂ R) (is.mapM f) (ks.mapM g) := by
  induction hs with
  | nil => exact both_ok .nil
  | cons hik _ ih =>
    rw [List.mapM_cons, List.mapM_cons]
    refine (hfg _ _ hik).bind fun a b hab => ?_
    refine ih.bind fun as bs habs => ?_
    exact both_ok (.cons hab habs)

theorem both_foldlM {Q : ι → κ → Prop} {f : α → ι → Except GenerateError α}
    {g : β → κ → Except GenerateError β} {is : List ι} {ks : List κ} {a : α} {b : β}
    (hs : List.Forall₂ Q is ks) (hab : R a b)
    (hfg : ∀ a b i k, R a b → Q i k → Both R (f a i) (g b k)) :
    Both R (is.foldlM f a) (ks.foldlM g b) := by
  induction hs generalizing a b with
  | nil => exact both_ok hab
  | cons hik _ ih =>
    rw [List.foldlM_cons, List.foldlM_cons]
    exact (hfg _ _ _ _ hab hik).bind fun _ _ hab' => ih hab'

theorem forall₂_of_common {P : ι → α → Prop} {Q : ι → β → Prop} {is : List ι} {as : List α}
    {bs : List β} (hp : List.Forall₂ P is as) (hq : List.Forall₂ Q is bs)
    (h : ∀ i ∈ is, ∀ a b, P i a → Q i b → R a b) : List.Forall₂ R as bs := by
  induction hp generalizing bs with
  | nil =>
    cases hq
    exact .nil
  | cons ha _ ih =>
    cases hq with
    | cons hb hrest =>
      obtain ⟨hfirst, hlater⟩ := List.forall_mem_cons.mp h
      exact .cons (hfirst _ _ ha hb) (ih hrest hlater)

theorem both_eq_of_forall₂ {x y : Except GenerateError (List α)}
    (h : Both (List.Forall₂ (· = ·)) x y) : Both (· = ·) x y :=
  fun a b ha hb => List.forall₂_eq_eq_eq ▸ h a b ha hb

end Rules

/-! ## Nodes that declare the same -/

/-- Both handles refer to no node, or to related nodes. -/
def Refers (R : Handle → Handle → Prop) (h h' : Handle) : Prop := h = none ∧ h' = none ∨ R h h'

/-- Two members of one name, count and annotations whose types are related. -/
def SameMember (R : Handle → Handle → Prop) (t t' : Tree) (h h' : Handle) : Prop :=
  ∃ name type type' count annotations,
    t.node? h = some (.member ⟨name, type, count, annotations⟩) ∧
    t'.node? h' = some (.member ⟨name, type', count, annotations⟩) ∧ R type type'

/-- Two declarations that are written alike and refer to related declarations. -/
inductive SameNode (R : Handle → Handle → Prop) (t t' : Tree) (h h' : Handle) : Prop
  | struct {name template template' fields fields' types types'}
      (hnode : t.node? h = some (.struct ⟨name, template, fields, types⟩))
      (hnode' : t'.node? h' = some (.struct ⟨name, template', fields', types'⟩))
      (htemplate : Refers R template template')
      (hfields : List.Forall₂ (SameMember R t t') fields fields')
      (htypes : List.Forall₂ R types types')
  | member (hmember : SameMember R t t' h h')
  | function {name returns returns' statements statements' annotations}
      (hnode : t.node? h = some (.function ⟨name, [], returns, statements, annotations⟩))
      (hnode' : t'.node? h' = some (.function ⟨name, [], returns', statements', annotations⟩))
      (hreturns : R returns returns')
      (htexts : ∀ s, Both (· = ·) (statements.mapM (exprText t s))
        (statements'.mapM (exprText t' s)))
      (hfound : Both (List.Forall₂ R) (dependencies (.ofTree t) h) (dependencies (.ofTree t') h'))
  | binding {name kind members members' format set slot read write count}
      (hnode : t.node? h = some (.binding ⟨name, kind, members, format, set, slot, read, write,
        count⟩))
      (hnode' : t'.node? h' = some (.binding ⟨name, kind, members', format, set, slot, read, write,
        count⟩))
      (hmembers : List.Forall₂ (SameMember R t t') members members')
  | pushConstant {members members'} (hnode : t.node? h = some (.pushConstant members))
      (hnode' : t'.node? h' = some (.pushConstant members'))
      (hmembers : List.Forall₂ (SameMember R t t') members members')
  | specialization {name type type'} (hnode : t.node? h = some (.specialization name type))
      (hnode' : t'.node? h' = some (.specialization name type')) (htype : R type type')

variable {name : String} {type type' : Handle} {count : UInt32} {annotations : List String}
  {hs hs' : List Handle} {e : GenerateError} {r r' : References}

/-- The relation pairs handles of nodes, each with one other. -/
structure Pairing (R : Handle → Handle → Prop) : Prop where
  left : ∀ {a b c}, R a b → R a c → b = c
  right : ∀ {a b c}, R a c → R b c → a = b
  isSome : ∀ {a b}, R a b → a.isSome = true ∧ b.isSome = true

/-- The relation pairs nodes that declare the same. -/
structure SameTrees (R : Handle → Handle → Prop) (t t' : Tree) : Prop extends Pairing R where
  node : ∀ {a b}, R a b → SameNode R t t' a b

section Nodes

variable {R : Handle → Handle → Prop} {t t' : Tree} {h h' : Handle}

theorem SameNode.name_eq (hn : SameNode R t t' h h') : t.name h = t'.name h' := by
  unfold Tree.name
  cases hn with
  | struct hnode hnode' => rw [hnode, hnode']; rfl
  | member hmember =>
    obtain ⟨name, type, type', count, annotations, hnode, hnode', -⟩ := hmember
    rw [hnode, hnode']
    rfl
  | function hnode hnode' | binding hnode hnode' | pushConstant hnode hnode'
  | specialization hnode hnode' => rw [hnode, hnode']; rfl

theorem SameTrees.isSome_template (hm : SameTrees R t t') {template template' : Handle}
    (htemplate : Refers R template template') :
    template.isSome = template'.isSome := by
  rcases htemplate with ⟨rfl, rfl⟩ | htemplate
  · rfl
  · obtain ⟨hsome, hsome'⟩ := hm.isSome htemplate
    exact hsome.trans hsome'.symm

theorem SameTrees.struct? (hm : SameTrees R t t') (hr : R h h') :
    (t.struct? h = none ∧ t'.struct? h' = none) ∨
    ∃ decl decl', t.struct? h = some decl ∧ t'.struct? h' = some decl' ∧ decl.name = decl'.name ∧
      decl.isInstance = decl'.isInstance ∧
      (decl.isInstance = true → R decl.template decl'.template) ∧
      List.Forall₂ (SameMember R t t') decl.fields decl'.fields ∧
      List.Forall₂ R decl.types decl'.types := by
  unfold Tree.struct?
  cases hm.node hr with
  | @struct name template template' fields fields' types types' hnode hnode' htemplate hfields
      htypes =>
    rw [hnode, hnode']
    refine Or.inr ⟨_, _, rfl, rfl, rfl, hm.isSome_template htemplate, fun hsome => ?_, hfields,
      htypes⟩
    rcases htemplate with ⟨rfl, -⟩ | htemplate
    · cases hsome
    · exact htemplate
  | member hmember =>
    obtain ⟨name, type, type', count, annotations, hnode, hnode', -⟩ := hmember
    rw [hnode, hnode']
    exact Or.inl ⟨rfl, rfl⟩
  | function hnode hnode' | binding hnode hnode' | pushConstant hnode hnode'
  | specialization hnode hnode' => rw [hnode, hnode']; exact Or.inl ⟨rfl, rfl⟩

theorem both_typeTextFrom (hm : SameTrees R t t') (hr : R h h') (steps steps' : Nat) :
    Both (· = ·) (typeTextFrom t steps h) (typeTextFrom t' steps' h') := by
  induction steps generalizing steps' h h' with
  | zero => exact both_error
  | succ steps ih =>
    cases steps' with
    | zero => exact both_error_right
    | succ steps' =>
      rw [typeTextFrom, typeTextFrom]
      rcases hm.struct? hr with ⟨hnone, -⟩ |
        ⟨decl, decl', hdecl, hdecl', hname, hinst, -, -, htypes⟩
      · rw [hnone]
        exact both_error
      · obtain ⟨name, template, fields, types⟩ := decl
        obtain ⟨name', template', fields', types'⟩ := decl'
        rw [hdecl, hdecl']
        dsimp only at hname htypes ⊢
        rw [← hinst, ← hname]
        split
        · cases htypes with
          | nil => exact both_ok rfl
          | cons hargument hrest =>
            cases hrest with
            | nil => exact ih hargument steps'
            | cons => exact both_ok rfl
        · exact both_ok rfl

theorem both_typeText (hm : SameTrees R t t') (hr : R h h') :
    Both (· = ·) (typeText t h) (typeText t' h') := both_typeTextFrom hm hr _ _

/-! ## Lines -/

theorem both_memberText (hm : SameTrees R t t') (htype : R type type') :
    Both (· = ·) (memberText t ⟨name, type, count, annotations⟩)
      (memberText t' ⟨name, type', count, annotations⟩) :=
  (both_typeText hm htype).bind_eq fun _ => both_ok rfl

theorem both_memberLine (hm : SameTrees R t t') (hh : SameMember R t t' h h') :
    Both (· = ·) (memberLine t h) (memberLine t' h') := by
  obtain ⟨name, type, type', count, annotations, hnode, hnode', htype⟩ := hh
  unfold memberLine
  rw [hnode, hnode']
  exact (both_memberText hm htype).bind_eq fun _ => both_ok rfl

theorem both_memberLines (hm : SameTrees R t t')
    (hmembers : List.Forall₂ (SameMember R t t') hs hs') :
    Both (· = ·) (hs.mapM (memberLine t)) (hs'.mapM (memberLine t')) :=
  both_eq_of_forall₂ (both_mapM hmembers fun _ _ hh => both_memberLine hm hh)

theorem both_functionLines (hm : SameTrees R t t') (s : Spacing) {returns returns' : Handle}
    {statements statements' : List Handle} (hreturns : R returns returns')
    (htexts : Both (· = ·) (statements.mapM (exprText t s)) (statements'.mapM (exprText t' s))) :
    Both (· = ·) (functionLines t s ⟨name, [], returns, statements, annotations⟩)
      (functionLines t' s ⟨name, [], returns', statements', annotations⟩) := by
  unfold functionLines
  refine (both_typeText hm hreturns).within.bind_eq fun type => ?_
  refine Both.bind_eq (both_ok rfl) fun params => ?_
  exact htexts.within.bind_eq fun texts => both_ok rfl

theorem both_fieldConstants (hm : SameTrees R t t') (s : Spacing) (owner : String)
    (hfields : List.Forall₂ (SameMember R t t') hs hs') (number : UInt32) :
    Both (· = ·) (fieldConstants t s owner number hs) (fieldConstants t' s owner number hs') := by
  induction hfields generalizing number with
  | nil => exact both_ok rfl
  | cons hh _ ih =>
    obtain ⟨name, type, type', count, annotations, hnode, hnode', htype⟩ := hh
    rw [fieldConstants, fieldConstants, hnode, hnode']
    dsimp only
    rw [(hm.node htype).name_eq]
    refine (both_typeText hm htype).bind_eq fun text => ?_
    exact (ih (number + 1)).bind_eq fun r => both_ok rfl

theorem both_specializationLines (hm : SameTrees R t t') (s : Spacing) (n : Numbering)
    (name : String) (htype : R type type') :
    Both (· = ·) (specializationLines t s n name type) (specializationLines t' s n name type') := by
  unfold specializationLines
  rcases hm.struct? htype with ⟨hnone, -⟩ | ⟨decl, decl', hdecl, hdecl', hname, -, -, hfields, -⟩
  · rw [hnone]
    exact both_error
  · have hempty {xs ys : List Handle} (h : List.Forall₂ (SameMember R t t') xs ys) :
        xs.isEmpty = ys.isEmpty := by
      cases h <;> rfl
    rw [hdecl, hdecl']
    dsimp only
    rw [← hempty hfields, ← hname]
    refine (both_typeText hm htype).bind_eq fun text => ?_
    split
    · exact both_ok rfl
    · exact (both_fieldConstants hm s name hfields n.constant).bind_eq fun r => both_ok rfl

theorem both_bindingLines (hm : SameTrees R t t') (s : Spacing) {kind : BindingKind}
    {members members' : List Handle} {format : String} {set slot : UInt32} {read write : Bool}
    (hmembers : List.Forall₂ (SameMember R t t') members members') :
    Both (· = ·) (bindingLines t s ⟨name, kind, members, format, set, slot, read, write, count⟩)
      (bindingLines t' s ⟨name, kind, members', format, set, slot, read, write, count⟩) := by
  unfold bindingLines
  cases kind with
  | buffer => exact (both_memberLines hm hmembers).within.bind_eq fun _ => both_ok rfl
  | image | combinedImageSampler => exact both_ok rfl
  | unknown => exact both_error

theorem SameTrees.direction? (hm : SameTrees R t t') (htype : R type type') :
    direction? t ⟨name, type, count, annotations⟩ =
      direction? t' ⟨name, type', count, annotations⟩ := by
  unfold Glsl.direction?
  rcases hm.struct? htype with ⟨hnone, hnone'⟩ |
    ⟨decl, decl', hdecl, hdecl', -, hinst, htemplate, -⟩
  · rw [hnone, hnone']
  · rw [hdecl, hdecl']
    dsimp only
    rw [← hinst]
    by_cases hsome : decl.isInstance = true
    · rw [if_pos hsome, if_pos hsome, (hm.node (htemplate hsome)).name_eq]
    · rw [if_neg hsome, if_neg hsome]

theorem both_interfaceLines (hm : SameTrees R t t') (n : Numbering) (d : Direction)
    (htype : R type type') :
    Both (· = ·) (interfaceLines t n d ⟨name, type, count, annotations⟩)
      (interfaceLines t' n d ⟨name, type', count, annotations⟩) := by
  unfold interfaceLines
  refine (both_memberText hm htype).bind_eq fun text => ?_
  cases d <;> exact both_ok rfl

theorem both_declarationLines (hm : SameTrees R t t') (s : Spacing) (n : Numbering) (hr : R h h') :
    Both (· = ·) (declarationLines t s n h) (declarationLines t' s n h') := by
  have hunnumbered {x y : Except GenerateError (List Line)} (hxy : Both (· = ·) x y) :
      Both (· = ·) (unnumbered n x) (unnumbered n y) :=
    hxy.map fun a b hab => by rw [hab]
  have hnumbered {x y : Except GenerateError (List Line × Numbering)} (hxy : Both (· = ·) x y) :
      Both (· = ·) (numbered x) (numbered y) :=
    hxy.map fun a b hab => by rw [hab]
  unfold declarationLines
  cases hm.node hr with
  | @struct name template template' fields fields' types types' hnode hnode' htemplate hfields =>
    have hinst : (Struct.mk name template fields types).isInstance =
        (Struct.mk name template' fields' types').isInstance := hm.isSome_template htemplate
    rw [hnode, hnode']
    dsimp only
    rw [← hinst]
    split
    · exact both_ok rfl
    · exact hunnumbered ((both_memberLines hm hfields).within.bind_eq fun _ => both_ok rfl)
  | member hmember =>
    obtain ⟨name, type, type', count, annotations, hnode, hnode', htype⟩ := hmember
    rw [hnode, hnode']
    dsimp only
    rw [hm.direction? htype]
    split
    · exact hnumbered (both_interfaceLines hm n _ htype)
    · exact both_ok rfl
  | function hnode hnode' hreturns htexts =>
    rw [hnode, hnode']
    exact hunnumbered (both_functionLines hm s hreturns (htexts s))
  | binding hnode hnode' hmembers =>
    rw [hnode, hnode']
    exact hunnumbered (both_bindingLines hm s hmembers)
  | pushConstant hnode hnode' hmembers =>
    rw [hnode, hnode']
    exact hunnumbered ((both_memberLines hm hmembers).within.bind_eq fun _ => both_ok rfl)
  | specialization hnode hnode' htype =>
    rw [hnode, hnode']
    exact hnumbered (both_specializationLines hm s n _ htype)

/-! ## Dependencies -/

theorem Pairing.mem_iff (hm : Pairing R) (h₂ : List.Forall₂ R hs hs') (hr : R h h') :
    h ∈ hs ↔ h' ∈ hs' := by
  induction h₂ with
  | nil => simp
  | cons hab _ ih =>
    rw [List.mem_cons, List.mem_cons, ih]
    refine or_congr_left ⟨?_, ?_⟩
    · rintro rfl
      exact hm.left hr hab
    · rintro rfl
      exact hm.right hr hab

/-- The references are to related declarations, in the same order. -/
def SameFound (R : Handle → Handle → Prop) (r r' : References) : Prop :=
  List.Forall₂ R r.found r'.found

theorem SameFound.none : SameFound R .none .none := .nil

theorem SameFound.add (hm : Pairing R) (hf : SameFound R r r')
    (hr : R h h') : SameFound R (r.add h) (r'.add h') := by
  obtain ⟨hsome, hsome'⟩ := hm.isSome hr
  have hmem := hm.mem_iff hf hr
  unfold References.add
  rw [Option.isNone_eq_false_iff.mpr hsome, Option.isNone_eq_false_iff.mpr hsome']
  by_cases hfound : h ∈ r.found
  · simpa [hfound, hmem.mp hfound] using hf
  · have hfound' : h' ∉ r'.found := fun hmem' => hfound (hmem.mpr hmem')
    simp only [hfound, hfound', decide_false, Bool.or_self, Bool.false_eq_true, if_false]
    exact List.rel_append hf (.cons hr .nil)

theorem SameFound.addTypeOf (hm : Pairing R) (hf : SameFound R r r')
    (hh : SameMember R t t' h h') : SameFound R (r.addTypeOf t h) (r'.addTypeOf t' h') := by
  obtain ⟨name, type, type', count, annotations, hnode, hnode', htype⟩ := hh
  unfold References.addTypeOf
  rw [hnode, hnode']
  exact hf.add hm htype

theorem SameFound.members (hm : Pairing R) (hmembers : List.Forall₂ (SameMember R t t') hs hs')
    (hf : SameFound R r r') :
    SameFound R (hs.foldl (fun r m => r.addTypeOf t m) r)
      (hs'.foldl (fun r m => r.addTypeOf t' m) r') := by
  induction hmembers generalizing r r' with
  | nil => exact hf
  | cons hh _ ih => exact ih (hf.addTypeOf hm hh)

theorem SameFound.addAll (hm : Pairing R) (h₂ : List.Forall₂ (Refers R) hs hs')
    (hf : SameFound R r r') :
    SameFound R (hs.foldl References.add r) (hs'.foldl References.add r') := by
  induction h₂ generalizing r r' with
  | nil => exact hf
  | cons hr _ ih =>
    rcases hr with ⟨rfl, rfl⟩ | hr
    · exact ih hf
    · exact ih (hf.add hm hr)

theorem both_dependencies (hm : SameTrees R t t') (hr : R h h') :
    Both (List.Forall₂ R) (dependencies (.ofTree t) h) (dependencies (.ofTree t') h') := by
  cases hm.node hr with
  | function _ _ _ _ hfound => exact hfound
  | struct hnode hnode' _ hfields htypes =>
    unfold dependencies Catalog.ofTree
    rw [hnode, hnode']
    exact both_ok (SameFound.addAll hm.toPairing (htypes.imp fun _ _ => Or.inr)
      (SameFound.members hm.toPairing hfields .none))
  | member hmember =>
    obtain ⟨name, type, type', count, annotations, hnode, hnode', htype⟩ := hmember
    unfold dependencies Catalog.ofTree
    rw [hnode, hnode']
    exact both_ok (SameFound.none.add hm.toPairing htype)
  | binding hnode hnode' hmembers | pushConstant hnode hnode' hmembers =>
    unfold dependencies Catalog.ofTree
    rw [hnode, hnode']
    exact both_ok (SameFound.members hm.toPairing hmembers .none)
  | specialization hnode hnode' htype =>
    unfold dependencies Catalog.ofTree
    rw [hnode, hnode']
    exact both_ok (SameFound.none.add hm.toPairing htype)

/-! ## Walks -/

/-- The walks have entered and left related declarations. -/
structure SameWalk (R : Handle → Handle → Prop) (w w' : Walk) : Prop where
  entered : List.Forall₂ R w.entered w'.entered
  left : List.Forall₂ R w.left w'.left

theorem both_walk (hm : SameTrees R t t') (depth depth' : Nat) (hr : R h h') {w w' : Walk}
    (hw : SameWalk R w w') :
    Both (SameWalk R) (walk (.ofTree t) depth h w) (walk (.ofTree t') depth' h' w') := by
  induction depth generalizing depth' h h' w w' with
  | zero => exact both_error
  | succ depth ih =>
    cases depth' with
    | zero => exact both_error_right
    | succ depth' =>
      rw [walk, walk]
      by_cases hentered : h ∈ w.entered
      · rw [if_pos hentered, if_pos ((hm.mem_iff hw.entered hr).mp hentered)]
        exact both_ok hw
      · rw [if_neg hentered, if_neg fun hmem => hentered ((hm.mem_iff hw.entered hr).mpr hmem)]
        refine (both_dependencies hm hr).bind fun deps deps' hdeps => ?_
        have hw₀ : SameWalk R { w with entered := h :: w.entered }
            { w' with entered := h' :: w'.entered } := ⟨.cons hr hw.entered, hw.left⟩
        refine (both_foldlM hdeps hw₀ fun w w' d d' hw hd => ih depth' hd hw).bind
          fun w₁ w₁' hw₁ => ?_
        exact both_ok ⟨hw₁.entered, List.rel_append hw₁.left (.cons hr .nil)⟩

theorem both_order (hm : SameTrees R t t') (hr : R h h') :
    Both (List.Forall₂ R) (order (.ofTree t) h) (order (.ofTree t') h') :=
  (both_walk hm _ _ hr ⟨.nil, .nil⟩).map fun _ _ hw => hw.left

/-! ## Shaders -/

theorem both_writeDeclarations (hm : SameTrees R t t') (s : Spacing) (h₂ : List.Forall₂ R hs hs')
    (n : Numbering) : Both (· = ·) (writeDeclarations t s n hs) (writeDeclarations t' s n hs') := by
  induction h₂ generalizing n with
  | nil => exact both_ok rfl
  | cons hr _ ih =>
    rw [writeDeclarations, writeDeclarations, (hm.node hr).name_eq]
    refine (both_declarationLines hm s n hr).bind_eq fun r => ?_
    refine (ih r.2).bind_eq fun more => ?_
    cases r.1 <;> exact both_ok rfl

theorem entryStage_eq (hm : SameTrees R t t') (chosen : Stage) (hr : R h h') :
    entryStage t chosen h = entryStage t' chosen h' := by
  unfold entryStage Tree.function?
  cases hm.node hr with
  | struct hnode hnode' => rw [hnode, hnode']
  | member hmember =>
    obtain ⟨name, type, type', count, annotations, hnode, hnode', -⟩ := hmember
    rw [hnode, hnode']
  | function hnode hnode' | binding hnode hnode' | pushConstant hnode hnode'
  | specialization hnode hnode' => rw [hnode, hnode']

/-- Trees that declare the same have the same shader. -/
theorem both_generate (hm : SameTrees R t t') (options : Options)
    (hentry : Both R (findEntry t options.completed.entryPoint)
      (findEntry t' options.completed.entryPoint)) :
    Both (· = ·) (generate (some t) options) (generate (some t') options) := by
  unfold generate
  dsimp only
  refine hentry.bind fun entry entry' hr => ?_
  rw [entryStage_eq hm _ hr]
  refine (both_order hm hr).bind fun hs hs' h₂ => ?_
  exact (both_writeDeclarations hm _ h₂ .start).bind_eq fun written => both_ok rfl

end Nodes

end Shader.Glsl
