import Shader.Proofs.Resolution.Bodies

/-!
# Two resolutions side by side

The type table of a program holds all its structs, also those declared further down. Two runs are
compared here that resolve the same part of two programs: the tables and the structs that have not
been reached may differ, and everything else is the same.
-/

namespace Shader.Resolution

open Arena Program.TypeName
open Program (TypeTable)

variable {post post' : State → State → Prop} {s s₁ s₂ : State} {decl : Program.Struct}
  {callee name : String} {e : ResolveError} {h : Handle} {names : List String}
variable {names₁ names₂ : List String}

/-! ## Two runs -/

/-- The states agree in all but the structs that have not been reached. -/
structure Alike (s₁ s₂ : State) : Prop where
  tree : s₁.tree = s₂.tree
  registry : s₁.registry = s₂.registry
  blocks : s₁.blocks = s₂.blocks

/-- No struct has been reached in between and no key has been taken back. -/
structure Grown (s s' : State) : Prop where
  pending : s'.pending = s.pending
  keeps : ∀ key, s'.registry.lookup? key = none → s.registry.lookup? key = none

theorem Grown.refl (s : State) : Grown s s := ⟨rfl, fun _ h => h⟩

theorem Grown.trans {s' s'' : State} (h : Grown s s') (h' : Grown s' s'') : Grown s s'' :=
  ⟨h'.pending.trans h.pending, fun key hnone => h.keeps key (h'.keeps key hnone)⟩

/-- Two results that agree: the same error, or the same value with states related by `post`. -/
inductive Paired {α : Type} (post : State → State → Prop) :
    Except ResolveError (α × State) → Except ResolveError (α × State) → Prop
  | ok {a : α} {s₁ s₂ : State} (h : post s₁ s₂) : Paired post (.ok (a, s₁)) (.ok (a, s₂))
  | error (e : ResolveError) : Paired post (.error e) (.error e)

/-- The two runs agree and leave states alike. -/
def Twins {α : Type} (s₁ s₂ : State) (x₁ x₂ : ResolveM α) : Prop :=
  Paired (fun s₁' s₂' => Alike s₁' s₂' ∧ Grown s₁ s₁' ∧ Grown s₂ s₂') (x₁ s₁) (x₂ s₂)

/-- The computation does not look at the structs that have not been reached. -/
def Blind {α : Type} (x : ResolveM α) : Prop := ∀ ⦃s₁ s₂⦄, Alike s₁ s₂ → Twins s₁ s₂ x x

section Rules

variable {α β : Type} {s₁ s₂ : State}

theorem Paired.bind {x₁ x₂ : ResolveM α} {f₁ f₂ : α → ResolveM β} (hx : Paired post (x₁ s₁) (x₂ s₂))
    (hf : ∀ a s₁' s₂', post s₁' s₂' → Paired post' (f₁ a s₁') (f₂ a s₂')) :
    Paired post' ((x₁ >>= f₁) s₁) ((x₂ >>= f₂) s₂) := by
  change Paired post' (x₁ s₁ >>= fun p => f₁ p.1 p.2) (x₂ s₂ >>= fun p => f₂ p.1 p.2)
  revert hx
  generalize x₁ s₁ = r₁
  generalize x₂ s₂ = r₂
  intro hx
  cases hx with
  | ok h => exact hf _ _ _ h
  | error e => exact .error e

theorem Paired.imp {r₁ r₂ : Except ResolveError (α × State)} (h : Paired post r₁ r₂)
    (hpost : ∀ s₁ s₂, post s₁ s₂ → post' s₁ s₂) : Paired post' r₁ r₂ := by
  cases h with
  | ok h => exact .ok (hpost _ _ h)
  | error e => exact .error e

theorem Paired.of_error {r₁ r₂ : Except ResolveError (α × State)} (h : Paired post r₁ r₂)
    (h₁ : r₁ = .error e) : r₂ = .error e := by
  cases h with
  | ok h => cases h₁
  | error e' => exact h₁

theorem Paired.of_ok {a : α} {r₁ r₂ : Except ResolveError (α × State)} (h : Paired post r₁ r₂)
    (h₁ : r₁ = .ok (a, s)) : ∃ s', r₂ = .ok (a, s') ∧ post s s' := by
  cases h with
  | ok h =>
    cases h₁
    exact ⟨_, rfl, h⟩
  | error e => cases h₁

theorem run_bind_error {x : ResolveM α} {f : α → ResolveM β} (hrun : x s = .error e) :
    (x >>= f) s = .error e := by
  change (x s >>= fun p => f p.1 p.2) = _
  rw [hrun]
  rfl

theorem Twins.bind {x₁ x₂ : ResolveM α} {f₁ f₂ : α → ResolveM β} (hx : Twins s₁ s₂ x₁ x₂)
    (hf : ∀ a s₁' s₂', Alike s₁' s₂' → Grown s₁ s₁' → Grown s₂ s₂' →
      Twins s₁' s₂' (f₁ a) (f₂ a)) :
    Twins s₁ s₂ (x₁ >>= f₁) (x₂ >>= f₂) := by
  refine Paired.bind hx fun a s₁' s₂' ⟨ha, hg₁, hg₂⟩ => ?_
  exact (hf a s₁' s₂' ha hg₁ hg₂).imp fun _ _ ⟨ha', hg₁', hg₂'⟩ =>
    ⟨ha', hg₁.trans hg₁', hg₂.trans hg₂'⟩

theorem twins_pure (ha : Alike s₁ s₂) (a : α) : Twins s₁ s₂ (pure a) (pure a) :=
  .ok ⟨ha, .refl s₁, .refl s₂⟩

theorem twins_throw (e : ResolveError) : Twins s₁ s₂ (throw e : ResolveM α) (throw e) := .error e

theorem twins_get {g₁ g₂ : State → ResolveM β} (h : Twins s₁ s₂ (g₁ s₁) (g₂ s₂)) :
    Twins s₁ s₂ (get >>= g₁) (get >>= g₂) := h

theorem Twins.within {x₁ x₂ : ResolveM α} {place : String} (hx : Twins s₁ s₂ x₁ x₂) :
    Twins s₁ s₂ (within place x₁) (within place x₂) := by
  unfold Twins Resolution.within
  revert hx
  unfold Twins
  generalize x₁ s₁ = r₁
  generalize x₂ s₂ = r₂
  intro hx
  cases hx with
  | ok h => exact .ok h
  | error e => exact .error _

theorem blind_pure (a : α) : Blind (pure a : ResolveM α) := fun _ _ ha => twins_pure ha a

theorem Blind.bind {x : ResolveM α} {f : α → ResolveM β} (hx : Blind x) (hf : ∀ a, Blind (f a)) :
    Blind (x >>= f) :=
  fun _ _ ha => (hx ha).bind fun a _ _ ha' _ _ => hf a ha'

end Rules

theorem addNode_blind (node : Node) : Blind (addNode node) := by
  intro s₁ s₂ ha
  unfold Twins addNode
  rw [ha.tree]
  exact .ok ⟨⟨rfl, ha.registry, ha.blocks⟩, ⟨rfl, fun _ h => h⟩, ⟨rfl, fun _ h => h⟩⟩

theorem lookup?_of_assign {r : Registry} {key other : String}
    (hnone : (r.assign key h).lookup? other = none) : r.lookup? other = none := by
  rw [Registry.lookup?_assign] at hnone
  split at hnone
  · cases hnone
  · exact hnone

theorem sharedStruct_blind (key : String) (decl : Struct) : Blind (sharedStruct key decl) := by
  intro s₁ s₂ ha
  unfold Twins sharedStruct Registry.getOrCreate
  rw [ha.tree, ha.registry]
  cases hl : s₂.registry.lookup? key with
  | some found =>
    exact .ok ⟨⟨rfl, rfl, ha.blocks⟩, ⟨rfl, fun _ h => ha.registry ▸ h⟩, ⟨rfl, fun _ h => h⟩⟩
  | none =>
    refine .ok ⟨⟨rfl, rfl, ha.blocks⟩, ⟨rfl, fun _ h => ?_⟩, ⟨rfl, fun _ h => lookup?_of_assign h⟩⟩
    rw [ha.registry]
    exact lookup?_of_assign h

theorem shareAs_blind (key : String) (h : Handle) : Blind (shareAs key h) := by
  intro s₁ s₂ ha
  refine .ok ⟨⟨ha.tree, ?_, ha.blocks⟩, ⟨rfl, fun _ => lookup?_of_assign⟩,
    ⟨rfl, fun _ => lookup?_of_assign⟩⟩
  exact congrArg (Registry.assign · key h) ha.registry

theorem blocks_blind {g : State → State} (f : List Block → List Block)
    (hg : ∀ s, g s = { s with blocks := f s.blocks }) : Blind (modify g : ResolveM Unit) := by
  intro s₁ s₂ ha
  have hrun (s : State) :
      (modify g : ResolveM Unit) s = .ok ((), { s with blocks := f s.blocks }) := by
    rw [← hg]
    rfl
  unfold Twins
  rw [hrun, hrun]
  exact .ok ⟨⟨ha.tree, ha.registry, congrArg f ha.blocks⟩, ⟨rfl, fun _ h => h⟩,
    ⟨rfl, fun _ h => h⟩⟩

def declareIn (name : String) (h : Handle) : List Block → List Block
  | block :: outer => ((name, h) :: block) :: outer
  | [] => []

theorem declare_blind (name : String) (h : Handle) : Blind (declare name h) := by
  refine blocks_blind (fun blocks => if name = "" then blocks else declareIn name h blocks)
    fun s => ?_
  obtain ⟨tree, registry, pending, blocks⟩ := s
  by_cases hname : name = ""
  · simp only [hname, if_true]
  · cases blocks <;> simp only [hname, if_false, declareIn]

theorem openBlock_blind : Blind openBlock := blocks_blind ([] :: ·) fun _ => rfl

theorem closeBlock_blind : Blind closeBlock := blocks_blind List.tail fun _ => rfl

theorem addDeclared_blind (node : Node) (name : String) :
    Blind (do let h ← addNode node; declare name h; return h) :=
  (addNode_blind node).bind fun h => (declare_blind name h).bind fun _ => blind_pure h

/-! ## Names that a table answers -/

/-- The table holds the structs of the names `reached`, and further ones that are not visible
yet. -/
structure Reads (reached : List String) (table : TypeTable) (pending : List String) :
    Prop where
  named : ∀ decl ∈ table.structs, isIdentifier decl.name = true
  declared : ∀ name ∈ reached, name ∈ table.structs.map (·.name)
  pending : ∀ name, name ∈ pending ↔ name ∈ table.structs.map (·.name) ∧ name ∉ reached

section Names

variable {reached : List String} {table : TypeTable} {s : State} {name : String}

theorem own?_eq_none_iff (hplain : PlainName name) :
    table.own? name = none ↔ name ∉ table.structs.map (·.name) := by
  unfold TypeTable.own?
  rw [List.find?_eq_none]
  simp only [List.mem_reverse, Program.Struct.answers, Bool.or_eq_true, decide_eq_true_eq,
    List.mem_map, not_exists, not_and]
  constructor
  · intro h decl hdecl hname
    exact h decl hdecl (Or.inl hname)
  · rintro h decl hdecl (hname | hname)
    · exact h decl hdecl hname
    · exact hplain.ne_star _ hname.symm

theorem Reads.unreached (hr : Reads reached table s.pending) (hplain : PlainName name)
    (hname : name ∉ reached) : visibleStruct? table s name = Program.intrinsicType? name := by
  have hstar : withoutStar name = name := by simp [withoutStar, hplain.2]
  unfold visibleStruct?
  rw [hstar]
  split
  · rfl
  · rename_i hpending
    have hnot : name ∉ table.structs.map (·.name) := fun hmem =>
      hpending ((hr.pending name).mpr ⟨hmem, hname⟩)
    rw [TypeTable.lookup?, (own?_eq_none_iff hplain).mpr hnot]
    rfl

theorem Reads.visible (hr : Reads reached table s.pending) (hname : name ∈ reached) :
    ∃ decl, visibleStruct? table s name = some decl ∧ decl.name = name := by
  have hmem := hr.declared name hname
  obtain ⟨first, hfirst, rfl⟩ := List.mem_map.mp hmem
  have hplain := plainName_of_isIdentifier (hr.named first hfirst)
  have hstar : withoutStar first.name = first.name := by simp [withoutStar, hplain.2]
  have hpending : first.name ∉ s.pending := fun h => ((hr.pending _).mp h).2 hname
  cases hown : table.own? first.name with
  | none => exact absurd hmem ((own?_eq_none_iff hplain).mp hown)
  | some decl =>
    have hvisible : visibleStruct? table s first.name = some decl := by
      unfold visibleStruct?
      rw [hstar, if_neg hpending, TypeTable.lookup?, hown]
      rfl
    refine ⟨decl, hvisible, ?_⟩
    exact ((visibleStruct?_spec hvisible).2.resolve_right (hplain.ne_star _)).symm

end Names

/-! ## Types -/

/-- Two states from which types are resolved alike, where `names₁` and `names₂` may be entered. A
struct that has been reached and has no node is under way, and may not be entered. -/
structure Mates (reached : List String) (table₁ table₂ : TypeTable)
    (names₁ names₂ : List String) (s₁ s₂ : State) : Prop where
  alike : Alike s₁ s₂
  left : Reads reached table₁ s₁.pending
  right : Reads reached table₂ s₂.pending
  busy : ∀ name ∈ reached, s₁.registry.lookup? name = none → name ∉ names₁ ∧ name ∉ names₂
  intrinsic : ∀ decl ∈ Program.intrinsicTypes, decl.name ∉ reached →
    (decl.name ∈ names₁ ↔ decl.name ∈ names₂)

section Types

variable {reached : List String} {table₁ table₂ : TypeTable}

theorem Mates.mono {s₁' s₂' : State}
    (hm : Mates reached table₁ table₂ names₁ names₂ s₁ s₂) (ha : Alike s₁' s₂') (hg₁ : Grown s₁ s₁')
    (hg₂ : Grown s₂ s₂') :
    Mates reached table₁ table₂ names₁ names₂ s₁' s₂' where
  alike := ha
  left := hg₁.pending ▸ hm.left
  right := hg₂.pending ▸ hm.right
  busy name hname hnone := hm.busy name hname (hg₁.keeps name hnone)
  intrinsic := hm.intrinsic

theorem Mates.filter (hm : Mates reached table₁ table₂ names₁ names₂ s₁ s₂) (name : String) :
    Mates reached table₁ table₂ (names₁.filter (· ≠ name)) (names₂.filter (· ≠ name)) s₁ s₂ where
  alike := hm.alike
  left := hm.left
  right := hm.right
  busy other hother hnone := by
    obtain ⟨h₁, h₂⟩ := hm.busy other hother hnone
    exact ⟨fun h => h₁ (List.mem_of_mem_filter h), fun h => h₂ (List.mem_of_mem_filter h)⟩
  intrinsic decl hdecl hnot := by
    rw [List.mem_filter, List.mem_filter, hm.intrinsic decl hdecl hnot]

theorem structHandle_known {table : TypeTable} (hl : s.registry.lookup? decl.name = some h) :
    structHandle table names decl s = .ok (h, s) := by
  rw [structHandle, run_get, hl]
  rfl

theorem structHandle_busy {table : TypeTable} (hl : s.registry.lookup? decl.name = none)
    (hnot : decl.name ∉ names) :
    structHandle table names decl s = .error (.undefined (.selfContaining decl.name)) := by
  rw [structHandle, run_get, hl]
  dsimp only
  rw [dif_neg hnot]
  rfl

theorem intrinsicType?_spec (h : Program.intrinsicType? name = some decl) :
    decl ∈ Program.intrinsicTypes ∧ decl.name = name :=
  ⟨List.mem_of_find?_eq_some h, of_decide_eq_true
    (List.find?_some (p := fun d : Program.Struct => decide (d.name = name)) h)⟩

theorem isTypeName_of_intrinsic (h : decl ∈ Program.intrinsicTypes) :
    ∀ m ∈ decl.fields, Program.IsTypeName m.type := by
  have hall : ∀ decl ∈ Program.intrinsicTypes, ∀ m ∈ decl.fields, isIdentifier m.type = true := by
    decide
  exact fun m hm => .plain (hall decl h m hm)

theorem isTypeName_cases (h : Program.IsTypeName name) :
    isIdentifier name = true ∨ ∃ outer inner, splitInstance? name = some (outer, inner) ∧
      Program.IsTypeName outer ∧ (¬ isPointer inner = true → Program.IsTypeName inner) := by
  cases h with
  | plain hname => exact Or.inl hname
  | @generic outer inner houter hinner =>
    exact Or.inr ⟨outer, inner, Program.splitInstance?_append houter inner, .plain houter,
      fun _ => .plain hinner⟩
  | @pointer outer inner houter hinner =>
    have hsplit := Program.splitInstance?_append houter (inner ++ "*")
    refine Or.inr ⟨outer, inner ++ "*", ?_, .plain houter, fun hnot => ?_⟩
    · rw [← hsplit]
      congr 1
      simp [String.append_assoc]
    · exact absurd (by simp [isPointer]) hnot

mutual

theorem structHandle_twins {names₁ names₂ : List String} {s₁ s₂ : State}
    (decl : Program.Struct) (hfields : ∀ m ∈ decl.fields, Program.IsTypeName m.type)
    (hmem : decl.name ∈ names₁ ↔ decl.name ∈ names₂)
    (hm : Mates reached table₁ table₂ (names₁.filter (· ≠ decl.name))
      (names₂.filter (· ≠ decl.name)) s₁ s₂) :
    Twins s₁ s₂ (structHandle table₁ names₁ decl) (structHandle table₂ names₂ decl) := by
  rw [structHandle, structHandle]
  refine twins_get ?_
  rw [hm.alike.registry]
  cases s₂.registry.lookup? decl.name with
  | some h => exact twins_pure hm.alike h
  | none =>
    dsimp only
    by_cases hmem₁ : decl.name ∈ names₁
    · rw [dif_pos hmem₁, dif_pos (hmem.mp hmem₁)]
      refine (memberHandles_twins decl.fields hfields hm).within.bind fun fields _ _ ha _ _ => ?_
      refine Blind.bind (sharedStruct_blind _ _) (fun h => ?_) ha
      exact (shareAs_blind _ h).bind fun _ => blind_pure h
    · rw [dif_neg hmem₁, dif_neg fun h => hmem₁ (hmem.mpr h)]
      exact twins_throw _
termination_by (names₁.length, 0, 0)
decreasing_by
  apply Prod.Lex.left
  exact length_filter_ne_lt (by assumption)

theorem typeHandle_twins {names₁ names₂ : List String} {s₁ s₂ : State} (name : String)
    (hname : Program.IsTypeName name) (hm : Mates reached table₁ table₂ names₁ names₂ s₁ s₂) :
    Twins s₁ s₂ (typeHandle table₁ names₁ name) (typeHandle table₂ names₂ name) := by
  rcases isTypeName_cases hname with hid | ⟨outer, inner, hsplit, houter, hinner⟩
  · have hplain := plainName_of_isIdentifier hid
    rw [typeHandle_plain hplain.splitInstance?, typeHandle_plain hplain.splitInstance?]
    refine twins_get ?_
    rw [hm.alike.registry]
    cases hl : s₂.registry.lookup? name with
    | some h => exact twins_pure hm.alike h
    | none =>
      refine twins_get ?_
      by_cases hreached : name ∈ reached
      · -- the struct is under way in both runs, though the tables may differ in what it is
        obtain ⟨decl₁, hvisible₁, hname₁⟩ := hm.left.visible hreached
        obtain ⟨decl₂, hvisible₂, hname₂⟩ := hm.right.visible hreached
        have hl₁ : s₁.registry.lookup? name = none := hm.alike.registry ▸ hl
        obtain ⟨hnot₁, hnot₂⟩ := hm.busy name hreached hl₁
        rw [hvisible₁, hvisible₂]
        subst hname₁
        change Paired _ (structHandle table₁ names₁ decl₁ s₁) (structHandle table₂ names₂ decl₂ s₂)
        rw [structHandle_busy hl₁ hnot₁, structHandle_busy (hname₂ ▸ hl) (hname₂ ▸ hnot₂), hname₂]
        exact .error _
      · rw [hm.left.unreached hplain hreached, hm.right.unreached hplain hreached]
        cases hintrinsic : Program.intrinsicType? name with
        | none => exact twins_throw _
        | some decl =>
          obtain ⟨hdecl, rfl⟩ := intrinsicType?_spec hintrinsic
          exact structHandle_twins decl (isTypeName_of_intrinsic hdecl)
            (hm.intrinsic decl hdecl hreached) (hm.filter decl.name)
  · have hlt := splitInstance?_lt hsplit
    rw [typeHandle_instance hsplit, typeHandle_instance hsplit]
    refine twins_get ?_
    rw [hm.alike.registry]
    cases s₂.registry.lookup? name with
    | some h => exact twins_pure hm.alike h
    | none =>
      refine (typeHandle_twins outer houter hm).bind fun template _ _ ha hg₁ hg₂ => ?_
      by_cases hpointer : isPointer inner = true
      · rw [if_pos hpointer, if_pos hpointer]
        exact (sharedStruct_blind _ _).bind (fun argument => sharedStruct_blind _ _) ha
      · rw [if_neg hpointer, if_neg hpointer]
        refine (typeHandle_twins inner (hinner hpointer) (hm.mono ha hg₁ hg₂)).bind
          fun argument _ _ ha' _ _ => sharedStruct_blind _ _ ha'
termination_by (names₁.length, 1, name.length)
decreasing_by
  · exact Prod.Lex.right _ (Prod.Lex.left _ _ (by omega))
  · exact Prod.Lex.right _ (Prod.Lex.right _ hlt.1)
  · exact Prod.Lex.right _ (Prod.Lex.right _ hlt.2)

theorem memberHandles_twins {names₁ names₂ : List String} {s₁ s₂ : State}
    (members : List Program.Member) (htypes : ∀ m ∈ members, Program.IsTypeName m.type)
    (hm : Mates reached table₁ table₂ names₁ names₂ s₁ s₂) :
    Twins s₁ s₂ (memberHandles table₁ names₁ members) (memberHandles table₂ names₂ members) := by
  match members with
  | [] =>
    rw [memberHandles, memberHandles]
    exact twins_pure hm.alike []
  | m :: rest =>
    rw [memberHandles, memberHandles]
    obtain ⟨htype, hrest⟩ := List.forall_mem_cons.mp htypes
    refine (typeHandle_twins m.type htype hm).within.bind fun type _ _ ha₁ hg₁ hg₁' => ?_
    refine (addNode_blind _ ha₁).bind fun h _ _ ha₂ hg₂ hg₂' => ?_
    have hm₂ := (hm.mono ha₁ hg₁ hg₁').mono ha₂ hg₂ hg₂'
    refine (memberHandles_twins rest hrest hm₂).bind fun more _ _ ha₃ _ _ => ?_
    exact twins_pure ha₃ _
termination_by (names₁.length, 2, members.length)
decreasing_by
  · exact Prod.Lex.right _ (Prod.Lex.left _ _ (by omega))
  · exact Prod.Lex.right _ (Prod.Lex.right _ (by simp))

end

/-- Types outside of structs. -/
abbrev Peers (reached : List String) (table₁ table₂ : TypeTable) (s₁ s₂ : State) : Prop :=
  Mates reached table₁ table₂ (structNames table₁) (structNames table₂) s₁ s₂

theorem mem_structNames_of_intrinsic (table : TypeTable)
    (h : decl ∈ Program.intrinsicTypes) : decl.name ∈ structNames table :=
  List.mem_append_right _ (List.mem_map_of_mem h)

theorem Mates.registered (hm : Peers reached table₁ table₂ s₁ s₂) (hname : name ∈ reached) :
    ∃ h, s₁.registry.lookup? name = some h := by
  cases hl : s₁.registry.lookup? name with
  | some h => exact ⟨h, rfl⟩
  | none =>
    have hmem := List.mem_append_left (Program.intrinsicTypes.map (·.name))
      (hm.left.declared name hname)
    exact absurd hmem (hm.busy name hname hl).1

theorem resolveStruct_twins (decl : Program.Struct)
    (hfields : ∀ m ∈ decl.fields, Program.IsTypeName m.type)
    (hm : Mates reached table₁ table₂ ((structNames table₁).filter (· ≠ decl.name))
      ((structNames table₂).filter (· ≠ decl.name)) s₁ s₂) :
    Twins s₁ s₂ (resolveStruct table₁ decl) (resolveStruct table₂ decl) := by
  have hfilter (names : List String) :
      (decl.name :: names).filter (· ≠ decl.name) = names.filter (· ≠ decl.name) :=
    List.filter_cons_of_neg (by simp)
  rw [← hfilter (structNames table₁), ← hfilter (structNames table₂)] at hm
  exact structHandle_twins decl hfields (iff_of_true (.head _) (.head _)) hm

end Types

/-! ## Expressions -/

theorem substituteAll_blind {args : List (Handle × Handle)} {depth : Nat}
    (hone : ∀ h, Blind (substitute args depth h)) (hs : List Handle) :
    Blind (substituteAll args depth hs) := by
  induction hs with
  | nil =>
    rw [substituteAll]
    exact blind_pure _
  | cons h hs ih =>
    rw [substituteAll]
    exact (hone h).bind fun _ => ih.bind fun _ => blind_pure _

theorem substitute_blind (args : List (Handle × Handle)) (depth : Nat) (h : Handle) :
    Blind (substitute args depth h) := by
  induction depth generalizing h with
  | zero =>
    rw [substitute]
    exact blind_pure h
  | succ depth ih =>
    have hstep {cond : Prop} [Decidable cond] (node : Node) :
        Blind (if cond then pure h else addNode node) := by
      split
      · exact blind_pure h
      · exact addNode_blind node
    intro s₁ s₂ ha
    rw [substitute]
    refine twins_get ?_
    rw [ha.tree]
    split
    · exact twins_pure ha _
    · exact (ih _).bind (fun _ => hstep _) ha
    · exact (ih _).bind (fun _ => (ih _).bind fun _ => hstep _) ha
    · exact (substituteAll_blind ih _).bind (fun _ => hstep _) ha
    · exact (substituteAll_blind ih _).bind (fun _ => hstep _) ha
    · exact (ih _).bind (fun _ => hstep _) ha
    · exact twins_pure ha h

section Expressions

variable {reached : List String} {table₁ table₂ : TypeTable}

theorem calleeHandle_twins (hcallee : PlainName callee) (hm : Peers reached table₁ table₂ s₁ s₂) :
    Twins s₁ s₂ (calleeHandle table₁ callee) (calleeHandle table₂ callee) := by
  unfold calleeHandle
  refine twins_get ?_
  have hlookup : s₁.lookup? callee = s₂.lookup? callee := by
    unfold State.lookup?
    rw [hm.alike.blocks]
  rw [hlookup]
  cases s₂.lookup? callee with
  | some h => exact twins_pure hm.alike h
  | none =>
    dsimp only
    by_cases hreached : callee ∈ reached
    · obtain ⟨decl₁, hvisible₁, hname₁⟩ := hm.left.visible hreached
      obtain ⟨decl₂, hvisible₂, hname₂⟩ := hm.right.visible hreached
      obtain ⟨h, hl⟩ := hm.registered hreached
      rw [hvisible₁, hvisible₂]
      change Paired _ (structHandle table₁ _ decl₁ s₁) (structHandle table₂ _ decl₂ s₂)
      rw [structHandle_known (hname₁ ▸ hl), structHandle_known (hname₂ ▸ hm.alike.registry ▸ hl)]
      exact .ok ⟨hm.alike, .refl s₁, .refl s₂⟩
    · rw [hm.left.unreached hcallee hreached, hm.right.unreached hcallee hreached]
      cases hintrinsic : Program.intrinsicType? callee with
      | none => exact twins_pure hm.alike none
      | some decl =>
        obtain ⟨hdecl, rfl⟩ := intrinsicType?_spec hintrinsic
        exact resolveStruct_twins decl (isTypeName_of_intrinsic hdecl) (hm.filter decl.name)

theorem resolveCall_twins (args : List Handle) (hcallee : PlainName callee)
    (hm : Peers reached table₁ table₂ s₁ s₂) :
    Twins s₁ s₂ (resolveCall table₁ callee args) (resolveCall table₂ callee args) := by
  unfold resolveCall
  refine (calleeHandle_twins hcallee hm).bind fun target s₁' s₂' ha _ _ => twins_get ?_
  dsimp only
  rw [ha.tree]
  split
  · split
    · exact addNode_blind _ ha
    · exact twins_throw _
  · split
    · refine Blind.bind ?_ (fun elements => addNode_blind _) ha
      exact substituteAll_blind (fun h => substitute_blind _ _ h) _
    · exact twins_throw _
  · exact addNode_blind _ ha
  · exact addNode_blind _ ha

theorem source_eq (ha : Alike s₁ s₂) (container : Handle) (name : String) :
    s₁.source container name = s₂.source container name := by
  unfold State.source State.lookup?
  rw [ha.tree, ha.blocks]

/-- Lists of expressions are resolved alike if each of them is. -/
theorem resolveExprs_twins_of (nodes : List Program.Node)
    (hnodes : ∀ node ∈ nodes, ∀ {s₁ s₂ : State}, Peers reached table₁ table₂ s₁ s₂ →
      Twins s₁ s₂ (resolveExpr table₁ none node) (resolveExpr table₂ none node))
    (hm : Peers reached table₁ table₂ s₁ s₂) :
    Twins s₁ s₂ (resolveExprs table₁ nodes) (resolveExprs table₂ nodes) := by
  induction nodes generalizing s₁ s₂ with
  | nil =>
    rw [resolveExprs, resolveExprs]
    exact twins_pure hm.alike []
  | cons node rest ih =>
    rw [resolveExprs, resolveExprs]
    obtain ⟨hnode, hrest⟩ := List.forall_mem_cons.mp hnodes
    refine (hnode hm).bind fun h _ _ ha hg₁ hg₂ => ?_
    exact (ih hrest (hm.mono ha hg₁ hg₂)).bind fun more _ _ ha' _ _ => twins_pure ha' _

mutual

theorem resolveValue_twins {node : Program.Node} : Program.IsValue node →
    ∀ {s₁ s₂ : State} (container : Handle), Peers reached table₁ table₂ s₁ s₂ →
      Twins s₁ s₂ (resolveExpr table₁ container node) (resolveExpr table₂ container node)
  | .ident _, _, _, _, hm => by
    rw [resolveExpr, resolveExpr]
    refine twins_get ?_
    rw [source_eq hm.alike]
    exact addNode_blind _ hm.alike
  | .constant _, _, _, _, hm => by
    rw [resolveExpr, resolveExpr]
    exact addNode_blind _ hm.alike
  | @Program.IsValue.localVar name type _ htype, _, _, _, hm => by
    rw [resolveExpr, resolveExpr]
    refine (typeHandle_twins type htype hm).within.bind fun type' _ _ ha _ _ => ?_
    exact addDeclared_blind _ name ha
  | @Program.IsValue.call callee args hcallee hargs, _, _, _, hm => by
    rw [resolveExpr, resolveExpr]
    refine (resolveExprs_twins_of args (fun arg harg => resolveExpr_twins (hargs arg harg))
      hm).within.bind fun args' _ _ ha hg₁ hg₂ => ?_
    exact resolveCall_twins args' (plainName_of_isIdentifier hcallee.1) (hm.mono ha hg₁ hg₂)
  | .access hleft hright _, _, _, container, hm => by
    rw [resolveExpr, resolveExpr]
    refine (resolveValue_twins hleft container hm).bind fun l s₁' s₂' ha hg₁ hg₂ => ?_
    refine twins_get ?_
    rw [ha.tree]
    refine (resolveValue_twins hright _ (hm.mono ha hg₁ hg₂)).bind fun r _ _ ha' _ _ => ?_
    exact addNode_blind _ ha'
  | .binary _ _ hleft hright _, _, _, _, hm => by
    rw [resolveExpr, resolveExpr]
    split
    · refine (resolveValue_twins hleft none hm).bind fun l _ _ ha hg₁ hg₂ => ?_
      refine (resolveValue_twins hright none (hm.mono ha hg₁ hg₂)).bind
        fun r _ _ ha' _ _ => addNode_blind _ ha'
    · exact twins_throw _

theorem resolveExpr_twins {node : Program.Node} : Program.IsExpression node →
    ∀ {s₁ s₂ : State}, Peers reached table₁ table₂ s₁ s₂ →
      Twins s₁ s₂ (resolveExpr table₁ none node) (resolveExpr table₂ none node)
  | .value hvalue, _, _, hm => resolveValue_twins hvalue none hm
  | .leave, _, _, hm => by
    rw [resolveExpr, resolveExpr]
    exact addNode_blind _ hm.alike
  | .leaveWith hvalue, _, _, hm => by
    rw [resolveExpr, resolveExpr]
    exact (resolveValue_twins hvalue none hm).bind fun _ _ _ ha _ _ => addNode_blind _ ha

end

theorem resolveExprs_twins (nodes : List Program.Node)
    (hnodes : ∀ node ∈ nodes, Program.IsExpression node)
    (hm : Peers reached table₁ table₂ s₁ s₂) :
    Twins s₁ s₂ (resolveExprs table₁ nodes) (resolveExprs table₂ nodes) :=
  resolveExprs_twins_of nodes (fun node hnode => resolveExpr_twins (hnodes node hnode)) hm

end Expressions

end Shader.Resolution
