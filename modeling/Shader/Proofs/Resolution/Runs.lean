import Shader.Resolution.Types

/-!
# Runs of a resolution

A successful run of a sequence of steps consists of successful runs of its steps, and a run that
resolves a type consists of runs that resolve its parts. What holds of a run if it holds of the runs
that it consists of holds of all runs.
-/

namespace Shader.Arena.Registry

theorem lookup?_remove (r : Registry) (key other : String) :
    (r.remove key).lookup? other = if key = other then none else r.lookup? other := by
  unfold remove lookup?
  rw [List.find?_filter]
  by_cases heq : key = other
  · rw [if_pos heq, Option.map_eq_none_iff, List.find?_eq_none]
    intro entry _
    simp [heq]
  · have hsame : (fun entry : String × Handle =>
        decide (decide (entry.1 ≠ key) = true ∧ decide (entry.1 = other) = true)) =
        fun entry => decide (entry.1 = other) := by
      funext entry
      by_cases hother : entry.1 = other
      · simp [hother, Ne.symm heq]
      · simp [hother]
    rw [if_neg heq, hsame]

theorem lookup?_assign (r : Registry) (key other : String) (h : Handle) :
    (r.assign key h).lookup? other = if key = other then some h else r.lookup? other := by
  by_cases heq : key = other
  · simp [assign, lookup?, heq]
  · have hrest := lookup?_remove r key other
    rw [if_neg heq] at hrest ⊢
    rw [← hrest]
    unfold assign lookup?
    rw [List.find?_cons_of_neg (by simpa using heq)]

end Shader.Arena.Registry

namespace Shader.Resolution

open Arena Program.TypeName

variable {s s' : State} {key name : String} {h : Handle}

/-! ## Sequences of steps -/

/-- Every successful run of the computation ends in the postcondition. -/
def Ends {α : Type} (s : State) (act : ResolveM α) (post : State → α → Prop) : Prop :=
  ∀ a s', act s = .ok (a, s') → post s' a

/-- The relation holds between the first and the last state of every successful run. -/
def Moves {α : Type} (R : State → State → Prop) (act : ResolveM α) : Prop :=
  ∀ ⦃s a s'⦄, act s = .ok (a, s') → R s s'

section Sequences

variable {α β : Type} {act : ResolveM α} {f : α → ResolveM β}

theorem run_bind {a : α} (hrun : act s = .ok (a, s')) : (act >>= f) s = f a s' := by
  change (act s >>= fun p => f p.1 p.2) = _
  rw [hrun]
  rfl

theorem run_get {g : State → ResolveM β} : (get >>= g) s = g s s := rfl

theorem run_bind_eq_ok {b : β} (h : (act >>= f) s = .ok (b, s')) :
    ∃ a s₁, act s = .ok (a, s₁) ∧ f a s₁ = .ok (b, s') := by
  change ((act s >>= fun p => f p.1 p.2) : Except ResolveError _) = _ at h
  cases hact : act s with
  | error e =>
    rw [hact] at h
    cases h
  | ok p =>
    rw [hact] at h
    exact ⟨p.1, p.2, rfl, h⟩

theorem run_of_within {place : String} {r : α × State}
    (hrun : within place act s = .ok r) : act s = .ok r := by
  unfold within at hrun
  split at hrun
  · rename_i hact
    cases hrun
    exact hact
  · cases hrun

theorem ends_pure {a : α} {post : State → α → Prop} (h : post s a) : Ends s (pure a) post := by
  intro b s' hrun
  cases hrun
  exact h

theorem ends_throw {post : State → α → Prop} (e : ResolveError) : Ends s (throw e) post := by
  intro b s' hrun
  cases hrun

theorem ends_get {g : State → ResolveM β} {post : State → β → Prop} (h : Ends s (g s) post) :
    Ends s (get >>= g) post := h

theorem Ends.bind {mid : State → α → Prop} {post : State → β → Prop} (hact : Ends s act mid)
    (hf : ∀ a s₁, mid s₁ a → Ends s₁ (f a) post) : Ends s (act >>= f) post := by
  intro b s' hrun
  obtain ⟨a, s₁, hrun₁, hrun₂⟩ := run_bind_eq_ok hrun
  exact hf a s₁ (hact a s₁ hrun₁) b s' hrun₂

theorem Ends.of_eq {act' : ResolveM α} {post : State → α → Prop} (heq : act s = act' s)
    (h : Ends s act' post) : Ends s act post :=
  fun a s' hrun => h a s' (heq ▸ hrun)

theorem Ends.within {place : String} {post : State → α → Prop} (hact : Ends s act post) :
    Ends s (within place act) post :=
  fun a s' hrun => hact a s' (run_of_within hrun)

variable {R : State → State → Prop}

theorem moves_throw (e : ResolveError) : Moves R (throw e : ResolveM α) := by
  intro s a s' hrun
  cases hrun

theorem moves_get {g : State → ResolveM β} (hg : ∀ s, Moves R (g s)) : Moves R (get >>= g) :=
  fun s _ _ hrun => hg s hrun

theorem Moves.within {place : String} (hact : Moves R act) : Moves R (within place act) :=
  fun _ _ _ hrun => hact (run_of_within hrun)

theorem moves_pure (hrefl : ∀ s, R s s) (a : α) : Moves R (pure a : ResolveM α) := by
  intro s b s' hrun
  cases hrun
  exact hrefl s

theorem Moves.bind (htrans : ∀ ⦃s s' s''⦄, R s s' → R s' s'' → R s s'') (hact : Moves R act)
    (hf : ∀ a, Moves R (f a)) : Moves R (act >>= f) := by
  intro s b s' hrun
  obtain ⟨a, s₁, hrun₁, hrun₂⟩ := run_bind_eq_ok hrun
  exact htrans (hact hrun₁) (hf a hrun₂)

theorem Moves.imp {R' : State → State → Prop} (hact : Moves R act)
    (h : ∀ ⦃s s'⦄, R s s' → R' s s') : Moves R' act :=
  fun _ _ _ hrun => h (hact hrun)

end Sequences

/-! ## Runs that resolve types -/

def registerStruct (decl : Program.Struct) (fields : List Handle) : ResolveM Handle := do
  let h ← sharedStruct decl.name ⟨decl.name, none, fields, []⟩
  shareAs (decl.name ++ "*") h
  return h

/-- How a run that resolves a struct has gone. -/
inductive StructRun (table : Program.TypeTable) (names : List String) (decl : Program.Struct)
    (s : State) (h : Handle) (s' : State) : Prop
  | known (hknown : s.registry.lookup? decl.name = some h) (hsame : s' = s)
  | made {fields s₁} (hnone : s.registry.lookup? decl.name = none) (hmem : decl.name ∈ names)
      (hfields : memberHandles table (names.filter (· ≠ decl.name)) decl.fields s =
        .ok (fields, s₁))
      (hregister : registerStruct decl fields s₁ = .ok (h, s'))

section Runs

variable {table : Program.TypeTable} {names : List String} {decl : Program.Struct}

theorem typeHandle_plain (hplain : splitInstance? name = none) :
    typeHandle table names name = (do
      match (← get).registry.lookup? name with
      | some h => return h
      | none =>
        match visibleStruct? table (← get) name with
        | some decl => structHandle table names decl
        | none => throw (.noSuchType name)) := by
  rw [typeHandle]
  refine bind_congr fun s => ?_
  cases s.registry.lookup? name with
  | some found => rfl
  | none =>
    dsimp only
    split
    · rename_i hsplit
      rw [hplain] at hsplit
      cases hsplit
    · rfl

theorem typeHandle_instance {outer inner : String}
    (hsplit : splitInstance? name = some (outer, inner)) :
    typeHandle table names name = (do
      match (← get).registry.lookup? name with
      | some h => return h
      | none =>
        let template ← typeHandle table names outer
        let argument ←
          if isPointer inner then
            sharedStruct (outer ++ "<" ++ inner ++ ">#pointee") ⟨inner, template, [], []⟩
          else typeHandle table names inner
        sharedStruct name ⟨name, template, [], [argument]⟩) := by
  rw [typeHandle]
  refine bind_congr fun s => ?_
  cases s.registry.lookup? name with
  | some found => rfl
  | none =>
    dsimp only
    split
    · rename_i hsplit'
      cases hsplit.symm.trans hsplit'
      rfl
    · rename_i hsplit'
      cases hsplit.symm.trans hsplit'

theorem structHandle_run (hrun : structHandle table names decl s = .ok (h, s')) :
    StructRun table names decl s h s' := by
  rw [structHandle, run_get] at hrun
  cases hl : s.registry.lookup? decl.name with
  | some found =>
    rw [hl] at hrun
    cases hrun
    exact .known hl rfl
  | none =>
    rw [hl] at hrun
    dsimp only at hrun
    split at hrun
    · rename_i hmem
      obtain ⟨fields, s₁, hfields, hregister⟩ := run_bind_eq_ok hrun
      exact .made hl hmem (run_of_within hfields) hregister
    · cases hrun

theorem memberHandles_cons_run {m : Program.Member} {rest : List Program.Member}
    {hs : List Handle} (hrun : memberHandles table names (m :: rest) s = .ok (hs, s')) :
    ∃ type s₁ h s₂ more, typeHandle table names m.type s = .ok (type, s₁) ∧
      addNode (.member ⟨m.name, type, m.count, m.annotations⟩) s₁ = .ok (h, s₂) ∧
      memberHandles table names rest s₂ = .ok (more, s') ∧ hs = h :: more := by
  rw [memberHandles] at hrun
  obtain ⟨type, s₁, htype, hrun⟩ := run_bind_eq_ok hrun
  obtain ⟨h, s₂, hadd, hrun⟩ := run_bind_eq_ok hrun
  obtain ⟨more, s₃, hmore, hrun⟩ := run_bind_eq_ok hrun
  cases hrun
  exact ⟨type, s₁, h, s₂, more, run_of_within htype, hadd, hmore, rfl⟩

theorem sharedStruct_run {decl : Struct} (hrun : sharedStruct key decl s = .ok (h, s')) :
    (s.registry.lookup? key = some h ∧ s' = s) ∨
      (s.registry.lookup? key = none ∧ h = some s.tree.size ∧
        s' = { s with
          registry := s.registry.assign key h
          tree := (s.tree.add (.struct decl)).2 }) := by
  unfold sharedStruct Registry.getOrCreate at hrun
  cases hl : s.registry.lookup? key with
  | some found =>
    rw [hl] at hrun
    cases hrun
    exact Or.inl ⟨rfl, rfl⟩
  | none =>
    rw [hl] at hrun
    cases hrun
    exact Or.inr ⟨rfl, rfl, rfl⟩

end Runs

/-- Properties of the successful runs that resolve structs, types and members which hold of a run if
they hold of the runs that it consists of. -/
structure IsTypeInduction (table : Program.TypeTable)
    (S : List String → Program.Struct → State → Handle → State → Prop)
    (T : List String → String → State → Handle → State → Prop)
    (M : List String → List Program.Member → State → List Handle → State → Prop) : Prop where
  struct_known : ∀ {names decl s h}, s.registry.lookup? decl.name = some h → S names decl s h s
  struct_made : ∀ {names decl s fields s₁ h s'}, s.registry.lookup? decl.name = none →
    decl.name ∈ names → M (names.filter (· ≠ decl.name)) decl.fields s fields s₁ →
    registerStruct decl fields s₁ = .ok (h, s') → S names decl s h s'
  type_known : ∀ {names name s h}, s.registry.lookup? name = some h → T names name s h s
  type_pointer : ∀ {names name outer inner s template s₁ argument s₂ h s'},
    s.registry.lookup? name = none → splitInstance? name = some (outer, inner) →
    isPointer inner = true → T names outer s template s₁ →
    sharedStruct (outer ++ "<" ++ inner ++ ">#pointee") ⟨inner, template, [], []⟩ s₁ =
      .ok (argument, s₂) →
    sharedStruct name ⟨name, template, [], [argument]⟩ s₂ = .ok (h, s') → T names name s h s'
  type_generic : ∀ {names name outer inner s template s₁ argument s₂ h s'},
    s.registry.lookup? name = none → splitInstance? name = some (outer, inner) →
    isPointer inner = false → T names outer s template s₁ → T names inner s₁ argument s₂ →
    sharedStruct name ⟨name, template, [], [argument]⟩ s₂ = .ok (h, s') → T names name s h s'
  type_struct : ∀ {names name decl s h s'}, s.registry.lookup? name = none →
    splitInstance? name = none → visibleStruct? table s name = some decl →
    S names decl s h s' → T names name s h s'
  nil : ∀ {names s}, M names [] s [] s
  cons : ∀ {names m rest s type s₁ h s₂ more s'}, T names m.type s type s₁ →
    addNode (.member ⟨m.name, type, m.count, m.annotations⟩) s₁ = .ok (h, s₂) →
    M names rest s₂ more s' → M names (m :: rest) s (h :: more) s'

namespace IsTypeInduction

variable {table : Program.TypeTable}
  {S : List String → Program.Struct → State → Handle → State → Prop}
  {T : List String → String → State → Handle → State → Prop}
  {M : List String → List Program.Member → State → List Handle → State → Prop}

mutual

theorem struct (hi : IsTypeInduction table S T M) {s s' : State} {h : Handle}
    (names : List String) (decl : Program.Struct)
    (hrun : structHandle table names decl s = .ok (h, s')) : S names decl s h s' := by
  match structHandle_run hrun with
  | .known hknown hsame =>
    subst hsame
    exact hi.struct_known hknown
  | .made hnone hmem hfields hregister =>
    exact hi.struct_made hnone hmem (hi.members _ decl.fields hfields) hregister
termination_by (names.length, 0, 0)
decreasing_by
  apply Prod.Lex.left
  exact length_filter_ne_lt (by assumption)

theorem type (hi : IsTypeInduction table S T M) {s s' : State} {h : Handle} (names : List String)
    (name : String) (hrun : typeHandle table names name s = .ok (h, s')) : T names name s h s' := by
  cases hl : s.registry.lookup? name with
  | some found =>
    rw [typeHandle, run_get, hl] at hrun
    cases hrun
    exact hi.type_known hl
  | none =>
    cases hsplit : splitInstance? name with
    | none =>
      rw [typeHandle_plain hsplit, run_get, hl] at hrun
      dsimp only at hrun
      rw [run_get] at hrun
      cases hvisible : visibleStruct? table s name with
      | some decl =>
        rw [hvisible] at hrun
        exact hi.type_struct hl hsplit hvisible (hi.struct names decl hrun)
      | none =>
        rw [hvisible] at hrun
        cases hrun
    | some parts =>
      obtain ⟨outer, inner⟩ := parts
      have hlt := splitInstance?_lt hsplit
      rw [typeHandle_instance hsplit, run_get, hl] at hrun
      obtain ⟨template, s₁, houter, hrun⟩ := run_bind_eq_ok hrun
      dsimp only at hrun
      have hfirst := hi.type names outer houter
      cases hpointer : isPointer inner with
      | true =>
        rw [if_pos hpointer] at hrun
        obtain ⟨argument, s₂, hargument, hshared⟩ := run_bind_eq_ok hrun
        exact hi.type_pointer hl hsplit hpointer hfirst hargument hshared
      | false =>
        rw [if_neg (by simp [hpointer])] at hrun
        obtain ⟨argument, s₂, hargument, hshared⟩ := run_bind_eq_ok hrun
        exact hi.type_generic hl hsplit hpointer hfirst (hi.type names inner hargument) hshared
termination_by (names.length, 1, name.length)
decreasing_by
  · exact Prod.Lex.right _ (Prod.Lex.left _ _ (by omega))
  · exact Prod.Lex.right _ (Prod.Lex.right _ hlt.1)
  · exact Prod.Lex.right _ (Prod.Lex.right _ hlt.2)

theorem members (hi : IsTypeInduction table S T M) {s s' : State} {hs : List Handle}
    (names : List String) (members : List Program.Member)
    (hrun : memberHandles table names members s = .ok (hs, s')) : M names members s hs s' := by
  match members with
  | [] =>
    rw [memberHandles] at hrun
    cases hrun
    exact hi.nil
  | m :: rest =>
    obtain ⟨type, s₁, h, s₂, more, htype, hadd, hmore, rfl⟩ := memberHandles_cons_run hrun
    exact hi.cons (hi.type names m.type htype) hadd (hi.members names rest hmore)
termination_by (names.length, 2, members.length)
decreasing_by
  · exact Prod.Lex.right _ (Prod.Lex.left _ _ (by omega))
  · exact Prod.Lex.right _ (Prod.Lex.right _ (by simp))

end

end IsTypeInduction

/-! ## Relations that hold along runs -/

/-- The node is neither an intrinsic nor a call of one. -/
def IsInert : Node → Prop
  | .intrinsic _ => False
  | .intrinsicCall .. => False
  | _ => True

/-- The node is no scope, no function and no literal. -/
def IsCommon : Node → Prop
  | .scope .. => False
  | .function _ => False
  | .literal .. => False
  | _ => True

/-- A relation that passes on to sequences of steps, and holds between the ends of the steps by
which types are resolved and expressions are copied. -/
structure IsStepRelation (R : State → State → Prop) : Prop where
  refl : ∀ s, R s s
  trans : ∀ ⦃s s' s''⦄, R s s' → R s' s'' → R s s''
  add : ∀ ⦃node⦄, IsInert node → IsCommon node → Moves R (addNode node)
  shared : ∀ key decl, Moves R (sharedStruct key decl)
  share : ∀ key h, Moves R (shareAs key h)

theorem IsStepRelation.isTypeInduction {R : State → State → Prop} (hR : IsStepRelation R)
    (table : Program.TypeTable) : IsTypeInduction table (fun _ _ s _ s' => R s s')
      (fun _ _ s _ s' => R s s') fun _ _ s _ s' => R s s' where
  struct_known _ := hR.refl _
  struct_made {_ decl _ fields _ _ _} _ _ hfields hregister := by
    have hmoves : Moves R (registerStruct decl fields) :=
      (hR.shared _ _).bind hR.trans fun h => (hR.share _ h).bind hR.trans fun _ =>
        moves_pure hR.refl h
    exact hR.trans hfields (hmoves hregister)
  type_known _ := hR.refl _
  type_pointer _ _ _ houter hpointee hshared :=
    hR.trans houter (hR.trans (hR.shared _ _ hpointee) (hR.shared _ _ hshared))
  type_generic _ _ _ houter hinner hshared :=
    hR.trans houter (hR.trans hinner (hR.shared _ _ hshared))
  type_struct _ _ _ hstruct := hstruct
  nil := hR.refl _
  cons htype hadd hmore := hR.trans htype
    (hR.trans (hR.add (by trivial) (by trivial) hadd) hmore)

end Shader.Resolution
