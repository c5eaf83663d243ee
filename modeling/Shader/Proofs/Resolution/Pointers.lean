import Shader.Proofs.Resolution.Evaluation
import Shader.Proofs.Resolution.Moves
import Shader.Proofs.Resolution.Twins

/-!
# Pointers of intrinsic types

A struct is registered together with its pointer, but an intrinsic type is not found under the name
of its pointer. So whether such a pointer can be resolved depends on what was resolved before it.
-/

namespace Shader.Resolution

open Arena Program.TypeName
open Program (TypeTable)

variable {table : TypeTable} {name key : String} {decl : Program.Struct} {s s' : State}
  {h : Handle}

/-! ## Registered pointers -/

/-- Every plain name stands for what its pointer stands for. -/
def HasPointers (s : State) : Prop :=
  ∀ base, PlainName base → s.registry.lookup? (base ++ "*") = s.registry.lookup? base

theorem HasPointers.leaves {Q : Node → Prop} (hp : HasPointers s) (hl : Leaves Q s s') :
    HasPointers s' := by
  intro base hbase
  rw [hl.registry]
  exact hp base hbase

theorem HasPointers.shared {found : Struct} (hp : HasPointers s)
    (hrun : sharedStruct key found s = .ok (h, s')) (hkey : '<' ∈ key.toList) :
    HasPointers s' ∧ s'.registry.lookup? key = some h := by
  rcases sharedStruct_run hrun with ⟨hknown, rfl⟩ | ⟨-, rfl, rfl⟩
  · exact ⟨hp, hknown⟩
  · have hlookup (other : String) :=
      Registry.lookup?_assign s.registry key other (some s.tree.size)
    refine ⟨fun base hbase => ?_, (hlookup key).trans (if_pos rfl)⟩
    have hne : key ≠ base := by
      rintro rfl
      exact hbase.1 hkey
    have hstar : key ≠ base ++ "*" := by
      rintro rfl
      simp [hbase.1] at hkey
    rw [hlookup, if_neg hstar, hlookup, if_neg hne, hp base hbase]

theorem HasPointers.register {fields : List Handle} (hp : HasPointers s)
    (hplain : PlainName decl.name) (hrun : registerStruct decl fields s = .ok (h, s')) :
    HasPointers s' ∧ s'.registry.lookup? decl.name = some h := by
  obtain ⟨h₁, s₁, hshared, hrun⟩ := run_bind_eq_ok hrun
  obtain ⟨_, s₂, hshare, hrun⟩ := run_bind_eq_ok hrun
  cases hshare
  cases hrun
  have hown : s₁.registry.lookup? decl.name = some h := by
    rcases sharedStruct_run hshared with ⟨hknown, rfl⟩ | ⟨-, rfl, rfl⟩
    · exact hknown
    · exact (Registry.lookup?_assign ..).trans (if_pos rfl)
  have hother (base : String) (hbase : PlainName base) (hne : base ≠ decl.name) :
      s₁.registry.lookup? (base ++ "*") = s₁.registry.lookup? base := by
    rcases sharedStruct_run hshared with ⟨-, rfl⟩ | ⟨-, -, rfl⟩
    · exact hp base hbase
    · have hlookup (other : String) :=
        Registry.lookup?_assign s.registry decl.name other h
      have hstar := (hlookup (base ++ "*")).trans (if_neg (hplain.ne_star base))
      exact (hstar.trans (hp base hbase)).trans ((hlookup base).trans (if_neg hne.symm)).symm
  have hlookup (other : String) :=
    Registry.lookup?_assign s₁.registry (decl.name ++ "*") other h
  have hplainly (base : String) (hbase : PlainName base) :=
    (hlookup base).trans (if_neg (hbase.ne_star decl.name).symm)
  refine ⟨fun base hbase => ?_, (hplainly _ hplain).trans hown⟩
  refine Eq.trans ?_ (hplainly base hbase).symm
  by_cases hbase' : base = decl.name
  · subst hbase'
    exact ((hlookup _).trans (if_pos rfl)).trans hown.symm
  · refine (hlookup _).trans ((if_neg fun hstar => ?_).trans (hother base hbase hbase'))
    exact hbase' (by simpa using hstar.symm)

theorem HasPointers.reach (hp : HasPointers s) (hplain : PlainName decl.name) :
    HasPointers (s.reach decl) := by
  intro base hbase
  have hne : base ++ "*" ≠ decl.name := (hplain.ne_star base).symm
  rw [reach_lookup?, reach_lookup?, hp base hbase]
  simp [hne, hbase.ne_star decl.name]

theorem hasPointers_isTypeInduction (ht : PlainTable table) :
    IsTypeInduction table
      (fun _ decl s h s' => PlainName decl.name → HasPointers s →
        HasPointers s' ∧ s'.registry.lookup? decl.name = some h)
      (fun _ name s h s' => HasPointers s → HasPointers s' ∧ s'.registry.lookup? name = some h)
      (fun _ _ s _ s' => HasPointers s → HasPointers s') where
  struct_known hknown _ hp := ⟨hp, hknown⟩
  struct_made _ _ hfields hregister hplain hp := (hfields hp).register hplain hregister
  type_known hknown hp := ⟨hp, hknown⟩
  type_pointer _ hsplit _ houter hpointee hshared hp :=
    ((houter hp).1.shared hpointee (by simp)).1.shared hshared
      (by simp [(splitInstance?_eq_some hsplit).1])
  type_generic _ hsplit _ houter hinner hshared hp :=
    (hinner (houter hp).1).1.shared hshared (by simp [(splitInstance?_eq_some hsplit).1])
  type_struct _ _ hvisible hstruct hp := by
    have hplain := ht.visible hvisible
    obtain ⟨hp', hl⟩ := hstruct hplain hp
    refine ⟨hp', ?_⟩
    rcases (visibleStruct?_spec hvisible).2 with rfl | rfl
    · exact hl
    · exact (hp' _ hplain).trans hl
  nil hp := hp
  cons htype hadd hrest hp := hrest ((htype hp).1.leaves (addNode_leaves _ hadd))

theorem hasPointers_isRunRelation (ht : PlainTable table) :
    IsRunRelation table (fun _ => True) fun s s' => HasPointers s → HasPointers s' where
  common _ _ := trivial
  leaves _ _ hl hp := hp.leaves hl
  trans _ _ _ h h' hp := h' (h hp)
  type name _ _ _ hrun hp := ((hasPointers_isTypeInduction ht).type _ name hrun hp).1
  struct _ _ _ decl _ hvisible hrun hp :=
    ((hasPointers_isTypeInduction ht).struct _ decl hrun (ht.visible hvisible) hp).1

theorem hasPointers_isDocumentInvariant (ht : PlainTable table) :
    IsDocumentInvariant table fun before s =>
      (∀ decl ∈ before, PlainName decl.name) → HasPointers s where
  run := (hasPointers_isRunRelation ht).mono (fun _ _ h _ hs hall => h (hs hall))
    fun _ _ _ h h' before hs => h' before (h before hs)
  adopt _ _ _ _ _ hrun hs hall base hbase := by
    rw [(adopt_eq_ok hrun).1]
    exact hs hall base hbase
  struct before s s' decl h hrun hs hall := by
    obtain ⟨s₁, hstruct, hdeclare⟩ := resolveStructDecl_eq_ok hrun
    have hplain : PlainName decl.name := hall decl (by simp)
    have hp := (hs fun d hd => hall d (List.mem_append_left _ hd)).reach hplain
    have hp₁ := ((hasPointers_isTypeInduction ht).struct _ decl hstruct hplain hp).1
    exact hp₁.leaves (declare_leaves _ _ hdeclare)

/-! ## Programs -/

theorem visibleStruct?_pointer (ht : PlainTable table)
    (hown : ∀ decl ∈ table.structs, decl.name ≠ name) :
    visibleStruct? table s (name ++ "*") = none := by
  have hintrinsic : Program.intrinsicType? (name ++ "*") = none := by
    refine List.find?_eq_none.mpr fun decl hdecl => ?_
    rw [decide_eq_true_eq]
    exact (plainName_of_intrinsic hdecl).ne_star name
  have htable : table.own? (name ++ "*") = none := by
    refine List.find?_eq_none.mpr fun decl hdecl => ?_
    have hmem := List.mem_reverse.mp hdecl
    simp [Program.Struct.answers, (ht decl hmem).ne_star name, hown decl hmem]
  unfold visibleStruct? TypeTable.lookup?
  rw [hintrinsic, htable]
  exact ite_self _

/-- Wherever the declarations of a program have been resolved up to some point, the pointer of an
intrinsic type that the program does not replace cannot be resolved if the type has not been
resolved before, and once the type is resolved its pointer is too, to the same struct. -/
theorem resolve_pointer_by_history {table : TypeTable} {before : List Program.Node}
    {children : List Program.Node} {name : String} {s : State} (ht : PlainTable table)
    (hplain : ∀ decl ∈ Program.structsOfAll before, PlainName decl.name)
    (hintrinsic : Program.isIntrinsicType name = true)
    (hown : ∀ decl ∈ table.structs, decl.name ≠ name)
    (hrun : resolveChildren table id Tree.root before (State.initial children) = .ok ((), s)) :
    (s.registry.lookup? name = none →
        resolveType table (name ++ "*") s = .error (.noSuchType (name ++ "*"))) ∧
      ∀ h s', resolveType table name s = .ok (h, s') →
        resolveType table (name ++ "*") s' = .ok (h, s') := by
  have hname : PlainName name := by
    obtain ⟨decl, hdecl⟩ := Option.isSome_iff_exists.mp hintrinsic
    obtain ⟨hmem, rfl⟩ := intrinsicType?_spec hdecl
    exact plainName_of_intrinsic hmem
  have hpointers : HasPointers s :=
    @IsDocumentInvariant.children _ _ (hasPointers_isDocumentInvariant ht) [] _ _ _ before _
      (fun _ _ _ => id) (fun _ _ _ => rfl) hrun hplain
  have hsplit : splitInstance? (name ++ "*") = none := by
    cases hsplit : splitInstance? (name ++ "*") with
    | none => rfl
    | some parts =>
      have hpointer := (splitInstance?_eq_some hsplit).2
      simp [isPointer] at hpointer
  refine ⟨fun hnone => ?_, fun h s' htype => ?_⟩
  · rw [resolveType, typeHandle_plain hsplit, run_get, hpointers _ hname, hnone]
    dsimp only
    rw [run_get, visibleStruct?_pointer ht hown]
    rfl
  · obtain ⟨hpointers', hl⟩ := (hasPointers_isTypeInduction ht).type _ name htype hpointers
    rw [resolveType, typeHandle, run_get, hpointers' _ hname, hl]
    rfl

/-- The pointer of a vector is used after the vector. -/
theorem resolve_pointer_by_history_sample :
    let v : Program.Member := ⟨"v", "vec2f", 0, []⟩
    let table : TypeTable := ⟨[]⟩
    let s : State := ⟨⟨#[.scope "root" [some 5], .struct ⟨"f32", none, [], []⟩,
        .member ⟨"x", some 1, 0, []⟩, .member ⟨"y", some 1, 0, []⟩,
        .struct ⟨"vec2f", none, [some 2, some 3], []⟩, .member ⟨"v", some 4, 0, []⟩]⟩,
      ⟨[("vec2f*", some 4), ("vec2f", some 4), ("f32*", some 1), ("f32", some 1)]⟩, [],
      [[("v", some 5)]]⟩
    resolveChildren table id Tree.root [.member v] (State.initial [.member v]) = .ok ((), s) ∧
      resolveType table "vec3f*" s = .error (.noSuchType "vec3f*") ∧
      resolveType table "vec2f*" s = .ok (some 4, s) := by
  intro v table s
  have hrun : resolveChildren table id Tree.root [.member v] (State.initial [.member v]) =
      .ok ((), s) := @mimics_children 9 _ id (fun _ _ => id) _ _ _ _ (by decide +kernel)
  have hknown : resolveType table "vec2f" s = .ok (some 4, s) := by
    rw [resolveType, typeHandle, run_get]
    rfl
  have ht : PlainTable table := List.forall_mem_nil _
  refine ⟨hrun, ?_, ?_⟩
  · exact (@resolve_pointer_by_history _ _ _ "vec3f" _ ht (List.forall_mem_nil _) (by decide)
      (List.forall_mem_nil _) hrun).1 rfl
  · exact (@resolve_pointer_by_history _ _ _ "vec2f" _ ht (List.forall_mem_nil _) (by decide)
      (List.forall_mem_nil _) hrun).2 _ _ hknown

/-- A pointer that is not resolved, but is after a member of the type that it points to. -/
theorem resolve_depends_on_mention :
    let a : Program.Node := .member ⟨"a", "vec3f*", 0, []⟩
    let zz : Program.Node := .member ⟨"zz", "vec3f", 0, []⟩
    let t : Tree := ⟨#[.scope "root" [some 6, some 7], .struct ⟨"f32", none, [], []⟩,
      .member ⟨"x", some 1, 0, []⟩, .member ⟨"y", some 1, 0, []⟩, .member ⟨"z", some 1, 0, []⟩,
      .struct ⟨"vec3f", none, [some 2, some 3, some 4], []⟩, .member ⟨"zz", some 5, 0, []⟩,
      .member ⟨"a", some 5, 0, []⟩]⟩
    resolve (some (.root [a])) (Program.Scope.root [a]).table =
        .error (.inside "member a" (.noSuchType "vec3f*")) ∧
      resolve (some (.root [zz, a])) (Program.Scope.root [zz, a]).table = .ok t := by
  intro a zz t
  have htype : resolveType (Program.Scope.root [a]).table "vec3f*" (State.initial [a]) =
      .error (.noSuchType "vec3f*") := by
    rw [resolveType, typeHandle_plain (by decide), run_get]
    rfl
  have hdeclaration : resolveDeclaration (Program.Scope.root [a]).table a (State.initial [a]) =
      .error (.inside "member a" (.noSuchType "vec3f*")) := by
    rw [resolveDeclaration]
    refine run_bind_error ?_
    unfold within
    rw [htype]
    rfl
  refine ⟨?_, resolve_of_evaluate 9 (by decide +kernel)⟩
  have hchildren : resolveChildren (Program.Scope.root [a]).table id Tree.root
      (Program.Scope.root [a]).children (State.initial (Program.Scope.root [a]).children) =
        .error (.inside "member a" (.noSuchType "vec3f*")) := by
    change resolveChildren _ id Tree.root [a] (State.initial [a]) = _
    rw [resolveChildren]
    exact run_bind_error hdeclaration
  unfold resolve
  dsimp only
  rw [hchildren]

end Shader.Resolution
