import Shader.Proofs.Description.Rendering
import Shader.Proofs.Resolution.Declarations
import Shader.Proofs.Resolution.Evaluation

/-!
# Visibility of structs

A struct of the root is not seen before its declaration: at every point between the declarations its
name is an unknown type until a struct of the name has been declared. The structs of a nested scope
are not among those that have to be reached first, so they are seen from the start.
-/

namespace Shader.Resolution

open Arena Program Program.TypeName

variable {table : TypeTable} {name : String} {s : State}

theorem resolveType_of_pending (hplain : PlainName name) (hintrinsic : isIntrinsicType name = false)
    (hpending : name ∈ s.pending) (hnone : s.registry.lookup? name = none) :
    resolveType table name s = .error (.noSuchType name) := by
  have hvisible : visibleStruct? table s name = none := by
    cases hvisible : visibleStruct? table s name with
    | none => rfl
    | some decl =>
      have hseen : Seen table s decl.name := ⟨name, decl, hvisible, rfl⟩
      rcases (visibleStruct?_spec hvisible).2 with rfl | rfl
      · exact absurd hseen (not_seen_of_pending hplain hintrinsic hpending)
      · exact absurd rfl (hplain.ne_star decl.name)
  rw [resolveType, typeHandle_plain hplain.splitInstance?, run_get, hnone]
  dsimp only
  rw [run_get, hvisible]
  rfl

/-- After any of the declarations of a program, a struct of the root whose name is no intrinsic type
is an unknown type as long as no struct of the name has been declared. -/
theorem resolve_hides_root_struct {table : TypeTable} {before rest : List Program.Node}
    {name : String} {s : State}
    (hrun : resolveChildren table id Tree.root before (State.initial (before ++ rest)) =
      .ok ((), s))
    (hname : name ∈ declaredStructs rest) (hplain : PlainName name)
    (hintrinsic : isIntrinsicType name = false)
    (hbefore : ∀ decl ∈ structsOfAll before, decl.name ≠ name) :
    resolveType table name s = .error (.noSuchType name) := by
  have hdeclared : name ∈ declaredStructs (before ++ rest) := by
    unfold declaredStructs
    rw [List.filterMap_append]
    exact List.mem_append_right _ hname
  have hfollows := (follows_isDocumentInvariant table (before ++ rest)).children before
    (fun _ _ _ => id) (.initial _) hrun
  have hstanding := hfollows name hdeclared hplain hintrinsic
  have hfind : ([] ++ structsOfAll before).find? (fun decl : Program.Struct => decl.name = name) =
      none := by
    refine List.find?_eq_none.mpr fun decl hdecl => ?_
    rw [decide_eq_true_eq]
    exact hbefore decl hdecl
  rw [hfind] at hstanding
  exact resolveType_of_pending hplain hintrinsic hstanding.1 hstanding.2

/-- A member before the struct of its type. -/
theorem resolve_hides_root_struct_sample :
    let first : Program.Node := .member ⟨"a", "f32", 0, []⟩
    let light : Program.Node := .struct ⟨"Light", [], []⟩
    let s : State := ⟨⟨#[.scope "root" [some 2], .struct ⟨"f32", none, [], []⟩,
        .member ⟨"a", some 1, 0, []⟩]⟩, ⟨[("f32*", some 1), ("f32", some 1)]⟩, ["Light"],
      [[("a", some 2)]]⟩
    resolveChildren (Scope.root [first, light]).table id Tree.root [first]
        (State.initial [first, light]) = .ok ((), s) ∧
      resolveType (Scope.root [first, light]).table "Light" s = .error (.noSuchType "Light") := by
  intro first light s
  have hrun : resolveChildren (Scope.root [first, light]).table id Tree.root [first]
      (State.initial ([first] ++ [light])) = .ok ((), s) :=
    @mimics_children 9 _ id (fun _ _ => id) _ _ _ _ (by decide +kernel)
  have hplain : PlainName "Light" := by
    unfold PlainName
    decide
  exact ⟨hrun, resolve_hides_root_struct hrun (by decide) hplain (by decide) (by decide)⟩

/-- A struct of a nested scope is seen before it is declared. -/
theorem resolve_sees_nested_struct :
    let light : Program.Struct := ⟨"Light", [], []⟩
    let lamp : Program.Member := ⟨"a", "Light", 0, []⟩
    let scope : Scope := .root [.member lamp, .scope "inner" [.struct light]]
    let t : Tree := ⟨#[.scope "root" [some 2, some 3], .struct ⟨"Light", none, [], []⟩,
      .member ⟨"a", some 1, 0, []⟩, .scope "inner" [some 1]]⟩
    (∃ text, describe text = .ok scope) ∧ resolve (some scope) scope.table = .ok t ∧
      isIntrinsicType "Light" = false ∧
      declarationsOfAll scope.children = [] ++ .member lamp :: [.struct light] := by
  intro light lamp scope t
  have hresolve : resolve (some scope) scope.table = .ok t :=
    resolve_of_evaluate 9 (by decide +kernel)
  have hdescribed : AllDescribed scope.children :=
    ⟨⟨by decide, "", rfl⟩, ⟨⟨List.forall_mem_nil _, rfl⟩, trivial⟩, trivial⟩
  exact ⟨exists_describe hdescribed, hresolve, by decide, rfl⟩

end Shader.Resolution
