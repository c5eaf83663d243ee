import Shader.Proofs.Compile.Contract
import Shader.Proofs.Resolution.Scopes

/-!
# The functions named `main`

Both checks of transforms allow one function named `main`, but they look in different places: the
check before resolution looks at the declarations of the root, the check after resolution also at
those of nested scopes. So they agree on programs without a `main` in a nested scope.
-/

namespace Shader.Compile

open Arena Resolution

/-- The number of functions named `main` in the nested scopes of a list of declarations. -/
def nestedMains (nodes : List Program.Node) : Nat :=
  (nodes.flatMap fun
    | .scope _ children => Program.functionNamesOfAll children
    | _ => []).count "main"

theorem nestedMains_cons (node : Program.Node) (nodes : List Program.Node) :
    nestedMains (node :: nodes) = nestedMains [node] + nestedMains nodes := by
  unfold nestedMains
  rw [List.flatMap_cons, List.flatMap_singleton, List.count_append]

theorem count_functionNamesOfAll (nodes : List Program.Node) :
    (Program.functionNamesOfAll nodes).count "main" = nodes.countP isMain + nestedMains nodes := by
  induction nodes with
  | nil => rfl
  | cons node nodes ih =>
    have hfirst : node.functionNames.count "main" = [node].countP isMain + nestedMains [node] := by
      cases node with
      | function name => by_cases hname : name = "main" <;>
          simp [Program.Node.functionNames, isMain, nestedMains, hname]
      | _ => simp [Program.Node.functionNames, isMain, nestedMains]
    have hcount : (node :: nodes).countP isMain = [node].countP isMain + nodes.countP isMain := by
      rw [← List.countP_append, List.singleton_append]
    rw [Program.functionNamesOfAll, List.count_append, hfirst, ih, hcount,
      nestedMains_cons node nodes]
    omega

theorem isMainAt_eq (t : Tree) (h : Handle) :
    isMainAt t h = ((functionName? t h).map (· == "main")).getD false := by
  unfold isMainAt functionName?
  cases t.function? h with
  | none | some => rfl

/-- After resolution the functions named `main` are counted in nested scopes too. -/
theorem mainsIn_of_resolve {table : Program.TypeTable} {scope : Program.Scope} {t : Tree}
    (h : resolve (some scope) table = .ok t) :
    mainsIn t = scope.children.countP isMain + nestedMains scope.children := by
  have hmain : isMainAt t = fun h => ((functionName? t h).map (· == "main")).getD false :=
    funext (isMainAt_eq t)
  rw [← count_functionNamesOfAll, ← functionNames_declarations h, List.count_eq_countP,
    List.countP_filterMap, mainsIn, hmain]

/-- A program that the check before resolution accepts has at most one function named `main` among
its declarations. The check after resolution refuses its tree if there are more of them in nested
scopes, and accepts it if there are none. -/
theorem checkTree_of_checkDraft {given draft : Draft} {table : Program.TypeTable} {t : Tree}
    (hcheck : checkDraft given.children (some draft) = .ok draft)
    (hresolve : resolve (some draft.toScope) table = .ok t) :
    let nested := nestedMains draft.toScope.children
    (checkTree t.rootChildren (some t) =
      if draft.mains + nested ≤ 1 then .ok t else .error (.mains (draft.mains + nested))) ∧
    (nested = 0 → checkTree t.rootChildren (some t) = .ok t ∧ mainsIn t ≤ 1) := by
  intro nested
  have hmains : mainsIn t = draft.mains + nested := by
    rw [mainsIn_of_resolve hresolve, draft.mains_eq]
  obtain ⟨-, hcontinues⟩ := checkDraft_eq_ok_iff.mp hcheck
  have hmain := hcontinues.main
  rw [checkTree_of_kept (List.prefix_refl _), hmains]
  refine ⟨rfl, fun hnone => ?_⟩
  have hle : draft.mains + nested ≤ 1 := by omega
  exact ⟨if_pos hle, hle⟩

/-- A nested scope without functions does not matter. -/
theorem checkTree_of_checkDraft_sample :
    let draft := Draft.ofScope (.root [.function "main" [] "void" [] [],
      .scope "inner" [.literal "pi" "3.14"]])
    let t : Tree := ⟨#[.scope "root" [some 2, some 3], .struct ⟨"void", none, [], []⟩,
      .function ⟨"main", [], some 1, [], []⟩, .scope "inner" [some 4], .literal "pi" "3.14"]⟩
    checkDraft draft.children (some draft) = .ok draft ∧
      resolve (some draft.toScope) .empty = .ok t ∧
      checkTree t.rootChildren (some t) = .ok t ∧ mainsIn t ≤ 1 := by
  intro draft t
  have hcheck : checkDraft draft.children (some draft) = .ok draft := rfl
  have hresolve : resolve (some draft.toScope) .empty = .ok t :=
    resolve_of_evaluate 9 (by decide +kernel)
  exact ⟨hcheck, hresolve, (checkTree_of_checkDraft hcheck hresolve).2 rfl⟩

/-- A second `main` in a nested scope passes the check before resolution and not the one after. -/
theorem checkTree_refuses_nested_main :
    let draft := Draft.ofScope (.root [.function "main" [] "void" [] [],
      .scope "inner" [.function "main" [] "void" [] []]])
    let t : Tree := ⟨#[.scope "root" [some 2, some 3], .struct ⟨"void", none, [], []⟩,
      .function ⟨"main", [], some 1, [], []⟩, .scope "inner" [some 4],
      .function ⟨"main", [], some 1, [], []⟩]⟩
    checkDraft draft.children (some draft) = .ok draft ∧
      resolve (some draft.toScope) .empty = .ok t ∧
      checkTree t.rootChildren (some t) = .error (.mains 2) := by
  intro draft t
  exact ⟨rfl, resolve_of_evaluate 9 (by decide +kernel), rfl⟩

end Shader.Compile
