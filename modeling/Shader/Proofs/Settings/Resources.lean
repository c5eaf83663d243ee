import Shader.Proofs.Compile.Contract
import Shader.Proofs.Glsl.Text
import Shader.Proofs.Grammar.RoundTrip
import Shader.Settings.Basic

/-!
# The resources of settings

The transform of settings appends their resources to a program and changes nothing else, so it can
only be refused for the functions named `main` that the program has already.
-/

namespace Shader.Compile

open Program

/-! ## The transform -/

def resourcesOf (settings : Option Settings) : List Node :=
  settings.elim [] Settings.declarations

theorem resourceTransform_eq (settings : Option Settings) (draft : Draft) (config : Option Node) :
    resourceTransform settings draft config =
      .ok ⟨draft, some (draft.append (resourcesOf settings))⟩ := by
  cases settings with
  | none =>
    have hsame : draft.append [] = draft := by simp [Draft.append]
    rw [resourcesOf, Option.elim_none, hsame]
    rfl
  | some s => rfl

theorem countP_isMain_resources (settings : Option Settings) :
    (resourcesOf settings).countP isMain = 0 := by
  cases settings with
  | none => rfl
  | some s =>
    rw [List.countP_eq_zero]
    intro node hnode
    rw [resourcesOf, Option.elim_some, Settings.declarations, List.mem_append, List.mem_append]
      at hnode
    rcases hnode with (hnode | hnode) | hnode
    · unfold Settings.pushConstantDeclaration at hnode
      split at hnode
      · cases hnode
      · rw [List.mem_singleton.mp hnode]
        simp [isMain]
    · obtain ⟨binding, -, rfl⟩ := List.mem_map.mp hnode
      simp [Settings.Binding.declaration, isMain]
    · obtain ⟨constant, -, rfl⟩ := List.mem_map.mp hnode
      simp [isMain]

/-- The resources are appended, unless the program has more than one function named `main`. -/
theorem beforeResolution_resources {o : CompileOptions} {settings : Option Settings}
    (ho : o.beforeResolve = some (resourceTransform settings)) {scope : Scope}
    (hroot : scope.name = rootName) :
    beforeResolution o scope =
      if scope.children.countP isMain ≤ 1 then .ok (scope.append (resourcesOf settings))
      else .error (.transform (.breach (.mains (scope.children.countP isMain)))) := by
  have hscope : ((Draft.ofScope scope).append (resourcesOf settings)).toScope =
      scope.append (resourcesOf settings) := by
    rw [Draft.toScope_append, Draft.toScope_ofScope]
    rfl
  have hmains : ((Draft.ofScope scope).append (resourcesOf settings)).mains =
      scope.children.countP isMain := by
    rw [Draft.mains_eq, hscope, Scope.append, List.countP_append, countP_isMain_resources,
      Nat.add_zero]
  have hcheck := @checkDraft_of_kept (.ofScope scope)
    ((Draft.ofScope scope).append (resourcesOf settings)) hroot (Draft.keys_append _ _)
  unfold beforeResolution transformScope
  rw [ho]
  dsimp only
  rw [resourceTransform_eq]
  dsimp only
  rw [hcheck, hmains]
  by_cases hle : scope.children.countP isMain ≤ 1
  · simp only [if_pos hle, hscope]
  · simp only [if_neg hle]

/-! ## Settings without resources -/

theorem resourcesOf_eq_nil {settings : Option Settings}
    (hnone : ∀ s ∈ settings, s.pushConstant = [] ∧ s.bindings = [] ∧ s.specializations = []) :
    resourcesOf settings = [] := by
  cases settings with
  | none => rfl
  | some s =>
    obtain ⟨hpush, hbindings, hspecializations⟩ := hnone s rfl
    rw [resourcesOf, Option.elim_some, Settings.declarations, hpush, hbindings, hspecializations]
    rfl

theorem name_of_loadTokens {tokens : List String} {scope : Scope}
    (h : loadTokens tokens = .ok scope) : scope.name = rootName := by
  unfold loadTokens parse at h
  cases hread : declarations [] ⟨0, tokens⟩ with
  | error e =>
    rw [hread] at h
    cases h
  | ok nodes =>
    rw [hread] at h
    cases h
    rfl

theorem compileScope_plain {scope : Scope} {table : TypeTable} {t : Arena.Tree}
    {glsl : Glsl.Options} {out : Glsl.Output}
    (hresolve : Resolution.resolve (some scope) table = .ok t)
    (hgenerate : Glsl.generate (some t) glsl = .ok out) :
    compileScope (some scope) table (.plain glsl) = .ok out.text := by
  have htree : resolveProgram (some scope) table = .ok t := by rw [resolveProgram, hresolve]
  have hshader : generateShader (some t) glsl = .ok out := by rw [generateShader, hgenerate]
  change (do
    let tree ← resolveProgram (some scope) table
    let output ← generateShader (some tree) glsl
    return output.text) = _
  rw [htree]
  change (do
    let output ← generateShader (some t) glsl
    return output.text) = _
  rw [hshader]
  rfl

/-- With settings that declare no resource, a program with more than one function named `main` is
refused, and everything else is compiled as without settings. -/
theorem compileTokens_without_resources (tokens : List String) (o : CompileOptions)
    (settings : Option Settings)
    (hnone : ∀ s ∈ settings, s.pushConstant = [] ∧ s.bindings = [] ∧ s.specializations = []) :
    let transformed :=
      compileTokens tokens { o with beforeResolve := some (resourceTransform settings) }
    (∀ scope, loadTokens tokens = .ok scope → 1 < scope.children.countP isMain →
      transformed = .error (.transform (.breach (.mains (scope.children.countP isMain))))) ∧
    ((∀ scope, loadTokens tokens = .ok scope → scope.children.countP isMain ≤ 1) →
      transformed = compileTokens tokens { o with beforeResolve := none }) := by
  intro transformed
  have hload (scope : Scope) (h : loadTokens tokens = .ok scope) :
      transformed = compileScope (some scope) scope.table
        { o with beforeResolve := some (resourceTransform settings) } := by
    simp only [transformed, compileTokens, h]
  have hbefore (scope : Scope) (h : loadTokens tokens = .ok scope) :=
    @beforeResolution_resources { o with beforeResolve := some (resourceTransform settings) }
      settings rfl scope (name_of_loadTokens h)
  constructor
  · intro scope h hmany
    rw [hload scope h, compileScope, hbefore scope h, if_neg (by omega)]
    rfl
  · intro hfew
    cases h : loadTokens tokens with
    | error e => simp only [transformed, compileTokens, h]
    | ok scope =>
      have hsame : scope.append (resourcesOf settings) = scope := by
        rw [resourcesOf_eq_nil hnone, Scope.append, List.append_nil]
      rw [hload scope h, compileScope, hbefore scope h, if_pos (hfew scope h), hsame]
      simp only [compileTokens, h]
      rfl

/-- A program with one function named `main` is compiled as without settings. -/
theorem compileTokens_without_resources_sample :
    let tokens := ["main", ":", "fn", "(", ")", "->", "void", "\x7b", "\x7d"]
    let scope : Scope := .root [.function "main" [] "void" [] []]
    let o : CompileOptions := .plain .default
    loadTokens tokens = .ok scope ∧
      compileTokens tokens { o with beforeResolve := some (resourceTransform (some .empty)) } =
        compileTokens tokens { o with beforeResolve := none } := by
  intro tokens scope o
  have hmain : scope.IsProgram :=
    isProgram_function (by decide) (by decide) (List.forall_mem_nil _)
  have hload : loadTokens tokens = .ok scope := by
    unfold loadTokens
    rw [show parse tokens = .ok scope from parse_tokens hmain]
  have hnone : ∀ s ∈ some Settings.empty,
      s.pushConstant = [] ∧ s.bindings = [] ∧ s.specializations = [] := by
    rintro _ ⟨⟩
    exact ⟨rfl, rfl, rfl⟩
  refine ⟨hload, (compileTokens_without_resources tokens o (some .empty) hnone).2 ?_⟩
  intro found hfound
  rw [hload] at hfound
  cases hfound
  decide

/-- A program with two functions named `main` is compiled without settings, but not with settings
that say nothing. -/
theorem compileTokens_two_mains :
    let tokens := ["main", ":", "fn", "(", ")", "->", "void", "\x7b", "\x7d",
      "main", ":", "fn", "(", ")", "->", "void", "\x7b", "\x7d"]
    let o : CompileOptions := .plain .default
    (∃ text, compileTokens tokens o = .ok text) ∧
      compileTokens tokens { o with beforeResolve := some (resourceTransform (some .empty)) } =
        .error (.transform (.breach (.mains 2))) := by
  intro tokens o
  let main : Node := .function "main" [] "void" [] []
  let t : Arena.Tree := ⟨#[.scope "root" [some 2, some 3], .struct ⟨"void", none, [], []⟩,
    .function ⟨"main", [], some 1, [], []⟩, .function ⟨"main", [], some 1, [], []⟩]⟩
  have hmain : main.IsDeclaration := ⟨by decide, by simp, rfl, .plain (by decide), by simp⟩
  have hprogram : (Scope.root [main, main]).IsProgram := by
    refine ⟨rfl, fun node hnode => ?_⟩
    rcases List.mem_cons.mp hnode with rfl | hnode
    · exact hmain
    · exact List.mem_singleton.mp hnode ▸ hmain
  have hload : loadTokens tokens = .ok (.root [main, main]) := by
    unfold loadTokens
    rw [show parse tokens = .ok (.root [main, main]) from parse_tokens hprogram]
  have hresolve : Resolution.resolve (some (.root [main, main])) .empty = .ok t :=
    Resolution.resolve_of_evaluate 9 (by decide +kernel)
  obtain ⟨out, hout⟩ : Glsl.Succeeds (Glsl.generate (some t) .default) :=
    Glsl.succeeds_of_isSome (by decide +kernel)
  constructor
  · refine ⟨out.text, ?_⟩
    unfold compileTokens
    rw [hload]
    exact compileScope_plain hresolve hout
  · unfold compileTokens
    rw [hload]
    rfl

end Shader.Compile
