import Shader.Proofs.Description.Rendering
import Shader.Proofs.Glsl.TypeDefinition
import Shader.Proofs.Grammar.Printer
import Shader.Proofs.Resolution.Evaluation

/-!
# Inputs of code

A piece of code lists the names that it reads, and the first declaration of each name in the order
of the document is what the shader takes it for. If a function with the code is part of the shader,
then so is that declaration; it is written if it is a resource or a value that passes between
stages.
-/

namespace Shader.Glsl

open Arena Program Resolution TypeName

variable {d h statement : Handle} {kind mark name type : String} {code : Program.Fragment}
  {node : Program.Node} {t : Tree} {f : References → Handle → Except GenerateError References}
  {hs : List Handle} {decl : Function} {m : Arena.Member} {options : Options}

/-! ## References -/

section References

variable {c : Catalog} {r r' : References}

theorem References.subset_foldlM (hkeep : ∀ r h r', f r h = .ok r' → r.found ⊆ r'.found)
    (hrun : hs.foldlM f r = .ok r') : r.found ⊆ r'.found := by
  induction hs generalizing r with
  | nil =>
    cases hrun
    exact List.Subset.refl _
  | cons h hs ih =>
    rw [List.foldlM_cons] at hrun
    obtain ⟨r₁, hstep, hrun⟩ := Program.bind_eq_ok hrun
    exact List.Subset.trans (hkeep r h r₁ hstep) (ih hrun)

theorem References.mem_foldlM (hkeep : ∀ r h r', f r h = .ok r' → r.found ⊆ r'.found)
    (hmem : h ∈ hs) (hadd : ∀ r r', f r h = .ok r' → d ∈ r'.found) (hrun : hs.foldlM f r = .ok r') :
    d ∈ r'.found := by
  induction hs generalizing r with
  | nil => cases hmem
  | cons first hs ih =>
    rw [List.foldlM_cons] at hrun
    obtain ⟨r₁, hstep, hrest⟩ := Program.bind_eq_ok hrun
    rcases List.mem_cons.mp hmem with rfl | hmem
    · exact References.subset_foldlM hkeep hrest (hadd r r₁ hstep)
    · exact ih hmem hrest

theorem References.mem_addInputs {inputs : List String} (hrun : r.addInputs c inputs = .ok r')
    (hmem : name ∈ inputs) (hname : c.byName? name = some d) (hd : d.isSome) : d ∈ r'.found := by
  induction inputs generalizing r with
  | nil => cases hmem
  | cons first inputs ih =>
    rw [References.addInputs] at hrun
    rcases List.mem_cons.mp hmem with rfl | hmem
    · rw [hname] at hrun
      exact References.subset_addInputs hrun (r.mem_add hd)
    · split at hrun
      · exact ih hrun hmem
      · split at hrun
        · exact ih hrun hmem
        · cases hrun

/-- A function depends on the inputs of its code. -/
theorem dependsOn_input {f : Handle} (hf : c.tree.node? f = some (.function decl))
    (hstatement : statement ∈ decl.statements)
    (hcode : c.tree.node? statement = some (.fragment code)) (hmem : name ∈ code.inputs)
    (hname : c.byName? name = some d) (hd : d.isSome) {deps : List Handle}
    (hdeps : dependencies c f = .ok deps) : d ∈ deps := by
  rw [dependencies, hf] at hdeps
  obtain ⟨r, hread, rfl⟩ := eq_ok_of_map hdeps
  refine References.mem_foldlM (fun r h r' hstep => ?_) hstatement (fun r r' hstep => ?_) hread
  · exact (readExpr_records (s := ⟨false⟩) hstep).1
  · rw [readExpr, hcode] at hstep
    exact References.mem_addInputs hstep hmem hname hd

end References

/-! ## Shaders -/

/-- The declaration at a handle is written in the shader of a tree. -/
def Emits (t : Tree) (options : Options) (h : Handle) : Prop :=
  ∃ entry handles, findEntry t options.completed.entryPoint = .ok entry ∧
    order (Catalog.ofTree t) entry = .ok handles ∧ h ∈ handles ∧ isWritten t h = true

/-- The declaration of the program has become the one at the handle. -/
def StandsFor (scope : Scope) (t : Tree) (node : Program.Node) (h : Handle) : Prop :=
  (node, h) ∈ (declarationsOfAll scope.children).zip t.declarations

theorem emits_input {f : Handle} (hf : Emits t options f)
    (hnode : t.node? f = some (.function decl)) (hstatement : statement ∈ decl.statements)
    (hcode : t.node? statement = some (.fragment code)) (hmem : name ∈ code.inputs)
    (hname : (Catalog.ofTree t).byName? name = some d) (hd : d.isSome)
    (hwritten : isWritten t d = true) : Emits t options d := by
  obtain ⟨entry, handles, hentry, horder, hin, -⟩ := hf
  obtain ⟨-, hreach, -⟩ := order_spec horder
  obtain ⟨deps, hdeps⟩ := order_dependencies horder f hin
  have hdepends : DependsOn (Catalog.ofTree t) f d :=
    ⟨deps, hdeps, dependsOn_input hnode hstatement hcode hmem hname hd hdeps⟩
  exact ⟨entry, handles, hentry, horder, (hreach d).mpr (((hreach f).mp hin).tail hdepends),
    hwritten⟩

theorem Emits.mem_declarations {out : Output} (he : Emits t options h)
    (hgenerate : generate (some t) options = .ok out) : t.name h ∈ out.info.declarations := by
  obtain ⟨entry, handles, hentry, horder, hin, hwritten⟩ := he
  obtain ⟨entry', handles', hentry', horder', hdeclarations⟩ := generate_declarations hgenerate
  cases hentry.symm.trans hentry'
  cases horder.symm.trans horder'
  rw [hdeclarations]
  exact List.mem_map.mpr ⟨h, List.mem_filter.mpr ⟨hin, hwritten⟩, rfl⟩

theorem Catalog.name_of_byName? (hd : (Catalog.ofTree t).byName? name = some d) :
    t.name d = name ∧ d.isSome := by
  unfold Catalog.byName? at hd
  split at hd
  · cases hd
  · rename_i hname
    have hfound := List.find?_some hd
    have hfound : t.name d = name := of_decide_eq_true hfound
    refine ⟨hfound, ?_⟩
    cases d with
    | none => exact absurd hfound.symm hname
    | some => rfl

theorem isWritten_of_template {s : Arena.Struct} (hnode : t.node? h = some (.member m))
    (hstruct : t.struct? m.type = some s) (hin : t.name s.template ≠ "In")
    (hout : t.name s.template ≠ "Out") : isWritten t h = false := by
  unfold isWritten
  rw [hnode]
  dsimp only
  unfold direction?
  rw [hstruct]
  dsimp only
  split
  · split
    · contradiction
    · contradiction
    · rfl
  · rfl

/-- If a function is part of a shader, then so is the first declaration of every name that its code
reads, and it is declared there unless it is of a kind that is never written. A member is written as
a stage input or output only, so a push constant that is given as a member is never declared. -/
theorem generate_declares_inputs {t : Tree} {options : Options} {out : Output}
    (hgenerate : generate (some t) options = .ok out) :
    (∀ f decl statement code, Emits t options f → t.node? f = some (.function decl) →
      statement ∈ decl.statements → t.node? statement = some (.fragment code) →
      ∀ name ∈ code.inputs, ∀ d, (Catalog.ofTree t).byName? name = some d →
        isWritten t d = true → name ∈ out.info.declarations) ∧
    ∀ h m s, t.node? h = some (.member m) → t.struct? m.type = some s →
      t.name s.template = "PushConstant" → ¬ Emits t options h := by
  constructor
  · intro f decl statement code hf hnode hstatement hcode name hmem d hd hwritten
    obtain ⟨rfl, hsome⟩ := Catalog.name_of_byName? hd
    exact (emits_input hf hnode hstatement hcode hmem hd hsome hwritten).mem_declarations hgenerate
  · rintro h m s hnode hstruct htemplate ⟨-, -, -, -, -, hwritten⟩
    rw [isWritten_of_template hnode hstruct (by rw [htemplate]; decide)
      (by rw [htemplate]; decide)] at hwritten
    cases hwritten

def pairCode : Program.Fragment := ⟨"x(a, c);", ["a", "c"], []⟩

def pairScope : Scope := .root [.member ⟨"a", "In<f32>", 0, []⟩,
  .member ⟨"c", "PushConstant<f32>", 0, []⟩, .function "main" [] "void" [.fragment pairCode] []]

def pairTree : Tree := ⟨#[.scope "root" [some 4, some 7, some 10], .struct ⟨"In", none, [], []⟩,
  .struct ⟨"f32", none, [], []⟩, .struct ⟨"In<f32>", some 1, [], [some 2]⟩,
  .member ⟨"a", some 3, 0, []⟩, .struct ⟨"PushConstant", none, [], []⟩,
  .struct ⟨"PushConstant<f32>", some 5, [], [some 2]⟩, .member ⟨"c", some 6, 0, []⟩,
  .struct ⟨"void", none, [], []⟩, .fragment pairCode,
  .function ⟨"main", [], some 8, [some 9], []⟩]⟩

theorem describe_pair : ∃ text, describe text = .ok pairScope := by
  have hdescribed : AllDescribed pairScope.children := by
    refine ⟨⟨by decide, "", rfl⟩, ⟨by decide, "", rfl⟩, ⟨rfl, ⟨"", rfl⟩, Or.inr ?_⟩, trivial⟩
    exact ⟨pairCode, rfl, by decide⟩
  exact exists_describe hdescribed

theorem resolve_pair : resolve (some pairScope) pairScope.table = .ok pairTree :=
  resolve_of_evaluate 9 (by decide +kernel)

theorem generate_pair :
    ∃ out, generate (some pairTree) .default = .ok out ∧ out.info.declarations = ["a", "main"] := by
  have hnames : (generate (some pairTree) .default).toOption.map (·.info.declarations) =
      some ["a", "main"] := by
    decide +kernel
  exact exists_of_toOption_map hnames

theorem emits_pair :
    StandsFor pairScope pairTree (.function "main" [] "void" [.fragment pairCode] []) (some 10) ∧
      Emits pairTree .default (some 10) := by
  obtain ⟨out, hout, -⟩ := generate_pair
  obtain ⟨entry, handles, hentry, horder, -⟩ := generate_declarations hout
  have hten : findEntry pairTree Options.default.completed.entryPoint = .ok (some 10) := by
    decide +kernel
  cases hentry.symm.trans hten
  obtain ⟨-, -, hlast, -⟩ := order_spec horder
  refine ⟨.tail _ (.tail _ (.head _)), ?_⟩
  exact ⟨some 10, handles, hten, horder, List.mem_of_getLast? hlast, rfl⟩

/-- The stage input is declared, and the push constant is not. -/
theorem generate_declares_inputs_sample :
    ∃ out, generate (some pairTree) .default = .ok out ∧ "a" ∈ out.info.declarations ∧
      ¬ Emits pairTree .default (some 7) := by
  obtain ⟨out, hout, -⟩ := generate_pair
  obtain ⟨hinputs, hpush⟩ := generate_declares_inputs hout
  refine ⟨out, hout, ?_, ?_⟩
  · exact hinputs (some 10) ⟨"main", [], some 8, [some 9], []⟩ (some 9) pairCode emits_pair.2 rfl
      (.head _) rfl "a" (by decide) (some 4) (by decide +kernel) (by decide +kernel)
  · exact hpush (some 7) ⟨"c", some 6, 0, []⟩ ⟨"PushConstant<f32>", some 5, [], [some 2]⟩ rfl rfl
      (by decide +kernel)

/-- A push constant that code of the shader reads is not declared. -/
theorem generate_omits_pushConstant :
    (∃ text, describe text = .ok pairScope) ∧
      resolve (some pairScope) pairScope.table = .ok pairTree ∧
      StandsFor pairScope pairTree (.function "main" [] "void" [.fragment pairCode] []) (some 10) ∧
      Emits pairTree .default (some 10) ∧ "c" ∈ pairCode.inputs ∧
      (declarationsOfAll pairScope.children).find? (·.name = "c") =
        some (.member ⟨"c", markedType "push_constant" "f32", 0, []⟩) ∧
      ∃ out, generate (some pairTree) .default = .ok out ∧ "c" ∉ out.info.declarations := by
  obtain ⟨out, hout, hnames⟩ := generate_pair
  obtain ⟨hmain, hemits⟩ := emits_pair
  refine ⟨describe_pair, resolve_pair, hmain, hemits, by decide, rfl, out, hout, ?_⟩
  rw [hnames]
  decide

end Shader.Glsl
