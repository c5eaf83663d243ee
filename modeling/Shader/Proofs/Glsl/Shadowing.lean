import Shader.Proofs.Glsl.Trace
import Shader.Proofs.Glsl.TypeDefinition

/-!
# Shadowed inputs

A name in an expression refers to no declaration if it is that of a parameter or of a variable
declared before. A name that a piece of code reads is looked up among the declarations first, so
that a declaration of the same name is captured: it becomes part of the shader although the name is
local. Main statement: a shader holds what its entry mentions or captures, directly or through
other declarations.
-/

namespace Shader.Glsl

open Arena Relation

variable {c : Catalog} {h d : Handle} {locals : List String}

/-- The declaration to which a mark refers if local names shadow declarations. -/
def Mark.lexical (c : Catalog) (locals : List String) : Mark → Handle
  | .reads name => if name ∈ locals then none else firstNamed c name
  | m => m.target c locals

/-- The declaration of the same name as a local that a piece of code reads. -/
def Mark.capture (c : Catalog) (locals : List String) : Mark → Handle
  | .reads name => if name ∈ locals then firstNamed c name else none
  | _ => none

def mentioned (c : Catalog) (h : Handle) : List Handle :=
  (along (Mark.lexical c) [] (marks c.tree h)).filter (·.isSome)

def captured (c : Catalog) (h : Handle) : List Handle :=
  (along (Mark.capture c) [] (marks c.tree h)).filter (·.isSome)

theorem Mark.target_eq_iff (m : Mark) (hd : d.isSome) :
    m.target c locals = d ↔ m.lexical c locals = d ∨ m.capture c locals = d := by
  have hnone : d ≠ none := Option.isSome_iff_ne_none.mp hd
  cases m with
  | reads name =>
    by_cases hname : name ∈ locals
    · simp [Mark.target, Mark.lexical, Mark.capture, hname, hnone.symm]
    · simp [Mark.target, Mark.lexical, Mark.capture, hname, hnone.symm]
  | _ => simp [Mark.lexical, Mark.capture, hnone.symm]

/-- What is referred to is mentioned or captured. -/
theorem mem_references_iff : d ∈ references c h ↔ d ∈ mentioned c h ∨ d ∈ captured c h := by
  rw [mem_references, mentioned, captured, List.mem_filter, List.mem_filter, mem_along, mem_along]
  constructor
  · rintro ⟨hd, before, m, after, hms, htarget⟩
    rcases (m.target_eq_iff hd).mp htarget with hm | hm
    · exact Or.inl ⟨⟨before, m, after, hms, hm⟩, hd⟩
    · exact Or.inr ⟨⟨before, m, after, hms, hm⟩, hd⟩
  · rintro (⟨⟨before, m, after, hms, hm⟩, hd⟩ | ⟨⟨before, m, after, hms, hm⟩, hd⟩)
    · exact ⟨hd, before, m, after, hms, (m.target_eq_iff hd).mpr (Or.inl hm)⟩
    · exact ⟨hd, before, m, after, hms, (m.target_eq_iff hd).mpr (Or.inr hm)⟩

theorem mem_dependencies {deps : List Handle} (hdeps : dependencies c h = .ok deps) :
    d ∈ deps ↔ d ∈ mentioned c h ∨ d ∈ captured c h := by
  rw [← mem_references_iff]
  rcases dependencies_cases c h with ⟨defect, hdefect⟩ | hcases
  · rw [hdefect] at hdeps
    cases hdeps
  · rw [hdeps] at hcases
    cases hmissing : undeclared c h with
    | nil =>
      rw [hmissing] at hcases
      rw [Except.ok.inj hcases]
    | cons name rest =>
      rw [hmissing] at hcases
      cases hcases

theorem dependsOn_iff {deps : List Handle} (hdeps : dependencies c h = .ok deps) :
    DependsOn c h d ↔ d ∈ mentioned c h ∨ d ∈ captured c h := by
  rw [← mem_dependencies hdeps]
  constructor
  · rintro ⟨deps', hdeps', hd⟩
    rw [hdeps] at hdeps'
    exact Except.ok.inj hdeps' ▸ hd
  · exact fun hd => ⟨deps, hdeps, hd⟩

/-- A relation that agrees with another on all that can be reached leads to the same. -/
theorem reflTransGen_congr {r s : Handle → Handle → Prop} {handles : List Handle} {entry : Handle}
    (hmem : ∀ h, h ∈ handles ↔ ReflTransGen r entry h)
    (hsame : ∀ h ∈ handles, ∀ d, r h d ↔ s h d) :
    ∀ h, h ∈ handles ↔ ReflTransGen s entry h := by
  refine fun h => ⟨fun hh => ?_, fun hh => ?_⟩
  · induction (hmem h).mp hh with
    | refl => exact .refl
    | tail hreach hstep ih =>
      have hbefore := (hmem _).mpr hreach
      exact .tail (ih hbefore) ((hsame _ hbefore _).mp hstep)
  · induction hh with
    | refl => exact (hmem _).mpr .refl
    | tail _ hstep ih => exact (hmem _).mpr (.tail ((hmem _).mp ih) ((hsame _ ih _).mpr hstep))

/-- A declaration depends on what it mentions, where parameters and variables shadow declarations,
and on the declarations that it captures: those of the same name as a parameter or variable that its
code reads. So a shader holds what the entry leads to by mentions and captures, and by mentions
alone if nothing in it captures a declaration. -/
theorem shader_captures (c : Catalog) :
    (∀ (h : Handle) (deps : List Handle), dependencies c h = .ok deps →
      ∀ d, d ∈ deps ↔ d ∈ mentioned c h ∨ d ∈ captured c h) ∧
    ∀ (t : Tree) (options : Options) (out : Output), generate (some t) options = .ok out →
      ∃ (entry : Handle) (handles : List Handle),
        findEntry t options.completed.entryPoint = .ok entry ∧
        out.info.declarations = (handles.filter (isWritten t)).map t.name ∧ handles.Nodup ∧
        (∀ h, h ∈ handles ↔ ReflTransGen
          (fun h d => d ∈ mentioned (.ofTree t) h ∨ d ∈ captured (.ofTree t) h) entry h) ∧
        ((∀ h ∈ handles, captured (.ofTree t) h = []) →
          ∀ h, h ∈ handles ↔ ReflTransGen (fun h d => d ∈ mentioned (.ofTree t) h) entry h) := by
  refine ⟨fun h deps hdeps d => mem_dependencies hdeps, fun t options out hout => ?_⟩
  obtain ⟨entry, handles, hentry, horder, hnames⟩ := generate_declarations hout
  obtain ⟨hnodup, hreaches, -, -⟩ := order_spec horder
  have hmem : ∀ h, h ∈ handles ↔ ReflTransGen
      (fun h d => d ∈ mentioned (.ofTree t) h ∨ d ∈ captured (.ofTree t) h) entry h := by
    refine reflTransGen_congr hreaches fun h hh d => ?_
    obtain ⟨deps, hdeps⟩ := order_dependencies horder h hh
    exact dependsOn_iff hdeps
  refine ⟨entry, handles, hentry, hnames, hnodup, hmem, fun hnone => ?_⟩
  exact reflTransGen_congr hmem fun h hh d => by simp [hnone h hh]

/-- The parameter `tint` shadows the specialization of that name in an expression. -/
theorem shader_captures_sample :
    let root := Program.Scope.root [.specialization "tint" "f32", .specialization "scale" "f32",
      .function "main" [⟨"tint", "f32"⟩] "void"
        [.ident "tint", .fragment ⟨"scale;", ["scale"], []⟩] []]
    let t : Tree := ⟨#[.scope "root" [some 2, some 3, some 8], .struct ⟨"f32", none, [], []⟩,
      .specialization "tint" (some 1), .specialization "scale" (some 1),
      .struct ⟨"void", none, [], []⟩, .parameter "tint" (some 1), .ident "tint" (some 5),
      .fragment ⟨"scale;", ["scale"], []⟩,
      .function ⟨"main", [some 5], some 4, [some 6, some 7], []⟩]⟩
    Resolution.resolve (some root) .empty = .ok t ∧
    (∀ d, d ∈ [some 1, some 4, some 3] ↔
      d ∈ mentioned (.ofTree t) (some 8) ∨ d ∈ captured (.ofTree t) (some 8)) ∧
    ∃ (out : Output) (entry : Handle) (handles : List Handle),
      generate (some t) .default = .ok out ∧ out.info.declarations = ["scale", "main"] ∧
      ["scale", "main"] = (handles.filter (isWritten t)).map t.name ∧
      ∀ h, h ∈ handles ↔ ReflTransGen
        (fun h d => d ∈ mentioned (.ofTree t) h ∨ d ∈ captured (.ofTree t) h) entry h := by
  intro root t
  have hresolve : Resolution.resolve (some root) .empty = .ok t :=
    Resolution.resolve_of_evaluate 9 (by decide +kernel)
  have hdeps : dependencies (.ofTree t) (some 8) = .ok [some 1, some 4, some 3] := by
    decide +kernel
  have hnames : (generate (some t) .default).toOption.map (·.info.declarations) =
      some ["scale", "main"] := by
    decide +kernel
  obtain ⟨out, hout, hscale⟩ := exists_of_toOption_map hnames
  obtain ⟨entry, handles, -, hwritten, -, hmem, -⟩ :=
    (shader_captures (.ofTree t)).2 t .default out hout
  exact ⟨hresolve, (shader_captures _).1 _ _ hdeps, out, entry, handles, hout, hscale,
    hscale.symm.trans hwritten, hmem⟩

/-- The specialization `tint` is written although `main` has a parameter of that name and nothing
mentions the specialization. -/
theorem capture_of_parameter :
    let root := Program.Scope.root [.specialization "tint" "f32",
      .function "main" [⟨"tint", "f32"⟩] "void" [.fragment ⟨"tint;", ["tint"], []⟩] []]
    let t : Tree := ⟨#[.scope "root" [some 2, some 6], .struct ⟨"f32", none, [], []⟩,
      .specialization "tint" (some 1), .struct ⟨"void", none, [], []⟩,
      .parameter "tint" (some 1), .fragment ⟨"tint;", ["tint"], []⟩,
      .function ⟨"main", [some 4], some 3, [some 5], []⟩]⟩
    Resolution.resolve (some root) .empty = .ok t ∧
    (∀ h ∈ t.declarations, some 2 ∉ mentioned (.ofTree t) h) ∧
    (generate (some t) .default).toOption.map (·.info.declarations) = some ["tint", "main"] := by
  exact ⟨Resolution.resolve_of_evaluate 9 (by decide +kernel), by decide +kernel, by decide +kernel⟩

end Shader.Glsl
