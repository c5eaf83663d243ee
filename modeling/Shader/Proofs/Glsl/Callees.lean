import Shader.Proofs.Glsl.Occurrence
import Shader.Proofs.Glsl.Shadowing
import Shader.Proofs.Resolution.Provenance

/-!
# Calls and definitions

A function or struct is defined under its own name, and a call is written with the spelling of the
name that is called. What a call refers to is part of the shader. A call and the definition of the
function to which it refers have the same name exactly if the name is not one that GLSL spells in
another way; a call of a struct that is defined always has the name of the struct, unless stars
follow it.
-/

namespace Shader.Glsl

open Arena Program Relation Resolution

variable {t : Tree} {s : Spacing} {depth : Nat} {h e target : Handle} {callee : String}
  {args : List Handle}
variable {options : Options} {out : Output} {g : Arena.Function} {lines : List Line}
  {decl : Arena.Struct}

/-! ## What calls refer to -/

theorem isName_of_part (hpart : IsPart t h e) : isName t h = false := by
  obtain ⟨node, hnode, hmem⟩ := hpart
  unfold isName
  rw [hnode]
  cases node with
  | ident => cases hmem
  | _ => rfl

theorem exprMarks_part (hpart : IsPart t h e) (hname : isName t e = false) :
    exprMarks t depth e ⊆ exprMarks t (depth + 1) h := by
  obtain ⟨node, hnode, hmem⟩ := hpart
  rw [exprMarks.eq_2, hnode]
  cases node with
  | access left right =>
    dsimp only
    rcases List.mem_pair.mp hmem with rfl | rfl
    · exact List.subset_append_left _ _
    · rw [hname, if_neg Bool.false_ne_true]
      exact List.subset_append_right _ _
  | call callee target args =>
    dsimp only
    have harg : e ∈ args := by simpa [Node.parts, Node.copiedParts, Node.keptParts] using hmem
    exact List.Subset.trans (fun m hm => List.mem_flatMap.mpr ⟨e, harg, hm⟩)
      (List.subset_cons_self _ _)
  | intrinsicCall intrinsic elements =>
    exact fun m hm => List.mem_flatMap.mpr ⟨e, hmem, hm⟩
  | binary op left right =>
    dsimp only
    rcases List.mem_pair.mp hmem with rfl | rfl
    · exact List.subset_append_left _ _
    · exact List.subset_append_right _ _
  | sequence elements =>
    have helement : e ∈ elements := by
      simpa [Node.parts, Node.copiedParts, Node.keptParts] using hmem
    exact fun m hm => List.mem_flatMap.mpr ⟨e, helement, hm⟩
  | ret value =>
    cases value with
    | none => cases hmem
    | some value =>
      rw [List.mem_singleton.mp hmem]
      exact fun m hm => hm
  | _ => cases hmem

/-- The callee of every call in an expression is in the trace of the expression, as far as the
expression can be written. -/
theorem calleeMark_mem {text : String} (hcall : t.node? e = some (.call callee target args))
    (hpath : ReflTransGen (IsPart t) h e) (hrun : exprTextFrom t s depth h = .ok text) :
    calleeMark t target callee ∈ exprMarks t depth h := by
  have hplain : isName t e = false := by
    unfold isName
    rw [hcall]
  induction hpath using ReflTransGen.head_induction_on generalizing depth text with
  | refl =>
    cases depth with
    | zero => cases hrun
    | succ depth =>
      rw [exprMarks.eq_2, hcall]
      exact .head _
  | head hpart hrest ih =>
    cases depth with
    | zero => cases hrun
    | succ depth =>
      obtain ⟨part, hpartText, -⟩ := exprTextFrom_part hrun hpart
      refine exprMarks_part hpart ?_ (ih hpartText)
      rcases ReflTransGen.cases_head hrest with rfl | ⟨_, hnext, -⟩
      · exact hplain
      · exact isName_of_part hnext

theorem mem_marks_of_occurs {f : Handle} {decl : Arena.Function}
    (hf : Emits t options f) (hfunction : t.node? f = some (.function decl))
    (hout : generate (some t) options = .ok out) (he : StandsIn t decl e)
    (hcall : t.node? e = some (.call callee target args)) :
    calleeMark t target callee ∈ marks t f := by
  obtain ⟨statement, hstatement, hpath⟩ := he
  obtain ⟨text, htext, -⟩ := exprText_of_occurs hf hfunction hout ⟨statement, hstatement, .refl⟩
  rw [marks, hfunction]
  refine List.mem_append_right _ (List.mem_cons_of_mem _ ?_)
  exact List.mem_flatMap.mpr ⟨statement, hstatement, calleeMark_mem hcall hpath htext⟩

/-- What a declaration of the shader refers to at a mark, whatever names are local there, is written
if it can be. -/
theorem Emits.of_mark {f d : Handle} {m : Mark} (hf : Emits t options f)
    (hm : m ∈ marks t f) (htarget : ∀ locals, m.target (.ofTree t) locals = d) (hd : d.isSome)
    (hwritten : isWritten t d = true) : Emits t options d := by
  obtain ⟨entry, handles, hentry, horder, hin, -⟩ := hf
  obtain ⟨-, hreach, -⟩ := order_spec horder
  obtain ⟨deps, hdeps⟩ := order_dependencies horder f hin
  have hmem : d ∈ deps := by
    obtain ⟨before, after, hsplit⟩ := List.append_of_mem hm
    refine (mem_dependencies hdeps).mpr (mem_references_iff.mp (mem_references.mpr ⟨hd, ?_⟩))
    exact ⟨before, m, after, hsplit, htarget _⟩
  exact ⟨entry, handles, hentry, horder,
    (hreach d).mpr (((hreach f).mp hin).tail ⟨deps, hdeps, hmem⟩),
    hwritten⟩

/-! ## Names -/

theorem spelling_of_mem : ∀ p ∈ typeSpellings, spelling p.1 = p.2 := by decide

theorem not_isPointer_of_mem : ∀ p ∈ typeSpellings, TypeName.isPointer p.1 = false := by decide

theorem mem_of_spelling? {name word : String} (h : spelling? name = some word) :
    (name, word) ∈ typeSpellings := by
  obtain ⟨⟨type, text⟩, hfind, rfl⟩ := Option.map_eq_some_iff.mp h
  have hname : type = name := by simpa using List.find?_some hfind
  exact hname ▸ List.mem_of_find?_eq_some hfind

/-- A name is spelled as it is unless GLSL spells it in another way. -/
theorem spelling_eq_iff (name : String) :
    spelling name = name ↔ ∀ word, (name, word) ∈ typeSpellings → word = name := by
  constructor
  · intro hsame word hmem
    exact (spelling_of_mem _ hmem).symm.trans hsame
  · intro hall
    unfold spelling
    cases hword : spelling? name with
    | none => rfl
    | some word => exact hall word (mem_of_spelling? hword)

/-- The spelling of a name with stars behind that of a struct is the name of the struct only if
there are no stars. -/
theorem spelling_eq_base_iff {base name : String} (hstars : Starred base name)
    (hbase : spelling? base = none) : spelling name = base ↔ name = base := by
  constructor
  · intro hspelling
    cases hword : spelling? name with
    | none =>
      rw [spelling, hword] at hspelling
      exact hspelling
    | some word =>
      have hplain := not_isPointer_of_mem _ (mem_of_spelling? hword)
      exact (hstars.eq_of_plain hplain).symm
  · rintro rfl
    rw [spelling, hbase]
    rfl

/-! ## Shaders -/

/-- The text stands in the shader as the heading of the definition of a function, or of a struct. -/
def HeadsFunction (s : Spacing) (out : Output) (name : String) : Prop :=
  ∃ returns params : String,
    (returns ++ " " ++ name ++ "(" ++ params ++ ")" ++ s.gap ++ "\x7b").toList <:+:
      out.text.toList

def HeadsStruct (s : Spacing) (out : Output) (name : String) : Prop :=
  ("struct " ++ name ++ s.gap ++ "\x7b").toList <:+: out.text.toList

theorem functionLines_head (hrun : functionLines t s g = .ok lines) :
    ∃ returns params rest, lines =
      ⟨0, returns ++ " " ++ g.name ++ "(" ++ params ++ ")" ++ s.gap ++ "\x7b"⟩ :: rest := by
  obtain ⟨returns, -, hrun⟩ := bind_eq_ok hrun
  obtain ⟨params, -, hrun⟩ := bind_eq_ok hrun
  obtain ⟨texts, -, hrun⟩ := bind_eq_ok hrun
  exact ⟨returns, ("," ++ s.gap).intercalate params, _, (Except.ok.inj hrun).symm⟩

theorem structLines_head (hrun : structLines t s decl = .ok lines) :
    ∃ rest, lines = ⟨0, "struct " ++ decl.name ++ s.gap ++ "\x7b"⟩ :: rest := by
  obtain ⟨fields, -, hrun⟩ := bind_eq_ok hrun
  exact ⟨_, (Except.ok.inj hrun).symm⟩

theorem Emits.headsFunction (he : Emits t options h) (hnode : t.node? h = some (.function g))
    (hout : generate (some t) options = .ok out) :
    HeadsFunction ⟨options.completed.minify⟩ out g.name := by
  obtain ⟨lines, hlines, hall⟩ := he.function hnode hout
  obtain ⟨returns, params, rest, rfl⟩ := functionLines_head hlines
  have hhead := hall _ List.mem_cons_self
  exact ⟨returns, params, hhead⟩

theorem Emits.headsStruct (he : Emits t options h) (hnode : t.node? h = some (.struct decl))
    (hout : generate (some t) options = .ok out) :
    HeadsStruct ⟨options.completed.minify⟩ out decl.name := by
  obtain ⟨n, lines, n', hlines, hall⟩ := he.lines hout
  rw [declarationLines, hnode] at hlines
  dsimp only at hlines
  split at hlines
  · cases hlines
  · obtain ⟨lines', hrun, heq⟩ := eq_ok_of_map hlines
    cases heq
    obtain ⟨rest, rfl⟩ := structLines_head hrun
    have hhead := hall _ List.mem_cons_self
    exact hhead

theorem exprText_call (hcall : t.node? e = some (.call callee target args)) {text : String}
    (htext : exprText t s e = .ok text) :
    ∃ inside, text = spelling callee ++ "(" ++ inside ++ ")" := by
  rw [exprText, exprTextFrom, hcall] at htext
  obtain ⟨texts, -, htext⟩ := bind_eq_ok htext
  exact ⟨("," ++ s.gap).intercalate texts, (Except.ok.inj htext).symm⟩

/-- Every call in a shader is written with the spelling of the name that is called. If it refers to
a function, then this is the name of the function, which is defined in the shader under its own
name; the two agree exactly if GLSL does not spell the name in another way. If it refers to a struct
that is written, then the shader defines the struct under its own name, and the call has this name
unless it names the struct with stars. -/
theorem call_names_definition {scope : Scope} {table : TypeTable} {options : Options}
    {out : Output} {f : Handle} {decl : Arena.Function}
    (hresolve : resolve (some scope) table = .ok t) (hout : generate (some t) options = .ok out)
    (hf : Emits t options f) (hfunction : t.node? f = some (.function decl))
    (he : StandsIn t decl e) (hcall : t.node? e = some (.call callee target args)) :
    (∃ inside, exprText t ⟨options.completed.minify⟩ e =
        .ok (spelling callee ++ "(" ++ inside ++ ")") ∧
      (spelling callee ++ "(" ++ inside ++ ")").toList <:+: out.text.toList) ∧
    (∀ g, t.node? target = some (.function g) →
      Emits t options target ∧ HeadsFunction ⟨options.completed.minify⟩ out g.name ∧
      g.name = callee ∧
      (spelling callee = g.name ↔ ∀ word, (g.name, word) ∈ typeSpellings → word = g.name)) ∧
    ∀ g, t.node? target = some (.struct g) → isWritten t target = true →
      Emits t options target ∧ HeadsStruct ⟨options.completed.minify⟩ out g.name ∧
      Starred g.name callee ∧ (spelling callee = g.name ↔ callee = g.name) ∧
      (TypeName.isPointer callee = false → callee = g.name) := by
  have ho := resolve_originates hresolve
  have hmark := mem_marks_of_occurs hf hfunction hout he hcall
  refine ⟨?_, fun g hg => ?_, fun g hg hwritten => ?_⟩
  · obtain ⟨text, htext, hinfix⟩ := exprText_of_occurs hf hfunction hout he
    obtain ⟨inside, rfl⟩ := exprText_call hcall htext
    exact ⟨inside, htext, hinfix⟩
  · have hsome : target.isSome := by
      cases target with
      | none => cases hg
      | some => rfl
    have hname : g.name = callee := by
      rcases ho.calls hcall with rfl | hbears
      · cases hg
      · exact hbears.2 hg
    have hnames : calleeMark t target callee = .names target callee := by
      rw [calleeMark, Tree.struct?, hg]
      rfl
    have hlocal (locals : List String) :
        (calleeMark t target callee).target (.ofTree t) locals = target := by
      rw [hnames, Mark.target, if_pos hsome]
      exact if_pos (ho.functions hg)
    have hemits := hf.of_mark hmark hlocal hsome (by rw [isWritten, hg])
    refine ⟨hemits, hemits.headsFunction hg hout, hname, ?_⟩
    rw [← hname]
    exact spelling_eq_iff g.name
  · have hsome : target.isSome := by
      cases target with
      | none => cases hg
      | some => rfl
    obtain ⟨hplain, hreserved⟩ : g.isInstance = false ∧ isReserved g.name = false := by
      rw [isWritten, hg] at hwritten
      simpa using hwritten
    have hstars : Starred g.name callee := by
      rcases ho.calls hcall with rfl | hbears
      · cases hg
      · exact (hbears.2 hg).resolve_left (by simp [hplain])
    have huses : calleeMark t target callee = .uses target := by
      rw [calleeMark, Tree.struct?, hg]
      rfl
    have hemits := hf.of_mark hmark (fun locals => by rw [huses, Mark.target]) hsome hwritten
    have hspelling : spelling? g.name = none := by
      rw [isReserved, Bool.or_eq_false_iff] at hreserved
      exact Option.not_isSome_iff_eq_none.mp (by simp [hreserved.1])
    exact ⟨hemits, hemits.headsStruct hg hout, hstars, spelling_eq_base_iff hstars hspelling,
      fun hpointer => (hstars.eq_of_plain hpointer).symm⟩

/-- The call of `shade` is written with the name of the function, and the call of `Light` with that
of the struct. -/
theorem call_names_definition_sample :
    let scope := Scope.root [.struct ⟨"Light", [], []⟩, .function "shade" [] "void" [] [],
      .function "main" [] "void" [.call "shade" [], .call "Light" []] []]
    let t : Tree := ⟨#[.scope "root" [some 1, some 3, some 6], .struct ⟨"Light", none, [], []⟩,
      .struct ⟨"void", none, [], []⟩, .function ⟨"shade", [], some 2, [], []⟩,
      .call "shade" (some 3) [], .call "Light" (some 1) [],
      .function ⟨"main", [], some 2, [some 4, some 5], []⟩]⟩
    resolve (some scope) scope.table = .ok t ∧
    ∃ out inside inside', generate (some t) .default = .ok out ∧ Emits t .default (some 6) ∧
      exprText t ⟨Options.default.completed.minify⟩ (some 4) = .ok ("shade(" ++ inside ++ ")") ∧
      HeadsFunction ⟨Options.default.completed.minify⟩ out "shade" ∧
      exprText t ⟨Options.default.completed.minify⟩ (some 5) = .ok ("Light(" ++ inside' ++ ")") ∧
      HeadsStruct ⟨Options.default.completed.minify⟩ out "Light" := by
  intro scope t
  have hresolve : resolve (some scope) scope.table = .ok t :=
    resolve_of_evaluate 9 (by decide +kernel)
  have hnames : (generate (some t) .default).toOption.map (·.info.declarations) =
      some ["shade", "Light", "main"] := by
    decide +kernel
  obtain ⟨out, hout, -⟩ := exists_of_toOption_map hnames
  have hentry : findEntry t Options.default.completed.entryPoint = .ok (some 6) := by
    decide +kernel
  have hemits := emits_entry hout hentry rfl
  have hfunction : t.node? (some 6) =
      some (.function ⟨"main", [], some 2, [some 4, some 5], []⟩) := rfl
  have hshade : t.node? (some 4) = some (.call "shade" (some 3) []) := rfl
  have hlight : t.node? (some 5) = some (.call "Light" (some 1) []) := rfl
  obtain ⟨⟨inside, hfirst, -⟩, hfunctions, -⟩ := call_names_definition hresolve hout hemits
    hfunction ⟨some 4, .head _, .refl⟩ hshade
  obtain ⟨⟨inside', hsecond, -⟩, -, hstructs⟩ := call_names_definition hresolve hout hemits
    hfunction ⟨some 5, .tail _ (.head _), .refl⟩ hlight
  obtain ⟨-, hheads, -⟩ := hfunctions ⟨"shade", [], some 2, [], []⟩ rfl
  obtain ⟨-, hheads', -⟩ := hstructs ⟨"Light", none, [], []⟩ rfl (by decide)
  exact ⟨hresolve, out, inside, inside', hout, hemits, hfirst, hheads, hsecond, hheads'⟩

/-- A function with the name of an intrinsic type is defined under its name, and its calls are
written with the spelling of the type. -/
theorem call_misses_definition :
    let scope := Scope.root [.function "vec3f" [] "void" [] [],
      .function "main" [] "void" [.call "vec3f" []] []]
    let t : Tree := ⟨#[.scope "root" [some 2, some 4], .struct ⟨"void", none, [], []⟩,
      .function ⟨"vec3f", [], some 1, [], []⟩, .call "vec3f" (some 2) [],
      .function ⟨"main", [], some 1, [some 3], []⟩]⟩
    resolve (some scope) .empty = .ok t ∧
    (generate (some t) .default).toOption.map (·.info.declarations) = some ["vec3f", "main"] ∧
    functionLines t ⟨Options.default.completed.minify⟩ ⟨"vec3f", [], some 1, [], []⟩ =
      .ok [⟨0, "void vec3f() \x7b"⟩, ⟨0, "\x7d"⟩, blankLine] ∧
    exprText t ⟨Options.default.completed.minify⟩ (some 3) = .ok "vec3()" := by
  exact ⟨resolve_of_evaluate 9 (by decide +kernel), by decide +kernel, by decide +kernel,
    by decide +kernel⟩

end Shader.Glsl
