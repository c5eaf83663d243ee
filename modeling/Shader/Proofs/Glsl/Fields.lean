import Shader.Proofs.Glsl.Occurrence
import Shader.Proofs.Grammar.RoundTrip
import Shader.Proofs.Resolution.Provenance

/-!
# Names behind a point

A name behind a point is looked up among the fields of what stands before the point, and then among
the declarations around it. It is written as it is, whatever it was found to be, unless that is a
literal: then the body of the literal is written. Programs that are read from a source have no
literals, so their fields and swizzles are always written verbatim.
-/

namespace Shader.Program

theorem literalsOfAll_eq_nil {nodes : List Node} (h : ∀ node ∈ nodes, node.literals = []) :
    literalsOfAll nodes = [] := by
  induction nodes with
  | nil => rfl
  | cons node rest ih =>
    obtain ⟨hnode, hrest⟩ := List.forall_mem_cons.mp h
    rw [literalsOfAll, hnode, ih hrest]
    rfl

mutual

theorem IsValue.literals_eq_nil {node : Node} : IsValue node → node.literals = []
  | .ident _ => rfl
  | .constant _ => rfl
  | .localVar _ _ => rfl
  | .call _ hargs => by
    have hall := fun arg harg => (hargs arg harg).literals_eq_nil
    rw [Node.literals, literalsOfAll_eq_nil hall]
  | .access hleft hright _ => by
    rw [Node.literals, hleft.literals_eq_nil, hright.literals_eq_nil]
    rfl
  | .binary _ _ hleft hright _ => by
    rw [Node.literals, hleft.literals_eq_nil, hright.literals_eq_nil]
    rfl

theorem IsExpression.literals_eq_nil {node : Node} : IsExpression node → node.literals = []
  | .value hnode => hnode.literals_eq_nil
  | .leave => rfl
  | .leaveWith hvalue => by rw [Node.literals, hvalue.literals_eq_nil]

end

/-- A program that is read from a source has no literals. -/
theorem literals_of_parse {tokens : List String} {scope : Scope}
    (hparse : parse tokens = .ok scope) : literalsOfAll scope.children = [] := by
  obtain ⟨⟨-, hchildren⟩, -⟩ := normal_of_parse hparse
  refine literalsOfAll_eq_nil fun node hnode => ?_
  have hdeclaration := hchildren node hnode
  cases node with
  | function name params returns statements annotations =>
    rw [Node.literals]
    exact literalsOfAll_eq_nil fun statement hmem =>
      (hdeclaration.2.2.2.2 statement hmem).literals_eq_nil
  | struct | member => rfl
  | _ => exact absurd hdeclaration id

end Shader.Program

namespace Shader.Glsl

open Arena Program Resolution

variable {t : Tree} {s : Spacing}

/-- What is written for a name with a source: the body of a literal, or else the name. -/
def wordFor (t : Tree) (name : String) (source : Handle) : String :=
  match t.node? source with
  | some (.literal _ body) => body
  | _ => name

theorem exprTextFrom_ident {h source : Handle} {name : String} {depth : Nat}
    (hnode : t.node? h = some (.ident name source)) :
    exprTextFrom t s (depth + 1) h = .ok (wordFor t name source) := by
  rw [exprTextFrom, hnode]
  dsimp only
  unfold wordFor
  cases t.node? source with
  | none => rfl
  | some node => cases node <;> rfl

/-- A name with a source is written as it is, or as the body of a literal of the program that has
the name. -/
theorem wordFor_cases {scope : Scope} (ho : Originates scope t) {h source : Handle} {name : String}
    (hnode : t.node? h = some (.ident name source)) :
    (wordFor t name source = name ∧ ∀ other body, t.node? source ≠ some (.literal other body)) ∨
      t.node? source = some (.literal name (wordFor t name source)) ∧
        (name, wordFor t name source) ∈ literalsOfAll scope.children := by
  by_cases hliteral : ∃ other body, t.node? source = some (.literal other body)
  · obtain ⟨other, body, hsource⟩ := hliteral
    have hname : other = name := by
      rcases ho.names hnode with rfl | hbears
      · cases hsource
      · exact hbears.2 hsource
    have hword : wordFor t name source = body := by
      rw [wordFor, hsource]
    rw [hword, ← hname]
    exact Or.inr ⟨hsource, ho.literals hsource⟩
  · have hnone (other body : String) : t.node? source ≠ some (.literal other body) :=
      fun hsource => hliteral ⟨other, body, hsource⟩
    refine Or.inl ⟨?_, hnone⟩
    unfold wordFor
    split
    · rename_i hsource
      exact absurd hsource (hnone _ _)
    · rfl

/-- In a shader, a name behind a point is written as it is, unless it refers to a literal: that has
the name, and its body is written. So the name is written verbatim if the program has no literal of
that name, and always if the program was read from a source. -/
theorem access_writes_name {scope : Scope} {table : TypeTable} {options : Options} {out : Output}
    {f e left right source : Handle} {decl : Arena.Function} {name : String}
    (hresolve : resolve (some scope) table = .ok t) (hout : generate (some t) options = .ok out)
    (hf : Emits t options f) (hfunction : t.node? f = some (.function decl))
    (he : StandsIn t decl e) (haccess : t.node? e = some (.access left right))
    (hright : t.node? right = some (.ident name source)) :
    ∃ leftText field, exprText t ⟨options.completed.minify⟩ left = .ok leftText ∧
      exprText t ⟨options.completed.minify⟩ e = .ok (leftText ++ "." ++ field) ∧
      (leftText ++ "." ++ field).toList <:+: out.text.toList ∧
      ((field = name ∧ ∀ other body, t.node? source ≠ some (.literal other body)) ∨
        t.node? source = some (.literal name field) ∧
          (name, field) ∈ literalsOfAll scope.children) ∧
      ((∀ body, (name, body) ∉ literalsOfAll scope.children) → field = name) ∧
      ∀ tokens, parse tokens = .ok scope → field = name := by
  have hcases := wordFor_cases (resolve_originates hresolve) hright
  have hverbatim (hnone : ∀ body, (name, body) ∉ literalsOfAll scope.children) :
      wordFor t name source = name := by
    rcases hcases with ⟨hname, -⟩ | ⟨-, hmem⟩
    · exact hname
    · exact absurd hmem (hnone _)
  obtain ⟨text, htext, hinfix⟩ := exprText_of_occurs hf hfunction hout he
  -- the text of the access is put together from those of its sides
  have hrun := htext
  rw [exprText, exprTextFrom, haccess] at hrun
  obtain ⟨leftText, hleft, hrun⟩ := bind_eq_ok hrun
  obtain ⟨rightText, hrightText, hrun⟩ := bind_eq_ok hrun
  cases hrun
  have hword := exprTextFrom_deeper hrightText
  rw [exprTextFrom_ident hright] at hword
  cases hword
  refine ⟨leftText, wordFor t name source, exprTextFrom_deeper hleft, htext, hinfix, hcases,
    hverbatim, fun tokens hparse => hverbatim ?_⟩
  rw [literals_of_parse hparse]
  exact fun body => List.not_mem_nil

/-- The field `x` is written verbatim although a specialization has the same name. -/
theorem access_writes_name_sample :
    let scope := Scope.root [.specialization "x" "f32",
      .function "main" [] "void" [.localVar "v" "vec2f", .access (.ident "v") (.ident "x")] []]
    let t : Tree := ⟨#[.scope "root" [some 2, some 11], .struct ⟨"f32", none, [], []⟩,
      .specialization "x" (some 1), .struct ⟨"void", none, [], []⟩, .member ⟨"x", some 1, 0, []⟩,
      .member ⟨"y", some 1, 0, []⟩, .struct ⟨"vec2f", none, [some 4, some 5], []⟩,
      .localVar "v" (some 6), .ident "v" (some 7), .ident "x" (some 4),
      .access (some 8) (some 9),
      .function ⟨"main", [], some 3, [some 7, some 10], []⟩]⟩
    resolve (some scope) .empty = .ok t ∧
    ∃ out leftText, generate (some t) .default = .ok out ∧ Emits t .default (some 11) ∧
      exprText t ⟨Options.default.completed.minify⟩ (some 10) = .ok (leftText ++ "." ++ "x") ∧
      (leftText ++ "." ++ "x").toList <:+: out.text.toList := by
  intro scope t
  have hresolve : resolve (some scope) .empty = .ok t := resolve_of_evaluate 9 (by decide +kernel)
  have hnames : (generate (some t) .default).toOption.map (·.info.declarations) =
      some ["main"] := by
    decide +kernel
  obtain ⟨out, hout, -⟩ := exists_of_toOption_map hnames
  have hentry : findEntry t Options.default.completed.entryPoint = .ok (some 11) := by
    decide +kernel
  have hemits := emits_entry hout hentry rfl
  obtain ⟨leftText, field, -, htext, hinfix, -, hverbatim, -⟩ :=
    @access_writes_name t scope .empty .default out (some 11) (some 10) (some 8) (some 9) (some 4)
      ⟨"main", [], some 3, [some 7, some 10], []⟩ "x" hresolve hout hemits rfl
      ⟨some 10, .tail _ (.head _), .refl⟩ rfl rfl
  rw [hverbatim (fun body => List.not_mem_nil)] at htext hinfix
  exact ⟨hresolve, out, leftText, hout, hemits, htext, hinfix⟩

/-- The swizzle `xy` is written as the body of a literal of that name. -/
theorem swizzle_hidden_by_literal :
    let scope := Scope.root [.literal "xy" "0.5",
      .function "main" [] "void" [.localVar "v" "vec2f", .access (.ident "v") (.ident "xy")] []]
    let t : Tree := ⟨#[.scope "root" [some 1, some 11], .literal "xy" "0.5",
      .struct ⟨"void", none, [], []⟩, .struct ⟨"f32", none, [], []⟩, .member ⟨"x", some 3, 0, []⟩,
      .member ⟨"y", some 3, 0, []⟩, .struct ⟨"vec2f", none, [some 4, some 5], []⟩,
      .localVar "v" (some 6), .ident "v" (some 7), .ident "xy" (some 1),
      .access (some 8) (some 9),
      .function ⟨"main", [], some 2, [some 7, some 10], []⟩]⟩
    resolve (some scope) .empty = .ok t ∧
    (generate (some t) .default).toOption.map (·.info.declarations) = some ["main"] ∧
    exprText t ⟨Options.default.completed.minify⟩ (some 8) = .ok "v" ∧
    exprText t ⟨Options.default.completed.minify⟩ (some 10) = .ok "v.0.5" := by
  exact ⟨resolve_of_evaluate 9 (by decide +kernel), by decide +kernel, by decide +kernel,
    by decide +kernel⟩

end Shader.Glsl
