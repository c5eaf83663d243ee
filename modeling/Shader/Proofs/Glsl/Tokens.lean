import Shader.Proofs.Glsl.Lexer
import Shader.Proofs.Glsl.Minify
import Shader.Proofs.Resolution.Evaluation

/-!
# Tokens of minified output

The header of a shader leaves no comment and no directive open, so what follows it is read as if it
stood alone. A piece of code that ends in a comment does not, and a number with an exponent can be
spread over several tokens of a program: without optional white space both are read otherwise.
-/

namespace Shader.Glsl

open Arena Lexer Program Resolution

variable {texts : List String}

/-! ## The header -/

theorem after_join (h : ∀ text ∈ texts, (Mode.start true).after text.toList = .start true) :
    (Mode.start true).after (String.join texts).toList = .start true := by
  induction texts with
  | nil => rfl
  | cons text texts ih =>
    obtain ⟨hfirst, hrest⟩ := List.forall_mem_cons.mp h
    rw [String.join_cons, String.toList_append, Mode.after_append, hfirst, ih hrest]

theorem after_extensions :
    (Mode.start true).after (String.join ((extensions .vertex).map extensionLine)).toList =
      .start true := by
  have hplain : ∀ e ∈ extensions .vertex, '\n' ∉ e.1.toList ∧ '\n' ∉ e.2.toList := by
    decide +kernel
  refine after_join fun text htext => ?_
  obtain ⟨e, he, rfl⟩ := List.mem_map.mp htext
  have hline : (extensionLine e).toList =
      '#' :: (("extension " ++ e.1 ++ ":" ++ e.2).toList ++ ['\n']) := by
    simp [extensionLine]
  rw [hline]
  exact Mode.after_line (by simp [hplain e he])

theorem after_header :
    (Mode.start true).after (header { Options.default with minify := true } .vertex).toList =
      .start false := by
  have hfirst : (Mode.start true).after
      ("#version 450 core\n" ++ "#pragma shader_stage(vertex)\n").toList = .start true := by
    decide +kernel
  have hlast : (Mode.start true).after ("layout(row_major) uniform;layout(row_major) buffer;\n" ++
      "const float PI = 3.14159265359;").toList = .start false := by
    decide +kernel
  have hsplit : header { Options.default with minify := true } .vertex =
      "#version 450 core\n" ++ "#pragma shader_stage(vertex)\n" ++
        String.join ((extensions .vertex).map extensionLine) ++
        ("layout(row_major) uniform;layout(row_major) buffer;\n" ++
          "const float PI = 3.14159265359;") := by
    decide +kernel
  rw [hsplit, String.toList_append, String.toList_append, Mode.after_append, Mode.after_append,
    hfirst, after_extensions, hlast]

theorem header_loose : header { Options.default with minify := false } .vertex =
    header { Options.default with minify := true } .vertex ++ "\n" := by
  decide +kernel

/-- What follows the header is read as if it stood alone. -/
theorem lex_header_append :
    ∃ before, (∀ x, lex (header { Options.default with minify := true } .vertex ++ x) =
        before ++ ((Mode.start false).read x.toList ++
          ((Mode.start false).after x.toList).pending)) ∧
      ∀ x, lex (header { Options.default with minify := false } .vertex ++ x) =
        before ++ lex x := by
  have hline : (Mode.start false).step '\n' = ([], .start true) := rfl
  have hstart := after_header
  rw [header_loose]
  generalize header { Options.default with minify := true } .vertex = lead at hstart ⊢
  refine ⟨(Mode.start true).read lead.toList, fun x => ?_, fun x => ?_⟩
  · simp [lex, hstart]
  · simp [lex, hstart, hline]

/-- Code that ends in a comment takes the closing brace of its function into the comment once the
end of the line is gone, and `1.e + 2` becomes one number without its spaces. -/
theorem generate_loses_tokens :
    (let scope : Scope := .root [.function "main" [] "void"
        [.fragment ⟨"gl_Position = vec4(0.0); // origin", [], []⟩] []]
      ∃ t tight loose, resolve (some scope) scope.table = .ok t ∧
        generate (some t) { Options.default with minify := true } = .ok tight ∧
        generate (some t) { Options.default with minify := false } = .ok loose ∧
        lex loose.text = lex tight.text ++ ["\x7d"]) ∧
    (let scope : Scope := .root [.function "main" [] "void"
        [.binary "+" (.access (.constant "1") (.ident "e")) (.constant "2")] []]
      ∃ t tight loose before, resolve (some scope) scope.table = .ok t ∧
        generate (some t) { Options.default with minify := true } = .ok tight ∧
        generate (some t) { Options.default with minify := false } = .ok loose ∧
        lex tight.text = before ++ ["1.e+2", ";", "\x7d"] ∧
        lex loose.text = before ++ ["1.e", "+", "2", ";", "\x7d"]) := by
  obtain ⟨before, htight, hloose⟩ := lex_header_append
  let info : Info := ⟨"main", .vertex, ["main"], (extensions .vertex).map (·.1)⟩
  constructor
  · intro scope
    let t : Tree := ⟨#[.scope "root" [some 3], .struct ⟨"void", none, [], []⟩,
      .fragment ⟨"gl_Position = vec4(0.0); // origin", [], []⟩,
      .function ⟨"main", [], some 1, [some 2], []⟩]⟩
    have hresolve : resolve (some scope) scope.table = .ok t :=
      resolve_of_evaluate 9 (by decide +kernel)
    refine ⟨t, ⟨header { Options.default with minify := true } .vertex ++
        "void main()\x7bgl_Position = vec4(0.0); // origin;\x7d", info⟩,
      ⟨header { Options.default with minify := false } .vertex ++
        "void main() \x7b\n    gl_Position = vec4(0.0); // origin;\n\x7d\n\n", info⟩,
      hresolve, by decide +kernel, by decide +kernel, ?_⟩
    rw [htight, hloose, List.append_assoc]
    exact congrArg _ (by decide +kernel)
  · intro scope
    let t : Tree := ⟨#[.scope "root" [some 7], .struct ⟨"void", none, [], []⟩, .constant "1",
      .ident "e" none, .access (some 2) (some 3), .constant "2", .binary .add (some 4) (some 5),
      .function ⟨"main", [], some 1, [some 6], []⟩]⟩
    have hresolve : resolve (some scope) scope.table = .ok t :=
      resolve_of_evaluate 9 (by decide +kernel)
    refine ⟨t, ⟨header { Options.default with minify := true } .vertex ++
        "void main()\x7b1.e+2;\x7d", info⟩,
      ⟨header { Options.default with minify := false } .vertex ++
        "void main() \x7b\n    1.e + 2;\n\x7d\n\n", info⟩,
      before ++ ["void", "main", "(", ")", "\x7b"],
      hresolve, by decide +kernel, by decide +kernel, ?_, ?_⟩
    · rw [htight, List.append_assoc]
      exact congrArg _ (by decide +kernel)
    · rw [hloose, List.append_assoc]
      exact congrArg _ (by decide +kernel)

end Shader.Glsl
