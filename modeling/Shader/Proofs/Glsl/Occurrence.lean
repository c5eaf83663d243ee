import Shader.Proofs.Glsl.Inputs

/-!
# Expressions in a shader

The text of an expression holds the texts of its parts, and the text of a shader holds the lines of
the declarations that are written in it. So every expression in the body of a function that is
written has a text, which stands in the shader.
-/

namespace Shader.Glsl

open Arena Relation
open Program (bind_eq_ok)

variable {t : Tree} {s : Spacing} {depth : Nat} {h e : Handle} {text : String}

/-! ## Texts in texts -/

section Infixes

variable {parts : List String} {part : String}

theorem infix_append_left (left right : String) : left.toList <:+: (left ++ right).toList := by
  rw [String.toList_append]
  exact (List.prefix_append _ _).isInfix

theorem infix_append_right (left right : String) : right.toList <:+: (left ++ right).toList := by
  rw [String.toList_append]
  exact (List.suffix_append _ _).isInfix

theorem infix_join (h : part ∈ parts) : part.toList <:+: (String.join parts).toList := by
  rw [String.toList_join]
  exact List.infix_of_mem_flatten (List.mem_map_of_mem h)

theorem infix_intercalate {gap : String} (h : part ∈ parts) :
    part.toList <:+: (gap.intercalate parts).toList := by
  rw [String.toList_intercalate]
  induction parts with
  | nil => cases h
  | cons first rest ih =>
    cases rest with
    | nil =>
      rw [List.mem_singleton.mp h]
      simp
    | cons second rest =>
      rw [List.map_cons, List.map_cons, List.intercalate_cons_cons]
      rcases List.mem_cons.mp h with rfl | h
      · exact (List.prefix_append _ _).isInfix.trans (List.prefix_append _ _).isInfix
      · exact (ih h).trans (List.suffix_append _ _).isInfix

end Infixes

theorem exists_of_mapM {α β : Type} {f : α → Except GenerateError β} {xs : List α} {ys : List β}
    (hrun : xs.mapM f = .ok ys) {x : α} (hx : x ∈ xs) : ∃ y ∈ ys, f x = .ok y := by
  induction xs generalizing ys with
  | nil => cases hx
  | cons first rest ih =>
    rw [List.mapM_cons] at hrun
    obtain ⟨y, hy, hrun⟩ := bind_eq_ok hrun
    obtain ⟨more, hmore, hrun⟩ := bind_eq_ok hrun
    cases hrun
    rcases List.mem_cons.mp hx with rfl | hx
    · exact ⟨y, .head _, hy⟩
    · obtain ⟨y', hmem, hy'⟩ := ih hmore hx
      exact ⟨y', .tail _ hmem, hy'⟩

theorem infix_operandText (parent : Operator) (isRight : Bool) (h : Handle) (text : String) :
    text.toList <:+: (operandText t parent isRight h text).toList := by
  unfold operandText
  split
  · split
    · exact (infix_append_right "(" text).trans (infix_append_left _ ")")
    · exact List.infix_refl _
  · exact List.infix_refl _

theorem infix_operation (op : Operator) (left right : String) :
    left.toList <:+: (operation s op left right).toList ∧
      right.toList <:+: (operation s op left right).toList := by
  unfold operation
  split
  · exact ⟨(infix_append_left left _).trans ((infix_append_left _ _).trans
      (infix_append_left _ _)), infix_append_right _ _⟩
  · exact ⟨(infix_append_left left _).trans ((infix_append_left _ _).trans
      ((infix_append_left _ _).trans (infix_append_left _ _))), infix_append_right _ _⟩

/-- The text of an expression holds the text of each of its parts. -/
theorem exprTextFrom_part (hrun : exprTextFrom t s (depth + 1) h = .ok text)
    (hpart : IsPart t h e) :
    ∃ part, exprTextFrom t s depth e = .ok part ∧ part.toList <:+: text.toList := by
  obtain ⟨node, hnode, hmem⟩ := hpart
  rw [exprTextFrom, hnode] at hrun
  have hall {elements : List Handle} {parts : List String}
      (hrun : elements.mapM (exprTextFrom t s depth) = .ok parts) (he : e ∈ elements) :
      ∃ part ∈ parts, exprTextFrom t s depth e = .ok part := exists_of_mapM hrun he
  cases node with
  | access left right =>
    obtain ⟨leftText, hleft, hrun⟩ := bind_eq_ok hrun
    obtain ⟨rightText, hright, hrun⟩ := bind_eq_ok hrun
    cases hrun
    rcases List.mem_pair.mp hmem with rfl | rfl
    · exact ⟨leftText, hleft, (infix_append_left _ _).trans (infix_append_left _ _)⟩
    · exact ⟨rightText, hright, infix_append_right _ _⟩
  | call callee target args =>
    obtain ⟨texts, hargs, hrun⟩ := bind_eq_ok hrun
    cases hrun
    obtain ⟨part, hpart, htext⟩ :=
      hall hargs (by simpa [Node.parts, Node.copiedParts, Node.keptParts] using hmem)
    exact ⟨part, htext, (infix_intercalate hpart).trans
      ((infix_append_right _ _).trans (infix_append_left _ _))⟩
  | intrinsicCall intrinsic elements =>
    obtain ⟨texts, helements, hrun⟩ := bind_eq_ok hrun
    cases hrun
    obtain ⟨part, hpart, htext⟩ := hall helements hmem
    exact ⟨part, htext, infix_join hpart⟩
  | binary op left right =>
    obtain ⟨leftText, hleft, hrun⟩ := bind_eq_ok hrun
    obtain ⟨rightText, hright, hrun⟩ := bind_eq_ok hrun
    cases hrun
    rcases List.mem_pair.mp hmem with rfl | rfl
    · exact ⟨leftText, hleft, (infix_operandText op false _ _).trans (infix_operation op _ _).1⟩
    · exact ⟨rightText, hright, (infix_operandText op true _ _).trans (infix_operation op _ _).2⟩
  | sequence elements =>
    obtain ⟨texts, helements, hrun⟩ := bind_eq_ok hrun
    cases hrun
    obtain ⟨part, hpart, htext⟩ :=
      hall helements (by simpa [Node.parts, Node.copiedParts, Node.keptParts] using hmem)
    exact ⟨part, htext, infix_join hpart⟩
  | ret value =>
    cases value with
    | none => cases hmem
    | some value =>
      obtain ⟨valueText, hvalue, hrun⟩ := bind_eq_ok hrun
      cases hrun
      rw [List.mem_singleton.mp hmem]
      exact ⟨valueText, hvalue, infix_append_right _ _⟩
  | _ => cases hmem

/-! ## Depth -/

theorem mapM_congr_ok {α β : Type} {f g : α → Except GenerateError β} {xs : List α} {ys : List β}
    (hfg : ∀ x y, f x = .ok y → g x = .ok y) (hrun : xs.mapM f = .ok ys) : xs.mapM g = .ok ys := by
  induction xs generalizing ys with
  | nil => exact hrun
  | cons x xs ih =>
    rw [List.mapM_cons] at hrun ⊢
    obtain ⟨y, hy, hrun⟩ := bind_eq_ok hrun
    obtain ⟨more, hmore, hrun⟩ := bind_eq_ok hrun
    rw [hfg x y hy, ih hmore]
    exact hrun

/-- A text that is found to some depth is found to any greater depth. -/
theorem exprTextFrom_deeper (hrun : exprTextFrom t s depth h = .ok text) :
    exprTextFrom t s (depth + 1) h = .ok text := by
  induction depth generalizing h text with
  | zero => cases hrun
  | succ depth ih =>
    rw [exprTextFrom] at hrun ⊢
    cases hnode : t.node? h with
    | none =>
      rw [hnode] at hrun
      cases hrun
    | some node =>
      rw [hnode] at hrun
      cases node with
      | access | binary =>
        obtain ⟨leftText, hleft, hrun⟩ := bind_eq_ok hrun
        obtain ⟨rightText, hright, hrun⟩ := bind_eq_ok hrun
        dsimp only
        rw [ih hleft, ih hright]
        exact hrun
      | call | intrinsicCall | sequence =>
        obtain ⟨texts, hall, hrun⟩ := bind_eq_ok hrun
        dsimp only
        rw [mapM_congr_ok (fun _ _ => ih) hall]
        exact hrun
      | ret value =>
        cases value with
        | none => exact hrun
        | some value =>
          obtain ⟨valueText, hvalue, hrun⟩ := bind_eq_ok hrun
          dsimp only
          rw [ih hvalue]
          exact hrun
      | _ => exact hrun

theorem exprText_part (hrun : exprText t s h = .ok text) (hpart : IsPart t h e) :
    ∃ part, exprText t s e = .ok part ∧ part.toList <:+: text.toList := by
  obtain ⟨part, htext, hinfix⟩ := exprTextFrom_part hrun hpart
  exact ⟨part, exprTextFrom_deeper htext, hinfix⟩

theorem exprText_within (hrun : exprText t s h = .ok text) (hpath : ReflTransGen (IsPart t) h e) :
    ∃ part, exprText t s e = .ok part ∧ part.toList <:+: text.toList := by
  induction hpath with
  | refl => exact ⟨text, hrun, List.infix_refl _⟩
  | tail _ hpart ih =>
    obtain ⟨outer, houter, hinfix⟩ := ih
    obtain ⟨part, htext, hinner⟩ := exprText_part houter hpart
    exact ⟨part, htext, hinner.trans hinfix⟩

/-! ## Lines of a shader -/

section Shaders

variable {options : Options} {out : Output} {decl : Function} {f : Handle}

theorem emits_entry (hout : generate (some t) options = .ok out)
    (hentry : findEntry t options.completed.entryPoint = .ok f) (hwritten : isWritten t f = true) :
    Emits t options f := by
  obtain ⟨entry, handles, hentry', horder, -⟩ := generate_declarations hout
  cases hentry.symm.trans hentry'
  obtain ⟨-, -, hlast, -⟩ := order_spec horder
  exact ⟨f, handles, hentry, horder, List.mem_of_getLast? hlast, hwritten⟩

theorem infix_render (line : Line) : line.text.toList <:+: (line.render s).toList := by
  unfold Line.render
  split
  · exact List.infix_refl _
  · exact (infix_append_right _ _).trans (infix_append_left _ _)

theorem infix_renderLines {line : Line} {lines : List Line} (h : line ∈ lines) :
    line.text.toList <:+: (renderLines s lines).toList :=
  (infix_render line).trans (infix_join (List.mem_map_of_mem h))

theorem generate_text (hout : generate (some t) options = .ok out) :
    ∃ entry handles written, findEntry t options.completed.entryPoint = .ok entry ∧
      order (Catalog.ofTree t) entry = .ok handles ∧
      writeDeclarations t ⟨options.completed.minify⟩ .start handles = .ok written ∧
      (String.join (written.map (·.2))).toList <:+: out.text.toList := by
  obtain ⟨entry, hentry, hout⟩ := bind_eq_ok hout
  obtain ⟨handles, horder, hout⟩ := bind_eq_ok hout
  obtain ⟨written, hwritten, hout⟩ := bind_eq_ok hout
  obtain rfl := Except.ok.inj hout
  exact ⟨entry, handles, written, hentry, horder, hwritten, infix_append_right _ _⟩

/-- The lines of every declaration that is written stand in the shader. -/
theorem Emits.lines (he : Emits t options h) (hout : generate (some t) options = .ok out) :
    ∃ n lines n', declarationLines t ⟨options.completed.minify⟩ n h = .ok (some lines, n') ∧
      ∀ line ∈ lines, line.text.toList <:+: out.text.toList := by
  obtain ⟨entry, handles, hentry, horder, hin, hwritten⟩ := he
  obtain ⟨entry', handles', written, hentry', horder', htexts, hinfix⟩ := generate_text hout
  cases hentry.symm.trans hentry'
  cases horder.symm.trans horder'
  obtain ⟨text, hmem, n, lines, n', hlines, rfl⟩ := exists_right_of_forall₂
    (isText_writeDeclarations htexts) (List.mem_filter.mpr ⟨hin, hwritten⟩)
  refine ⟨n, lines, n', hlines, fun line hline => ?_⟩
  have htext : renderLines ⟨options.completed.minify⟩ lines ∈ written.map (·.2) :=
    List.mem_map.mpr ⟨_, hmem, rfl⟩
  exact (infix_renderLines hline).trans ((infix_join htext).trans hinfix)

theorem Emits.function (he : Emits t options f) (hnode : t.node? f = some (.function decl))
    (hout : generate (some t) options = .ok out) :
    ∃ lines, functionLines t ⟨options.completed.minify⟩ decl = .ok lines ∧
      ∀ line ∈ lines, line.text.toList <:+: out.text.toList := by
  obtain ⟨n, lines, n', hlines, hall⟩ := he.lines hout
  rw [declarationLines, hnode] at hlines
  obtain ⟨lines', hrun, heq⟩ := eq_ok_of_map hlines
  cases heq
  exact ⟨lines, hrun, hall⟩

/-- Every expression in the body of a function that is written has a text, and it stands in the
shader. -/
theorem exprText_of_occurs (hf : Emits t options f) (hnode : t.node? f = some (.function decl))
    (hout : generate (some t) options = .ok out) (he : StandsIn t decl e) :
    ∃ text, exprText t ⟨options.completed.minify⟩ e = .ok text ∧
      text.toList <:+: out.text.toList := by
  obtain ⟨lines, hlines, hall⟩ := hf.function hnode hout
  obtain ⟨statement, hstatement, hpath⟩ := he
  obtain ⟨returns, -, hlines⟩ := bind_eq_ok hlines
  obtain ⟨params, -, hlines⟩ := bind_eq_ok hlines
  obtain ⟨texts, htexts, hlines⟩ := bind_eq_ok hlines
  cases hlines
  obtain ⟨whole, hwhole, hrun⟩ := exists_of_mapM (eq_ok_of_within htexts) hstatement
  obtain ⟨text, htext, hinfix⟩ := exprText_within hrun hpath
  refine ⟨text, htext, hinfix.trans ?_⟩
  by_cases hempty : whole = ""
  · rw [hempty]
    exact List.nil_infix
  · have hline : (⟨1, terminated whole⟩ : Line) ∈ statementLines texts :=
      List.mem_map.mpr ⟨whole, List.mem_filter.mpr ⟨hwhole, by simpa using hempty⟩, rfl⟩
    have hterminated : whole.toList <:+: (terminated whole).toList := by
      unfold terminated
      split
      · exact List.infix_refl _
      · exact infix_append_left _ _
    refine hterminated.trans (hall ⟨1, terminated whole⟩ ?_)
    exact List.mem_append_left _ (List.mem_cons_of_mem _ hline)

end Shaders

end Shader.Glsl
