import Shader.Proofs.Glsl.TypeUse
import Shader.Proofs.Resolution.Evaluation

/-!
# Definitions of types

Every type that a shader names is one of GLSL or a struct that the shader has defined before. Two
kinds of names are left: the marks of generic types, which no shader defines, and the pointee of an
instance `Outer<T*>`, of which the tree holds the name only.
-/

namespace Shader.Glsl

open Arena Relation
open Program (bind_eq_ok)

variable {handles l : List Handle} {a b d entry h : Handle} {rows : List Row} {w w' : Walk}
  {n : Numbering} {after before parts : List (List Row)} {decl : Struct} {name : String}

variable {t : Tree} {s : Spacing} {c : Catalog}

/-! ## The order of types -/

/-- In a list without repetitions, what stands before an element stands in front of its one
occurrence. -/
theorem Precedes.mem_of_eq {before after : List Handle} (hnodup : l.Nodup) (h : Precedes l a b)
    (hl : l = before ++ b :: after) : a ∈ before := by
  obtain ⟨before', after', rfl, ha⟩ := h
  have hsplit := List.nodup_append.mp hnodup
  have hfront : b ∉ before' := fun hb => hsplit.2.2 b hb b (.head _) rfl
  have hback : b ∉ after' := (List.nodup_cons.mp hsplit.2.1).1
  obtain ⟨rfl, -, -⟩ := (List.append_cons_inj_of_notMem hfront hback).mp hl
  exact ha

theorem Precedes.mem (h : Precedes l a b) : a ∈ l := by
  obtain ⟨before, after, rfl, ha⟩ := h
  exact List.mem_append_left _ ha

theorem Precedes.trans (hnodup : l.Nodup) (hab : Precedes l a b) (hbd : Precedes l b d) :
    Precedes l a d := by
  obtain ⟨before, after, rfl, hb⟩ := hbd
  obtain ⟨front, back, rfl⟩ := List.append_of_mem hb
  refine ⟨_, after, rfl, List.mem_append_left _ ?_⟩
  exact hab.mem_of_eq hnodup (List.append_assoc ..)

theorem Precedes.filter {l : List Handle} {a b : Handle} {p : Handle → Bool} (h : Precedes l a b)
    (ha : p a = true) (hb : p b = true) : Precedes (l.filter p) a b := by
  obtain ⟨before, after, rfl, hmem⟩ := h
  refine ⟨before.filter p, after.filter p, ?_, List.mem_filter.mpr ⟨hmem, ha⟩⟩
  rw [List.filter_append, List.filter_cons_of_pos hb]

/-- The order lists the types that a listed declaration uses, before it. -/
theorem precedes_of_usesType (ht : c.tree.WellFormed) (horder : order c entry = .ok handles)
    {e : Handle} (hd : d ∈ handles) (huses : UsesType c d e) : Precedes handles e d := by
  obtain ⟨hnodup, hmem, -, hordered⟩ := order_spec horder
  have hstep {x y : Handle} (hx : x ∈ handles) (hxy : DependsOnType c x y) :
      Precedes handles y x := by
    refine (hordered x hx y hxy.1).resolve_right ?_
    exact not_reaches ht (Or.inl rfl) hxy.2 hxy.1
  induction huses with
  | single hde => exact hstep hd hde
  | tail _ hxe ih => exact (hstep ih.mem hxe).trans hnodup ih

theorem foldlM_left {f : Walk → Handle → Except GenerateError Walk} {p : Handle → Prop}
    (hf : ∀ w d w', f w d = .ok w' → (∀ h ∈ w.left, p h) → ∀ h ∈ w'.left, p h) {ds : List Handle}
    (hrun : ds.foldlM f w = .ok w') (hw : ∀ h ∈ w.left, p h) : ∀ h ∈ w'.left, p h := by
  induction ds generalizing w with
  | nil =>
    cases hrun
    exact hw
  | cons d ds ih =>
    rw [List.foldlM_cons] at hrun
    obtain ⟨w₁, hstep, hrun⟩ := bind_eq_ok hrun
    exact ih hrun (hf w d w₁ hstep hw)

theorem walk_left {depth : Nat} (hrun : walk c depth h w = .ok w')
    (hw : ∀ d ∈ w.left, Succeeds (dependencies c d)) :
    ∀ d ∈ w'.left, Succeeds (dependencies c d) := by
  induction depth generalizing h w w' with
  | zero => cases hrun
  | succ depth ih =>
    rw [walk] at hrun
    split at hrun
    · cases hrun
      exact hw
    · obtain ⟨deps, hdeps, hrun⟩ := bind_eq_ok hrun
      obtain ⟨w₁, hloop, hrun⟩ := bind_eq_ok hrun
      cases hrun
      have hleft := foldlM_left (fun w d w' hstep => ih hstep) hloop hw
      intro d hd
      rcases List.mem_append.mp hd with hd | hd
      · exact hleft d hd
      · rw [List.mem_singleton.mp hd]
        exact ⟨deps, hdeps⟩

theorem order_dependencies (horder : order c entry = .ok handles) :
    ∀ h ∈ handles, Succeeds (dependencies c h) := by
  obtain ⟨w, hwalk, rfl⟩ := eq_ok_of_map horder
  exact walk_left hwalk (List.forall_mem_nil _)

/-! ## Shaders -/

/-- The rows are those of the declaration, at some numbering. -/
def IsRows (t : Tree) (s : Spacing) (h : Handle) (rows : List Row) : Prop :=
  ∃ n n', declarationRows t s n h = .ok (some rows, n')

theorem isSome_declarationRows {r : Option (List Row) × Numbering}
    (hrun : declarationRows t s n h = .ok r) : r.1.isSome = isWritten t h := by
  have hlines := agree_declarationRows (t := t) (s := s) n h
  rw [hrun] at hlines
  generalize hr : declarationLines t s n h = x at hlines
  cases hlines with
  | ok hmarks =>
    rw [← isSome_declarationLines hr, ← hmarks.1, Option.isSome_map]

theorem isRows_writeRows (hrun : writeRows t s n handles = .ok parts) :
    List.Forall₂ (IsRows t s) (handles.filter (isWritten t)) parts := by
  induction handles generalizing n parts with
  | nil =>
    cases hrun
    exact .nil
  | cons h rest ih =>
    rw [writeRows] at hrun
    obtain ⟨⟨rows, n'⟩, hrows, hrun⟩ := bind_eq_ok hrun
    obtain ⟨more, hmore, hrun⟩ := bind_eq_ok hrun
    have hwritten := isSome_declarationRows hrows
    cases rows with
    | some rows =>
      cases hrun
      rw [List.filter_cons_of_pos hwritten.symm]
      exact .cons ⟨n, n', hrows⟩ (ih hmore)
    | none =>
      cases hrun
      rw [List.filter_cons_of_neg (by rw [← hwritten]; exact Bool.false_ne_true)]
      exact ih hmore

/-- The rows define a struct of the name. -/
def Defines (rows : List Row) (name : String) : Prop :=
  ∃ row ∈ rows, .definition name ∈ row.pieces

theorem defines_of_isRows (hnode : t.node? h = some (.struct decl)) (hrows : IsRows t s h rows) :
    Defines rows decl.name := by
  obtain ⟨n, n', hrun⟩ := hrows
  rw [declarationRows, hnode] at hrun
  dsimp only at hrun
  split at hrun
  · cases hrun
  · obtain ⟨_, hrows, heq⟩ := eq_ok_of_map hrun
    cases heq
    obtain ⟨fields, -, hrows⟩ := bind_eq_ok hrows
    cases hrows
    exact ⟨_, .head _, .tail _ (.head _)⟩

theorem forall₂_split {R : Handle → List Row → Prop} {hs : List Handle}
    (h : List.Forall₂ R hs (before ++ rows :: after)) :
    ∃ front d back, hs = front ++ d :: back ∧ List.Forall₂ R front before ∧ R d rows := by
  induction before generalizing hs with
  | nil =>
    obtain ⟨d, back, hd, -, rfl⟩ := List.forall₂_cons_right_iff.mp h
    exact ⟨[], d, back, rfl, .nil, hd⟩
  | cons first before ih =>
    obtain ⟨x, hs', hx, hrest, rfl⟩ := List.forall₂_cons_right_iff.mp h
    obtain ⟨front, d, back, rfl, hfront, hd⟩ := ih hrest
    exact ⟨x :: front, d, back, rfl, .cons hx hfront, hd⟩

theorem exists_right_of_forall₂ {α β : Type} {R : α → β → Prop} {as : List α} {bs : List β} {a : α}
    (h : List.Forall₂ R as bs) (ha : a ∈ as) : ∃ b ∈ bs, R a b := by
  induction h with
  | nil => cases ha
  | cons hab _ ih =>
    rcases List.mem_cons.mp ha with rfl | ha
    · exact ⟨_, .head _, hab⟩
    · obtain ⟨b, hb, hr⟩ := ih ha
      exact ⟨b, .tail _ hb, hr⟩

theorem isWritten_struct (hnode : t.node? h = some (.struct decl))
    (hplain : decl.isInstance = false) (hspelling : spelling? decl.name = none)
    (hmark : decl.name ∉ ["In", "Out", "PushConstant"]) : isWritten t h = true := by
  rw [isWritten, hnode]
  simp [hplain, isReserved, hspelling, hmark]

/-- A type that a declaration names: it is one of GLSL, or defined by a part before that of the
declaration, or a mark, or a pointee. -/
theorem defined_or_known (ht : t.WellFormed) (horder : order (Catalog.ofTree t) entry = .ok handles)
    (hparts : List.Forall₂ (IsRows t s) (handles.filter (isWritten t)) parts)
    (hsplit : parts = before ++ rows :: after) {row : Row} (hrow : row ∈ rows)
    (hmem : .type h name ∈ row.pieces) :
    (∃ type, (type, name) ∈ typeSpellings) ∨ (∃ earlier ∈ before, Defines earlier name) ∨
      name ∈ ["In", "Out", "PushConstant"] ∨ NamesPointee t h name := by
  subst hsplit
  obtain ⟨front, d, back, hlist, hfront, n, n', hrun⟩ := forall₂_split hparts
  have hd : d ∈ handles.filter (isWritten t) := by
    rw [hlist]
    exact List.mem_append_right _ (.head _)
  obtain ⟨hd, hwritten⟩ := List.mem_filter.mp hd
  obtain ⟨deps, hdeps⟩ := order_dependencies horder d hd
  obtain ⟨hname, huses⟩ :=
    declarationRows_from (c := Catalog.ofTree t) hdeps hrun row hrow h name hmem
  rcases typeTextFrom_denotes hname with ⟨e, decl, hdenotes, hstruct, hplain, rfl⟩ | hpointee
  · rcases spelling_cases decl.name with hspelled | ⟨hsame, hspelling⟩
    · exact Or.inl hspelled
    · rw [hsame]
      by_cases hmark : decl.name ∈ ["In", "Out", "PushConstant"]
      · exact Or.inr (Or.inr (Or.inl hmark))
      · -- the struct is written, and what is written of it stands before the declaration
        refine Or.inr (Or.inl ?_)
        obtain ⟨hnode, -⟩ := kind?_of_struct? hstruct
        have hprecedes := precedes_of_usesType ht horder hd (huses.denotes hdenotes hstruct)
        have hfiltered := hprecedes.filter (isWritten_struct hnode hplain hspelling hmark) hwritten
        have hnodup := (order_spec horder).1.filter (isWritten t)
        have he := hfiltered.mem_of_eq hnodup hlist
        obtain ⟨earlier, hearlier, hrows⟩ := exists_right_of_forall₂ hfront he
        exact ⟨earlier, hearlier, defines_of_isRows hnode hrows⟩
  · exact Or.inr (Or.inr (Or.inr hpointee))

/-- Every type that a shader names is a type of GLSL, or a struct that the shader defines in an
earlier declaration, or the mark of a generic type, or the pointee of an instance. -/
theorem generate_definesTypes {root : Option Program.Scope} {table : Program.TypeTable} {t : Tree}
    {options : Options} {out : Output} (hresolve : Resolution.resolve root table = .ok t)
    (hout : generate (some t) options = .ok out) :
    ∃ shader, markedShader t options = .ok shader ∧
      out.text = shader.text ⟨options.completed.minify⟩ ∧
      ∀ before rows after, shader.parts = before ++ rows :: after →
        ∀ row ∈ rows, ∀ h name, .type h name ∈ row.pieces →
          (∃ type, (type, name) ∈ typeSpellings) ∨
          (∃ earlier ∈ before, Defines earlier name) ∨
          name ∈ ["In", "Out", "PushConstant"] ∨ NamesPointee t h name := by
  have ht : (Catalog.ofTree t).tree.WellFormed := by
    cases root with
    | none => cases hresolve
    | some scope => exact (Resolution.resolve_sound hresolve).1
  have hagree := agree_markedShader t options
  rw [hout] at hagree
  generalize hmarked : markedShader t options = x at hagree
  cases hagree with
  | @ok shader _ htext =>
    refine ⟨shader, rfl, htext, ?_⟩
    obtain ⟨entry, -, hmarked⟩ := bind_eq_ok hmarked
    obtain ⟨handles, horder, hmarked⟩ := bind_eq_ok hmarked
    obtain ⟨parts, hparts, hmarked⟩ := bind_eq_ok hmarked
    cases hmarked
    intro before rows after hsplit row hrow h name hmem
    exact defined_or_known ht horder (isRows_writeRows hparts) hsplit hrow hmem

/-- The type of an instance is the struct of its argument, which is defined before. -/
theorem generate_definesTypes_sample :
    let root : Program.Scope := .root [.struct ⟨"Light", [], []⟩,
      .function "main" [] "In<Light>" [] []]
    let t : Tree := ⟨#[.scope "root" [some 1, some 4], .struct ⟨"Light", none, [], []⟩,
      .struct ⟨"In", none, [], []⟩, .struct ⟨"In<Light>", some 2, [], [some 1]⟩,
      .function ⟨"main", [], some 3, [], []⟩]⟩
    Resolution.resolve (some root) root.table = .ok t ∧
    ∃ out shader definition use, generate (some t) .default = .ok out ∧
      markedShader t .default = .ok shader ∧ out.text = shader.text ⟨false⟩ ∧
      shader.parts = [definition, use] ∧ (∃ row ∈ use, .type (some 3) "Light" ∈ row.pieces) ∧
      ((∃ type, (type, "Light") ∈ typeSpellings) ∨
        (∃ earlier ∈ [definition], Defines earlier "Light") ∨
        "Light" ∈ ["In", "Out", "PushConstant"] ∨ NamesPointee t (some 3) "Light") := by
  intro root t
  have hresolve : Resolution.resolve (some root) root.table = .ok t :=
    Resolution.resolve_of_evaluate 9 (by decide +kernel)
  let definition : List Row := [⟨0, [.text "struct ", .definition "Light", .text " \x7b"]⟩,
    ⟨0, [.text "\x7d;"]⟩, blankLine.row]
  let use : List Row := [⟨0, [.type (some 3) "Light", .text " main(", .text ") \x7b"]⟩,
    ⟨0, [.text "\x7d"]⟩, blankLine.row]
  have hparts : (markedShader t .default).toOption.map (·.parts) = some [definition, use] := by
    decide +kernel
  have hok : (generate (some t) .default).toOption.isSome := by decide +kernel
  obtain ⟨out, hout⟩ := succeeds_of_isSome hok
  obtain ⟨shader, hshader, htext, hdefined⟩ := generate_definesTypes hresolve hout
  rw [hshader] at hparts
  have hrow : Piece.type (some 3) "Light" ∈
      [.type (some 3) "Light", .text " main(", .text ") \x7b"] := (.head _)
  exact ⟨hresolve, out, shader, definition, use, hout, hshader, htext, Option.some.inj hparts,
    ⟨_, .head _, hrow⟩,
    hdefined [definition] use [] (Option.some.inj hparts) _ (.head _) _ _ hrow⟩

/-- The shader of the tree names the type at the handle, and neither GLSL nor the shader has a type
of that name. -/
def NamesUndefined (t : Tree) (h : Handle) (name : String) : Prop :=
  ∃ out shader, generate (some t) .default = .ok out ∧ markedShader t .default = .ok shader ∧
    out.text = shader.text ⟨false⟩ ∧
    (∃ rows ∈ shader.parts, ∃ row ∈ rows, .type h name ∈ row.pieces) ∧
    (∀ rows ∈ shader.parts, ¬ Defines rows name) ∧ ∀ type, (type, name) ∉ typeSpellings

theorem namesUndefined_of_pieces {pieces : List Piece}
    (hpieces : (markedShader t .default).toOption.map
      (fun shader => shader.parts.flatten.flatMap Row.pieces) = some pieces)
    (huse : .type h name ∈ pieces) (hdefinition : .definition name ∉ pieces)
    (hspelling : name ∉ typeSpellings.map (·.2)) : NamesUndefined t h name := by
  have hagree := agree_markedShader t .default
  generalize hmarked : markedShader t .default = x at hagree hpieces
  generalize hout : generate (some t) .default = y at hagree
  cases hagree with
  | error e => cases hpieces
  | @ok shader out htext =>
    obtain rfl := Option.some.inj hpieces
    refine ⟨out, shader, hout, hmarked, htext, ?_, ?_, ?_⟩
    · obtain ⟨row, hrow, huse⟩ := List.mem_flatMap.mp huse
      obtain ⟨rows, hrows, hrow⟩ := List.mem_flatten.mp hrow
      exact ⟨rows, hrows, row, hrow, huse⟩
    · rintro rows hrows ⟨row, hrow, hmem⟩
      exact hdefinition (List.mem_flatMap.mpr ⟨row, List.mem_flatten.mpr ⟨rows, hrows, hrow⟩, hmem⟩)
    · intro type hmem
      exact hspelling (List.mem_map.mpr ⟨_, hmem, rfl⟩)

/-- Two programs that name a type that no shader defines: the mark of a generic type taken as a
type, and the pointee of an instance. -/
theorem generate_undefined_types :
    (∃ t, Resolution.resolve (some (.root [.function "main" [] "In" [] []])) .empty = .ok t ∧
      NamesUndefined t (some 1) "In") ∧
    (let root : Program.Scope := .root [.struct ⟨"Light", [], []⟩,
       .function "main" [] "In<Light*>" [] []]
     ∃ t, Resolution.resolve (some root) root.table = .ok t ∧
       NamesUndefined t (some 4) "Light") := by
  constructor
  · let t : Tree := ⟨#[.scope "root" [some 2], .struct ⟨"In", none, [], []⟩,
      .function ⟨"main", [], some 1, [], []⟩]⟩
    have hpieces : (markedShader t .default).toOption.map
        (fun shader => shader.parts.flatten.flatMap Row.pieces) =
        some [.type (some 1) "In", .text " main(", .text ") \x7b", .text "\x7d", .text ""] := by
      decide +kernel
    exact ⟨t, Resolution.resolve_of_evaluate 9 (by decide +kernel),
      namesUndefined_of_pieces hpieces (by decide) (by decide) (by decide)⟩
  · let t : Tree := ⟨#[.scope "root" [some 1, some 5], .struct ⟨"Light", none, [], []⟩,
      .struct ⟨"In", none, [], []⟩, .struct ⟨"Light*", some 2, [], []⟩,
      .struct ⟨"In<Light*>", some 2, [], [some 3]⟩, .function ⟨"main", [], some 4, [], []⟩]⟩
    have hpieces : (markedShader t .default).toOption.map
        (fun shader => shader.parts.flatten.flatMap Row.pieces) =
        some [.type (some 4) "Light", .text " main(", .text ") \x7b", .text "\x7d", .text ""] := by
      decide +kernel
    exact ⟨t, Resolution.resolve_of_evaluate 9 (by decide +kernel),
      namesUndefined_of_pieces hpieces (by decide) (by decide) (by decide)⟩

end Shader.Glsl
