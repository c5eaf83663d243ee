import Shader.Proofs.Glsl.Alignment
import Shader.Proofs.Glsl.Order
import Shader.Proofs.Glsl.Text
import Shader.Proofs.Glsl.Wording
import Shader.Proofs.Grammar.Segment

/-!
# Bodies keep their tokens

What is written of a function of a program is read back as the tokens of that function, up to the
spelling of types, the declarations of variables and the plus signs of numbers.
-/

namespace Shader.Glsl

open Arena Program Resolution

variable {r : References} {d entry h type : Handle} {bracket key name returns : String} {t : Tree}
  {G : String → Handle → Prop} {outer : Block} {hs : List Handle}
  {program statements : List Program.Node} {c : Catalog} {annotations segment : List String}
  {s : Spacing} {text : String × String}

theorem exists_getElem?_of_forall₂ {α β : Type} {R : α → β → Prop} {as : List α} {bs : List β}
    (h : List.Forall₂ R as bs) {j : Nat} {a : α} (hj : as[j]? = some a) :
    ∃ b, bs[j]? = some b ∧ R a b := by
  induction h generalizing j with
  | nil => cases hj
  | @cons a' b' _ _ hab _ ih =>
    cases j with
    | zero =>
      cases hj
      exact ⟨b', rfl, hab⟩
    | succ j => exact ih hj

/-! ## Functions that are reached -/

theorem mem_foldl_add {targets : List Handle} (h : d ∈ (targets.foldl References.add r).found) :
    d ∈ r.found ∨ d ∈ targets ∧ d.isSome = true := by
  induction targets generalizing r with
  | nil => exact Or.inl h
  | cons first more ih =>
    rcases ih h with h | ⟨hmem, hsome⟩
    · rw [References.add] at h
      split at h
      · exact Or.inl h
      · rename_i hnew
        rcases List.mem_append.mp h with h | h
        · exact Or.inl h
        · rw [List.mem_singleton.mp h]
          refine Or.inr ⟨.head _, ?_⟩
          cases first with
          | none => exact absurd rfl hnew
          | some i => rfl
    · exact Or.inr ⟨.tail _ hmem, hsome⟩

theorem mem_declared_of_firstNamed (hfirst : h = firstNamed c name) (hsome : h.isSome = true) :
    h ∈ c.declared := by
  rw [firstNamed, Catalog.byName?] at hfirst
  split at hfirst
  · rw [hfirst] at hsome
    cases hsome
  · cases hfind : c.declared.find? fun h => c.tree.name h = name with
    | none =>
      rw [hfirst, hfind] at hsome
      cases hsome
    | some g =>
      rw [hfirst, hfind]
      exact List.mem_of_find?_eq_some hfind

theorem Settled.mem_of_finds {v : View} (hc : Settled v c) {use : Use} (hfinds : Finds v c use h)
    (hsome : h.isSome = true) : h ∈ c.declared ∨ ∃ key, v.types key h := by
  cases use with
  | type name => exact Or.inr ⟨name, hfinds⟩
  | hidden name => exact Or.inl (mem_declared_of_firstNamed hfinds hsome)
  | value name =>
    rw [Finds] at hfinds
    cases hlatest : v.outer.latest? name with
    | none =>
      rw [hlatest] at hfinds
      exact Or.inl (mem_declared_of_firstNamed hfinds hsome)
    | some g =>
      rw [hlatest] at hfinds
      rw [hfinds]
      exact Or.inl (hc.outer name g hlatest)
  | callee name =>
    cases hlatest : v.outer.latest? name with
    | none =>
      cases hintrinsic : isIntrinsicType name with
      | true => exact Or.inr ⟨name, hfinds.intrinsic hlatest hintrinsic⟩
      | false =>
        exact Or.inl (mem_declared_of_firstNamed (hfinds.unknown hlatest hintrinsic) hsome)
    | some g =>
      cases hcallable : v.isCallable g with
      | true =>
        rw [hfinds.callable g hlatest hcallable]
        exact Or.inl (hc.outer name g hlatest)
      | false =>
        exact Or.inl (mem_declared_of_firstNamed (hfinds.other g hlatest hcallable) hsome)

/-- Each handle of a layout is that of the declaration at its place, which sees only declarations
of the layout. -/
theorem placed_at {n : Nat} {nodes : List Program.Node} {all : List Handle}
    (hl : Layout t G n outer nodes hs) (houter : ∀ name g, outer.latest? name = some g → g ∈ all)
    (hsub : hs ⊆ all) (hmem : h ∈ hs) :
    ∃ (j : Nat) (node : Program.Node) (outer' : Block), hs[j]? = some h ∧
      nodes[j]? = some node ∧ Placed ⟨t, G, outer'⟩ node h ∧
      ∀ name g, outer'.latest? name = some g → g ∈ all := by
  induction hl with
  | nil => cases hmem
  | @cons _ _ outer node _ first _ hplaced _ _ _ ih =>
    rcases List.mem_cons.mp hmem with rfl | hmem
    · exact ⟨0, node, outer, rfl, rfl, hplaced, houter⟩
    · have houter' : ∀ name g, (outer.declare node.name first).latest? name = some g → g ∈ all := by
        intro name g hg
        rw [Block.latest?_declare] at hg
        split at hg
        · cases hg
          exact hsub (.head _)
        · exact houter name g hg
      obtain ⟨j, other, outer', hh, hnode, hother, hsees⟩ :=
        ih houter' (fun g hg => hsub (.tail _ hg)) hmem
      exact ⟨j + 1, other, outer', hh, hnode, hother, hsees⟩

section Reached

variable {program : List Program.Node} {t : Tree} {G : String → Handle → Prop} {hs : List Handle}
  (hl : Laid t program G hs)
include hl

theorem known_of_function {body : List Handle}
    (hsees : ∀ name g, outer.latest? name = some g → g ∈ hs)
    (hnode : t.node? h = some (.function ⟨name, [], type, body, annotations⟩))
    (htype : G returns type) (hbody : RepresentsAll ⟨t, G, outer⟩ [] statements body)
    (hd : DependsOn (.ofTree t) h d) : d ∈ hs ∨ ∃ key, G key d := by
  have hc := settled_of_laid hl hsees
  obtain ⟨deps, hdeps, hd⟩ := hd
  obtain ⟨targets, hfinds, rfl⟩ := dependencies_of_function hc hnode htype hbody hdeps
  rcases mem_foldl_add hd with hd | ⟨hd, hsome⟩
  · cases hd
  · obtain ⟨j, hj⟩ := List.getElem?_of_mem hd
    obtain ⟨use, -, huse⟩ := exists_getElem?_of_forall₂ hfinds.flip hj
    rcases hc.mem_of_finds huse hsome with hmem | hkey
    · exact Or.inl (hl.declarations ▸ hmem)
    · exact Or.inr hkey

theorem mem_of_dependsOn (ht : t.WellFormed) (hmem : h ∈ hs ∨ t.kind? h = some .struct)
    (hd : DependsOn (.ofTree t) h d) : d ∈ hs ∨ t.kind? d = some .struct := by
  have hplain {kind : Kind} (hplain : Plain kind) (hk : t.kind? h = some kind) :
      t.kind? d = some .struct := by
    obtain ⟨i, -, rfl⟩ := Tree.lt_size_of_isSome (Tree.isSome_of_kind? hk)
    exact (below_of_dependsOn (c := .ofTree t) ht hplain hk hd).1
  rcases hmem with hmem | hk
  · obtain ⟨j, node, outer, -, -, hplaced, hsees⟩ :=
      placed_at hl.layout (fun _ _ hg => by cases hg) (List.Subset.refl hs) hmem
    have hk := kind?_of_placed hl.types hplaced
    cases hplaced with
    | function hnode htype hbody =>
      rcases known_of_function hl hsees hnode htype hbody hd with hmem | ⟨key, hkey⟩
      · exact Or.inl hmem
      · exact Or.inr (kind?_of_types (v := ⟨t, G, outer⟩) hl.types hkey)
    | struct => exact Or.inr (hplain (Or.inl rfl) hk)
    | member => exact Or.inr (hplain (Or.inr (Or.inl rfl)) hk)
    | _ => exact Or.inr (hplain (Or.inr (Or.inr rfl)) hk)
  · exact Or.inr (hplain (Or.inl rfl) hk)

theorem mem_of_reaches (ht : t.WellFormed) (hentry : entry ∈ hs)
    (hr : Reaches (.ofTree t) entry h) : h ∈ hs ∨ t.kind? h = some .struct := by
  induction hr with
  | refl => exact Or.inl hentry
  | tail _ hedge ih => exact mem_of_dependsOn hl ht ih hedge

end Reached

/-! ## What is written of a function -/

/-- The text of a function without parameters whose body has the given text. -/
def functionText (s : Spacing) (returns name body : String) : String :=
  typeSpelling returns ++ " " ++ name ++ "()" ++ s.gap ++ "\x7b" ++ body ++ "\x7d" ++
    if s.minify then "" else "\n\n"

def bodyText (s : Spacing) (statements : List Program.Node) : String :=
  (if s.minify then "" else "\n") ++ renderLines s (statementLines (sourceTexts s statements))

theorem renderLines_function (s : Spacing) (head : String) (lines : List Line) :
    renderLines s (⟨0, head⟩ :: lines ++ [⟨0, "\x7d"⟩, blankLine]) =
      head ++ ((if s.minify then "" else "\n") ++ renderLines s lines) ++ "\x7d" ++
        if s.minify then "" else "\n\n" := by
  unfold renderLines
  rw [List.map_append, String.join_append, List.map_cons, String.join_cons]
  unfold Line.render blankLine
  cases s.minify <;> simp [String.append_assoc]

theorem text_of_function (hl : Laid t program G hs) (hreturns : IsTypeName returns)
    (hexpr : ∀ node ∈ statements, IsExpression node)
    (hplaced : Placed ⟨t, G, outer⟩ (.function name [] returns statements annotations) h)
    (htext : IsText t s h text) :
    text = (name, functionText s returns name (bodyText s statements)) := by
  obtain ⟨n, lines, n', hlines, rfl⟩ := htext
  cases hplaced with
  | @function _ _ _ _ type _ hs _ hnode htype hbody =>
    unfold declarationLines at hlines
    have hnode : t.node? h = some (.function ⟨name, [], type, hs, annotations⟩) := hnode
    rw [hnode] at hlines
    dsimp only [unnumbered] at hlines
    cases hrun : functionLines t s ⟨name, [], type, hs, annotations⟩ with
    | error e =>
      rw [hrun] at hlines
      cases hlines
    | ok found =>
      rw [hrun] at hlines
      cases hlines
      obtain ⟨typeText, htypeText, hrun⟩ := bind_eq_ok hrun
      obtain ⟨params, hparams, hrun⟩ := bind_eq_ok hrun
      obtain ⟨texts, htexts, hrun⟩ := bind_eq_ok hrun
      cases hparams
      cases hrun
      have htype := typeTextFrom_of_isTypeName hl.types hreturns htype (eq_ok_of_within htypeText)
      have htexts := exprTexts_of_representsAll s hl.types hl.direct hexpr hbody
        (eq_ok_of_within htexts)
      have hname : t.name h = name := by rw [Tree.name, hnode]; rfl
      rw [hname, renderLines_function, htype, htexts, functionText, bodyText]
      simp [String.append_assoc]

/-! ## Bodies are read back -/

theorem dropSigns_subset (place : Place) (tokens : List String) :
    dropSigns place tokens ⊆ tokens := by
  fun_induction dropSigns place tokens with
  | case1 => exact List.Subset.refl _
  | case2 _ _ rest _ ih => exact List.Subset.trans ih (List.subset_cons_self _ rest)
  | case3 _ _ _ _ ih => exact List.cons_subset_cons _ ih

theorem bodyOf_subset (segment : List String) : bodyOf segment ⊆ segment := by
  refine List.Subset.trans (List.dropLast_subset _) ?_
  exact List.Subset.trans (List.drop_subset _ _) (List.dropWhile_subset _)

theorem bodyTokens_eq (statements : List Program.Node) :
    bodyTokens statements = (statements.flatMap fun node => node.tokens ++ [";"]) ++ ["\x7d"] := by
  induction statements with
  | nil => rfl
  | cons first more ih => simp [bodyTokens, ih]

/-- The body of a function is read back as the tokens it is read from, rewritten. -/
theorem words_bodyText (s : Spacing) (hexpr : ∀ node ∈ statements, IsExpression node)
    (hfields : AllNameFields statements) (hlexed : ∀ token ∈ segment, IsLexed token)
    (hbody : dropSigns .operand (bodyOf segment) ++ ["\x7d"] = bodyTokens statements) :
    words (Source.ofString (bodyText s statements)) =
      .ok (glslTokens (dropSigns .operand (bodyOf segment))) := by
  rw [bodyTokens_eq] at hbody
  have htokens := List.append_cancel_right hbody
  have hread : Lexes (Source.ofString (renderLines s (statementLines (sourceTexts s statements))))
      (statements.flatMap fun node => sourceWords node ++ [";"]) := by
    refine lexes_statements s hexpr hfields fun node hnode token htoken => hlexed token ?_
    refine bodyOf_subset segment (dropSigns_subset .operand _ ?_)
    rw [htokens]
    exact List.mem_flatMap.mpr ⟨node, hnode, List.mem_append_left _ htoken⟩
  rw [words_eq_ok_iff, htokens, glslTokens_statements hexpr, bodyText]
  split
  · rwa [String.empty_append]
  · rw [ofString_append]
    exact lexes_blank (Or.inr rfl) hread

theorem spelling_eq_bracket {token : String} (h : bracket ∈ ["(", ")"])
    (heq : spelling token = bracket) : token = bracket := by
  have hall : ∀ p ∈ typeSpellings, p.2 ∉ ["(", ")"] := by decide
  unfold spelling spelling? at heq
  cases hfind : typeSpellings.find? (·.1 = token) with
  | none =>
    rw [hfind] at heq
    exact heq
  | some p =>
    rw [hfind, Option.map_some, Option.getD_some] at heq
    exact absurd (heq ▸ h) (hall p (List.mem_of_find?_eq_some hfind))

/-- The brackets of a rewritten body are brackets of the body. -/
theorem count_glslTokens (h : bracket ∈ ["(", ")"]) (tokens : List String) :
    (glslTokens tokens).count bracket ≤ tokens.count bracket := by
  have hspelling (token : String) : (if spelling token = bracket then 1 else 0) ≤
      if token = bracket then 1 else 0 := by
    split
    · rename_i heq
      rw [if_pos (spelling_eq_bracket h heq)]
    · exact Nat.zero_le _
  fun_induction glslTokens tokens with
  | case1 => exact Nat.le_refl _
  | case2 =>
    simp only [List.count_cons, beq_iff_eq]
    omega
  | case3 name outer inner rest ih =>
    have hinner := hspelling inner
    simp only [List.count_cons, beq_iff_eq]
    omega
  | case4 name type rest _ _ ih =>
    have htype := hspelling type
    simp only [List.count_cons, beq_iff_eq]
    omega
  | case5 token rest _ _ _ ih =>
    have htoken := hspelling token
    simp only [List.count_cons, beq_iff_eq]
    split
    all_goals omega

theorem count_dropSigns (h : bracket ∈ ["(", ")"]) (place : Place) (tokens : List String) :
    (dropSigns place tokens).count bracket = tokens.count bracket := by
  fun_induction dropSigns place tokens with
  | case1 => rfl
  | case2 place token rest hsign ih =>
    have hne : token ≠ bracket := by
      rintro rfl
      rw [hsign.1] at h
      exact absurd h (by decide)
    rw [ih, List.count_cons_of_ne hne]
  | case3 place token rest _ ih => rw [List.count_cons, List.count_cons, ih]

/-! ## Shaders -/

/-- The declaration is a function, and the text is its head and a body in braces. The body is read
back as the tokens between the braces of the segment, rewritten, and no bracket is added to them. -/
def KeepsBody (s : Spacing) (node : Program.Node) (segment : List String)
    (text : String × String) : Prop :=
  ∃ name returns statements annotations body read,
    node = .function name [] returns statements annotations ∧
    text = (name, functionText s returns name body) ∧
    words (Source.ofString body) = .ok read ∧
    read = glslTokens (dropSigns .operand (bodyOf segment)) ∧
    ∀ bracket ∈ ["(", ")"], read.count bracket ≤ (bodyOf segment).count bracket

theorem keepsBody_of_placed (hl : Laid t program G hs) {node : Program.Node}
    (hdecl : node.IsDeclaration) (hfields : node.NamesFields) (hsegment : IsSegment node segment)
    (hlexed : ∀ token ∈ segment, IsLexed token) (hplaced : Placed ⟨t, G, outer⟩ node h)
    (hfunction : t.kind? h = some .function) (htext : IsText t s h text) :
    KeepsBody s node segment text := by
  have hkind := hfunction.symm.trans (kind?_of_placed hl.types hplaced)
  cases node with
  | function name params returns statements annotations =>
    obtain ⟨-, -, rfl, hreturns, hexpr⟩ := hdecl
    rw [Node.NamesFields] at hfields
    refine ⟨name, returns, statements, annotations, bodyText s statements, _, rfl,
      text_of_function hl hreturns hexpr hplaced htext,
      words_bodyText s hexpr hfields hlexed (hsegment.body _ _ _ _ _ rfl), rfl, ?_⟩
    intro bracket hbracket
    rw [← count_dropSigns hbracket .operand (bodyOf segment)]
    exact count_glslTokens hbracket _
  | struct | member => cases hkind
  | _ => exact absurd hdecl id

/-- Every function in the shader of a program keeps its body. The tokens of the source can be cut
into those of its declarations, and the text of the shader is a header and the texts of what is
written. What is written of a function comes from the declaration at its place in the program, and
its body is read back as the tokens of that declaration, rewritten. -/
theorem generate_keepsBodies (source : Source) (tokens : List String) (scope : Scope) (t : Tree)
    (options : Options) (out : Output) (hwords : words source = .ok tokens)
    (hparse : parse tokens = .ok scope) (hfields : AllNameFields scope.children)
    (hresolve : resolve (some scope) scope.table = .ok t)
    (hgenerate : generate (some t) options = .ok out) :
    ∃ segments entry handles written,
      tokens = segments.flatten ∧ List.Forall₂ IsSegment scope.children segments ∧
      findEntry t options.completed.entryPoint = .ok entry ∧
      order (.ofTree t) entry = .ok handles ∧
      out.text = header options.completed out.info.stage ++ String.join (written.map (·.2)) ∧
      List.Forall₂ (fun h text => t.kind? h = some .function →
        ∃ (j : Nat) (node : Program.Node) (segment : List String), t.declarations[j]? = some h ∧
          scope.children[j]? = some node ∧ segments[j]? = some segment ∧
          KeepsBody ⟨options.completed.minify⟩ node segment text)
        (handles.filter (isWritten t)) written := by
  obtain ⟨segments, hflatten, hsegments⟩ := exists_segments hparse
  obtain ⟨⟨-, hscope⟩, -⟩ := normal_of_parse hparse
  have hlexed := (words_eq_ok_iff.mp hwords).isLexed
  have ht := (resolve_sound hresolve).1
  obtain ⟨G, hs, hl⟩ := resolve_laid (fun node hnode => Or.inr (hscope node hnode)) hresolve
  obtain ⟨entry, hentry, hgenerate⟩ := bind_eq_ok hgenerate
  obtain ⟨handles, horder, hgenerate⟩ := bind_eq_ok hgenerate
  obtain ⟨written, hwritten, hgenerate⟩ := bind_eq_ok hgenerate
  have hout := Except.ok.inj hgenerate
  subst hout
  refine ⟨segments, entry, handles, written, hflatten, hsegments, hentry, horder, rfl, ?_⟩
  have hreached : ∀ h ∈ handles.filter (isWritten t), h ∈ hs ∨ t.kind? h = some .struct := by
    intro h hmem
    have hdeclared := (mem_of_findEntry hentry).1
    rw [hl.declarations] at hdeclared
    exact mem_of_reaches hl ht hdeclared
      (((order_spec horder).2.1 h).mp (List.mem_filter.mp hmem).1)
  have hboth := (List.forall₂_and_left _ _).mpr ⟨hreached, isText_writeDeclarations hwritten⟩
  refine hboth.imp ?_
  rintro h text ⟨hmem, htext⟩ hfunction
  have hmem : h ∈ hs := by
    refine hmem.resolve_right fun hstruct => ?_
    rw [hfunction] at hstruct
    cases hstruct
  obtain ⟨j, node, outer, hj, hchild, hplaced, -⟩ :=
    placed_at hl.layout (fun _ _ hg => by cases hg) (List.Subset.refl hs) hmem
  obtain ⟨segment, hsegment, hread⟩ := exists_getElem?_of_forall₂ hsegments hchild
  have hnode := List.mem_of_getElem? hchild
  refine ⟨j, node, segment, hl.declarations ▸ hj, hchild, hsegment, ?_⟩
  refine keepsBody_of_placed hl (hscope node hnode) (hfields.of_mem hnode) hread ?_ hplaced
    hfunction htext
  intro token htoken
  refine hlexed token (hflatten ▸ ?_)
  exact List.mem_flatten.mpr ⟨segment, List.mem_of_getElem? hsegment, htoken⟩

/-- Two signs that meet stay two tokens in a shader without spaces. -/
theorem generate_keepsBodies_sample :
    let tokens := ["main", ":", "fn", "(", ")", "->", "void", "\x7b", "f", "(", "a", "-", "-", "2",
      ")", ";", "\x7d"]
    let main : Program.Node :=
      .function "main" [] "void" [.call "f" [.binary "-" (.ident "a") (.constant "-2")]] []
    let t : Tree := ⟨#[.scope "root" [some 6], .struct ⟨"void", none, [], []⟩, .ident "a" none,
      .constant "-2", .binary .subtract (some 2) (some 3), .call "f" none [some 4],
      .function ⟨"main", [], some 1, [some 5], []⟩]⟩
    words (.ofString "main: fn () -> void \x7b f(a - -2); \x7d") = .ok tokens ∧
    parse tokens = .ok (.root [main]) ∧ AllNameFields [main] ∧
    resolve (some (.root [main])) .empty = .ok t ∧
    ∃ out start body, generate (some t) { Options.default with minify := true } = .ok out ∧
      out.text = start ++ functionText ⟨true⟩ "void" "main" body ∧
      words (.ofString body) = .ok ["f", "(", "a", "-", "-", "2", ")", ";"] := by
  have hwords : words (.ofString "main: fn () -> void \x7b f(a - -2); \x7d") =
      .ok ["main", ":", "fn", "(", ")", "->", "void", "\x7b", "f", "(", "a", "-", "-", "2", ")",
        ";", "\x7d"] := by
    decide +kernel
  intro tokens main t
  have hmain : (Scope.root [main]).IsProgram := by
    refine isProgram_function (by decide) (by decide) ?_
    have hnumber : IsConstant "-2" := @IsConstant.negative "2" (by decide)
    have hargument : IsValue (.binary "-" (.ident "a") (.constant "-2")) :=
      .binary (by decide) (by decide) (.ident ⟨by decide, by decide⟩) (.constant hnumber)
        ⟨by decide, by decide⟩
    exact List.forall_mem_singleton.mpr (.value (.call ⟨by decide, by decide⟩
      (List.forall_mem_singleton.mpr (.value hargument))))
  have hparse : parse tokens = .ok (.root [main]) := parse_tokens hmain
  have hfields : AllNameFields [main] := by
    simp [main, AllNameFields, Node.NamesFields]
  have hresolve : resolve (some (.root [main])) .empty = .ok t :=
    resolve_of_evaluate 9 (by decide +kernel)
  obtain ⟨out, hout⟩ : Succeeds (generate (some t) { Options.default with minify := true }) :=
    succeeds_of_isSome (by decide +kernel)
  obtain ⟨segments, entry, handles, written, hflatten, hsegments, hentry, horder, htext, hall⟩ :=
    generate_keepsBodies _ tokens _ t _ out hwords hparse hfields hresolve hout
  have hlisted : (do order (.ofTree t) (← findEntry t "main")) = .ok [some 1, some 6] := by
    decide +kernel
  rw [show findEntry t "main" = .ok entry from hentry] at hlisted
  cases horder.symm.trans hlisted
  change List.Forall₂ _ [some 6] written at hall
  cases hall with
  | cons hwritten hnone =>
    cases hnone
    obtain ⟨j, node, segment, -, hnode, hsegment, hkeeps⟩ := hwritten rfl
    cases List.mem_singleton.mp (List.mem_of_getElem? hnode)
    cases hsegments with
    | cons _ hnone =>
      cases hnone
      cases List.mem_singleton.mp (List.mem_of_getElem? hsegment)
      rw [List.flatten_singleton] at hflatten
      subst hflatten
      obtain ⟨_, _, _, _, body, read, heq, rfl, hread, rfl, -⟩ := hkeeps
      obtain ⟨rfl, -, rfl, -⟩ := Program.Node.function.inj heq
      have hrewritten : glslTokens (dropSigns .operand (bodyOf tokens)) =
          ["f", "(", "a", "-", "-", "2", ")", ";"] := by decide
      rw [List.map_singleton, String.join_cons, String.join_nil, String.append_empty] at htext
      exact ⟨hwords, hparse, hfields, hresolve, out, _, body, hout, htext, hrewritten ▸ hread⟩

end Shader.Glsl
