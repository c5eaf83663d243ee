import Mathlib.Data.List.Forall2
import Mathlib.Tactic.Common
import Shader.Proofs.Glsl.Text

/-!
# Minified output

Optional white space has no influence on anything else that is written. The text of a statement
decides whether the statement has a line and whether it gets a semicolon, so the two texts of an
expression have to agree in more than their characters: they are empty together, and they end
together in a character that closes a statement.
-/

namespace Shader.Glsl

open Arena

/-! ## Computations that agree -/

/-- Both computations fail with the same error, or both succeed with related results. -/
inductive Agree {α β : Type} (R : α → β → Prop) :
    Except GenerateError α → Except GenerateError β → Prop
  | ok {a b} (h : R a b) : Agree R (.ok a) (.ok b)
  | error (e : GenerateError) : Agree R (.error e) (.error e)

namespace Agree

variable {α β γ δ : Type} {R : α → β → Prop} {S : γ → δ → Prop}
  {x : Except GenerateError α} {y : Except GenerateError β}

theorem refl (x : Except GenerateError α) : Agree (· = ·) x x := by
  cases x with
  | ok a => exact .ok rfl
  | error e => exact .error e

theorem bind {f : α → Except GenerateError γ} {g : β → Except GenerateError δ} (h : Agree R x y)
    (hfg : ∀ a b, R a b → Agree S (f a) (g b)) : Agree S (x >>= f) (y >>= g) := by
  cases h with
  | ok hab => exact hfg _ _ hab
  | error e => exact .error e

theorem map {f : α → γ} {g : β → δ} (h : Agree R x y) (hfg : ∀ a b, R a b → S (f a) (g b)) :
    Agree S (x.map f) (y.map g) := by
  cases h with
  | ok hab => exact .ok (hfg _ _ hab)
  | error e => exact .error e

theorem within {place : String} (h : Agree R x y) :
    Agree R (within place x) (Glsl.within place y) := by
  cases h with
  | ok hab => exact .ok hab
  | error e => exact .error _

theorem mapM_of_mem {ι : Type} {f : ι → Except GenerateError α} {g : ι → Except GenerateError β}
    {is : List ι} (h : ∀ i ∈ is, Agree R (f i) (g i)) :
    Agree (List.Forall₂ R) (is.mapM f) (is.mapM g) := by
  induction is with
  | nil => exact .ok .nil
  | cons i is ih =>
    obtain ⟨hfirst, hrest⟩ := List.forall_mem_cons.mp h
    rw [List.mapM_cons, List.mapM_cons]
    refine hfirst.bind fun a b hab => ?_
    refine (ih hrest).bind fun as bs habs => ?_
    exact .ok (.cons hab habs)

theorem mapM {ι : Type} {f : ι → Except GenerateError α} {g : ι → Except GenerateError β}
    (h : ∀ i, Agree R (f i) (g i)) (is : List ι) :
    Agree (List.Forall₂ R) (is.mapM f) (is.mapM g) := mapM_of_mem fun i _ => h i

end Agree

/-! ## Texts up to white space -/

def solid (text : String) : List Char := text.toList.filter fun c => !(c = ' ' || c = '\n')

@[simp]
theorem solid_append (a b : String) : solid (a ++ b) = solid a ++ solid b := by
  simp [solid]

@[simp]
theorem solid_empty : solid "" = [] := rfl

@[simp]
theorem solid_space : solid " " = [] := rfl

@[simp]
theorem solid_newline : solid "\n" = [] := rfl

@[simp]
theorem solid_gap (s : Spacing) : solid s.gap = [] := by
  unfold Spacing.gap
  split <;> rfl

theorem solid_join {xs ys : List String} (h : List.Forall₂ (fun x y => solid x = solid y) xs ys) :
    solid (String.join xs) = solid (String.join ys) := by
  induction h with
  | nil => rfl
  | cons hxy _ ih => rw [String.join_cons, String.join_cons, solid_append, solid_append, hxy, ih]

theorem solid_intercalate {sep sep' : String} (hsep : solid sep = solid sep') {xs ys : List String}
    (h : List.Forall₂ (fun x y => solid x = solid y) xs ys) :
    solid (sep.intercalate xs) = solid (sep'.intercalate ys) := by
  induction h with
  | nil => rfl
  | cons hxy hrest ih =>
    cases hrest with
    | nil => simpa using hxy
    | cons =>
      rw [String.intercalate_cons_cons, String.intercalate_cons_cons]
      simp only [solid_append, hxy, hsep, ih]

def isClosed (text : String) : Bool :=
  text.toList.getLast? = some ';' || text.toList.getLast? = some '\x7d'

theorem terminated_eq (text : String) :
    terminated text = if isClosed text then text else text ++ ";" := rfl

theorem isClosed_append (a b : String) :
    isClosed (a ++ b) = if b = "" then isClosed a else isClosed b := by
  unfold isClosed
  rw [String.toList_append, List.getLast?_append]
  by_cases hb : b = ""
  · subst hb
    simp
  · have hlist : b.toList ≠ [] := fun h => hb (String.toList_eq_nil_iff.mp h)
    rw [if_neg hb, List.getLast?_eq_some_getLast hlist]
    rfl

/-- Texts that differ in white space only, and of which the same is done where they end a
statement. -/
structure Spaced (a b : String) : Prop where
  solid : solid a = solid b
  empty : a = "" ↔ b = ""
  closed : isClosed a = isClosed b

namespace Spaced

variable {a a' b b' : String}

theorem refl (a : String) : Spaced a a := ⟨rfl, Iff.rfl, rfl⟩

theorem append (ha : Spaced a a') (hb : Spaced b b') : Spaced (a ++ b) (a' ++ b') where
  solid := by rw [solid_append, solid_append, ha.solid, hb.solid]
  empty := by rw [String.append_eq_empty_iff, String.append_eq_empty_iff, ha.empty, hb.empty]
  closed := by
    rw [isClosed_append, isClosed_append, ha.closed, hb.closed]
    simp only [hb.empty]

theorem ending {c c' : String} (h : Glsl.solid (a ++ c) = Glsl.solid (a' ++ c')) (hc : c ≠ "")
    (hc' : c' ≠ "") (hopen : isClosed c = false) (hopen' : isClosed c' = false) :
    Spaced (a ++ c) (a' ++ c') where
  solid := h
  empty := by simp [String.append_eq_empty_iff, hc, hc']
  closed := by rw [isClosed_append, isClosed_append, if_neg hc, if_neg hc', hopen, hopen']

theorem join {xs ys : List String} (h : List.Forall₂ Spaced xs ys) :
    Spaced (String.join xs) (String.join ys) := by
  induction h with
  | nil => exact refl _
  | cons hxy _ ih =>
    rw [String.join_cons, String.join_cons]
    exact hxy.append ih

theorem terminated (h : Spaced a b) : Glsl.solid (terminated a) = Glsl.solid (terminated b) := by
  rw [terminated_eq, terminated_eq, h.closed]
  split
  · exact h.solid
  · rw [solid_append, solid_append, h.solid]

end Spaced

/-! ## Expressions -/

theorem symbol_ne_empty (op : Operator) : op.symbol ≠ "" := by
  cases op with
  | unknown code =>
    intro h
    exact absurd (String.append_eq_empty_iff.mp h).2 (by decide)
  | _ => decide

theorem isClosed_symbol (op : Operator) : isClosed op.symbol = false := by
  cases op with
  | unknown code =>
    rw [Operator.symbol, isClosed_append]
    rfl
  | _ => rfl

theorem spaced_operation (op : Operator) {left left' right right' : String}
    (hl : Spaced left left') (hr : Spaced right right') :
    Spaced (operation ⟨true⟩ op left right) (operation ⟨false⟩ op left' right') := by
  have hloose : operation ⟨false⟩ op left' right' =
      left' ++ (" " ++ op.symbol ++ " ") ++ right' := by
    simp [operation, Spacing.gap, String.append_assoc]
  have htight : operation ⟨true⟩ op left right = left ++ (op.symbol ++ " ") ++ right ∨
      operation ⟨true⟩ op left right = left ++ ("" ++ op.symbol) ++ right := by
    unfold operation
    split
    · exact Or.inl (by simp only [String.append_assoc])
    · exact Or.inr (by simp [Spacing.gap, String.append_assoc])
  rw [hloose]
  rcases htight with htight | htight
  · rw [htight]
    refine (hl.append (Spaced.ending ?_ ?_ ?_ rfl rfl)).append hr
    · simp
    · decide
    · decide
  · rw [htight]
    refine (hl.append (Spaced.ending ?_ ?_ ?_ ?_ rfl)).append hr
    · simp
    · exact symbol_ne_empty op
    · decide
    · exact isClosed_symbol op

variable (t : Tree)

theorem spaced_operandText (parent : Operator) (isRight : Bool) (h : Handle) {text text' : String}
    (ht : Spaced text text') :
    Spaced (operandText t parent isRight h text) (operandText t parent isRight h text') := by
  unfold operandText
  split
  · split
    · exact ((Spaced.refl _).append ht).append (Spaced.refl _)
    · exact ht
  · exact ht

theorem solid_arguments {args args' : List String} (h : List.Forall₂ Spaced args args') :
    solid (("," ++ Spacing.gap ⟨true⟩).intercalate args) =
      solid (("," ++ Spacing.gap ⟨false⟩).intercalate args') := by
  refine solid_intercalate ?_ (h.imp fun _ _ hxy => hxy.solid)
  rw [solid_append, solid_append, solid_gap, solid_gap]

theorem agree_exprTextFrom (depth : Nat) (h : Handle) :
    Agree Spaced (exprTextFrom t ⟨true⟩ depth h) (exprTextFrom t ⟨false⟩ depth h) := by
  induction depth generalizing h with
  | zero => exact .error _
  | succ depth ih =>
    have hall (hs : List Handle) : Agree (List.Forall₂ Spaced)
        (hs.mapM (exprTextFrom t ⟨true⟩ depth)) (hs.mapM (exprTextFrom t ⟨false⟩ depth)) :=
      Agree.mapM ih hs
    have hsame (text : String) : Agree Spaced (.ok text) (.ok text) := .ok (.refl text)
    rw [exprTextFrom, exprTextFrom]
    cases t.node? h with
    | none => exact .error _
    | some node =>
      cases node with
      | ident name source =>
        dsimp only
        split <;> exact hsame _
      | constant text => exact hsame text
      | access left right =>
        refine (ih left).bind fun l l' hl => ?_
        refine (ih right).bind fun r r' hr => ?_
        exact .ok ((hl.append (.refl ".")).append hr)
      | call callee target args =>
        refine (hall args).bind fun as as' has => ?_
        refine .ok (Spaced.ending ?_ (by decide) (by decide) rfl rfl)
        simp only [solid_append, solid_arguments has]
      | intrinsicCall callee elements =>
        exact (hall elements).bind fun es es' hes => .ok (.join hes)
      | binary op left right =>
        refine (ih left).bind fun l l' hl => ?_
        refine (ih right).bind fun r r' hr => ?_
        exact .ok (spaced_operation op (spaced_operandText t op false left hl)
          (spaced_operandText t op true right hr))
      | localVar name type =>
        refine (Agree.refl (typeText t type)).bind fun text text' htext => ?_
        subst htext
        exact hsame _
      | sequence elements =>
        exact (hall elements).bind fun es es' hes => .ok (.join hes)
      | ret value =>
        cases value with
        | none => exact hsame _
        | some value => exact (ih (some value)).bind fun v v' hv => .ok ((Spaced.refl _).append hv)
      | fragment | marker | placeholder | literal => exact hsame _
      | _ => exact .error _

/-! ## Lines -/

/-- Lists of lines that differ in white space only. -/
def Alike : List Line → List Line → Prop := List.Forall₂ fun a b => solid a.text = solid b.text

theorem Alike.refl (lines : List Line) : Alike lines lines := List.forall₂_same.mpr fun _ _ => rfl

theorem Alike.cons {x y : Line} {a b : List Line} (hxy : solid x.text = solid y.text)
    (hab : Alike a b) : Alike (x :: a) (y :: b) := List.Forall₂.cons hxy hab

theorem Alike.append {a a' b b' : List Line} (ha : Alike a a') (hb : Alike b b') :
    Alike (a ++ b) (a' ++ b') := List.rel_append ha hb

theorem solid_render (s : Spacing) (line : Line) : solid (line.render s) = solid line.text := by
  have hindent (n : Nat) : solid (String.join (List.replicate n "    ")) = [] := by
    induction n with
    | zero => rfl
    | succ n ih =>
      rw [List.replicate_succ, String.join_cons, solid_append, ih]
      rfl
  unfold Line.render
  split
  · rfl
  · rw [solid_append, solid_append, hindent, solid_newline, List.nil_append, List.append_nil]

theorem Alike.solid_renderLines {a b : List Line} (h : Alike a b) (s s' : Spacing) :
    solid (renderLines s a) = solid (renderLines s' b) := by
  refine solid_join ?_
  rw [List.forall₂_map_left_iff, List.forall₂_map_right_iff]
  refine h.imp fun x y hxy => ?_
  rw [solid_render, solid_render, hxy]

theorem alike_statementLines {texts texts' : List String} (h : List.Forall₂ Spaced texts texts') :
    Alike (statementLines texts) (statementLines texts') := by
  induction h with
  | nil => exact .nil
  | @cons x y xs ys hxy _ ih =>
    unfold statementLines at ih ⊢
    by_cases hx : x = ""
    · rw [List.filter_cons_of_neg (by simp [hx]),
        List.filter_cons_of_neg (by simp [hxy.empty.mp hx])]
      exact ih
    · have hy : y ≠ "" := fun hy => hx (hxy.empty.mpr hy)
      rw [List.filter_cons_of_pos (by simp [hx]), List.filter_cons_of_pos (by simp [hy])]
      exact .cons hxy.terminated ih

/-! ## Declarations -/

theorem agree_functionLines (f : Function) :
    Agree Alike (functionLines t ⟨true⟩ f) (functionLines t ⟨false⟩ f) := by
  unfold functionLines
  refine (Agree.refl _).bind fun returns _ h => ?_
  subst h
  refine (Agree.refl _).bind fun params _ h => ?_
  subst h
  have htexts := Agree.mapM (fun h => agree_exprTextFrom t (t.size + 1) h) f.statements
  refine htexts.within.bind fun texts texts' h => ?_
  have hhead := solid_arguments (List.forall₂_same.mpr fun x (_ : x ∈ params) => Spaced.refl x)
  refine .ok (.cons ?_ ((alike_statementLines h).append (.refl _)))
  simp only [solid_append, solid_gap, hhead]

theorem agree_structLines (decl : Struct) :
    Agree Alike (structLines t ⟨true⟩ decl) (structLines t ⟨false⟩ decl) := by
  refine (Agree.refl _).bind fun fields _ h => ?_
  subst h
  refine .ok (.cons ?_ (.refl _))
  simp only [solid_append, solid_gap]

theorem agree_pushConstantLines (members : List Handle) :
    Agree Alike (pushConstantLines t ⟨true⟩ members) (pushConstantLines t ⟨false⟩ members) := by
  refine (Agree.refl _).bind fun fields _ h => ?_
  subst h
  refine .ok (.cons ?_ ((Alike.refl fields).append (.cons ?_ (.refl _))))
  · simp only [solid_append, solid_gap]
  · simp only [solid_append, solid_gap]

theorem agree_bindingLines (b : Binding) :
    Agree Alike (bindingLines t ⟨true⟩ b) (bindingLines t ⟨false⟩ b) := by
  unfold bindingLines
  cases b.kind with
  | buffer =>
    refine (Agree.refl _).bind fun fields _ h => ?_
    subst h
    refine .ok (.cons ?_ ((Alike.refl fields).append (.cons ?_ (.refl _))))
    · simp only [solid_append, solid_gap]
    · simp only [solid_append, solid_gap]
  | image | combinedImageSampler => exact .ok (.refl _)
  | unknown code => exact .error _

theorem solid_constantLine (number : UInt32) (type name value : String) :
    solid (constantLine ⟨true⟩ number type name value).text =
      solid (constantLine ⟨false⟩ number type name value).text := by
  simp only [constantLine, solid_append, solid_gap]

theorem agree_fieldConstants (owner : String) (number : UInt32) (fields : List Handle) :
    Agree (fun a b => Alike a.1 b.1 ∧ a.2 = b.2) (fieldConstants t ⟨true⟩ owner number fields)
      (fieldConstants t ⟨false⟩ owner number fields) := by
  induction fields generalizing number with
  | nil => exact .ok ⟨.nil, rfl⟩
  | cons h fields ih =>
    rw [fieldConstants, fieldConstants]
    split
    · refine (Agree.refl _).bind fun type _ h => ?_
      subst h
      refine (ih (number + 1)).bind fun a b hab => ?_
      obtain ⟨lines, rest⟩ := a
      obtain ⟨lines', rest'⟩ := b
      obtain ⟨halike, heq⟩ := hab
      change rest = rest' at heq
      subst heq
      exact .ok ⟨.cons (solid_constantLine ..) halike, rfl⟩
    · exact .error _

/-- Lines that differ in white space only, with the same numbering after them. -/
def AlikeNumbered (a b : List Line × Numbering) : Prop := Alike a.1 b.1 ∧ a.2 = b.2

theorem agree_specializationLines (n : Numbering) (name : String) (type : Handle) :
    Agree AlikeNumbered (specializationLines t ⟨true⟩ n name type)
      (specializationLines t ⟨false⟩ n name type) := by
  unfold specializationLines
  split
  · exact .error _
  · refine (Agree.refl _).bind fun text _ h => ?_
    subst h
    split
    · exact .ok ⟨.cons (solid_constantLine ..) (.refl _), rfl⟩
    · refine (agree_fieldConstants t name n.constant _).bind fun a b hab => ?_
      obtain ⟨lines, names, next⟩ := a
      obtain ⟨lines', names', next'⟩ := b
      obtain ⟨halike, heq⟩ := hab
      cases heq
      have hnames := solid_arguments (List.forall₂_same.mpr fun x (_ : x ∈ names) => Spaced.refl x)
      refine .ok ⟨halike.append (.cons ?_ (.refl _)), rfl⟩
      simp only [solid_append, solid_gap, hnames]

/-- The two forms of a declaration: both or neither are written, and both take the same numbers. -/
def AlikeWritten (a b : Option (List Line) × Numbering) : Prop :=
  Option.Rel Alike a.1 b.1 ∧ a.2 = b.2

theorem agree_unnumbered (n : Numbering) {x y : Except GenerateError (List Line)}
    (h : Agree Alike x y) : Agree AlikeWritten (unnumbered n x) (unnumbered n y) :=
  h.map fun _ _ hab => ⟨.some hab, rfl⟩

theorem agree_numbered {x y : Except GenerateError (List Line × Numbering)}
    (h : Agree AlikeNumbered x y) : Agree AlikeWritten (numbered x) (numbered y) :=
  h.map fun _ _ hab => ⟨.some hab.1, hab.2⟩

theorem agree_declarationLines (n : Numbering) (h : Handle) :
    Agree AlikeWritten (declarationLines t ⟨true⟩ n h) (declarationLines t ⟨false⟩ n h) := by
  have hsame (lines : Option (List Line) × Numbering) :
      Agree AlikeWritten (.ok lines) (.ok lines) := by
    refine .ok ⟨?_, rfl⟩
    cases lines.1 with
    | none => exact .none
    | some lines => exact .some (.refl lines)
  unfold declarationLines
  cases t.node? h with
  | none => exact hsame _
  | some node =>
    cases node with
    | function decl => exact agree_unnumbered n (agree_functionLines t decl)
    | struct decl =>
      dsimp only
      split
      · exact hsame _
      · exact agree_unnumbered n (agree_structLines t decl)
    | binding decl => exact agree_unnumbered n (agree_bindingLines t decl)
    | pushConstant members => exact agree_unnumbered n (agree_pushConstantLines t members)
    | specialization name type => exact agree_numbered (agree_specializationLines t n name type)
    | member decl =>
      dsimp only
      split
      · refine agree_numbered ((Agree.refl _).bind fun lines _ h => ?_)
        subst h
        split
        · exact .ok ⟨.refl _, rfl⟩
        · exact .ok ⟨.refl _, rfl⟩
      · exact hsame _
    | _ => exact hsame _

/-! ## Shaders -/

theorem agree_writeDeclarations (n : Numbering) (handles : List Handle) :
    Agree (List.Forall₂ fun a b => a.1 = b.1 ∧ solid a.2 = solid b.2)
      (writeDeclarations t ⟨true⟩ n handles) (writeDeclarations t ⟨false⟩ n handles) := by
  induction handles generalizing n with
  | nil => exact .ok .nil
  | cons h handles ih =>
    rw [writeDeclarations, writeDeclarations]
    refine (agree_declarationLines t n h).bind fun a b hab => ?_
    obtain ⟨lines, next⟩ := a
    obtain ⟨lines', next'⟩ := b
    obtain ⟨hlines, rfl⟩ := hab
    refine (ih next).bind fun more more' hmore => ?_
    cases hlines with
    | none => exact .ok hmore
    | some hlines => exact .ok (.cons ⟨rfl, hlines.solid_renderLines _ _⟩ hmore)

theorem solid_header (o : Options) (stage : Stage) :
    solid (header { o with minify := true } stage) =
      solid (header { o with minify := false } stage) := by
  have hstage : stageLines { o with minify := true } stage =
      stageLines { o with minify := false } stage := by
    cases stage <;> rfl
  unfold header
  simp [hstage]

theorem completed_minify (options : Options) (minify : Bool) :
    { options with minify := minify }.completed = { options.completed with minify := minify } := rfl

theorem agree_generate (tree : Option Tree) (options : Options) :
    Agree (fun a b => a.info = b.info ∧ solid a.text = solid b.text)
      (generate tree { options with minify := true })
      (generate tree { options with minify := false }) := by
  cases tree with
  | none => exact .error _
  | some t =>
    unfold generate
    simp only [completed_minify]
    refine (Agree.refl _).bind fun entry _ h => ?_
    subst h
    refine (Agree.refl _).bind fun handles _ h => ?_
    subst h
    refine (agree_writeDeclarations t .start handles).bind fun a b hab => ?_
    have hnames : a.map (·.1) = b.map (·.1) := by
      rw [← List.forall₂_eq_eq_eq, List.forall₂_map_left_iff, List.forall₂_map_right_iff]
      exact hab.imp fun _ _ h => h.1
    have htexts : solid (String.join (a.map (·.2))) = solid (String.join (b.map (·.2))) := by
      refine solid_join ?_
      rw [List.forall₂_map_left_iff, List.forall₂_map_right_iff]
      exact hab.imp fun _ _ h => h.2
    refine .ok ⟨?_, ?_⟩
    · simp only [hnames]
    · rw [solid_append, solid_append, htexts, solid_header]

theorem generate_cause_ne {t : Tree} (hacyclic : ∀ i, ¬ Relation.TransGen t.Contains i i)
    {options : Options} {e : GenerateError} (he : generate (some t) options = .error e) :
    e.cause ≠ .malformed .cyclic := by
  obtain ⟨height, ht⟩ := exists_height hacyclic
  cases hentry : findEntry t options.completed.entryPoint with
  | ok entry =>
    have h := @generate_answers t False height ht False.elim options entry hentry
    rw [he] at h
    exact h.1
  | error e' =>
    unfold generate at he
    dsimp only at he
    rw [hentry] at he
    cases he
    unfold findEntry at hentry
    split at hentry
    · cases hentry
    · cases hentry
      simp [GenerateError.cause]

/-- With and without optional white space, generation fails with the same error or gives shaders
with the same information, whose texts differ in spaces and ends of lines only. The limit on the
depth of a tree plays no part in this unless nodes contain each other. -/
theorem generate_minify (tree : Option Tree) (options : Options) :
    ((∃ e, generate tree { options with minify := true } = .error e ∧
        generate tree { options with minify := false } = .error e) ∨
      ∃ tight loose, generate tree { options with minify := true } = .ok tight ∧
        generate tree { options with minify := false } = .ok loose ∧
        tight.info = loose.info ∧ solid tight.text = solid loose.text) ∧
    ∀ t, tree = some t → (∀ i, ¬ Relation.TransGen t.Contains i i) →
      ∀ minify e, generate tree { options with minify := minify } = .error e →
        e.cause ≠ .malformed .cyclic := by
  constructor
  · have hagree := agree_generate tree options
    revert hagree
    generalize generate tree { options with minify := true } = x
    generalize generate tree { options with minify := false } = y
    intro hagree
    cases hagree with
    | ok hab => exact Or.inr ⟨_, _, rfl, rfl, hab⟩
    | error e => exact Or.inl ⟨e, rfl, rfl⟩
  · intro t ht hacyclic minify e he
    rw [ht] at he
    exact generate_cause_ne hacyclic he

/-- A difference with a negative number keeps a space in the minified text. -/
theorem generate_minify_sample :
    let t : Tree := ⟨#[.scope "root" [some 5], .struct ⟨"void", none, [], []⟩, .ident "a" none,
      .constant "-2", .binary .subtract (some 2) (some 3),
      .function ⟨"main", [], some 1, [some 4], []⟩]⟩
    (∀ i, ¬ Relation.TransGen t.Contains i i) ∧
    ∃ tight loose, generate (some t) { Options.default with minify := true } = .ok tight ∧
      generate (some t) { Options.default with minify := false } = .ok loose ∧
      tight.info = loose.info ∧ solid tight.text = solid loose.text ∧ tight.text ≠ loose.text := by
  intro t
  let rank (i : Nat) : Nat := if i = 0 then 6 else i
  have hrefs : ∀ i < 6, ∀ node ∈ t.node? (some i), ∀ d ∈ node.references, ∀ j ∈ d,
      rank j < rank i := by decide
  have hfalls {i j : Nat} (h : t.Contains i j) : rank j < rank i := by
    obtain ⟨node, hnode, hmem, -⟩ := h
    exact hrefs i (Tree.lt_size_of_node? hnode) node hnode _ hmem j rfl
  have hacyclic (i : Nat) : ¬ Relation.TransGen t.Contains i i := by
    have hpath {j : Nat} (h : Relation.TransGen t.Contains i j) : rank j < rank i := by
      induction h with
      | single h => exact hfalls h
      | tail _ h ih => exact Nat.lt_trans (hfalls h) ih
    intro h
    exact Nat.lt_irrefl _ (hpath h)
  have hne : (generate (some t) { Options.default with minify := true }).toOption.map (·.text) ≠
      (generate (some t) { Options.default with minify := false }).toOption.map (·.text) := by
    decide +kernel
  refine ⟨hacyclic, ?_⟩
  rcases (generate_minify (some t) .default).1 with ⟨e, htight, hloose⟩ | ⟨tight, loose, hrest⟩
  · rw [htight, hloose] at hne
    exact absurd rfl hne
  · obtain ⟨htight, hloose, hinfo, hsolid⟩ := hrest
    refine ⟨tight, loose, htight, hloose, hinfo, hsolid, fun heq => hne ?_⟩
    rw [htight, hloose]
    exact congrArg some heq

end Shader.Glsl
