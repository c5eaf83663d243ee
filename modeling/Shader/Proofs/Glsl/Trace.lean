import Shader.Proofs.Glsl.Generation
import Shader.Proofs.Glsl.Order
import Shader.Proofs.Glsl.Uses

/-!
# Traces of declarations

Read from front to back, a declaration uses types, names values, makes names local and, in pieces of
code, reads names. Its trace lists all of this. In a well-formed tree the dependencies of a
declaration can be told from its trace alone (`dependencies_eq`): each mark refers to at most one
declaration, and reading the declaration fails at the first name that is read and that nothing
declares.
-/

namespace Shader.Glsl

open Arena

variable {α : Type} {c : Catalog} {h d : Handle} {locals : List String}

/-- What a declaration does at one place. -/
inductive Mark where
  /-- A parameter or variable makes a name local. -/
  | declares (name : String)
  | uses (type : Handle)
  /-- An expression names a value or a callee, which may have been resolved. -/
  | names (source : Handle) (name : String)
  /-- A piece of code reads a name. -/
  | reads (name : String)
  deriving Repr, DecidableEq

/-! ## Traces -/

def typeMarks (t : Tree) (h : Handle) : List Mark :=
  match t.node? h with
  | some (.member decl) => [.uses decl.type]
  | some (.parameter _ type) => [.uses type]
  | _ => []

def calleeMark (t : Tree) (target : Handle) (callee : String) : Mark :=
  if (t.struct? target).isSome then .uses target else .names target callee

/-- The trace of an expression that is at most `depth` deep. A name behind a point is a field. -/
def exprMarks (t : Tree) : Nat → Handle → List Mark
  | 0, _ => []
  | depth + 1, h =>
    match t.node? h with
    | some (.ident name source) => [.names source name]
    | some (.access left right) =>
      exprMarks t depth left ++ if isName t right then [] else exprMarks t depth right
    | some (.call callee target args) =>
      calleeMark t target callee :: args.flatMap (exprMarks t depth)
    | some (.intrinsicCall _ elements) => elements.flatMap (exprMarks t depth)
    | some (.binary _ left right) => exprMarks t depth left ++ exprMarks t depth right
    | some (.localVar name type) => [.uses type, .declares name]
    | some (.sequence elements) => elements.flatMap (exprMarks t depth)
    | some (.ret value) => if value.isSome then exprMarks t depth value else []
    | some (.fragment decl) => decl.inputs.map .reads
    | _ => []

/-- The trace of a declaration. No expression is deeper than there are nodes. -/
def marks (t : Tree) (h : Handle) : List Mark :=
  match t.node? h with
  | some (.function decl) =>
    decl.params.flatMap (fun p => typeMarks t p ++ [.declares (t.name p)]) ++
      .uses decl.returns :: decl.statements.flatMap (exprMarks t (t.size + 1))
  | some (.struct decl) => decl.fields.flatMap (typeMarks t) ++ decl.types.map .uses
  | some (.member decl) => [.uses decl.type]
  | some (.binding decl) => decl.members.flatMap (typeMarks t)
  | some (.pushConstant members) => members.flatMap (typeMarks t)
  | some (.specialization _ type) => [.uses type]
  | some (.fragment decl) => decl.inputs.map .reads
  | _ => []

/-! ## What marks mean -/

/-- The names that are local after a mark. -/
def Mark.scope (locals : List String) : Mark → List String
  | .declares name => name :: locals
  | _ => locals

/-- A name that code may read anywhere: that of a declaration, an output of a piece of code, a name
of GLSL or of the header, or the name of a struct. -/
def Catalog.knows (c : Catalog) (name : String) : Bool :=
  (name ≠ "" && c.declared.any fun h => c.tree.name h = name) || name ∈ c.outputs ||
    isBuiltin name || c.tree.nodes.toList.any (Tree.isStructNamed name)

/-- The name that is read at a mark although nothing declares it. -/
def Mark.missing? (c : Catalog) (locals : List String) : Mark → Option String
  | .reads name => if name ∈ locals || c.knows name then none else some name
  | _ => none

theorem lawfulBEq_handle : LawfulBEq Handle := inferInstance

attribute [local instance] lawfulBEq_handle in
/-- The declaration to which a mark refers. A name that was not resolved refers to the first
declaration of the name, unless it is local; a name that code reads does so even if it is local. -/
def Mark.target (c : Catalog) (locals : List String) : Mark → Handle
  | .declares _ => none
  | .uses type => type
  | .names source name =>
    if source.isSome then (if source ∈ c.declared then source else none)
    else if name ∈ locals then none else firstNamed c name
  | .reads name => firstNamed c name

/-- What `f` finds at the marks of a trace, given the names that are local at each. -/
def along (f : List String → Mark → α) : List String → List Mark → List α
  | _, [] => []
  | locals, m :: ms => f locals m :: along f (m.scope locals) ms

theorem mem_along {f : List String → Mark → α} {a : α} {ms : List Mark} :
    a ∈ along f locals ms ↔
      ∃ before m after, ms = before ++ m :: after ∧ f (before.foldl Mark.scope locals) m = a := by
  induction ms generalizing locals with
  | nil => simp [along]
  | cons m ms ih =>
    rw [along, List.mem_cons, ih]
    constructor
    · rintro (rfl | ⟨before, m', after, rfl, ha⟩)
      · exact ⟨[], m, ms, rfl, rfl⟩
      · exact ⟨m :: before, m', after, rfl, ha⟩
    · rintro ⟨before, m', after, hms, ha⟩
      cases before with
      | nil =>
        cases hms
        exact Or.inl ha.symm
      | cons first before =>
        cases hms
        exact Or.inr ⟨before, m', after, rfl, ha⟩

/-- The names that a declaration reads and that nothing declares, in order. -/
def undeclared (c : Catalog) (h : Handle) : List String :=
  (along (Mark.missing? c) [] (marks c.tree h)).filterMap id

/-- The declarations to which a declaration refers, in the order of the first reference. -/
def references (c : Catalog) (h : Handle) : List Handle :=
  (along (Mark.target c) [] (marks c.tree h)).foldl collect []

theorem mem_collect {found : List Handle} : d ∈ collect found h ↔ d ∈ found ∨ d = h ∧ h.isSome := by
  unfold collect References.add
  cases h with
  | none => simp
  | some i =>
    by_cases hmem : some i ∈ found
    · simp only [Option.isNone_some, hmem, decide_true, Bool.or_true, if_true]
      constructor
      · exact Or.inl
      · rintro (hd | ⟨rfl, -⟩)
        · exact hd
        · exact hmem
    · simp [hmem]

theorem mem_foldl_collect {targets found : List Handle} :
    d ∈ targets.foldl collect found ↔ d ∈ found ∨ d ∈ targets ∧ d.isSome := by
  induction targets generalizing found with
  | nil => simp
  | cons h targets ih =>
    rw [List.foldl_cons, ih, mem_collect, List.mem_cons]
    constructor
    · rintro ((hd | ⟨rfl, hsome⟩) | ⟨hd, hsome⟩)
      · exact Or.inl hd
      · exact Or.inr ⟨Or.inl rfl, hsome⟩
      · exact Or.inr ⟨Or.inr hd, hsome⟩
    · rintro (hd | ⟨rfl | hd, hsome⟩)
      · exact Or.inl (Or.inl hd)
      · exact Or.inl (Or.inr ⟨rfl, hsome⟩)
      · exact Or.inr ⟨hd, hsome⟩

theorem mem_references : d ∈ references c h ↔ d.isSome ∧ ∃ before m after,
    marks c.tree h = before ++ m :: after ∧ m.target c (before.foldl Mark.scope []) = d := by
  rw [references, mem_foldl_collect, mem_along, and_comm]
  simp

/-! ## Reading a trace -/

section Reading

/-- Reads one mark. -/
def Mark.read (c : Catalog) (r : References) (m : Mark) : Except GenerateError References :=
  match m.missing? c r.locals with
  | some name => .error (.unresolvedSymbol name)
  | none => .ok ⟨collect r.found (m.target c r.locals), m.scope r.locals⟩

variable {ms ms' : List Mark} {r : References}
  {f g : References → Except GenerateError References}

theorem read_trace (r : References) (ms : List Mark) :
    ms.foldlM (Mark.read c) r = match (along (Mark.missing? c) r.locals ms).filterMap id with
      | [] => .ok ⟨(along (Mark.target c) r.locals ms).foldl collect r.found,
          ms.foldl Mark.scope r.locals⟩
      | name :: _ => .error (.unresolvedSymbol name) := by
  induction ms generalizing r with
  | nil => rfl
  | cons m ms ih =>
    rw [List.foldlM_cons, along, along]
    cases hmissing : m.missing? c r.locals with
    | some name =>
      rw [Mark.read, hmissing]
      rfl
    | none =>
      rw [Mark.read, hmissing]
      exact ih _

/-- The computation reads the trace, unless it finds a defect of the tree. -/
def Heeds (c : Catalog) (ms : List Mark) (f : References → Except GenerateError References) :
    Prop :=
  ∀ r, (∃ defect, f r = .error (.malformed defect)) ∨ f r = ms.foldlM (Mark.read c) r

theorem heeds_ok : Heeds c [] .ok := fun _ => Or.inr rfl

theorem heeds_defect {defect : Defect} (hf : ∀ r, f r = .error (.malformed defect)) :
    Heeds c ms f := fun r => Or.inl ⟨defect, hf r⟩

theorem heeds_mark {m : Mark} (hf : ∀ r, f r = m.read c r) : Heeds c [m] f := by
  intro r
  rw [hf, List.foldlM_cons]
  exact Or.inr (bind_pure _).symm

theorem Heeds.append (hf : Heeds c ms f) (hg : Heeds c ms' g) :
    Heeds c (ms ++ ms') fun r => f r >>= g := by
  intro r
  rw [List.foldlM_append]
  dsimp only
  rcases hf r with ⟨defect, hdefect⟩ | hread
  · rw [hdefect]
    exact Or.inl ⟨defect, rfl⟩
  · rw [hread]
    cases ms.foldlM (Mark.read c) r with
    | error e => exact Or.inr rfl
    | ok r' => exact hg r'

theorem Heeds.flatMap {marksOf : Handle → List Mark}
    {step : Handle → References → Except GenerateError References}
    (hstep : ∀ h, Heeds c (marksOf h) (step h)) (hs : List Handle) :
    Heeds c (hs.flatMap marksOf) fun r => hs.foldlM (fun r h => step h r) r := by
  induction hs with
  | nil => exact heeds_ok
  | cons h hs ih => exact (hstep h).append ih

/-- A total step follows marks at which no name is missing. -/
theorem heeds_step {f : References → References} {m : Mark}
    (hm : ∀ locals, m.missing? c locals = none)
    (hf : ∀ r, f r = ⟨collect r.found (m.target c r.locals), m.scope r.locals⟩) :
    Heeds c [m] fun r => .ok (f r) :=
  heeds_mark fun r => by rw [Mark.read, hm, hf]

theorem heeds_add (type : Handle) : Heeds c [.uses type] fun r => .ok (r.add type) :=
  heeds_step (fun _ => rfl) fun r => add_eq_collect r type

theorem heeds_addLocal (name : String) :
    Heeds c [.declares name] fun r => .ok (r.addLocal name) :=
  heeds_step (fun _ => rfl) fun _ => rfl

theorem heeds_addNamed (source : Handle) (name : String) :
    Heeds c [.names source name] fun r => .ok (r.addNamed c source name) := by
  refine heeds_step (fun _ => rfl) fun r => ?_
  have hnone : (⟨collect r.found none, r.locals⟩ : References) = r := rfl
  change _ = (⟨_, r.locals⟩ : References)
  rw [References.addNamed, Mark.target]
  split
  · split
    · exact add_eq_collect r source
    · exact hnone.symm
  · split
    · exact hnone.symm
    · rw [firstNamed]
      cases c.byName? name with
      | some decl => exact add_eq_collect r decl
      | none => exact hnone.symm

theorem isSome_byName? (c : Catalog) (name : String) :
    (c.byName? name).isSome = (name ≠ "" && c.declared.any fun h => c.tree.name h = name) := by
  unfold Catalog.byName?
  by_cases hname : name = ""
  · simp [hname]
  · rw [if_neg hname, decide_eq_true hname, Bool.true_and, Bool.eq_iff_iff, List.find?_isSome,
      List.any_eq_true]

theorem isSome_findStruct? (t : Tree) (name : String) :
    (t.findStruct? name).isSome = t.nodes.toList.any (Tree.isStructNamed name) := by
  rw [Tree.findStruct?, Option.isSome_map, List.findIdx?_isSome]

/-- Of the inputs of a piece of code, each is read in turn. -/
theorem addInputs_eq (r : References) (names : List String) :
    r.addInputs c names = (names.map Mark.reads).foldlM (Mark.read c) r := by
  induction names generalizing r with
  | nil => rfl
  | cons name names ih =>
    rw [References.addInputs, List.map_cons, List.foldlM_cons, Mark.read, Mark.missing?]
    cases hname : c.byName? name with
    | some decl =>
      have hknows : c.knows name = true := by
        rw [Catalog.knows, ← isSome_byName?, hname]
        simp
      have htarget : Mark.target c r.locals (.reads name) = decl := by
        rw [Mark.target, firstNamed, hname]
        rfl
      rw [hknows, Bool.or_true, if_pos rfl, htarget]
      dsimp only
      rw [add_eq_collect]
      exact ih _
    | none =>
      have hknows : (decide (name ∈ r.locals) || c.knows name) = (decide (name ∈ r.locals) ||
          decide (name ∈ c.outputs) || isBuiltin name || (c.tree.findStruct? name).isSome) := by
        rw [Catalog.knows, ← isSome_byName?, hname, isSome_findStruct?]
        simp only [Option.isSome_none, Bool.false_or, Bool.or_assoc]
      have htarget : Mark.target c r.locals (.reads name) = none := by
        rw [Mark.target, firstNamed, hname]
        rfl
      rw [hknows, htarget]
      dsimp only
      split
      · exact ih r
      · rfl

theorem heeds_inputs (names : List String) :
    Heeds c (names.map .reads) fun r => r.addInputs c names :=
  fun r => Or.inr (addInputs_eq r names)

theorem heeds_addTypeOf (h : Handle) :
    Heeds c (typeMarks c.tree h) fun r => .ok (r.addTypeOf c.tree h) := by
  unfold typeMarks References.addTypeOf
  cases c.tree.node? h with
  | none => exact heeds_ok
  | some node =>
    cases node with
    | member decl => exact heeds_add decl.type
    | parameter name type => exact heeds_add type
    | _ => exact heeds_ok

/-! ## Dependencies -/

theorem heeds_expr (depth : Nat) (h : Handle) :
    Heeds c (exprMarks c.tree depth h) (readExpr c depth h) := by
  induction depth generalizing h with
  | zero => exact heeds_defect fun _ => rfl
  | succ depth ih =>
    have hparts (parts : List Handle) : Heeds c (parts.flatMap (exprMarks c.tree depth)) fun r =>
        parts.foldlM (fun r a => readExpr c depth a r) r :=
      Heeds.flatMap ih parts
    change Heeds c _ fun r => readExpr c (depth + 1) h r
    unfold readExpr exprMarks
    cases c.tree.node? h with
    | none => exact heeds_defect fun _ => rfl
    | some node =>
      cases node with
      | ident name source => exact heeds_addNamed source name
      | access left right =>
        refine (ih left).append ?_
        by_cases hname : isName c.tree right = true
        · simp only [if_pos hname]
          exact heeds_ok
        · simp only [if_neg hname]
          exact ih right
      | call callee target args =>
        have hcallee : Heeds c [calleeMark c.tree target callee] fun r =>
            .ok (if (c.tree.struct? target).isSome then r.add target
              else r.addNamed c target callee) := by
          unfold calleeMark
          split
          · exact heeds_add target
          · exact heeds_addNamed target callee
        exact hcallee.append (hparts args)
      | intrinsicCall _ elements => exact hparts elements
      | binary op left right => exact (ih left).append (ih right)
      | localVar name type => exact (heeds_add type).append (heeds_addLocal name)
      | sequence elements => exact hparts elements
      | ret value =>
        cases value with
        | none => exact heeds_ok
        | some value => exact ih (some value)
      | fragment decl => exact heeds_inputs decl.inputs
      | constant | marker | literal | placeholder => exact heeds_ok
      | _ => exact heeds_defect fun _ => rfl

/-- A fold of total steps, as a fold of steps that can fail. -/
theorem foldlM_ok {β : Type} (f : References → β → References) (xs : List β) (r : References) :
    xs.foldlM (fun r x => .ok (f r x)) r =
      (.ok (xs.foldl f r) : Except GenerateError References) := by
  induction xs generalizing r with
  | nil => rfl
  | cons x xs ih => exact ih (f r x)

theorem heeds_types (members : List Handle) :
    Heeds c (members.flatMap (typeMarks c.tree)) fun r =>
      .ok (members.foldl (fun r m => r.addTypeOf c.tree m) r) := by
  simp only [← foldlM_ok]
  exact Heeds.flatMap heeds_addTypeOf members

theorem heeds_params (params : List Handle) :
    Heeds c (params.flatMap fun p => typeMarks c.tree p ++ [.declares (c.tree.name p)]) fun r =>
      .ok (params.foldl (fun r p => (r.addTypeOf c.tree p).addLocal (c.tree.name p)) r) := by
  simp only [← foldlM_ok]
  exact Heeds.flatMap (fun p => (heeds_addTypeOf p).append (heeds_addLocal _)) params

theorem heeds_arguments (types : List Handle) :
    Heeds c (types.map .uses) fun r => .ok (types.foldl References.add r) := by
  simp only [← foldlM_ok]
  rw [List.map_eq_flatMap]
  exact Heeds.flatMap heeds_add types

/-- What the dependencies of a declaration are read from. -/
theorem heeds_dependencies (c : Catalog) (h : Handle) :
    ∃ f, Heeds c (marks c.tree h) f ∧ dependencies c h = (f .none).map (·.found) := by
  unfold dependencies marks
  cases c.tree.node? h with
  | none => exact ⟨_, heeds_defect fun _ => rfl, rfl⟩
  | some node =>
    cases node with
    | function decl =>
      refine ⟨_, (heeds_params decl.params).append ((heeds_add decl.returns).append
        (Heeds.flatMap (heeds_expr (c.tree.size + 1)) decl.statements)), rfl⟩
    | struct decl =>
      exact ⟨_, (heeds_types decl.fields).append (heeds_arguments decl.types), rfl⟩
    | member decl => exact ⟨_, heeds_add decl.type, rfl⟩
    | binding decl => exact ⟨_, heeds_types decl.members, rfl⟩
    | pushConstant members => exact ⟨_, heeds_types members, rfl⟩
    | specialization name type => exact ⟨_, heeds_add type, rfl⟩
    | fragment decl => exact ⟨_, heeds_inputs decl.inputs, rfl⟩
    | _ => exact ⟨_, heeds_ok, rfl⟩

end Reading

/-- A declaration depends on what it refers to, unless the tree has a defect or the declaration
reads a name that nothing declares. -/
theorem dependencies_cases (c : Catalog) (h : Handle) :
    (∃ defect, dependencies c h = .error (.malformed defect)) ∨
      dependencies c h = match undeclared c h with
        | [] => .ok (references c h)
        | name :: _ => .error (.unresolvedSymbol name) := by
  obtain ⟨f, hf, heq⟩ := heeds_dependencies c h
  rw [heq]
  rcases hf .none with ⟨defect, hdefect⟩ | hread
  · rw [hdefect]
    exact Or.inl ⟨defect, rfl⟩
  · rw [hread, read_trace]
    refine Or.inr ?_
    change Except.map _ (match undeclared c h with | [] => _ | name :: _ => _) = _
    cases undeclared c h with
    | nil => rfl
    | cons name rest => rfl

/-- In a well-formed tree there is no defect. -/
theorem dependencies_eq (hc : c.Sound) (hh : (c.tree.node? h).isSome) :
    dependencies c h = match undeclared c h with
      | [] => .ok (references c h)
      | name :: _ => .error (.unresolvedSymbol name) := by
  obtain ⟨height, hheight⟩ := exists_height hc.tree.acyclic
  have hanswers := @dependencies_answers h c True height hheight (fun _ => hc) fun _ => hh
  refine (dependencies_cases c h).resolve_left ?_
  rintro ⟨defect, hdefect⟩
  rw [hdefect] at hanswers
  obtain ⟨⟨name, hname⟩, -⟩ := hanswers.2 trivial
  cases hname

end Shader.Glsl
