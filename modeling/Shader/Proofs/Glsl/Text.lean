import Shader.Glsl.Generate
import Shader.Proofs.Glsl.Dependency

/-!
# Texts of well-formed trees

Every type, expression and declaration of a well-formed tree can be written. The texts of any other
acyclic tree can fail, but not for want of depth.
-/

namespace Shader.Glsl

open Arena

variable {h : Handle} {t : Tree}

/-- The computation gives a result. -/
def Succeeds {α : Type} (x : Except GenerateError α) : Prop := ∃ a, x = .ok a

section Rules

variable {α β : Type} {x : Except GenerateError α}

theorem succeeds_of_isSome (h : x.toOption.isSome = true) : Succeeds x := by
  cases x with
  | ok a => exact ⟨a, rfl⟩
  | error e => cases h

theorem exists_of_toOption_map {f : α → β} {b : β} (h : x.toOption.map f = some b) :
    ∃ a, x = .ok a ∧ f a = b := by
  cases x with
  | ok a => exact ⟨a, rfl, Option.some.inj h⟩
  | error e => cases h

theorem eq_ok_of_map {f : α → β} {b : β} (h : x.map f = .ok b) : ∃ a, x = .ok a ∧ f a = b := by
  cases x with
  | error e => cases h
  | ok a => exact ⟨a, rfl, Except.ok.inj h⟩

theorem eq_ok_of_within {place : String} {a : α} (h : within place x = .ok a) : x = .ok a := by
  cases x with
  | ok b => exact h
  | error e => cases h

end Rules

/-- The text can be written, provided that `Q` holds. -/
def Writes {α : Type} (Q : Prop) (x : Except GenerateError α) : Prop :=
  Outcome Q (fun _ => False) x fun _ => True

theorem Writes.succeeds {α : Type} {Q : Prop} {x : Except GenerateError α} (hx : Writes Q x)
    (hQ : Q) : Succeeds x := by
  cases x with
  | ok a => exact ⟨a, rfl⟩
  | error e => exact (hx.2 hQ).elim

theorem Writes.outcome {α : Type} {Q : Prop} {only : GenerateError → Prop}
    {x : Except GenerateError α} (hx : Writes Q x) : Outcome Q only x fun _ => True := by
  cases x with
  | ok a => trivial
  | error e => exact ⟨hx.1, fun hq => (hx.2 hq).elim⟩

/-! ## Nodes by their kinds -/

theorem isSome_struct?_of_kind? (hk : t.kind? h = some .struct) : (t.struct? h).isSome := by
  obtain ⟨node, hnode, hkind⟩ := Option.map_eq_some_iff.mp hk
  cases node with
  | struct decl => rw [Tree.struct?, hnode]; rfl
  | _ => cases hkind

theorem exists_member_of_kind? (hk : t.kind? h = some .member) :
    ∃ m, t.node? h = some (.member m) := by
  obtain ⟨node, hnode, hkind⟩ := Option.map_eq_some_iff.mp hk
  cases node with
  | member m => exact ⟨m, hnode⟩
  | _ => cases hkind

theorem exists_parameter_of_kind? (hk : t.kind? h = some .parameter) :
    ∃ name type, t.node? h = some (.parameter name type) := by
  obtain ⟨node, hnode, hkind⟩ := Option.map_eq_some_iff.mp hk
  cases node with
  | parameter name type => exact ⟨name, type, hnode⟩
  | _ => cases hkind

/-! ## Types -/

section Texts

variable {Q : Prop} {height : Handle → Nat}

theorem typeTextFrom_writes (ht : Height t height) (hwf : Q → t.WellFormed) {steps : Nat}
    (hh : height h < steps) (hk : Q → t.kind? h = some .struct) :
    Writes Q (typeTextFrom t steps h) := by
  induction steps generalizing h with
  | zero => omega
  | succ steps ih =>
    rw [typeTextFrom]
    cases hstruct : t.struct? h with
    | none =>
      refine .error (by simp [GenerateError.cause]) fun hq => ?_
      simpa [hstruct] using isSome_struct?_of_kind? (hk hq)
    | some decl =>
      have hnode := (kind?_of_struct? hstruct).1
      dsimp only
      split
      · split
        · rename_i argument htypes
          have hmem : argument ∈ decl.types := by
            rw [htypes]
            exact List.mem_singleton_self _
          have hlt := ht.lt hnode argument (by simp [Node.references, hmem])
          refine ih (by omega) fun hq => ?_
          obtain ⟨i, hw⟩ := exists_wellFormed (hwf hq) hnode
          exact (hw.2.2 argument hmem).1
        · trivial
      · trivial

theorem typeText_writes (ht : Height t height) (hwf : Q → t.WellFormed)
    (hk : Q → t.kind? h = some .struct) : Writes Q (typeText t h) :=
  typeTextFrom_writes ht hwf (Nat.lt_succ_of_le (ht.le_size h)) hk

/-! ## Expressions -/

theorem exprTextFrom_writes (ht : Height t height) (hwf : Q → t.WellFormed) (s : Spacing)
    {depth : Nat} (hh : height h < depth) (hk : Q → t.kind? h = some .expression) :
    Writes Q (exprTextFrom t s depth h) := by
  induction depth generalizing h with
  | zero => omega
  | succ depth ih =>
    rw [exprTextFrom]
    cases hnode : t.node? h with
    | none =>
      refine .error (by simp [GenerateError.cause]) fun hq => ?_
      simpa [Tree.kind?, hnode] using hk hq
    | some node =>
      have hone {d : Handle} (hd : d ∈ node.references)
          (hpart : ∀ i, node.WellFormed t i → t.kind? d = some .expression) :
          Writes Q (exprTextFrom t s depth d) := by
        have hlt := ht.lt hnode d hd
        refine ih (by omega) fun hq => ?_
        obtain ⟨i, hw⟩ := exists_wellFormed (hwf hq) hnode
        exact hpart i hw
      have hexpr (hq : Q) : node.kind = .expression := by
        simpa [Tree.kind?, hnode] using hk hq
      cases node with
      | ident name source =>
        dsimp only
        split <;> trivial
      | access left right =>
        refine (hone (by simp [Node.references]) fun _ hw => hw.1.1).bind fun _ _ => ?_
        exact (hone (by simp [Node.references]) fun _ hw => hw.2.1).bind fun _ _ => trivial
      | call callee target args =>
        refine (Outcome.mapM fun a ha => hone ?_ fun _ hw => (hw.1 a ha).1).bind fun _ _ => trivial
        exact .tail _ ha
      | intrinsicCall callee elements =>
        refine (Outcome.mapM fun e he => hone ?_ fun _ hw => (hw.2 e he).1).bind fun _ _ => trivial
        exact .tail _ he
      | binary op left right =>
        refine (hone (by simp [Node.references]) fun _ hw => hw.1.1).bind fun _ _ => ?_
        exact (hone (by simp [Node.references]) fun _ hw => hw.2.1).bind fun _ _ => trivial
      | localVar name type =>
        refine (typeText_writes ht hwf fun hq => ?_).bind fun _ _ => trivial
        obtain ⟨i, hw⟩ := exists_wellFormed (hwf hq) hnode
        exact hw.1
      | sequence elements =>
        exact (Outcome.mapM fun e he => hone he fun _ hw => (hw e he).1).bind fun _ _ => trivial
      | ret value =>
        cases value with
        | none => trivial
        | some v =>
          refine (hone (List.mem_singleton_self _) fun _ hw => ?_).bind fun _ _ => trivial
          exact (hw.resolve_left (Option.some_ne_none v)).1
      | constant | fragment | marker | placeholder | literal => trivial
      | _ => exact .error (by simp [GenerateError.cause]) fun hq => by cases hexpr hq

/-! ## Declarations -/

theorem memberText_writes (ht : Height t height) (hwf : Q → t.WellFormed) {m : Member}
    (hnode : t.node? h = some (.member m)) : Writes Q (memberText t m) := by
  refine (typeText_writes ht hwf fun hq => ?_).bind fun _ _ => trivial
  obtain ⟨i, hw⟩ := exists_wellFormed (hwf hq) hnode
  exact hw.1

theorem memberLines_write (ht : Height t height) (hwf : Q → t.WellFormed) {hs : List Handle}
    (hk : Q → ∀ h ∈ hs, t.kind? h = some .member) : Writes Q (hs.mapM (memberLine t)) := by
  refine Outcome.mapM fun h hh => ?_
  unfold memberLine
  split
  · rename_i hnode
    exact (memberText_writes ht hwf hnode).bind fun _ _ => trivial
  · rename_i hnot
    refine .error (by simp [GenerateError.cause]) fun hq => ?_
    obtain ⟨m, hnode⟩ := exists_member_of_kind? (hk hq h hh)
    exact hnot m hnode

theorem functionLines_writes (ht : Height t height) (hwf : Q → t.WellFormed) (s : Spacing)
    {f : Function} (hf : Q → ∃ i, (Node.function f).WellFormed t i) :
    Writes Q (functionLines t s f) := by
  have hreturns (hq : Q) : t.kind? f.returns = some .struct := (hf hq).elim fun _ hw => hw.2.1.1
  have hparams : Writes Q (f.params.mapM (parameterText t f.name)) := by
    refine Outcome.mapM fun p hp => ?_
    unfold parameterText
    split
    · rename_i hnode
      refine (typeText_writes ht hwf fun hq => ?_).within.bind fun _ _ => trivial
      obtain ⟨i, hw⟩ := exists_wellFormed (hwf hq) hnode
      exact hw.1
    · rename_i hnot
      refine .error (by simp [GenerateError.cause]) fun hq => ?_
      obtain ⟨i, hw, -, -⟩ := hf hq
      obtain ⟨name, type, hnode⟩ := exists_parameter_of_kind? (hw p hp).1
      exact hnot name type hnode
  have htexts : Writes Q (f.statements.mapM (exprText t s)) := by
    refine Outcome.mapM fun e he => ?_
    refine exprTextFrom_writes ht hwf s (Nat.lt_succ_of_le (ht.le_size e)) fun hq => ?_
    exact (hf hq).elim fun _ hw => (hw.2.2 e he).1
  unfold functionLines
  refine (typeText_writes ht hwf hreturns).within.bind fun _ _ => ?_
  exact hparams.bind fun _ _ => htexts.within.bind fun _ _ => trivial

theorem fieldConstants_writes (ht : Height t height) (hwf : Q → t.WellFormed) (s : Spacing)
    (owner : String) (number : UInt32) {fields : List Handle}
    (hk : Q → ∀ h ∈ fields, t.kind? h = some .member) :
    Writes Q (fieldConstants t s owner number fields) := by
  induction fields generalizing number with
  | nil => trivial
  | cons h fields ih =>
    have hrest := ih (number + 1) fun hq h' hh' => hk hq h' (.tail _ hh')
    rw [fieldConstants]
    split
    · rename_i hnode
      refine (typeText_writes ht hwf fun hq => ?_).bind fun _ _ => hrest.bind fun _ _ => trivial
      obtain ⟨i, hw⟩ := exists_wellFormed (hwf hq) hnode
      exact hw.1
    · rename_i hnot
      refine .error (by simp [GenerateError.cause]) fun hq => ?_
      obtain ⟨m, hnode⟩ := exists_member_of_kind? (hk hq h (.head _))
      exact hnot m hnode

theorem specializationLines_writes (ht : Height t height) (hwf : Q → t.WellFormed) (s : Spacing)
    (n : Numbering) (name : String) {type : Handle} (hk : Q → t.kind? type = some .struct) :
    Writes Q (specializationLines t s n name type) := by
  unfold specializationLines
  cases hstruct : t.struct? type with
  | none =>
    refine .error (by simp [GenerateError.cause]) fun hq => ?_
    simpa [hstruct] using isSome_struct?_of_kind? (hk hq)
  | some decl =>
    refine (typeText_writes ht hwf hk).bind fun _ _ => ?_
    split
    · trivial
    · refine (fieldConstants_writes ht hwf s name _ fun hq f hf => ?_).bind fun _ _ => trivial
      obtain ⟨i, hw⟩ := exists_wellFormed (hwf hq) (kind?_of_struct? hstruct).1
      exact (hw.2.1 f hf).1

theorem bindingLines_writes (ht : Height t height) (hwf : Q → t.WellFormed) (s : Spacing)
    {b : Binding} (hb : Q → ∃ i, (Node.binding b).WellFormed t i) :
    Writes Q (bindingLines t s b) := by
  unfold bindingLines
  split
  · refine (memberLines_write ht hwf fun hq m hm => ?_).within.bind fun _ _ => trivial
    exact (hb hq).elim fun _ hw => (hw.1 m hm).1
  · trivial
  · trivial
  · rename_i code hcode
    exact .error (by simp [GenerateError.cause]) fun hq => (hb hq).elim fun _ hw => hw.2 code hcode

/-- Every node of a well-formed tree can be written as a declaration. -/
theorem declarationLines_writes (ht : Height t height) (hwf : Q → t.WellFormed) (s : Spacing)
    (n : Numbering) (h : Handle) : Writes Q (declarationLines t s n h) := by
  unfold declarationLines
  cases hnode : t.node? h with
  | none => trivial
  | some node =>
    have hw (hq : Q) := exists_wellFormed (hwf hq) hnode
    cases node with
    | function decl => exact (functionLines_writes ht hwf s hw).map fun _ _ => trivial
    | struct decl =>
      dsimp only
      split
      · trivial
      · have hlines : Writes Q (structLines t s decl) := by
          refine (memberLines_write ht hwf fun hq f hf => ?_).within.bind fun _ _ => trivial
          exact (hw hq).elim fun _ hw => (hw.2.1 f hf).1
        exact hlines.map fun _ _ => trivial
    | binding decl => exact (bindingLines_writes ht hwf s hw).map fun _ _ => trivial
    | pushConstant members =>
      have hlines : Writes Q (pushConstantLines t s members) := by
        refine (memberLines_write ht hwf fun hq m hm => ?_).within.bind fun _ _ => trivial
        exact (hw hq).elim fun _ hw => (hw m hm).1
      exact hlines.map fun _ _ => trivial
    | specialization name type =>
      refine (specializationLines_writes ht hwf s n name fun hq => ?_).map fun _ _ => trivial
      exact (hw hq).elim fun _ hw => hw.1
    | member decl =>
      dsimp only
      split
      · rename_i d _
        have hlines : Writes Q (interfaceLines t n d decl) := by
          refine (memberText_writes ht hwf hnode).bind fun _ _ => ?_
          cases d <;> trivial
        exact hlines.map fun _ _ => trivial
      · trivial
    | _ => trivial

theorem writeDeclarations_writes (ht : Height t height) (hwf : Q → t.WellFormed) (s : Spacing)
    (n : Numbering) (handles : List Handle) : Writes Q (writeDeclarations t s n handles) := by
  induction handles generalizing n with
  | nil => trivial
  | cons h handles ih =>
    rw [writeDeclarations]
    refine (declarationLines_writes ht hwf s n h).bind fun r _ => ?_
    refine (ih r.2).bind fun more _ => ?_
    split <;> trivial

/-! ## Shaders -/

theorem isSome_of_findEntry {name : String} {entry : Handle} (h : findEntry t name = .ok entry) :
    (t.node? entry).isSome := by
  unfold findEntry at h
  split at h
  · rename_i found hfound
    cases h
    have hfunction := List.find?_some hfound
    unfold isFunctionNamed Tree.function? at hfunction
    cases hnode : t.node? entry with
    | some node => rfl
    | none =>
      rw [hnode] at hfunction
      cases hfunction
  · cases h

/-- Generation from an acyclic tree with an entry function does not run out of depth. If the tree is
well formed, it fails only where a piece of code reads a name that nothing declares. -/
theorem generate_answers (ht : Height t height) (hwf : Q → t.WellFormed) {options : Options}
    {entry : Handle} (hentry : findEntry t options.completed.entryPoint = .ok entry) :
    Answers Q t (generate (some t) options) fun _ => True := by
  unfold generate
  dsimp only
  rw [hentry]
  have hnode := isSome_of_findEntry hentry
  refine (order_answers ht (fun hq => .ofTree (hwf hq)) fun _ => hnode).bind fun handles _ => ?_
  exact (writeDeclarations_writes ht hwf _ _ handles).outcome.bind fun _ _ => trivial

end Texts

end Shader.Glsl
