import Shader.Proofs.Grammar.Printer

/-!
# Successful runs of the readers

What a reader that succeeds has taken, said about the tokens ahead of it. The runs of the readers
of expressions are described by the derivations `ReadsAtoms`, `ReadsCall` and `ReadsArguments`,
one constructor for each way a run can go.
-/

namespace Shader.Program

open Text

variable {c d : Cursor} {token want : String} {stop : Stop} {node : Node}

/-! ## Cursors -/

theorem Cursor.sees_eq_true_iff : c.sees token = true ↔ c.rest = token :: c.next.rest := by
  obtain ⟨index, rest⟩ := c
  cases rest with
  | nil => simp [Cursor.sees]
  | cons t ts => simp [Cursor.sees, Cursor.next]

theorem Cursor.sees_eq_false_iff : c.sees token = false ↔ c.rest.head? ≠ some token := by
  simp [Cursor.sees]

theorem Cursor.sees_of_ne {other : String} (h : c.sees token = true) (hne : token ≠ other) :
    c.sees other = false := by
  rw [Cursor.sees_eq_true_iff] at h
  rw [Cursor.sees_eq_false_iff, h]
  simpa using hne

theorem Cursor.sees_ne_nil (h : c.sees token = true) : c.rest ≠ [] := by
  rw [Cursor.sees_eq_true_iff] at h
  rw [h]
  exact List.cons_ne_nil _ _

/-! ## Single tokens -/

theorem expect_eq_ok_iff : expect want c = .ok d ↔ c.sees want = true ∧ d = c.next := by
  obtain ⟨index, rest⟩ := c
  cases rest with
  | nil => simp [expect, Cursor.sees]
  | cons t ts =>
    unfold expect
    simp only [Cursor.sees, List.head?_cons, Option.some.injEq, decide_eq_true_eq]
    split
    · rename_i h
      simp [h, eq_comm]
    · rename_i h
      simp [h]

theorem expect_rest (h : expect want c = .ok d) : c.rest = want :: d.rest := by
  obtain ⟨hs, rfl⟩ := expect_eq_ok_iff.mp h
  exact Cursor.sees_eq_true_iff.mp hs

theorem identifier_rest {role : NameRole} {name : String} (h : identifier role c = .ok (name, d)) :
    c.rest = name :: d.rest ∧ isIdentifier name = true := by
  obtain ⟨index, rest⟩ := c
  cases rest with
  | nil => simp [identifier] at h
  | cons t ts =>
    unfold identifier at h
    dsimp only at h
    split at h
    · rename_i hid
      cases h
      exact ⟨rfl, hid⟩
    · cases h

/-! ## Expressions -/

mutual

/-- A successful run of `atoms`: what it has read and where it stops. -/
inductive ReadsAtoms : Stop → Option Atom → Cursor → List Atom → Cursor → Prop
  | stop {stop : Stop} {prior : Option Atom} {c : Cursor}
      (h : element stop prior c = .ok .stop) : ReadsAtoms stop prior c [] c
  | atom {stop : Stop} {prior : Option Atom} {c after d : Cursor} {a : Atom} {more : List Atom}
      (h : element stop prior c = .ok (.atom a after))
      (hmore : ReadsAtoms stop (some a) after more d) : ReadsAtoms stop prior c (a :: more) d
  | call {stop : Stop} {prior : Option Atom} {c after closed d : Cursor} {callee : String}
      {args : List Node} {more : List Atom}
      (h : element stop prior c = .ok (.call callee after))
      (hargs : ReadsCall after args closed)
      (hmore : ReadsAtoms stop (some ⟨.operand (.call callee args), callee, c.index⟩) closed
        more d) :
      ReadsAtoms stop prior c (⟨.operand (.call callee args), callee, c.index⟩ :: more) d

/-- A successful run through the arguments of a call, if there are any, and the closing
bracket. -/
inductive ReadsCall : Cursor → List Node → Cursor → Prop
  | none {c : Cursor} (h : c.sees ")" = true) : ReadsCall c [] c.next
  | some {c d : Cursor} {args : List Node} (h : c.sees ")" = false)
      (hargs : ReadsArguments c args d) : ReadsCall c args d

/-- A successful run of `arguments`. -/
inductive ReadsArguments : Cursor → List Node → Cursor → Prop
  | last {c d : Cursor} {as : List Atom} {arg : Node} (has : ReadsAtoms .argument none c as d)
      (harg : assemble c.token c.index as = .ok arg) (h : d.sees ")" = true) :
      ReadsArguments c [arg] d.next
  | more {c d e : Cursor} {as : List Atom} {arg : Node} {args : List Node}
      (has : ReadsAtoms .argument none c as d)
      (harg : assemble c.token c.index as = .ok arg) (h : d.sees "," = true)
      (hmore : ReadsArguments d.next args e) : ReadsArguments c (arg :: args) e

end

/-- Runs from cursors with at most `n` tokens ahead are derivations. The arguments of a call are
read with fewer tokens ahead than the call, and their first expression with as many as they. -/
theorem reads_of_eq_ok (n : Nat) :
    (∀ stop prior (c : Cursor) as d hd, c.rest.length ≤ n →
      atoms stop prior c = .ok (as, ⟨d, hd⟩) → ReadsAtoms stop prior c as d) ∧
    (∀ callee (c : Cursor) args d hd, c.rest.length ≤ n →
      arguments callee c = .ok (args, ⟨d, hd⟩) → ReadsArguments c args d) := by
  induction n using Nat.strongRecOn with
  | ind n ih =>
    have hatoms : ∀ stop prior (c : Cursor) as d hd, c.rest.length ≤ n →
        atoms stop prior c = .ok (as, ⟨d, hd⟩) → ReadsAtoms stop prior c as d := by
      intro stop prior c as d hd hn h
      rw [atoms] at h
      split at h
      · cases h
      · rename_i he
        cases h
        exact .stop he
      · rename_i a after he
        have hlt : after.rest.length < c.rest.length := element_lt he
        dsimp only at h
        split at h
        · cases h
        · rename_i more e he' hm
          cases h
          exact .atom he ((ih _ (by omega)).1 _ _ _ _ _ _ (Nat.le_refl _) hm)
      · rename_i callee after he
        have hlt : after.rest.length < c.rest.length := element_lt he
        dsimp only at h
        split at h
        · rename_i hclosed
          have hle := after.next_le
          split at h
          · cases h
          · rename_i more e he' hm
            cases h
            exact .call he (.none hclosed)
              ((ih after.next.rest.length (by omega)).1 _ _ _ _ _ _ (Nat.le_refl _) hm)
        · rename_i hopen
          split at h
          · cases h
          · rename_i args closed hclosed hargs
            split at h
            · cases h
            · rename_i more e he' hm
              cases h
              exact .call he
                (.some (Bool.eq_false_iff.mpr hopen)
                  ((ih after.rest.length (by omega)).2 _ _ _ _ _ (Nat.le_refl _) hargs))
                ((ih closed.rest.length (by omega)).1 _ _ _ _ _ _ (Nat.le_refl _) hm)
    refine ⟨hatoms, fun callee c args d hd hn h => ?_⟩
    rw [arguments] at h
    split at h
    · cases h
    · rename_i as e he has
      split at h
      · cases h
      · rename_i arg harg
        split at h
        · cases h
        · rename_i hne
          have hlt := Cursor.next_lt hne
          have hread := hatoms _ _ _ _ _ _ hn has
          dsimp only at h
          split at h
          · rename_i hcomma
            split at h
            · cases h
            · rename_i more after hafter hm
              cases h
              exact .more hread harg hcomma
                ((ih e.next.rest.length (by omega)).2 _ _ _ _ _ (Nat.le_refl _) hm)
          · split at h
            · rename_i hclosed
              cases h
              exact .last hread harg hclosed
            · cases h

mutual

theorem ReadsAtoms.eq_ok {stop : Stop} {prior : Option Atom} {c d : Cursor} {as : List Atom} :
    ReadsAtoms stop prior c as d → ∃ hd, atoms stop prior c = .ok (as, ⟨d, hd⟩)
  | .stop h => by
    rw [atoms]
    split <;> rename_i he <;> rw [h] at he <;> cases he
    exact ⟨Nat.le_refl _, rfl⟩
  | .atom h hmore => by
    obtain ⟨hd, hm⟩ := hmore.eq_ok
    have hlt := element_lt h
    rw [atoms]
    split <;> rename_i he <;> rw [h] at he <;> cases he
    exact ⟨by omega, by simp only [hm]⟩
  | @ReadsAtoms.call _ _ _ after _ _ _ _ _ h (.none hclosed) hmore => by
    obtain ⟨hd, hm⟩ := hmore.eq_ok
    have hlt := element_lt h
    have hle := after.next_le
    rw [atoms]
    split <;> rename_i he <;> rw [h] at he <;> cases he
    refine ⟨by omega, ?_⟩
    simp only [hclosed, if_true, hm]
  | @ReadsAtoms.call _ _ _ _ _ _ callee _ _ h (.some hopen hargs) hmore => by
    obtain ⟨hd, hm⟩ := hmore.eq_ok
    obtain ⟨ha, hargs⟩ := hargs.eq_ok callee
    have hlt := element_lt h
    rw [atoms]
    split <;> rename_i he <;> rw [h] at he <;> cases he
    refine ⟨by omega, ?_⟩
    simp only [hopen, Bool.false_eq_true, if_false, hargs, hm]

theorem ReadsArguments.eq_ok {c d : Cursor} {args : List Node} :
    ReadsArguments c args d → ∀ callee, ∃ hd, arguments callee c = .ok (args, ⟨d, hd⟩)
  | @ReadsArguments.last _ d _ _ has harg h, callee => by
    obtain ⟨hd, has⟩ := has.eq_ok
    have hle := d.next_le
    have hne := Cursor.sees_ne_nil h
    have hcomma : d.sees "," = false := Cursor.sees_of_ne h (by decide)
    refine ⟨by omega, ?_⟩
    rw [arguments]
    simp only [has, harg, hne, dite_false, hcomma, Bool.false_eq_true, if_false, h, if_true]
  | @ReadsArguments.more _ d _ _ _ _ has harg h hmore, callee => by
    obtain ⟨hd, has⟩ := has.eq_ok
    obtain ⟨he, hm⟩ := hmore.eq_ok callee
    have hle := d.next_le
    have hne := Cursor.sees_ne_nil h
    refine ⟨by omega, ?_⟩
    rw [arguments]
    simp only [has, harg, hne, dite_false, h, if_true, hm]

end

theorem atoms_eq_ok_iff {prior : Option Atom} {as : List Atom} :
    (∃ hd, atoms stop prior c = .ok (as, ⟨d, hd⟩)) ↔ ReadsAtoms stop prior c as d :=
  ⟨fun ⟨_, h⟩ => (reads_of_eq_ok _).1 _ _ _ _ _ _ (Nat.le_refl _) h, ReadsAtoms.eq_ok⟩

theorem expression_eq_ok_iff :
    expression stop c = .ok (node, d) ↔
      ∃ as, ReadsAtoms stop none c as d ∧ assemble c.token c.index as = .ok node := by
  constructor
  · intro h
    obtain ⟨⟨as, e, he⟩, has, h⟩ := bind_eq_ok h
    obtain ⟨n, hn, h⟩ := bind_eq_ok h
    cases h
    exact ⟨as, atoms_eq_ok_iff.mp ⟨he, has⟩, hn⟩
  · rintro ⟨as, has, hn⟩
    obtain ⟨hd, has⟩ := has.eq_ok
    rw [expression, has]
    change (assemble c.token c.index as >>= fun node => pure (node, d)) = _
    rw [hn]
    rfl

theorem statement_eq_ok_iff :
    statement c = .ok (node, d) ↔
      ∃ e, expression .statement c = .ok (node, e) ∧ e.sees ";" = true ∧ d = e.next := by
  constructor
  · intro h
    obtain ⟨⟨n, e⟩, he, h⟩ := bind_eq_ok h
    obtain ⟨f, hf, h⟩ := bind_eq_ok h
    cases h
    exact ⟨e, he, expect_eq_ok_iff.mp hf⟩
  · rintro ⟨e, he, hs, rfl⟩
    rw [statement, he]
    change (expect ";" e >>= fun d => pure (node, d)) = _
    rw [expect_eq_ok_iff.mpr ⟨hs, rfl⟩]
    rfl

end Shader.Program
