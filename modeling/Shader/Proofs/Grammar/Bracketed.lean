import Shader.Proofs.Grammar.Climbing

/-!
# Expressions with brackets

The language has no brackets around operands, but the texts that are written for expressions do.
They are read as the language reads expressions, with the same words, binding powers and
associativity, and with one more kind of operand: an expression in brackets. Operands that have an
operator at their root must not be taken apart, so the atoms are grouped by climbing.
-/

namespace Shader.Program.Bracketed

variable {c d : Cursor} {stop : Stop} {as : List Atom} {node : Node} {kinds : List AtomKind}
  {q : Nat}

/-! ## The reader -/

theorem next_lt_of_sees {token : String} (h : c.sees token = true) :
    c.next.rest.length < c.rest.length :=
  Cursor.next_lt (Cursor.sees_ne_nil h)

theorem element_atom_lt {prior : Option Atom} {a : Atom}
    (h : element stop prior c = .ok (.atom a d)) : d.rest.length < c.rest.length :=
  element_lt h

theorem element_call_lt {prior : Option Atom} {callee : String}
    (h : element stop prior c = .ok (.call callee d)) : d.rest.length < c.rest.length :=
  element_lt h

theorem rest_le_of_brackets {e : Cursor} (hlt : c.next.rest.length < c.rest.length)
    (hd : d.rest.length ≤ c.next.rest.length) (hle : d.next.rest.length ≤ d.rest.length)
    (he : e.rest.length ≤ d.next.rest.length) : e.rest.length ≤ c.rest.length :=
  he.trans (hle.trans (hd.trans hlt.le))

theorem rest_le_of_atom {after : Cursor} (hlt : after.rest.length < c.rest.length)
    (hd : d.rest.length ≤ after.rest.length) : d.rest.length ≤ c.rest.length :=
  hd.trans hlt.le

theorem rest_le_of_call {after closed : Cursor} (hlt : after.rest.length < c.rest.length)
    (hclosed : closed.rest.length ≤ after.rest.length) (hd : d.rest.length ≤ closed.rest.length) :
    d.rest.length ≤ c.rest.length :=
  hd.trans (hclosed.trans hlt.le)

mutual

/-- Reads the atoms of an expression up to its end, which is not taken. An expression in brackets
is an operand. -/
def atoms (stop : Stop) (prior : Option Atom) (c : Cursor) :
    Except ParseError (List Atom × { d : Cursor // d.rest.length ≤ c.rest.length }) :=
  if hopen : c.sees "(" = true then
    have hlt := next_lt_of_sees hopen
    match expression .argument c.next with
    | .error e => .error e
    | .ok (inner, ⟨d, hd⟩) =>
      if d.sees ")" then
        have hle := d.next_le
        match atoms stop (some ⟨.operand inner, "(", c.index⟩) d.next with
        | .error e => .error e
        | .ok (more, ⟨e, he⟩) =>
          .ok (⟨.operand inner, "(", c.index⟩ :: more, ⟨e, rest_le_of_brackets hlt hd hle he⟩)
      else .error (d.fail (.unexpected ")" d.token))
  else
    match h : element stop prior c with
    | .error e => .error e
    | .ok .stop => .ok ([], ⟨c, Nat.le_refl _⟩)
    | .ok (.atom a after) =>
      have hlt := element_atom_lt h
      match atoms stop (some a) after with
      | .error e => .error e
      | .ok (more, ⟨d, hd⟩) => .ok (a :: more, ⟨d, rest_le_of_atom hlt hd⟩)
    | .ok (.call callee after) =>
      have hlt := element_call_lt h
      match call callee after with
      | .error e => .error e
      | .ok (args, ⟨closed, hclosed⟩) =>
        match atoms stop (some ⟨.operand (.call callee args), callee, c.index⟩) closed with
        | .error e => .error e
        | .ok (more, ⟨d, hd⟩) =>
          .ok (⟨.operand (.call callee args), callee, c.index⟩ :: more,
            ⟨d, rest_le_of_call hlt hclosed hd⟩)
termination_by (c.rest.length, 0)

def expression (stop : Stop) (c : Cursor) :
    Except ParseError (Node × { d : Cursor // d.rest.length ≤ c.rest.length }) :=
  match atoms stop none c with
  | .error e => .error e
  | .ok (as, d) =>
    match climbAll c.token c.index as with
    | .error e => .error e
    | .ok (node, _) => .ok (node, d)
termination_by (c.rest.length, 1)

/-- Reads the arguments of a call, if there are any, and its closing bracket. -/
def call (callee : String) (c : Cursor) :
    Except ParseError (List Node × { d : Cursor // d.rest.length ≤ c.rest.length }) :=
  if c.sees ")" then .ok ([], ⟨c.next, c.next_le⟩) else arguments callee c
termination_by (c.rest.length, 3)

def arguments (callee : String) (c : Cursor) :
    Except ParseError (List Node × { d : Cursor // d.rest.length ≤ c.rest.length }) :=
  match expression .argument c with
  | .error e => .error e
  | .ok (arg, ⟨d, hd⟩) =>
    if hne : d.rest = [] then .error (.ended .expression)
    else
      have hlt := Cursor.next_lt hne
      if d.sees "," then
        match arguments callee d.next with
        | .error e => .error e
        | .ok (more, ⟨e, he⟩) => .ok (arg :: more, ⟨e, by omega⟩)
      else if d.sees ")" then .ok ([arg], ⟨d.next, by omega⟩)
      else .error (d.fail (.openCall callee))
termination_by (c.rest.length, 2)

end

def atomsFrom (stop : Stop) (prior : Option Atom) (c : Cursor) :
    Except ParseError (List Atom × Cursor) :=
  (atoms stop prior c).map fun p => (p.1, p.2.1)

def expressionFrom (stop : Stop) (c : Cursor) : Except ParseError (Node × Cursor) :=
  (expression stop c).map fun p => (p.1, p.2.1)

def callFrom (callee : String) (c : Cursor) : Except ParseError (List Node × Cursor) :=
  (call callee c).map fun p => (p.1, p.2.1)

def argumentsFrom (callee : String) (c : Cursor) : Except ParseError (List Node × Cursor) :=
  (arguments callee c).map fun p => (p.1, p.2.1)

def read (tokens : List String) : Except ParseError Node := do
  let (node, d) ← expressionFrom .statement ⟨0, tokens ++ [";"]⟩
  if d.rest = [";"] then return node else .error (d.fail (.unexpected ";" d.token))

/-! ## Steps of the reader -/

theorem forget_eq_ok_iff {α : Type} {p : Cursor → Prop}
    {x : Except ParseError (α × { d : Cursor // p d })} {a : α} :
    (x.map fun q => (q.1, q.2.1)) = .ok (a, d) ↔ ∃ hd, x = .ok (a, ⟨d, hd⟩) := by
  cases x with
  | error e => exact ⟨fun h => (by cases h), fun ⟨_, h⟩ => (by cases h)⟩
  | ok q =>
    obtain ⟨b, e, he⟩ := q
    constructor
    · intro h
      cases h
      exact ⟨he, rfl⟩
    · rintro ⟨hd, h⟩
      cases h
      rfl

theorem sees_open_of_element {prior : Option Atom} {e : Element}
    (h : element stop prior c = .ok e) : c.sees "(" = false := by
  rw [Bool.eq_false_iff]
  intro hopen
  obtain ⟨i, rest⟩ := c
  rw [Cursor.sees_eq_true_iff] at hopen
  dsimp only at hopen
  rw [hopen] at h
  cases stop <;> cases h

section Steps

variable {stop : Stop} {prior : Option Atom} {c d after closed : Cursor} {a : Atom}
  {as more : List Atom} {node : Node} {args : List Node} {callee : String}

theorem atomsFrom_stop (h : element stop prior c = .ok .stop) :
    atomsFrom stop prior c = .ok ([], c) := by
  have hopen := sees_open_of_element h
  rw [atomsFrom, forget_eq_ok_iff, atoms, dif_neg (by simp [hopen])]
  split <;> rename_i he <;> rw [h] at he <;> cases he
  exact ⟨Nat.le_refl _, rfl⟩

theorem atomsFrom_atom (h : element stop prior c = .ok (.atom a after))
    (hmore : atomsFrom stop (some a) after = .ok (more, d)) :
    atomsFrom stop prior c = .ok (a :: more, d) := by
  have hopen := sees_open_of_element h
  have hlt := element_lt h
  obtain ⟨hd, hmore⟩ := forget_eq_ok_iff.mp hmore
  rw [atomsFrom, forget_eq_ok_iff, atoms, dif_neg (by simp [hopen])]
  split <;> rename_i he <;> rw [h] at he <;> cases he
  exact ⟨by omega, by simp only [hmore]⟩

theorem callFrom_eq (callee : String) (c : Cursor) :
    callFrom callee c = if c.sees ")" then .ok ([], c.next) else argumentsFrom callee c := by
  rw [callFrom, call]
  split <;> rfl

theorem atomsFrom_call (h : element stop prior c = .ok (.call callee after))
    (hargs : callFrom callee after = .ok (args, closed))
    (hmore : atomsFrom stop (some ⟨.operand (.call callee args), callee, c.index⟩) closed =
      .ok (more, d)) :
    atomsFrom stop prior c = .ok (⟨.operand (.call callee args), callee, c.index⟩ :: more, d) := by
  have hopen := sees_open_of_element h
  have hlt := element_lt h
  obtain ⟨hd, hmore⟩ := forget_eq_ok_iff.mp hmore
  obtain ⟨ha, hargs⟩ := forget_eq_ok_iff.mp hargs
  rw [atomsFrom, forget_eq_ok_iff, atoms, dif_neg (by simp [hopen])]
  split <;> rename_i he <;> rw [h] at he <;> cases he
  exact ⟨by omega, by simp only [hargs, hmore]⟩

theorem atomsFrom_bracket (hopen : c.sees "(" = true)
    (hinner : expressionFrom .argument c.next = .ok (node, closed))
    (hclosed : closed.sees ")" = true)
    (hmore : atomsFrom stop (some ⟨.operand node, "(", c.index⟩) closed.next = .ok (more, d)) :
    atomsFrom stop prior c = .ok (⟨.operand node, "(", c.index⟩ :: more, d) := by
  have hlt := Cursor.next_lt (Cursor.sees_ne_nil hopen)
  have hle := closed.next_le
  obtain ⟨hd, hmore⟩ := forget_eq_ok_iff.mp hmore
  obtain ⟨hc, hinner⟩ := forget_eq_ok_iff.mp hinner
  rw [atomsFrom, forget_eq_ok_iff, atoms, dif_pos hopen]
  exact ⟨by omega, by simp only [hinner, hclosed, if_true, hmore]⟩

theorem expressionFrom_of_atoms {left : List Atom} (has : atomsFrom stop none c = .ok (as, d))
    (hnode : climbAll c.token c.index as = .ok (node, left)) :
    expressionFrom stop c = .ok (node, d) := by
  obtain ⟨hd, has⟩ := forget_eq_ok_iff.mp has
  rw [expressionFrom, forget_eq_ok_iff, expression]
  exact ⟨hd, by simp only [has, hnode]⟩

theorem argumentsFrom_last (harg : expressionFrom .argument c = .ok (node, d))
    (hclosed : d.sees ")" = true) : argumentsFrom callee c = .ok ([node], d.next) := by
  obtain ⟨hd, harg⟩ := forget_eq_ok_iff.mp harg
  have hle := d.next_le
  have hne := Cursor.sees_ne_nil hclosed
  have hcomma : d.sees "," = false := Cursor.sees_of_ne hclosed (by decide)
  rw [argumentsFrom, forget_eq_ok_iff, arguments]
  refine ⟨by omega, ?_⟩
  simp only [harg, hne, dite_false, hcomma, Bool.false_eq_true, if_false, hclosed, if_true]

theorem argumentsFrom_more (harg : expressionFrom .argument c = .ok (node, d))
    (hcomma : d.sees "," = true) (hmore : argumentsFrom callee d.next = .ok (args, after)) :
    argumentsFrom callee c = .ok (node :: args, after) := by
  obtain ⟨hd, harg⟩ := forget_eq_ok_iff.mp harg
  obtain ⟨he, hmore⟩ := forget_eq_ok_iff.mp hmore
  have hle := d.next_le
  have hne := Cursor.sees_ne_nil hcomma
  rw [argumentsFrom, forget_eq_ok_iff, arguments]
  refine ⟨by omega, ?_⟩
  simp only [harg, hne, dite_false, hcomma, if_true, hmore]

end Steps

/-! ## Regrouping -/

def looseAtoms (kinds : List AtomKind) : List Atom := kinds.map fun kind => ⟨kind, "", 0⟩

theorem kinds_looseAtoms (kinds : List AtomKind) : (looseAtoms kinds).map Atom.kind = kinds := by
  rw [looseAtoms, List.map_map]
  exact List.map_id _

def regroup (kinds : List AtomKind) : Node :=
  match climbed 0 default (looseAtoms kinds) with
  | .ok (node, _) => node
  | .error _ => .missing

theorem climbed_zero_of_isGrouping (h : IsGrouping kinds q node) (has : as.map Atom.kind = kinds)
    (last : Atom) : climbed 0 last as = .ok (node, []) := by
  have hend : Halts (openPower q) [] := fun a _ ha => by cases ha
  have hclimb := @climbed_of_isGrouping _ _ _ h 0 last as [] has h.pos hend
  rw [List.append_nil, climbedOn_nil] at hclimb
  exact hclimb

theorem regroup_of_isGrouping (h : IsGrouping kinds q node) : regroup kinds = node := by
  rw [regroup, climbed_zero_of_isGrouping h (kinds_looseAtoms kinds)]

theorem exists_isGrouping (h : Alternates kinds)
    (hoperators : ∀ symbol, .operator symbol ∈ kinds → 0 < bindingPower symbol) :
    ∃ q, IsGrouping kinds q (regroup kinds) := by
  rw [← kinds_looseAtoms kinds] at h hoperators
  unfold regroup
  cases hrun : climbed 0 default (looseAtoms kinds) with
  | error e =>
    have hfails := (failsAs_of_le _).1 0 default (looseAtoms kinds) (Nat.le_refl _)
    rw [hrun] at hfails
    have hread : operandFirst default (looseAtoms kinds) = .error e := hfails
    obtain ⟨node, hnode⟩ := (exists_assembleValue_iff default _).mpr h
    rw [assembleValue, hread] at hnode
    cases hnode
  | ok p =>
    obtain ⟨-, q, hgrouping⟩ := climbed_zero_spec hoperators hrun
    rw [kinds_looseAtoms] at hgrouping
    exact ⟨q, hgrouping⟩

theorem climbAll_of_isGrouping (h : IsGrouping (as.map Atom.kind) q node) (token : String)
    (index : Nat) : climbAll token index as = .ok (node, []) := by
  obtain ⟨first, kinds, hkinds⟩ := h.head
  obtain ⟨a, rest, rfl, ha, -⟩ := List.map_eq_cons_iff.mp hkinds
  rw [(assemble_value (by simp [ha])).2, climbed_zero_of_isGrouping h rfl]

/-! ## Reading past operands -/

/-- From the first place atoms of these kinds are read, the last of them an operand, and reading
goes on at the second place. -/
def Passes (stop : Stop) (prior : Option Atom) (c : Cursor) (kinds : List AtomKind) (d : Cursor) :
    Prop :=
  ∃ as last, as.map Atom.kind = kinds ∧ signPosition (some last) = false ∧
    ∀ more e, atomsFrom stop (some last) d = .ok (more, e) →
      atomsFrom stop prior c = .ok (as ++ more, e)

section Passes

variable {stop : Stop} {prior : Option Atom} {c d after closed : Cursor} {node : Node}
  {args : List Node} {callee symbol token : String} {i j q : Nat} {rest : List String}
  {kinds left right : List AtomKind}

theorem passes_operand (h : element stop prior c = .ok (.atom ⟨.operand node, token, i⟩ d)) :
    Passes stop prior c [.operand node] d :=
  ⟨[_], _, rfl, rfl, fun _ _ hmore => atomsFrom_atom h hmore⟩

theorem passes_call (h : element stop prior c = .ok (.call callee after))
    (hargs : callFrom callee after = .ok (args, d)) :
    Passes stop prior c [.operand (.call callee args)] d :=
  ⟨[_], _, rfl, rfl, fun _ _ hmore => atomsFrom_call h hargs hmore⟩

theorem passes_bracket (hopen : c.sees "(" = true)
    (hinner : expressionFrom .argument c.next = .ok (node, closed))
    (hclosed : closed.sees ")" = true) : Passes stop prior c [.operand node] closed.next :=
  ⟨[_], _, rfl, rfl, fun _ _ hmore => atomsFrom_bracket hopen hinner hclosed hmore⟩

theorem Passes.operator (hs : 0 < bindingPower symbol)
    (hleft : Passes stop prior c left ⟨i, symbol :: rest⟩)
    (hright : Passes stop (some ⟨.operator symbol, symbol, i⟩) ⟨i + 1, rest⟩ right d) :
    Passes stop prior c (left ++ .operator symbol :: right) d := by
  obtain ⟨ls, last, hls, hlast, hl⟩ := hleft
  obtain ⟨rs, final, hrs, hfinal, hr⟩ := hright
  refine ⟨ls ++ ⟨.operator symbol, symbol, i⟩ :: rs, final, ?_, hfinal, ?_⟩
  · simp [hls, hrs]
  · intro more e hmore
    rw [List.append_assoc, List.cons_append]
    exact hl _ _ (atomsFrom_atom (element_operator hs hlast) (hr _ _ hmore))

theorem Passes.expressionFrom (h : Passes stop none c kinds ⟨j, token :: rest⟩)
    (hstop : stop.holds token = true) (hgrouping : IsGrouping kinds q node) :
    expressionFrom stop c = .ok (node, ⟨j, token :: rest⟩) := by
  obtain ⟨as, last, rfl, -, hread⟩ := h
  have hatoms := hread [] _ (atomsFrom_stop (element_stop hstop))
  rw [List.append_nil] at hatoms
  exact expressionFrom_of_atoms hatoms (climbAll_of_isGrouping hgrouping _ _)

end Passes

end Shader.Program.Bracketed
