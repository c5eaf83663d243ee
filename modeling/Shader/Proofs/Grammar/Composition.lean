import Shader.Proofs.Grammar.Locality
import Shader.Proofs.Grammar.RoundTrip

/-!
# Programs one after the other

The reader of a program gives the same on a list of tokens and on a longer list, as far as the end
of the shorter list has no part in it. Expressions are read as atoms that carry their places, so
that a fault found at the end of an expression, when the atoms are put together, is still one at a
token of the list.
-/

namespace Shader.Program

open Text

variable {stop : Stop} {prior : Option Atom} {as : List Atom} {e : ParseError} {token : String}
  {index : Nat} {c d : Cursor} {ts : List String} {firm : Prop} {fault : Fault} {root : Scope}

/-! ## Expressions -/

def Atom.shift (n : Nat) (a : Atom) : Atom := { a with index := a.index + n }

def Element.embed (n : Nat) (us : List String) : Element → Element
  | .stop => .stop
  | .atom a after => .atom (a.shift n) (after.embed n us)
  | .call callee after => .call callee (after.embed n us)

def Element.after (c : Cursor) : Element → Cursor
  | .stop => c
  | .atom _ after => after
  | .call _ after => after

def elementFrom (stop : Stop) (prior : Option Atom) (c : Cursor) :
    Except ParseError (Element × Cursor) :=
  (element stop prior c).map fun e => (e, e.after c)

theorem signPosition_shift (prior : Option Atom) (n : Nat) :
    signPosition (prior.map (Atom.shift n)) = signPosition prior := by
  cases prior with
  | none | some => rfl

theorem element_of_ne_nil (hne : c.rest ≠ []) :
    element stop prior c =
      if stop.holds c.token then .ok .stop
      else if c.token = "let" then
        localVariable c.next >>= fun p => pure (.atom ⟨.operand p.1, c.token, c.index⟩ p.2)
      else if c.token = "return" then
        if prior.isSome then .error (c.fail .lateReturn)
        else .ok (.atom ⟨.ret, c.token, c.index⟩ c.next)
      else if (c.token = "-" || c.token = "+") && signPosition prior && c.next.seesNumber then
        .ok (.atom ⟨.operand (.constant
          (if c.token = "-" then "-" ++ c.next.token else c.next.token)), c.token, c.index⟩
          c.next.next)
      else if 0 < bindingPower c.token then
        .ok (.atom ⟨.operator c.token, c.token, c.index⟩ c.next)
      else if isLiteral c.token then
        .ok (.atom ⟨.operand (.constant c.token), c.token, c.index⟩ c.next)
      else if isIdentifier c.token then
        if c.next.sees "(" then .ok (.call c.token c.next.next)
        else .ok (.atom ⟨.operand (.ident c.token), c.token, c.index⟩ c.next)
      else .error (c.fail (.notExpression c.token)) := by
  obtain ⟨index, rest⟩ := c
  cases rest with
  | nil => exact absurd rfl hne
  | cons token rest => rfl

/-- A sign before a number and the bracket of a call are looked for one token ahead. Where that
token is missing, the element found ends at the end of the list. -/
theorem element_tracks (stop : Stop) (prior : Option Atom) (hc : c.In ts) :
    Tracks ts False Element.embed c (elementFrom stop prior c)
      fun n us => elementFrom stop (prior.map (Atom.shift n)) (c.embed n us) := by
  by_cases hne : c.rest = []
  · have hended {c : Cursor} (prior : Option Atom) (h : c.rest = []) :
        elementFrom stop prior c = .error (.ended .expression) := by
      simp [elementFrom, element, h, Except.map]
    rw [hended prior hne]
    exact tracks_ended _ fun n => hended _ (by simp [Cursor.embed, hne])
  have hnext := hc.next hne
  have hlong (n : Nat) (us : List String) : element stop (prior.map (Atom.shift n)) (c.embed n us) =
      _ := element_of_ne_nil (Cursor.embed_ne_nil hne)
  simp only [Cursor.token_embed hne, Cursor.next_embed hne, signPosition_shift,
    Option.isSome_map] at hlong
  -- the atom that takes the next token only
  have htake (kind : AtomKind) {long : Nat → List String → Except ParseError (Element × Cursor)}
      (heq : ∀ n us, c.next.rest ≠ [] ∨ us = [] → long n us =
        .ok (.atom ⟨kind, c.token, c.index + n⟩ (c.next.embed n us), c.next.embed n us)) :
      Tracks ts False Element.embed c
        (.ok (.atom ⟨kind, c.token, c.index⟩ c.next, c.next)) long :=
    tracks_ok _ hnext (absurd · hne) fun n us hcond => heq n us (hcond.resolve_left id)
  unfold elementFrom
  simp only [element_of_ne_nil hne, hlong]
  by_cases hholds : stop.holds c.token = true
  · simp only [hholds, if_true]
    exact tracks_pure Element.stop hc False.elim
  simp only [hholds, Bool.false_eq_true, if_false]
  by_cases hlet : c.token = "let"
  · simp only [hlet, if_true]
    have hvariable (c d : Cursor) (i : Nat) :
        Except.map (fun e : Element => (e, e.after c)) (localVariable d >>= fun p =>
          pure (.atom ⟨.operand p.1, "let", i⟩ p.2)) =
        localVariable d >>= fun p => pure (.atom ⟨.operand p.1, "let", i⟩ p.2, p.2) := by
      cases localVariable d <;> rfl
    simp only [hvariable]
    refine Tracks.next ?_ hne
    exact (localVariable_isLocal hnext).map
      (fun node d => Element.atom ⟨.operand node, "let", c.index⟩ d)
      (fun _ _ => rfl) fun _ _ _ _ => rfl
  simp only [hlet, if_false]
  by_cases hreturn : c.token = "return"
  · simp only [hreturn, if_true]
    cases prior.isSome with
    | true => exact tracks_fail .lateReturn hc hne
    | false =>
      rw [← hreturn]
      exact htake .ret fun n us _ => rfl
  simp only [hreturn, if_false]
  by_cases hsign : ((c.token = "-" || c.token = "+") && signPosition prior &&
      c.next.seesNumber) = true
  · have hahead : c.next.rest ≠ [] := by
      intro hnil
      simp [Cursor.seesNumber, hnil] at hsign
    simp only [Cursor.seesNumber_embed hahead, hsign, if_true]
    refine tracks_ok _ (hnext.next hahead) (absurd · hne) fun n us _ => ?_
    rw [Cursor.next_embed hahead, Cursor.token_embed hahead]
    rfl
  simp only [hsign, Bool.false_eq_true, if_false]
  by_cases hpower : 0 < bindingPower c.token
  · simp only [hpower, if_true]
    refine htake (.operator c.token) fun n us hcond => ?_
    have hnumber : (c.next.embed n us).seesNumber = c.next.seesNumber := by
      rcases hcond with hahead | rfl
      · exact Cursor.seesNumber_embed hahead
      · simp [Cursor.seesNumber, Cursor.embed]
    rw [hnumber, if_neg hsign]
    rfl
  have hplain : (c.token = "-" || c.token = "+") = false := by
    rw [Bool.or_eq_false_iff, decide_eq_false_iff_not, decide_eq_false_iff_not]
    refine ⟨fun h => hpower ?_, fun h => hpower ?_⟩
    · rw [h]
      decide
    · rw [h]
      decide
  simp only [hplain, hpower, Bool.false_and, Bool.false_eq_true, if_false]
  by_cases hliteral : isLiteral c.token = true
  · simp only [hliteral, if_true]
    exact htake _ fun n us _ => rfl
  simp only [hliteral, Bool.false_eq_true, if_false]
  by_cases hid : isIdentifier c.token = true
  · simp only [hid, if_true]
    cases hcall : c.next.sees "(" with
    | true =>
      have hahead := Cursor.sees_ne_nil hcall
      simp only [Cursor.sees_embed hahead, hcall, if_true]
      refine tracks_ok _ (hnext.next hahead) (absurd · hne) fun n us _ => ?_
      rw [Cursor.next_embed hahead]
      rfl
    | false =>
      simp only [Bool.false_eq_true, if_false]
      refine htake _ fun n us hcond => ?_
      have hname : (c.next.embed n us).sees "(" = false := by
        rcases hcond with hahead | rfl
        · rw [Cursor.sees_embed hahead, hcall]
        · rw [← hcall]
          simp [Cursor.sees, Cursor.embed]
      rw [hname, if_neg Bool.false_ne_true]
      rfl
  · simp only [hid, Bool.false_eq_true, if_false]
    exact tracks_fail _ hc hne

/-! Runs of the readers of expressions, with plain cursors. -/

def atomsFrom (stop : Stop) (prior : Option Atom) (c : Cursor) :
    Except ParseError (List Atom × Cursor) :=
  (atoms stop prior c).map fun p => (p.1, p.2.1)

def argumentsFrom (callee : String) (c : Cursor) : Except ParseError (List Node × Cursor) :=
  (arguments callee c).map fun p => (p.1, p.2.1)

def callFrom (callee : String) (c : Cursor) : Except ParseError (List Node × Cursor) :=
  if c.sees ")" then .ok ([], c.next) else argumentsFrom callee c

def atomsAfter (stop : Stop) (a : Atom) (c : Cursor) : Except ParseError (List Atom × Cursor) :=
  atomsFrom stop (some a) c >>= fun q => .ok (a :: q.1, q.2)

theorem atomsFrom_eq (stop : Stop) (prior : Option Atom) (c : Cursor) :
    atomsFrom stop prior c = elementFrom stop prior c >>= fun p =>
      match p.1 with
      | .stop => .ok ([], p.2)
      | .atom a _ => atomsAfter stop a p.2
      | .call callee _ => callFrom callee p.2 >>= fun q =>
        atomsAfter stop ⟨.operand (.call callee q.1), callee, c.index⟩ q.2 := by
  have hfrom {r : Except ParseError Element} (he : element stop prior c = r) :
      elementFrom stop prior c = r.map fun e => (e, e.after c) := by
    rw [elementFrom, he]
  unfold atomsFrom
  rw [atoms]
  split
  · rename_i e he
    rw [hfrom he]
    rfl
  · rename_i he
    rw [hfrom he]
    rfl
  · rename_i a after he
    rw [hfrom he]
    change _ = atomsAfter stop a after
    unfold atomsAfter atomsFrom
    dsimp only
    cases atoms stop (some a) after with
    | error | ok => rfl
  · rename_i callee after he
    rw [hfrom he]
    change _ = callFrom callee after >>= fun q =>
      atomsAfter stop ⟨.operand (.call callee q.1), callee, c.index⟩ q.2
    unfold callFrom
    dsimp only
    split
    · change _ = atomsAfter stop ⟨.operand (.call callee []), callee, c.index⟩ after.next
      unfold atomsAfter atomsFrom
      cases atoms stop (some ⟨.operand (.call callee []), callee, c.index⟩) after.next with
      | error | ok => rfl
    · unfold argumentsFrom
      cases arguments callee after with
      | error e => rfl
      | ok p =>
        obtain ⟨args, closed, hclosed⟩ := p
        change _ = atomsAfter stop ⟨.operand (.call callee args), callee, c.index⟩ closed
        unfold atomsAfter atomsFrom
        dsimp only
        cases atoms stop (some ⟨.operand (.call callee args), callee, c.index⟩) closed with
        | error | ok => rfl

theorem argumentsFrom_eq (callee : String) (c : Cursor) :
    argumentsFrom callee c = atomsFrom .argument none c >>= fun p =>
      assemble c.token c.index p.1 >>= fun arg =>
        if p.2.rest = [] then .error (.ended .expression)
        else if p.2.sees "," then
          argumentsFrom callee p.2.next >>= fun q => .ok (arg :: q.1, q.2)
        else if p.2.sees ")" then .ok ([arg], p.2.next)
        else .error (p.2.fail (.openCall callee)) := by
  unfold argumentsFrom atomsFrom
  rw [arguments]
  cases atoms .argument none c with
  | error e => rfl
  | ok p =>
    obtain ⟨as, d, hd⟩ := p
    change _ = assemble c.token c.index as >>= _
    dsimp only
    cases assemble c.token c.index as with
    | error e => rfl
    | ok arg =>
      change _ = if d.rest = [] then _ else _
      dsimp only
      split
      · rfl
      · split
        · cases arguments callee d.next with
          | error | ok => rfl
        · split
          · rfl
          · rfl

/-! ## Assembly at another place -/

def ParseError.shift (n : Nat) : ParseError → ParseError
  | .at fault token index => .at fault token (index + n)
  | .ended part => .ended part

theorem mapError_bind_pure {α β : Type} (f : ParseError → ParseError) (x : Except ParseError α)
    (g : α → β) :
    (x.mapError f >>= fun a => pure (g a)) = (x >>= fun a => pure (g a)).mapError f := by
  cases x <;> rfl

mutual

theorem operandFirst_shift (n : Nat) (last : Atom) :
    ∀ as : List Atom, operandFirst (last.shift n) (as.map (Atom.shift n)) =
      (operandFirst last as).mapError (ParseError.shift n)
  | [] => rfl
  | a :: rest => by
    obtain ⟨kind, token, index⟩ := a
    have ih := operatorFirst_shift n rest
    cases kind with
    | operand node =>
      change (operatorFirst (rest.map (Atom.shift n)) >>= fun tail => pure (node, tail)) = _
      rw [ih]
      exact mapError_bind_pure ..
    | operator | ret => rfl

theorem operatorFirst_shift (n : Nat) :
    ∀ as : List Atom, operatorFirst (as.map (Atom.shift n)) =
      (operatorFirst as).mapError (ParseError.shift n)
  | [] => rfl
  | a :: rest => by
    obtain ⟨kind, token, index⟩ := a
    cases kind with
    | operand node => rfl
    | operator symbol =>
      have ih := operandFirst_shift n ⟨.operator symbol, token, index⟩ rest
      change (operandFirst (Atom.shift n ⟨.operator symbol, token, index⟩)
          (rest.map (Atom.shift n)) >>= fun p => pure ((symbol, p.1) :: p.2)) = _
      rw [ih]
      exact mapError_bind_pure ..
    | ret => rfl

end

theorem assembleValue_shift (n : Nat) (last : Atom) (as : List Atom) :
    assembleValue (last.shift n) (as.map (Atom.shift n)) =
      (assembleValue last as).mapError (ParseError.shift n) := by
  unfold assembleValue
  rw [operandFirst_shift]
  exact mapError_bind_pure _ _ fun p : Node × List (String × Node) => grow p.1 p.2

theorem assemble_shift (n : Nat) (token : String) (index : Nat) (as : List Atom) :
    assemble token (index + n) (as.map (Atom.shift n)) =
      (assemble token index as).mapError (ParseError.shift n) := by
  cases as with
  | nil => rfl
  | cons first rest =>
    have hvalue := assembleValue_shift n first (first :: rest)
    have hreturned := assembleValue_shift n first rest
    obtain ⟨kind, token', index'⟩ := first
    cases kind with
    | operand | operator => exact hvalue
    | ret =>
      cases rest with
      | nil => rfl
      | cons second rest =>
        change (assembleValue _ ((second :: rest).map (Atom.shift n)) >>= fun value =>
          pure (Node.ret (some value))) = _
        rw [hreturned]
        exact mapError_bind_pure _ _ fun value => Node.ret (some value)

/-- The error is a fault at one of the atoms. -/
def FaultAmong (as : List Atom) (e : ParseError) : Prop :=
  ∃ a ∈ as, ∃ fault, e = .at fault a.token a.index

theorem FaultAmong.mono {bs : List Atom} (h : FaultAmong as e) (hsub : as ⊆ bs) :
    FaultAmong bs e := by
  obtain ⟨a, ha, fault, rfl⟩ := h
  exact ⟨a, hsub ha, fault, rfl⟩

theorem bind_pure_eq_error {α β : Type} {x : Except ParseError α} {g : α → β}
    (h : (x >>= fun a => pure (g a)) = .error e) : x = .error e := by
  cases x with
  | error e' => exact congrArg _ (Except.error.inj h)
  | ok a => cases h

mutual

theorem operandFirst_faultAmong (last : Atom) {e : ParseError} :
    ∀ as : List Atom, operandFirst last as = .error e → FaultAmong (last :: as) e
  | [], h => ⟨last, by simp, _, (Except.error.inj h).symm⟩
  | a :: rest, h => by
    obtain ⟨kind, token, index⟩ := a
    cases kind with
    | operand node =>
      have hrest : operatorFirst rest = .error e :=
        bind_pure_eq_error (g := fun tail => (node, tail)) h
      exact (operatorFirst_faultAmong rest hrest).mono fun _ hb => by simp [hb]
    | operator | ret => exact ⟨_, by simp, _, (Except.error.inj h).symm⟩

theorem operatorFirst_faultAmong {e : ParseError} :
    ∀ as : List Atom, operatorFirst as = .error e → FaultAmong as e
  | [], h => by cases h
  | a :: rest, h => by
    obtain ⟨kind, token, index⟩ := a
    cases kind with
    | operand node => exact ⟨_, by simp, _, (Except.error.inj h).symm⟩
    | operator symbol =>
      exact operandFirst_faultAmong _ rest
        (bind_pure_eq_error (g := fun p : Node × List (String × Node) => (symbol, p.1) :: p.2) h)
    | ret => exact ⟨_, by simp, _, (Except.error.inj h).symm⟩

end

theorem assembleValue_faultAmong {last : Atom} (h : assembleValue last as = .error e) :
    FaultAmong (last :: as) e :=
  operandFirst_faultAmong last as
    (bind_pure_eq_error (g := fun p : Node × List (String × Node) => grow p.1 p.2) h)

/-- A fault of assembly is at the start of the expression or at one of its atoms. -/
theorem assemble_faultAmong (h : assemble token index as = .error e) :
    (∃ fault, e = .at fault token index) ∨ FaultAmong as e := by
  cases as with
  | nil => exact Or.inl ⟨_, (Except.error.inj h).symm⟩
  | cons first rest =>
    have hvalue (h : assembleValue first (first :: rest) = .error e) :
        FaultAmong (first :: rest) e :=
          (assembleValue_faultAmong h).mono fun _ hb => by simpa using hb
    obtain ⟨kind, token', index'⟩ := first
    refine Or.inr ?_
    cases kind with
    | operand | operator => exact hvalue h
    | ret =>
      cases rest with
      | nil => cases h
      | cons second rest =>
        exact assembleValue_faultAmong
          (bind_pure_eq_error (g := fun value => Node.ret (some value)) h)

/-! ## Whole expressions -/

def shiftAll (n : Nat) (_ : List String) (as : List Atom) : List Atom := as.map (Atom.shift n)

theorem element_token {e : Element} (h : element stop prior c = .ok e) :
    match e with
    | .stop => True
    | .atom a _ => a.token = c.token ∧ a.index = c.index
    | .call callee _ => callee = c.token := by
  by_cases hne : c.rest = []
  · simp [element, hne] at h
  rw [element_of_ne_nil hne] at h
  split at h
  · cases h
    trivial
  split at h
  · obtain ⟨p, -, h⟩ := bind_eq_ok h
    cases h
    exact ⟨rfl, rfl⟩
  split at h
  · split at h
    · cases h
    · cases h
      exact ⟨rfl, rfl⟩
  split at h
  · cases h
    exact ⟨rfl, rfl⟩
  split at h
  · cases h
    exact ⟨rfl, rfl⟩
  split at h
  · cases h
    exact ⟨rfl, rfl⟩
  split at h
  · split at h
    · cases h
      rfl
    · cases h
      exact ⟨rfl, rfl⟩
  · cases h

theorem element_ne_nil {e : Element} (h : element stop prior c = .ok e) : c.rest ≠ [] := by
  intro hnil
  simp [element, hnil] at h

theorem element_within {e : Element} (hc : c.In ts) (h : element stop prior c = .ok e) :
    (e.after c).In ts :=
  (element_tracks stop prior hc).within e _ (by rw [elementFrom, h]; rfl)

mutual

theorem ReadsAtoms.located {stop : Stop} {prior : Option Atom} {c d : Cursor} {as : List Atom} :
    ReadsAtoms stop prior c as d → c.In ts →
      d.In ts ∧ d.rest ≠ [] ∧ ∀ a ∈ as, ts[a.index]? = some a.token
  | .stop h, hc => ⟨hc, element_lt h, by simp⟩
  | .atom (a := a) h hmore, hc => by
    obtain ⟨hd, hahead, hall⟩ := hmore.located (element_within hc h)
    obtain ⟨htoken, hindex⟩ := element_token h
    refine ⟨hd, hahead, List.forall_mem_cons.mpr ⟨?_, hall⟩⟩
    rw [htoken, hindex]
    exact hc.getElem? (element_ne_nil h)
  | .call h hargs hmore, hc => by
    obtain ⟨hd, hahead, hall⟩ := hmore.located (hargs.within (element_within hc h))
    refine ⟨hd, hahead, List.forall_mem_cons.mpr ⟨?_, hall⟩⟩
    rw [show _ = c.token from element_token h]
    exact hc.getElem? (element_ne_nil h)

theorem ReadsCall.within {c d : Cursor} {args : List Node} :
    ReadsCall c args d → c.In ts → d.In ts
  | .none h, hc => hc.next (Cursor.sees_ne_nil h)
  | .some _ hargs, hc => hargs.within hc

theorem ReadsArguments.within {c d : Cursor} {args : List Node} :
    ReadsArguments c args d → c.In ts → d.In ts
  | .last has _ h, hc => (has.located hc).1.next (Cursor.sees_ne_nil h)
  | .more has _ h hmore, hc => hmore.within ((has.located hc).1.next (Cursor.sees_ne_nil h))

end

theorem atomsFrom_located (hc : c.In ts) (h : atomsFrom stop prior c = .ok (as, d)) :
    d.In ts ∧ d.rest ≠ [] ∧ (∀ a ∈ as, ts[a.index]? = some a.token) ∧
      d.rest.length ≤ c.rest.length := by
  cases hatoms : atoms stop prior c with
  | error e => simp [atomsFrom, hatoms, Except.map] at h
  | ok p =>
    obtain ⟨as', d', hle⟩ := p
    simp only [atomsFrom, hatoms, Except.map, Except.ok.injEq, Prod.mk.injEq] at h
    obtain ⟨rfl, rfl⟩ := h
    obtain ⟨hd, hahead, hall⟩ := (atoms_eq_ok_iff.mp ⟨hle, hatoms⟩).located hc
    exact ⟨hd, hahead, hall, hle⟩

theorem callFrom_le {callee : String} {args : List Node} (h : callFrom callee c = .ok (args, d)) :
    d.rest.length ≤ c.rest.length := by
  unfold callFrom at h
  split at h
  · cases h
    exact c.next_le
  · cases hargs : arguments callee c with
    | error e => simp [argumentsFrom, hargs, Except.map] at h
    | ok p =>
      obtain ⟨args', d', hle⟩ := p
      simp only [argumentsFrom, hargs, Except.map, Except.ok.injEq, Prod.mk.injEq] at h
      exact h.2 ▸ hle

theorem tracks_fault {β : Type} {move : Nat → List String → β → β}
    {long} (hd : d.rest ≠ []) (hat : ts[index]? = some token)
    (heq : ∀ n us, long n us = .error (.at fault token (index + n))) :
    Tracks ts firm move d (.error (.at fault token index)) long where
  within b e hb := by cases hb
  located fault token index he := by cases he; exact hat
  atEnd hnil := absurd hnil hd
  ok n us b e hb _ := by cases hb
  fault n us fault token index he := by cases he; exact heq n us
  ended n part he := by cases he

/-- The atoms of an expression that starts at `c` and ends at `d` are assembled, and the tree is
used. -/
theorem tracks_assemble {β : Type} {g : Node → Cursor → Except ParseError (β × Cursor)}
    (hc : c.In ts) (hne : c.rest ≠ []) (hd : d.rest ≠ [])
    (has : ∀ a ∈ as, ts[a.index]? = some a.token) (hg : ∀ node, IsLocal ts firm (g node) d) :
    Tracks ts firm still d (assemble c.token c.index as >>= fun node => g node d) fun n us =>
      assemble (c.embed n us).token (c.embed n us).index (shiftAll n us as) >>= fun node =>
        g node (d.embed n us) := by
  have hlong (n : Nat) (us : List String) :
      assemble (c.embed n us).token (c.embed n us).index (shiftAll n us as) =
        (assemble c.token c.index as).mapError (ParseError.shift n) := by
    rw [Cursor.token_embed hne]
    exact assemble_shift n c.token c.index as
  simp only [hlong]
  cases hassemble : assemble c.token c.index as with
  | ok node => exact hg node
  | error e =>
    obtain ⟨fault, rfl⟩ | ⟨a, ha, fault, rfl⟩ := assemble_faultAmong hassemble
    · exact tracks_fault hd (hc.getElem? hne) fun _ _ => rfl
    · exact tracks_fault hd (has a ha) fun _ _ => rfl

/-- The atoms and arguments read from the cursor on, wherever they are read. -/
structure ReadsAlike (ts : List String) (c : Cursor) : Prop where
  atoms : ∀ stop prior, Tracks ts True shiftAll c (atomsFrom stop prior c)
    fun n us => atomsFrom stop (prior.map (Atom.shift n)) (c.embed n us)
  arguments : ∀ callee, IsLocal ts True (argumentsFrom callee) c

theorem atomsFrom_tracks_of_lt (hc : c.In ts)
    (ih : ∀ d : Cursor, d.In ts → d.rest.length < c.rest.length → ReadsAlike ts d)
    (stop : Stop) (prior : Option Atom) :
    Tracks ts True shiftAll c (atomsFrom stop prior c)
      fun n us => atomsFrom stop (prior.map (Atom.shift n)) (c.embed n us) := by
  have hafter (a : Atom) {d : Cursor} (hd : d.In ts) (hlt : d.rest.length < c.rest.length) :
      Tracks ts True shiftAll d (atomsAfter stop a d)
        fun n us => atomsAfter stop (a.shift n) (d.embed n us) :=
    ((ih d hd hlt).atoms stop (some a)).map (fun more _ => a :: more) (fun _ _ => rfl)
      fun _ _ _ _ => rfl
  simp only [atomsFrom_eq]
  refine (element_tracks stop prior hc).bind fun e d he hd => ?_
  obtain ⟨e', he', heq⟩ : ∃ e', element stop prior c = .ok e' ∧ (e', e'.after c) = (e, d) := by
    unfold elementFrom at he
    cases hr : element stop prior c with
    | error err => simp [hr, Except.map] at he
    | ok e' => exact ⟨e', rfl, by simpa [hr, Except.map] using he⟩
  cases heq
  have hlt := element_lt he'
  cases e with
  | stop => exact tracks_pure [] hc fun _ => hlt
  | atom a after => exact hafter a hd hlt
  | call callee after =>
    have hcall : IsLocal ts True (callFrom callee) after := by
      refine IsLocal.ite ")" (fun h => ?_) fun _ => (ih after hd hlt).arguments callee
      exact tracks_take [] hd (Cursor.sees_ne_nil h)
    refine hcall.bind fun args closed hargs hclosed => ?_
    have hle := callFrom_le hargs
    exact hafter ⟨.operand (.call callee args), callee, c.index⟩ hclosed
      (Nat.lt_of_le_of_lt hle hlt)

theorem argumentsFrom_isLocal_of_lt (hc : c.In ts)
    (hatoms : Tracks ts True shiftAll c (atomsFrom .argument none c)
      fun n us => atomsFrom .argument none (c.embed n us))
    (ih : ∀ d : Cursor, d.In ts → d.rest.length < c.rest.length → ReadsAlike ts d)
    (callee : String) : IsLocal ts True (argumentsFrom callee) c := by
  refine IsLocal.congr ?_ (argumentsFrom_eq callee)
  refine hatoms.bind fun as d has hd => ?_
  obtain ⟨-, hahead, hall, hle⟩ := atomsFrom_located hc has
  have hne : c.rest ≠ [] := by
    rw [← List.length_pos_iff] at hahead ⊢
    omega
  refine tracks_assemble (g := fun arg d => if d.rest = [] then .error (.ended .expression)
    else if d.sees "," then argumentsFrom callee d.next >>= fun q => .ok (arg :: q.1, q.2)
    else if d.sees ")" then .ok ([arg], d.next)
    else .error (d.fail (.openCall callee))) hc hne hahead hall fun arg => ?_
  refine IsLocal.unlessEnded .expression fun _ => ?_
  refine IsLocal.ite "," (fun _ => ?_) fun _ => ?_
  · refine IsLocal.next (f := fun d => argumentsFrom callee d >>= fun q => .ok (arg :: q.1, q.2))
      ?_ hahead
    have hlt := Cursor.next_lt hahead
    exact ((ih d.next (hd.next hahead) (by omega)).arguments callee).map (fun args _ => arg :: args)
      (fun _ _ => rfl) fun _ _ _ _ => rfl
  · exact IsLocal.ite ")" (fun _ => tracks_take [arg] hd hahead) fun _ => tracks_fail _ hd hahead

theorem reads_alike (hc : c.In ts) : ReadsAlike ts c := by
  -- a call's arguments have fewer tokens ahead, the first expression of arguments as many
  induction hn : c.rest.length using Nat.strongRecOn generalizing c with
  | ind n ih =>
    have ih' (d : Cursor) (hd : d.In ts) (hlt : d.rest.length < c.rest.length) :
        ReadsAlike ts d := ih _ (hn ▸ hlt) hd rfl
    have hatoms := atomsFrom_tracks_of_lt hc ih'
    exact ⟨hatoms, argumentsFrom_isLocal_of_lt hc (hatoms .argument none) ih'⟩

theorem expression_isLocal (stop : Stop) (hc : c.In ts) : IsLocal ts True (expression stop) c := by
  have heq (c : Cursor) : expression stop c = atomsFrom stop none c >>= fun p =>
      assemble c.token c.index p.1 >>= fun node => pure (node, p.2) := by
    unfold expression atomsFrom
    cases atoms stop none c with
    | error | ok => rfl
  refine IsLocal.congr ?_ heq
  refine ((reads_alike hc).atoms stop none).bind fun as d has hd => ?_
  obtain ⟨-, hahead, hall, hle⟩ := atomsFrom_located hc has
  have hne : c.rest ≠ [] := by
    rw [← List.length_pos_iff] at hahead ⊢
    omega
  exact tracks_assemble (g := fun node d => pure (node, d)) hc hne hahead hall
    fun node => tracks_pure node hd fun _ => hahead

theorem statement_isLocal (hc : c.In ts) : IsLocal ts True statement c :=
  (expression_isLocal .statement hc).bind fun node _ _ hd => isLocal_expect_pure ";" node hd

/-! ## Declarations -/

theorem fields_eq (struct : String) (c : Cursor) :
    fields struct c = if c.rest = [] then .error (.ended (.struct struct))
      else if c.sees "\x7d" then .ok ([], c.next)
      else field c >>= fun p =>
        if p.2.rest = [] then .error (.ended (.struct struct))
        else if p.2.sees "," then
          fields struct p.2.next >>= fun q => .ok (p.1 :: q.1, q.2)
        else if p.2.sees "\x7d" then .ok ([p.1], p.2.next)
        else .error (p.2.fail (.fieldEnd struct p.1.name)) := by
  rw [fields]
  split
  · rfl
  split
  · rfl
  split
  · rename_i e he
    rw [he]
    rfl
  · rename_i first d he
    dsimp only
    rw [he]
    change _ = if d.rest = [] then _ else _
    split
    · rfl
    split
    · cases fields struct d.next with
      | error | ok => rfl
    · rfl

theorem fields_isLocal (struct : String) (hc : c.In ts) : IsLocal ts True (fields struct) c := by
  induction hn : c.rest.length using Nat.strongRecOn generalizing c with
  | ind n ih =>
    refine IsLocal.congr ?_ (fields_eq struct)
    refine IsLocal.unlessEnded _ fun hne => ?_
    refine IsLocal.ite "\x7d" (fun _ => tracks_take [] hc hne) fun _ => ?_
    refine (field_isLocal hc).bind fun first d hfirst hd => ?_
    have hlt := field_lt hfirst
    have hrest : IsLocal ts True (fun d =>
        if d.rest = [] then .error (.ended (.struct struct))
        else if d.sees "," then fields struct d.next >>= fun q => .ok (first :: q.1, q.2)
        else if d.sees "\x7d" then .ok ([first], d.next)
        else .error (d.fail (.fieldEnd struct first.name))) d := by
      refine IsLocal.unlessEnded _ fun hahead => ?_
      refine IsLocal.ite "," (fun _ => ?_) fun _ => ?_
      · have hnext := Cursor.next_le d
        have hmore := ih d.next.rest.length (by omega) (hd.next hahead) rfl
        exact IsLocal.next (f := fun d => fields struct d >>= fun q => .ok (first :: q.1, q.2))
          (hmore.map (fun more _ => first :: more) (fun _ _ => rfl) fun _ _ _ _ => rfl) hahead
      · exact IsLocal.ite "\x7d" (fun _ => tracks_take [first] hd hahead) fun _ =>
          tracks_fail _ hd hahead
    exact hrest

theorem statements_eq (function : String) (c : Cursor) :
    statements function c = if c.rest = [] then .error (.ended (.function function))
      else if c.sees "\x7d" then .ok ([], c.next)
      else statement c >>= fun p =>
        statements function p.2 >>= fun q => .ok (p.1 :: q.1, q.2) := by
  rw [statements]
  split
  · rfl
  split
  · rfl
  split
  · rename_i e he
    rw [he]
    rfl
  · rename_i first d he
    dsimp only
    rw [he]
    change _ = statements function d >>= fun q => _
    cases statements function d with
    | error | ok => rfl

theorem statements_isLocal (function : String) (hc : c.In ts) :
    IsLocal ts True (statements function) c := by
  induction hn : c.rest.length using Nat.strongRecOn generalizing c with
  | ind n ih =>
    refine IsLocal.congr ?_ (statements_eq function)
    refine IsLocal.unlessEnded _ fun hne => ?_
    refine IsLocal.ite "\x7d" (fun _ => tracks_take [] hc hne) fun _ => ?_
    refine (statement_isLocal hc).bind fun first d hfirst hd => ?_
    have hlt := statement_lt hfirst
    exact (ih d.rest.length (by omega) hd rfl).map (fun more _ => first :: more) (fun _ _ => rfl)
      fun _ _ _ _ => rfl

theorem structBody_isLocal (name : String) (annotations : List String) (hc : c.In ts) :
    IsLocal ts True (structBody name annotations) c :=
  IsLocal.expect "\x7b" hc fun _ hd =>
    (fields_isLocal name hd).map (fun members _ => Node.struct ⟨name, members, annotations⟩)
      (fun _ _ => rfl) fun _ _ _ _ => rfl

/-- Reads a function after the opening parenthesis of its parameters, of which there are none. -/
def functionRest (name : String) (annotations : List String) (c : Cursor) :
    Except ParseError (Node × Cursor) := do
  let c ← expect ")" c
  let c ← expect "->" c
  let (returns, c) ← typeName c
  let c ← expect "\x7b" c
  let (body, c) ← statements name c
  return (.function name [] returns body annotations, c)

theorem functionBody_isLocal (name : String) (annotations : List String) (hc : c.In ts) :
    IsLocal ts True (functionBody name annotations) c := by
  refine IsLocal.expect "(" hc fun d hd => ?_
  have hclosed : IsLocal ts True (functionRest name annotations) d :=
    IsLocal.expect ")" hd fun _ hd => IsLocal.expect "->" hd fun _ hd =>
      (typeName_isLocal hd).bind fun returns _ _ hd => IsLocal.expect "\x7b" hd fun _ hd =>
        (statements_isLocal name hd).map
          (fun body _ => Node.function name [] returns body annotations) (fun _ _ => rfl)
          fun _ _ _ _ => rfl
  exact IsLocal.unlessOther ")" (.parameters name) hd hclosed

theorem memberBody_isLocal (name : String) (annotations : List String) (hc : c.In ts) :
    IsLocal ts True (memberBody name annotations) c :=
  (typedMember_isLocal name annotations hc).bind fun decl _ _ hd =>
    isLocal_expect_pure ";" (Node.member decl) hd

theorem declarationBody_isLocal (name : String) (annotations : List String) (hc : c.In ts) :
    IsLocal ts True (declarationBody name annotations) c := by
  refine IsLocal.ite "struct" (fun h => ?_) fun _ => IsLocal.ite "fn" (fun h => ?_) fun _ => ?_
  · have hne := Cursor.sees_ne_nil h
    exact (structBody_isLocal name annotations (hc.next hne)).next hne
  · have hne := Cursor.sees_ne_nil h
    exact (functionBody_isLocal name annotations (hc.next hne)).next hne
  · exact memberBody_isLocal name annotations hc

theorem tagBody_isLocal (hc : c.In ts) : IsLocal ts True tagBody c :=
  IsLocal.expect "[" hc fun _ hd =>
    (identifier_isLocal .tag hd).bind fun tag _ _ hd => isLocal_expect_pure "]" tag hd

/-- A declaration or an annotation, where a token is ahead. -/
theorem item_isLocal (tags : List String) (hc : c.In ts) (hne : c.rest ≠ []) :
    IsLocal ts True (item tags) c := by
  have hnext := hc.next hne
  refine IsLocal.ite "#" (fun _ => ?_) fun _ => ?_
  · exact IsLocal.next (f := fun c => tagBody c >>= fun p => pure (Item.tag p.1, p.2))
      ((tagBody_isLocal hnext).map (fun tag _ => Item.tag tag) (fun _ _ => rfl) fun _ _ _ _ => rfl)
      hne
  simp only [IsLocal, Cursor.token_embed hne, Cursor.next_embed hne]
  by_cases hid : isIdentifier c.token = true
  · simp only [hid, if_true]
    by_cases hahead : c.next.rest = []
    · simp only [hahead, if_true]
      exact tracks_ended _ fun n => if_pos (by simp [Cursor.embed, hahead])
    · simp only [hahead, if_false, Cursor.embed_ne_nil hahead, Cursor.sees_embed hahead,
        Cursor.next_embed hahead]
      cases c.next.sees ":" with
      | true =>
        refine Tracks.next (Tracks.next ?_ hahead) hne
        exact (declarationBody_isLocal c.token tags (hnext.next hahead)).map
          (fun node _ => Item.declaration node) (fun _ _ => rfl) fun _ _ _ _ => rfl
      | false => exact tracks_fail _ hc hne
  · simp only [hid, Bool.false_eq_true, if_false]
    exact tracks_fail _ hc hne

/-! ## Programs -/

theorem declarations_eq (tags : List String) (hne : c.rest ≠ []) :
    declarations tags c = item tags c >>= fun p =>
      match p.1 with
      | .tag tag => declarations (tags ++ [tag]) p.2
      | .declaration node => (declarations [] p.2).map (node :: ·) := by
  rw [declarations.eq_def, dif_neg hne]
  split
  · rename_i e he
    rw [he]
    rfl
  · rename_i tag d he
    dsimp only
    rw [he]
    rfl
  · rename_i node d he
    dsimp only
    rw [he]
    change _ = (declarations [] d).map (node :: ·)
    cases declarations [] d with
    | error | ok => rfl

/-- A result about the declarations of a list, and the declarations of a longer list. -/
inductive Carries (ts : List String) (c : Cursor) (tags : List String) : Prop
  /-- The declarations are complete; those of the longer list follow them. -/
  | ok (nodes : List Node) (short : declarations tags c = .ok nodes)
      (long : ∀ n us, declarations tags (c.embed n us) =
        (declarations [] ⟨ts.length + n, us⟩).map (nodes ++ ·))
  | fault (fault : Fault) (token : String) (index : Nat)
      (short : declarations tags c = .error (.at fault token index))
      (located : ts[index]? = some token)
      (long : ∀ n us, declarations tags (c.embed n us) = .error (.at fault token (index + n)))
  | ended (part : Unfinished) (short : declarations tags c = .error (.ended part))
      (long : ∀ n, declarations tags (c.embed n []) = .error (.ended part))

theorem carries_of_nil (tags : List String) (hc : c.In ts) (hnil : c.rest = []) :
    Carries ts c tags := by
  obtain ⟨before, hts, hindex⟩ := hc
  have hend {c : Cursor} (h : c.rest = []) (tag : String) (more : List String) :
      declarations (tag :: more) c = .error (.ended (.tag tag)) := by
    rw [declarations.eq_def, dif_pos h]
  cases tags with
  | nil =>
    refine .ok [] (by rw [declarations.eq_def, dif_pos hnil]) fun n us => ?_
    have hembed : c.embed n us = ⟨ts.length + n, us⟩ := by
      simp [Cursor.embed, hnil, hindex, hts]
    rw [hembed]
    cases declarations [] ⟨ts.length + n, us⟩ with
    | error | ok => rfl
  | cons tag more =>
    exact .ended (.tag tag) (hend hnil tag more) fun n =>
      hend (by simp [Cursor.embed, hnil]) tag more

theorem carries (tags : List String) (hc : c.In ts) : Carries ts c tags := by
  induction hn : c.rest.length using Nat.strongRecOn generalizing c tags with
  | ind n ih =>
    by_cases hne : c.rest = []
    · exact carries_of_nil tags hc hne
    have hitem := item_isLocal tags hc hne
    have hlong (n : Nat) (us : List String) :=
      declarations_eq tags (@Cursor.embed_ne_nil us c n hne)
    cases hshort : item tags c with
    | error e =>
      have heq : declarations tags c = .error e := by
        rw [declarations_eq tags hne, hshort]
        rfl
      cases e with
      | «at» fault token index =>
        refine .fault fault token index heq (hitem.located _ _ _ hshort) fun n us => ?_
        rw [hlong, hitem.fault n us _ _ _ hshort]
        rfl
      | ended part =>
        refine .ended part heq fun n => ?_
        rw [hlong, hitem.ended n _ hshort]
        rfl
    | ok p =>
      obtain ⟨i, d⟩ := p
      have hd := hitem.within i d hshort
      have hlt : d.rest.length < n := hn ▸ item_lt hne hshort
      have hstep (n : Nat) (us : List String) := hitem.ok n us i d hshort (Or.inl trivial)
      have heq := declarations_eq tags hne
      simp only [hshort] at heq
      simp only [hstep] at hlong
      cases i with
      | tag tag =>
        cases ih d.rest.length hlt (tags ++ [tag]) hd rfl with
        | ok nodes short long =>
          exact .ok nodes (heq.trans short) fun n us => (hlong n us).trans (long n us)
        | fault fault token index short located long =>
          exact .fault fault token index (heq.trans short) located fun n us =>
            (hlong n us).trans (long n us)
        | ended part short long =>
          exact .ended part (heq.trans short) fun n => (hlong n []).trans (long n)
      | declaration node =>
        have heq : declarations tags c = (declarations [] d).map (node :: ·) := heq
        have hlong (n : Nat) (us : List String) : declarations tags (c.embed n us) =
          (declarations [] (d.embed n us)).map (node :: ·) := hlong n us
        cases ih d.rest.length hlt [] hd rfl with
        | ok nodes short long =>
          refine .ok (node :: nodes) (by rw [heq, short]; rfl) fun n us => ?_
          rw [hlong, long]
          cases declarations [] ⟨ts.length + n, us⟩ with
          | error | ok => rfl
        | fault fault token index short located long =>
          exact .fault fault token index (by rw [heq, short]; rfl) located fun n us => by
            rw [hlong, long]
            rfl
        | ended part short long =>
          exact .ended part (by rw [heq, short]; rfl) fun n => by
            rw [hlong, long]
            rfl

theorem Cursor.in_start (ts : List String) : (⟨0, ts⟩ : Cursor).In ts := ⟨[], rfl, rfl⟩

theorem parse_eq_ok_iff :
    parse ts = .ok root ↔
      ∃ nodes, declarations [] ⟨0, ts⟩ = .ok nodes ∧ root = Scope.root nodes := by
  unfold parse
  cases declarations [] ⟨0, ts⟩ with
  | error e => simp [Except.map]
  | ok nodes => simp [Except.map, eq_comm]

theorem parse_eq_error_iff : parse ts = .error e ↔ declarations [] ⟨0, ts⟩ = .error e := by
  unfold parse
  cases declarations [] ⟨0, ts⟩ with
  | error | ok => simp [Except.map]

theorem parse_append_of_fault (h : parse ts = .error (.at fault token index)) (us : List String) :
    ts[index]? = some token ∧ parse (ts ++ us) = .error (.at fault token index) := by
  rw [parse_eq_error_iff] at h ⊢
  cases carries [] (Cursor.in_start ts) with
  | ok nodes short long => simp [short] at h
  | fault fault' token' index' short located long =>
    cases h.symm.trans short
    exact ⟨located, long 0 us⟩
  | ended part short long => simp [short] at h

theorem declarations_append {nodes : List Node} (h : declarations [] ⟨0, ts⟩ = .ok nodes)
    (us : List String) :
    declarations [] ⟨0, ts ++ us⟩ = (declarations [] ⟨ts.length, us⟩).map (nodes ++ ·) := by
  cases carries [] (Cursor.in_start ts) with
  | ok nodes' short long =>
    cases h.symm.trans short
    exact long 0 us
  | fault fault token index short located long | ended part short long => simp [short] at h

theorem declarations_shift (us : List String) (n : Nat) :
    declarations [] ⟨n, us⟩ = (declarations [] ⟨0, us⟩).mapError (ParseError.shift n) := by
  have hembed : (⟨0, us⟩ : Cursor).embed n [] = ⟨n, us⟩ := by simp [Cursor.embed]
  rw [← hembed]
  cases carries [] (Cursor.in_start us) with
  | ok nodes short long =>
    rw [short, long, declarations.eq_def]
    simp [Except.map, Except.mapError]
  | fault fault token index short located long | ended part short long =>
    rw [short, long]
    rfl

theorem parse_append_of_ok (h : parse ts = .ok root) (us : List String) :
    parse (ts ++ us) =
      ((parse us).map fun more => root.append more.children).mapError
        (ParseError.shift ts.length) := by
  obtain ⟨nodes, hnodes, rfl⟩ := parse_eq_ok_iff.mp h
  unfold parse
  rw [declarations_append hnodes, declarations_shift]
  cases declarations [] ⟨0, us⟩ with
  | error | ok => rfl

/-- Reading is compositional and its faults are stable. A fault is at a token of the list and stays
when tokens are added, so that the beginning of a program is never at fault; after a program, the
declarations of another follow, its structs go into the table in their order, and its faults are
moved by the tokens in front. -/
theorem parse_append_stable (ts us : List String) :
    (∀ fault token index, parse ts = .error (.at fault token index) →
      ts[index]? = some token ∧ parse (ts ++ us) = .error (.at fault token index)) ∧
    (∀ all, parse (ts ++ us) = .ok all →
      (∃ root, parse ts = .ok root) ∨ ∃ part, parse ts = .error (.ended part)) ∧
    (∀ root, parse ts = .ok root →
      ((∃ all, parse (ts ++ us) = .ok all) ↔ ∃ more, parse us = .ok more) ∧
      (∀ more all, parse us = .ok more → parse (ts ++ us) = .ok all →
        all.name = root.name ∧ all.children = root.children ++ more.children ∧
        all.table = (structsOfAll more.children).foldl TypeTable.insert root.table) ∧
      (∀ fault token index, parse us = .error (.at fault token index) →
        parse (ts ++ us) = .error (.at fault token (index + ts.length))) ∧
      ∀ part, parse us = .error (.ended part) → parse (ts ++ us) = .error (.ended part)) := by
  refine ⟨fun fault token index h => parse_append_of_fault h us, fun all hall => ?_,
    fun root hroot => ?_⟩
  · cases hts : parse ts with
    | ok root => exact Or.inl ⟨root, rfl⟩
    | error e =>
      cases e with
      | «at» fault token index =>
        cases hall.symm.trans (parse_append_of_fault hts us).2
      | ended part => exact Or.inr ⟨part, rfl⟩
  · rw [parse_append_of_ok hroot us]
    refine ⟨?_, fun more all hmore hall => ?_, fun fault token index he => ?_, fun part he => ?_⟩
    · cases parse us with
      | ok more => exact ⟨fun _ => ⟨more, rfl⟩, fun _ => ⟨root.append more.children, rfl⟩⟩
      | error e => simp [Except.map, Except.mapError]
    · rw [hmore] at hall
      cases hall
      refine ⟨rfl, rfl, ?_⟩
      rw [TypeTable.foldl_insert]
      exact congrArg TypeTable.mk (structsOfAll_append _ _)
    · rw [he]
      rfl
    · rw [he]
      rfl

/-- A member, a struct that its type names, and tokens that declare nothing. -/
theorem parse_append_stable_sample :
    let ts := ["p", ":", "P", ";"]
    let us := ["P", ":", "struct", "\x7b", "\x7d"]
    let vs := ["q", "r"]
    let root := Scope.root [.member ⟨"p", "P", 0, []⟩]
    parse ts = .ok root ∧
      (∃ all, parse (ts ++ us) = .ok all ∧
        all.children = root.children ++ [.struct ⟨"P", [], []⟩] ∧
        all.table = root.table.insert ⟨"P", [], []⟩) ∧
      parse (ts ++ vs) = .error (.at (.noDeclaration "q") "q" 4) ∧
      parse (vs ++ ts) = .error (.at (.noDeclaration "q") "q" 0) := by
  intro ts us vs root
  have hend (n : Nat) : declarations [] ⟨n, []⟩ = .ok [] := by
    rw [declarations.eq_def]
    rfl
  have hts : parse ts = .ok root := by
    have hitem : item [] ⟨0, ts⟩ = .ok (.declaration (.member ⟨"p", "P", 0, []⟩), ⟨4, []⟩) :=
      item_declared (by decide) rfl
    refine parse_eq_ok_iff.mpr ⟨_, ?_, rfl⟩
    rw [declarations_eq [] (List.cons_ne_nil _ _), hitem]
    change (declarations [] ⟨4, []⟩).map _ = _
    rw [hend]
    rfl
  have hus : parse us = .ok (Scope.root [.struct ⟨"P", [], []⟩]) := by
    have hfields : fields "P" ⟨4, ["\x7d"]⟩ = .ok ([], ⟨5, []⟩) := by
      rw [fields_eq]
      rfl
    have hitem : item [] ⟨0, us⟩ = .ok (.declaration (.struct ⟨"P", [], []⟩), ⟨5, []⟩) := by
      refine item_declared (by decide) ?_
      change (fields "P" ⟨4, ["\x7d"]⟩ >>= fun p => pure (Node.struct ⟨"P", p.1, []⟩, p.2)) = _
      rw [hfields]
      rfl
    refine parse_eq_ok_iff.mpr ⟨_, ?_, rfl⟩
    rw [declarations_eq [] (List.cons_ne_nil _ _), hitem]
    change (declarations [] ⟨5, []⟩).map _ = _
    rw [hend]
    rfl
  have hvs : parse vs = .error (.at (.noDeclaration "q") "q" 0) := by
    have hitem : item [] ⟨0, vs⟩ = .error (.at (.noDeclaration "q") "q" 0) := by
      have hid : isIdentifier (⟨0, vs⟩ : Cursor).token = true := by decide
      rw [item, if_neg (by decide), if_pos hid]
      rfl
    rw [parse_eq_error_iff, declarations_eq [] (List.cons_ne_nil _ _), hitem]
    rfl
  obtain ⟨hiff, hjoined, -, -⟩ := (parse_append_stable ts us).2.2 root hts
  obtain ⟨all, hall⟩ := hiff.mpr ⟨_, hus⟩
  obtain ⟨-, hchildren, htable⟩ := hjoined _ all hus hall
  obtain ⟨-, -, hfault, -⟩ := (parse_append_stable ts vs).2.2 root hts
  exact ⟨hts, ⟨all, hall, hchildren, htable⟩, hfault _ _ _ hvs,
    ((parse_append_stable vs ts).1 _ _ _ hvs).2⟩

end Shader.Program
