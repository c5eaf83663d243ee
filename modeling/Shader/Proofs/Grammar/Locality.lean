import Shader.Proofs.Grammar.Reader

/-!
# Reading a part of a longer list of tokens

A reader that stands at a place in a list of tokens can be compared with the same reader at the
same place in a longer list, with tokens in front of the list and tokens after it. What it gives
is the same, unless the end of the shorter list had a part in it: then it has failed because the
tokens ended, or it has stopped at the end. No fault at a token is decided by the end of a list.
-/

namespace Shader.Program

open Text

/-! ## Places in a list -/

namespace Cursor

/-- The same place in a longer list, which has `n` more tokens in front and `us` at the end. -/
def embed (n : Nat) (us : List String) (c : Cursor) : Cursor := ⟨c.index + n, c.rest ++ us⟩

/-- The cursor stands in the list. -/
def In (ts : List String) (c : Cursor) : Prop :=
  ∃ before, ts = before ++ c.rest ∧ c.index = before.length

variable {ts us : List String} {c : Cursor} {n : Nat}

theorem In.next (h : c.In ts) (hne : c.rest ≠ []) : c.next.In ts := by
  obtain ⟨before, hts, hindex⟩ := h
  obtain ⟨token, rest, hrest⟩ := List.exists_cons_of_ne_nil hne
  refine ⟨before ++ [token], ?_, ?_⟩
  · rw [hts, hrest, Cursor.next, hrest]
    simp
  · rw [Cursor.next, hindex]
    simp

theorem In.getElem? (h : c.In ts) (hne : c.rest ≠ []) : ts[c.index]? = some c.token := by
  obtain ⟨before, hts, hindex⟩ := h
  obtain ⟨token, rest, hrest⟩ := List.exists_cons_of_ne_nil hne
  rw [hts, hindex, List.getElem?_append_right (Nat.le_refl _), Nat.sub_self, hrest, Cursor.token,
    hrest]
  rfl

theorem embed_ne_nil (hne : c.rest ≠ []) : (c.embed n us).rest ≠ [] := by
  simp [embed, hne]

theorem next_embed (hne : c.rest ≠ []) : (c.embed n us).next = c.next.embed n us := by
  obtain ⟨token, rest, hrest⟩ := List.exists_cons_of_ne_nil hne
  simp only [next, embed, hrest, Cursor.mk.injEq]
  exact ⟨by omega, rfl⟩

theorem token_embed (hne : c.rest ≠ []) : (c.embed n us).token = c.token := by
  obtain ⟨token, rest, hrest⟩ := List.exists_cons_of_ne_nil hne
  simp [Cursor.token, embed, hrest]

theorem sees_embed (hne : c.rest ≠ []) (token : String) :
    (c.embed n us).sees token = c.sees token := by
  obtain ⟨first, rest, hrest⟩ := List.exists_cons_of_ne_nil hne
  simp [sees, embed, hrest]

theorem seesNumber_embed (hne : c.rest ≠ []) : (c.embed n us).seesNumber = c.seesNumber := by
  obtain ⟨first, rest, hrest⟩ := List.exists_cons_of_ne_nil hne
  simp [seesNumber, embed, hrest]

theorem fail_embed (hne : c.rest ≠ []) (fault : Fault) :
    (c.embed n us).fail fault = .at fault c.token (c.index + n) := by
  rw [fail, token_embed hne]
  rfl

end Cursor

/-! ## Two results of a reader -/

/-- The results of a reader at a cursor of the list `ts`, and at the same place in longer lists. A
result is kept, with `move` applied to what is read, unless the reader has come to the end of the
list; a reader that is `firm` depends on the end only when it fails there. -/
structure Tracks {α : Type} (ts : List String) (firm : Prop) (move : Nat → List String → α → α)
    (c : Cursor) (short : Except ParseError (α × Cursor))
    (long : Nat → List String → Except ParseError (α × Cursor)) : Prop where
  /-- The reader stays in the list. -/
  within : ∀ a d, short = .ok (a, d) → d.In ts
  /-- A fault is at a token of the list. -/
  located : ∀ fault token index, short = .error (.at fault token index) →
    ts[index]? = some token
  /-- Where no token is ahead, nothing is read and no fault is found. -/
  atEnd : c.rest = [] → (∃ part, short = .error (.ended part)) ∨
    ¬ firm ∧ ∃ a, short = .ok (a, c)
  ok : ∀ n us a d, short = .ok (a, d) → firm ∨ d.rest ≠ [] ∨ us = [] →
    long n us = .ok (move n us a, d.embed n us)
  fault : ∀ n us fault token index, short = .error (.at fault token index) →
    long n us = .error (.at fault token (index + n))
  ended : ∀ n part, short = .error (.ended part) → long n [] = .error (.ended part)

def still {α : Type} (_ : Nat) (_ : List String) (a : α) : α := a

/-- The reader tracks itself from a cursor on. -/
abbrev IsLocal {α : Type} (ts : List String) (firm : Prop)
    (f : Cursor → Except ParseError (α × Cursor)) (c : Cursor) : Prop :=
  Tracks ts firm still c (f c) fun n us => f (c.embed n us)

section Rules

variable {α β : Type} {ts : List String} {firm firm' : Prop} {c : Cursor}
  {move : Nat → List String → α → α} {move' : Nat → List String → β → β}
  {short : Except ParseError (α × Cursor)}
  {long long' : Nat → List String → Except ParseError (α × Cursor)}

theorem Tracks.of_eq (h : Tracks ts firm move c short long)
    (heq : ∀ n us, long' n us = long n us) : Tracks ts firm move c short long' where
  within := h.within
  located := h.located
  atEnd := h.atEnd
  ok n us a d ha hd := (heq n us).trans (h.ok n us a d ha hd)
  fault n us fault token index he := (heq n us).trans (h.fault n us fault token index he)
  ended n part he := (heq n []).trans (h.ended n part he)

/-- One reader after another. At the end of the list the second one has found no fault, so where it
counts the first one has left a token. -/
theorem Tracks.bind {k : α × Cursor → Except ParseError (β × Cursor)}
    {k' : Nat → List String → α × Cursor → Except ParseError (β × Cursor)}
    (h : Tracks ts firm' move c short long)
    (hk : ∀ a d, short = .ok (a, d) → d.In ts →
      Tracks ts firm move' d (k (a, d)) fun n us => k' n us (move n us a, d.embed n us)) :
    Tracks ts firm move' c (short >>= k) fun n us => long n us >>= k' n us := by
  cases hshort : short with
  | error e =>
    refine ⟨?_, ?_, ?_, ?_, ?_, ?_⟩
    · intro b d hb
      cases hb
    · intro fault token index he
      cases he
      exact h.located _ _ _ hshort
    · intro hnil
      rcases h.atEnd hnil with ⟨part, he⟩ | ⟨-, a, ha⟩
      · exact Or.inl ⟨part, by rw [← hshort, he]; rfl⟩
      · rw [ha] at hshort
        cases hshort
    · intro n us b d hb
      cases hb
    · intro n us fault token index he
      cases he
      rw [h.fault n us _ _ _ hshort]
      rfl
    · intro n part he
      cases he
      rw [h.ended n _ hshort]
      rfl
  | ok p =>
    obtain ⟨a, d⟩ := p
    have hnext := hk a d hshort (h.within a d hshort)
    have hlong {n : Nat} {us : List String} (hd : d.rest ≠ [] ∨ us = []) :
        (long n us >>= k' n us) = k' n us (move n us a, d.embed n us) := by
      rw [h.ok n us a d hshort (Or.inr hd)]
      rfl
    refine ⟨hnext.within, hnext.located, ?_, ?_, ?_, ?_⟩
    · intro hnil
      rcases h.atEnd hnil with ⟨part, he⟩ | ⟨-, a', ha⟩
      · rw [he] at hshort
        cases hshort
      · rw [ha] at hshort
        cases hshort
        exact hnext.atEnd hnil
    · intro n us b e hb hcond
      have hd : d.rest ≠ [] ∨ us = [] := by
        by_cases hd : d.rest = []
        · rcases hnext.atEnd hd with ⟨part, he⟩ | ⟨hfirm, b', hb'⟩
          · exact absurd (he.symm.trans hb) (by simp)
          · have heq : e = d := (Prod.mk.inj (Except.ok.inj (hb.symm.trans hb'))).2
            rcases hcond with hcond | hcond | hcond
            · exact absurd hcond hfirm
            · exact absurd (heq ▸ hd) hcond
            · exact Or.inr hcond
        · exact Or.inl hd
      exact (hlong hd).trans (hnext.ok n us b e hb hcond)
    · intro n us fault token index he
      have hd : d.rest ≠ [] := by
        intro hd
        rcases hnext.atEnd hd with ⟨part, he'⟩ | ⟨-, b', hb'⟩
        · exact absurd (he'.symm.trans he) (by simp)
        · exact absurd (hb'.symm.trans he) (by simp)
      exact (hlong (Or.inl hd)).trans (hnext.fault n us fault token index he)
    · intro n part he
      exact (hlong (Or.inr rfl)).trans (hnext.ended n part he)

theorem Tracks.map {k : α × Cursor → Except ParseError (β × Cursor)}
    {k' : Nat → List String → α × Cursor → Except ParseError (β × Cursor)} (g : α → Cursor → β)
    (h : Tracks ts firm move c short long) (hk : ∀ a d, k (a, d) = .ok (g a d, d))
    (hk' : ∀ n us a d, k' n us (move n us a, d.embed n us) =
      .ok (move' n us (g a d), d.embed n us)) :
    Tracks ts firm move' c (short >>= k) fun n us => long n us >>= k' n us := by
  have hshort {b : β} {d : Cursor} (hb : (short >>= k) = .ok (b, d)) :
      ∃ a, short = .ok (a, d) ∧ b = g a d := by
    obtain ⟨⟨a, e⟩, ha, hb⟩ := bind_eq_ok hb
    cases (hk a e).symm.trans hb
    exact ⟨a, ha, rfl⟩
  have herror {e : ParseError} (he : (short >>= k) = .error e) : short = .error e := by
    cases hs : short with
    | error e' =>
      rw [hs] at he
      exact congrArg _ (Except.error.inj he)
    | ok p =>
      rw [hs] at he
      exact absurd ((hk p.1 p.2).symm.trans he) (by simp)
  refine ⟨?_, ?_, ?_, ?_, ?_, ?_⟩
  · intro b d hb
    obtain ⟨a, ha, -⟩ := hshort hb
    exact h.within a d ha
  · intro fault token index he
    exact h.located fault token index (herror he)
  · intro hnil
    rcases h.atEnd hnil with ⟨part, he⟩ | ⟨hfirm, a, ha⟩
    · exact Or.inl ⟨part, by rw [he]; rfl⟩
    · exact Or.inr ⟨hfirm, g a c, by rw [ha]; exact hk a c⟩
  · intro n us b d hb hcond
    obtain ⟨a, ha, rfl⟩ := hshort hb
    rw [h.ok n us a d ha hcond]
    exact hk' n us a d
  · intro n us fault token index he
    rw [h.fault n us fault token index (herror he)]
    rfl
  · intro n part he
    rw [h.ended n part (herror he)]
    rfl

theorem tracks_ok (a : α) {d : Cursor} (hd : d.In ts) (hend : c.rest = [] → ¬ firm ∧ d = c)
    (heq : ∀ n us, firm ∨ d.rest ≠ [] ∨ us = [] →
      long n us = .ok (move n us a, d.embed n us)) :
    Tracks ts firm move c (.ok (a, d)) long where
  within b e hb := by cases hb; exact hd
  located fault token index he := by cases he
  atEnd hnil := Or.inr ⟨(hend hnil).1, a, by rw [(hend hnil).2]⟩
  ok n us b e hb hcond := by cases hb; exact heq n us hcond
  fault n us fault token index he := by cases he
  ended n part he := by cases he

theorem tracks_pure (a : α) (hc : c.In ts) (hfirm : firm → c.rest ≠ []) :
    Tracks ts firm move c (.ok (a, c)) fun n us => .ok (move n us a, c.embed n us) :=
  tracks_ok a hc (fun hnil => ⟨fun h => hfirm h hnil, rfl⟩) fun _ _ _ => rfl

theorem tracks_take (a : α) (hc : c.In ts) (hne : c.rest ≠ []) :
    Tracks ts firm move c (.ok (a, c.next)) fun n us => .ok (move n us a, (c.embed n us).next) :=
  tracks_ok a (hc.next hne) (absurd · hne) fun _ _ _ => by rw [Cursor.next_embed hne]

theorem tracks_fail (fault : Fault) (hc : c.In ts) (hne : c.rest ≠ []) :
    Tracks ts firm move c (.error (c.fail fault))
      fun n us => .error ((c.embed n us).fail fault) where
  within b d hb := by cases hb
  located fault token index he := by cases he; exact hc.getElem? hne
  atEnd hnil := absurd hnil hne
  ok n us b d hb _ := by cases hb
  fault n us fault token index he := by cases he; rw [Cursor.fail_embed hne]
  ended n part he := by cases he

theorem tracks_ended (part : Unfinished) (heq : ∀ n, long n [] = .error (.ended part)) :
    Tracks ts firm move c (.error (.ended part)) long where
  within b d hb := by cases hb
  located fault token index he := by cases he
  atEnd _ := Or.inl ⟨part, rfl⟩
  ok n us b d hb _ := by cases hb
  fault n us fault token index he := by cases he
  ended n part' he := by cases he; exact heq n

theorem Tracks.weaken (h : Tracks ts firm' move c short long) (hfirm : firm → firm') :
    Tracks ts firm move c short long :=
  ⟨h.within, h.located, fun hnil => (h.atEnd hnil).imp_right (And.imp_left (mt hfirm)),
    fun n us a d ha hcond => h.ok n us a d ha (hcond.imp_left hfirm), h.fault, h.ended⟩

theorem Tracks.next (h : Tracks ts firm move c.next short long) (hne : c.rest ≠ []) :
    Tracks ts firm move c short long :=
  ⟨h.within, h.located, fun hnil => absurd hnil hne, h.ok, h.fault, h.ended⟩

theorem IsLocal.congr {f g : Cursor → Except ParseError (α × Cursor)} (hg : IsLocal ts firm g c)
    (h : ∀ c, f c = g c) : IsLocal ts firm f c := by
  rw [funext h]
  exact hg

theorem IsLocal.next {f : Cursor → Except ParseError (α × Cursor)}
    (h : IsLocal ts firm f c.next) (hne : c.rest ≠ []) :
    IsLocal ts firm (fun c => f c.next) c :=
  (Tracks.next h hne).of_eq fun _ _ => congrArg f (Cursor.next_embed hne)

/-- A choice by the next token. Where there is none, the second reader runs, and it has found no
fault. -/
theorem IsLocal.ite {f g : Cursor → Except ParseError (α × Cursor)} (token : String)
    (hyes : c.sees token = true → IsLocal ts firm f c)
    (hno : c.sees token = false → IsLocal ts firm g c) :
    IsLocal ts firm (fun c => if c.sees token then f c else g c) c := by
  by_cases hne : c.rest = []
  · have hsees : c.sees token = false := by simp [Cursor.sees, hne]
    have hlong (n : Nat) : (c.embed n []).sees token = false := by
      simp [Cursor.sees, Cursor.embed, hne]
    have h := hno hsees
    simp only [IsLocal, hsees, Bool.false_eq_true, if_false]
    refine ⟨h.within, h.located, h.atEnd, ?_, ?_, ?_⟩
    · intro n us a d ha hcond
      rcases h.atEnd hne with ⟨part, he⟩ | ⟨hfirm, b, hb⟩
      · exact absurd (he.symm.trans ha) (by simp)
      · have hd : d.rest = [] := by
          rw [(Prod.mk.inj (Except.ok.inj (ha.symm.trans hb))).2, hne]
        have hus : us = [] := (hcond.resolve_left hfirm).resolve_left (absurd hd)
        subst hus
        rw [if_neg (by simp [hlong n])]
        exact h.ok n [] a d ha hcond
    · intro n us fault token index he
      rcases h.atEnd hne with ⟨part, he'⟩ | ⟨-, b, hb⟩
      · exact absurd (he'.symm.trans he) (by simp)
      · exact absurd (hb.symm.trans he) (by simp)
    · intro n part he
      rw [if_neg (by simp [hlong n])]
      exact h.ended n part he
  · cases hsees : c.sees token with
    | true =>
      simp only [IsLocal, hsees, if_true]
      exact (hyes hsees).of_eq fun n us => by rw [Cursor.sees_embed hne, hsees, if_pos rfl]
    | false =>
      simp only [IsLocal, hsees, Bool.false_eq_true, if_false]
      exact (hno hsees).of_eq fun n us => by
        rw [Cursor.sees_embed hne, hsees, if_neg Bool.false_ne_true]

theorem IsLocal.unlessEnded {f : Cursor → Except ParseError (α × Cursor)} (part : Unfinished)
    (h : c.rest ≠ [] → IsLocal ts firm f c) :
    IsLocal ts firm (fun c => if c.rest = [] then .error (.ended part) else f c) c := by
  by_cases hne : c.rest = []
  · simp only [IsLocal, hne, if_true]
    exact tracks_ended part fun n => if_pos (by simp [Cursor.embed, hne])
  · simp only [IsLocal, hne, if_false]
    exact (h hne).of_eq fun n us => if_neg (Cursor.embed_ne_nil hne)

theorem IsLocal.unlessOther {f : Cursor → Except ParseError (α × Cursor)} (token : String)
    (fault : Fault) (hc : c.In ts) (h : IsLocal ts True f c) :
    IsLocal ts True
      (fun c => if c.rest ≠ [] && !c.sees token then .error (c.fail fault) else f c) c := by
  by_cases hne : c.rest = []
  · obtain ⟨part, hended⟩ := (h.atEnd hne).resolve_right fun h => h.1 trivial
    have hcond (n : Nat) : (c.embed n []).rest = [] := by simp [Cursor.embed, hne]
    simp only [IsLocal, hne, ne_eq, not_true, decide_false, Bool.false_and, Bool.false_eq_true,
      if_false, hended]
    refine tracks_ended part fun n => ?_
    simp only [hcond n, not_true, decide_false, Bool.false_and, Bool.false_eq_true, if_false]
    exact h.ended n part hended
  · have hlong (n : Nat) (us : List String) : (c.embed n us).rest ≠ [] := Cursor.embed_ne_nil hne
    simp only [IsLocal, hne, hlong, Cursor.sees_embed hne, ne_eq, not_false_eq_true, decide_true,
      Bool.true_and]
    cases c.sees token with
    | true => exact h
    | false => exact tracks_fail fault hc hne

end Rules

/-! ## Single tokens and types -/

variable {ts : List String} {c : Cursor}

theorem expect_of_ne_nil {want : String} (hne : c.rest ≠ []) :
    expect want c = if c.token = want then .ok c.next
      else .error (c.fail (.unexpected want c.token)) := by
  obtain ⟨token, rest, hrest⟩ := List.exists_cons_of_ne_nil hne
  simp [expect, Cursor.token, hrest]

theorem identifier_of_ne_nil {role : NameRole} (hne : c.rest ≠ []) :
    identifier role c = if isIdentifier c.token then .ok (c.token, c.next)
      else .error (c.fail (.notName role c.token)) := by
  obtain ⟨token, rest, hrest⟩ := List.exists_cons_of_ne_nil hne
  simp [identifier, Cursor.token, hrest]

/-- A certain token and what follows it. A reader after a token may be firm because of the token. -/
theorem tracks_expect {β : Type} {firm : Prop} {g : Cursor → Except ParseError (β × Cursor)}
    (want : String) (hc : c.In ts)
    (hg : c.rest ≠ [] → Tracks ts firm still c (g c.next) fun n us => g (c.next.embed n us)) :
    IsLocal ts firm (fun c => expect want c >>= g) c := by
  by_cases hne : c.rest = []
  · have hended {c : Cursor} (h : c.rest = []) :
        expect want c = .error (.ended (.token want)) := by
      simp [expect, h]
    simp only [IsLocal, hended hne]
    refine tracks_ended _ fun n => ?_
    rw [hended (by simp [Cursor.embed, hne])]
    rfl
  · have hlong (n : Nat) (us : List String) : expect want (c.embed n us) =
        if c.token = want then .ok (c.next.embed n us)
        else .error ((c.embed n us).fail (.unexpected want c.token)) := by
      rw [expect_of_ne_nil (Cursor.embed_ne_nil hne), Cursor.token_embed hne,
        Cursor.next_embed hne]
    simp only [IsLocal, expect_of_ne_nil hne, hlong]
    by_cases htoken : c.token = want
    · simp only [htoken, if_true]
      exact hg hne
    · simp only [htoken, if_false]
      exact tracks_fail (.unexpected want c.token) hc hne

theorem IsLocal.expect {β : Type} {firm : Prop} {g : Cursor → Except ParseError (β × Cursor)}
    (want : String) (hc : c.In ts) (hg : ∀ d : Cursor, d.In ts → IsLocal ts firm g d) :
    IsLocal ts firm (fun c => Program.expect want c >>= g) c :=
  tracks_expect want hc fun hne => Tracks.next (hg _ (hc.next hne)) hne

theorem isLocal_expect_pure {β : Type} (want : String) (b : β) (hc : c.In ts) :
    IsLocal ts True (fun c => expect want c >>= fun d => pure (b, d)) c :=
  tracks_expect want hc fun hne =>
    (tracks_take b hc hne).of_eq fun n us => by rw [Cursor.next_embed hne]; rfl

theorem identifier_isLocal (role : NameRole) (hc : c.In ts) :
    IsLocal ts True (identifier role) c := by
  by_cases hne : c.rest = []
  · have hended {c : Cursor} (h : c.rest = []) :
        identifier role c = .error (.ended (.nameFor role)) := by
      simp [identifier, h]
    simp only [IsLocal, hended hne]
    exact tracks_ended _ fun n => hended (by simp [Cursor.embed, hne])
  · have hlong (n : Nat) (us : List String) : identifier role (c.embed n us) =
        if isIdentifier c.token then .ok (c.token, (c.embed n us).next)
        else .error ((c.embed n us).fail (.notName role c.token)) := by
      rw [identifier_of_ne_nil (Cursor.embed_ne_nil hne), Cursor.token_embed hne]
    simp only [IsLocal, identifier_of_ne_nil hne, hlong]
    by_cases hid : isIdentifier c.token = true
    · simp only [hid, if_true]
      exact tracks_take c.token hc hne
    · simp only [hid, Bool.false_eq_true, if_false]
      exact tracks_fail _ hc hne

theorem genericArgument_isLocal (outer : String) (hc : c.In ts) :
    IsLocal ts False (genericArgument outer) c := by
  refine IsLocal.ite "<" (fun h => ?_) fun _ => tracks_pure outer hc False.elim
  have hne := Cursor.sees_ne_nil h
  refine IsLocal.next (f := fun c => identifier .genericArgument c >>= fun p =>
    if p.2.sees "*" then expect ">" p.2.next >>= fun d => pure (outer ++ "<" ++ p.1 ++ "*>", d)
    else expect ">" p.2 >>= fun d => pure (outer ++ "<" ++ p.1 ++ ">", d)) ?_ hne
  refine (identifier_isLocal .genericArgument (hc.next hne)).bind fun inner d _ hd => ?_
  have hclose : IsLocal ts False (fun c =>
      if c.sees "*" then expect ">" c.next >>= fun e => pure (outer ++ "<" ++ inner ++ "*>", e)
      else expect ">" c >>= fun e => pure (outer ++ "<" ++ inner ++ ">", e)) d := by
    refine IsLocal.ite "*" (fun h => ?_) fun _ => (isLocal_expect_pure ">" _ hd).weaken False.elim
    have hstar := Cursor.sees_ne_nil h
    have hnext := (isLocal_expect_pure ">" (outer ++ "<" ++ inner ++ "*>") (hd.next hstar)).weaken
      False.elim
    exact IsLocal.next (f := fun c => expect ">" c >>= fun e =>
      pure (outer ++ "<" ++ inner ++ "*>", e)) hnext hstar
  exact hclose

theorem typeName_isLocal (hc : c.In ts) : IsLocal ts False typeName c :=
  (identifier_isLocal .type hc).bind fun outer _ _ hd => genericArgument_isLocal outer hd

def lengthBody (c : Cursor) : Except ParseError (UInt32 × Cursor) :=
  match c.rest with
  | [] => .error (.ended .arrayLength)
  | token :: _ =>
    match readLength? token with
    | none => .error (c.fail (.arrayLength token))
    | some count => expect "]" c.next >>= fun d => pure (count, d)

theorem arrayLength_isLocal (hc : c.In ts) : IsLocal ts False arrayLength c := by
  refine IsLocal.ite "[" (fun h => ?_) fun _ => tracks_pure 0 hc False.elim
  have hne := Cursor.sees_ne_nil h
  have hnext := hc.next hne
  refine IsLocal.next (f := lengthBody) ?_ hne
  cases hrest : c.next.rest with
  | nil =>
    simp only [IsLocal, lengthBody, hrest]
    exact tracks_ended _ fun n => by simp [Cursor.embed, hrest]
  | cons token rest =>
    have hne' : c.next.rest ≠ [] := by simp [hrest]
    have hlong (n : Nat) (us : List String) :
        (c.next.embed n us).rest = token :: (rest ++ us) := by
      simp [Cursor.embed, hrest]
    simp only [IsLocal, lengthBody, hrest, hlong]
    cases readLength? token with
    | none => exact tracks_fail (.arrayLength token) hnext hne'
    | some count =>
      have hclose := (isLocal_expect_pure "]" count (hnext.next hne')).weaken False.elim
      exact IsLocal.next (f := fun c => expect "]" c >>= fun d => pure (count, d)) hclose hne'

theorem typedMember_isLocal (name : String) (annotations : List String) (hc : c.In ts) :
    IsLocal ts False (typedMember name annotations) c :=
  (typeName_isLocal hc).bind fun type _ _ hd =>
    (arrayLength_isLocal hd).map (fun count _ => (⟨name, type, count, annotations⟩ : Member))
      (fun _ _ => rfl) fun _ _ _ _ => rfl

theorem field_isLocal (hc : c.In ts) : IsLocal ts False field c :=
  (identifier_isLocal .field hc).bind fun name _ _ hd =>
    IsLocal.expect ":" hd fun _ he => typedMember_isLocal name [] he

theorem localVariable_isLocal (hc : c.In ts) : IsLocal ts False localVariable c :=
  (identifier_isLocal .variable hc).bind fun name _ _ hd =>
    IsLocal.expect ":" hd fun _ he =>
      (typeName_isLocal he).map (fun type _ => Node.localVar name type) (fun _ _ => rfl)
        fun _ _ _ _ => rfl

end Shader.Program
