import Shader.Program.Parser
import Shader.Proofs.Glsl.Text
import Shader.Proofs.Resolution.Program

/-!
# The order of declarations

The walk along dependencies lists exactly what can be reached from the entry function, each
declaration once and after its dependencies, except where declarations depend on each other in a
circle. At every moment the declarations that were entered and not left are those from which the
walk has come, so they reach the current one.
-/

namespace Shader.Glsl

open Arena Relation
open Program (bind_eq_ok)

variable {deps handles new starts : List Handle} {w w' : Walk} {d h : Handle} {kind : Kind}
  {t : Tree} {s : Spacing} {n : Numbering} {i : Nat} {r : Option (List Line) × Numbering}
  {written : List (String × String)}

/-- The declaration `h` refers to `d`. -/
def DependsOn (c : Catalog) (h d : Handle) : Prop := ∃ deps, dependencies c h = .ok deps ∧ d ∈ deps

/-- The declaration `h` needs `d`, directly or through others, or is `d`. -/
def Reaches (c : Catalog) : Handle → Handle → Prop := ReflTransGen (DependsOn c)

/-- In the list `a` stands before an occurrence of `b`. -/
def Precedes (l : List Handle) (a b : Handle) : Prop :=
  ∃ before after, l = before ++ b :: after ∧ a ∈ before

theorem Precedes.append {l : List Handle} {a b : Handle} (h : Precedes l a b) (m : List Handle) :
    Precedes (l ++ m) a b := by
  obtain ⟨before, after, rfl, ha⟩ := h
  exact ⟨before, after ++ m, by simp, ha⟩

/-! ## The walk -/

/-- Between two moments the walk went through the declarations `starts` and left `new`. -/
structure Visits (c : Catalog) (starts : List Handle) (w w' : Walk) (new : List Handle) : Prop where
  left : w'.left = w.left ++ new
  entered : ∀ x, x ∈ w'.entered ↔ x ∈ w.entered ∨ x ∈ new
  nodup : new.Nodup
  fresh : ∀ x ∈ new, x ∉ w.entered
  starts_entered : ∀ x ∈ starts, x ∈ w'.entered
  reached : ∀ x ∈ new, ∃ h ∈ starts, Reaches c h x
  closed : ∀ x ∈ new, ∀ d, DependsOn c x d → d ∈ w'.entered
  ordered : ∀ x ∈ new, ∀ d, DependsOn c x d → Precedes w'.left d x ∨ Reaches c d x

variable {c : Catalog}

theorem Visits.refl (h : ∀ x ∈ starts, x ∈ w.entered) : Visits c starts w w [] :=
  ⟨by simp, by simp, List.nodup_nil, by simp, h, by simp, by simp, by simp⟩

theorem Visits.trans {starts' new' : List Handle} {w'' : Walk} (h : Visits c starts w w' new)
    (h' : Visits c starts' w' w'' new') : Visits c (starts ++ starts') w w'' (new ++ new') := by
  have hkept : ∀ x ∈ w'.entered, x ∈ w''.entered := fun x hx => (h'.entered x).mpr (Or.inl hx)
  have hnew : ∀ x ∈ new, x ∈ w'.entered := fun x hx => (h.entered x).mpr (Or.inr hx)
  refine ⟨?_, ?_, ?_, ?_, ?_, ?_, ?_, ?_⟩
  · rw [h'.left, h.left, List.append_assoc]
  · intro x
    rw [h'.entered, h.entered, List.mem_append, or_assoc]
  · refine List.nodup_append.mpr ⟨h.nodup, h'.nodup, ?_⟩
    rintro x hx y hy rfl
    exact h'.fresh x hy (hnew x hx)
  · intro x hx
    rcases List.mem_append.mp hx with hx | hx
    · exact h.fresh x hx
    · exact fun hold => h'.fresh x hx ((h.entered x).mpr (Or.inl hold))
  · intro x hx
    rcases List.mem_append.mp hx with hx | hx
    · exact hkept x (h.starts_entered x hx)
    · exact h'.starts_entered x hx
  · intro x hx
    rcases List.mem_append.mp hx with hx | hx
    · obtain ⟨g, hg, hreach⟩ := h.reached x hx
      exact ⟨g, List.mem_append_left _ hg, hreach⟩
    · obtain ⟨g, hg, hreach⟩ := h'.reached x hx
      exact ⟨g, List.mem_append_right _ hg, hreach⟩
  · intro x hx d hd
    rcases List.mem_append.mp hx with hx | hx
    · exact hkept d (h.closed x hx d hd)
    · exact h'.closed x hx d hd
  · intro x hx d hd
    rcases List.mem_append.mp hx with hx | hx
    · rw [h'.left]
      exact (h.ordered x hx d hd).imp_left fun hp => hp.append new'
    · exact h'.ordered x hx d hd

theorem Visits.open_iff (h : Visits c starts w w' new) (g : Handle) :
    (g ∈ w'.entered ∧ g ∉ w'.left) ↔ (g ∈ w.entered ∧ g ∉ w.left) := by
  rw [h.entered, h.left, List.mem_append, not_or]
  constructor
  · rintro ⟨hg | hg, hleft, hnew⟩
    · exact ⟨hg, hleft⟩
    · exact absurd hg hnew
  · rintro ⟨hg, hleft⟩
    exact ⟨Or.inl hg, hleft, fun hnew => h.fresh g hnew hg⟩

/-- Every declaration that was entered and not left reaches the given one. -/
def OpenReach (c : Catalog) (w : Walk) (h : Handle) : Prop :=
  ∀ g, g ∈ w.entered ∧ g ∉ w.left → Reaches c g h

theorem foldlM_visits {f : Walk → Handle → Except GenerateError Walk}
    (hf : ∀ d ∈ deps, ∀ w w', OpenReach c w d → f w d = .ok w' → ∃ new, Visits c [d] w w' new)
    (hopen : ∀ d ∈ deps, OpenReach c w d) (h : deps.foldlM f w = .ok w') :
    ∃ new, Visits c deps w w' new := by
  induction deps generalizing w with
  | nil =>
    cases h
    exact ⟨[], .refl (List.forall_mem_nil _)⟩
  | cons d deps ih =>
    rw [List.foldlM_cons] at h
    cases hrun : f w d with
    | error e =>
      rw [hrun] at h
      cases h
    | ok w₁ =>
      rw [hrun] at h
      obtain ⟨new, hnew⟩ := hf d (.head _) w w₁ (hopen d (.head _)) hrun
      have hopen₁ : ∀ d' ∈ deps, OpenReach c w₁ d' := by
        intro d' hd' g hg
        exact hopen d' (.tail _ hd') g ((hnew.open_iff g).mp hg)
      obtain ⟨more, hmore⟩ := ih (fun d' hd' => hf d' (.tail _ hd')) hopen₁ h
      exact ⟨new ++ more, hnew.trans hmore⟩

theorem Visits.leave (hnew : h ∉ w.entered) (hopen : OpenReach c w h)
    (hdeps : dependencies c h = .ok deps)
    (hv : Visits c deps { w with entered := h :: w.entered } w' new) :
    Visits c [h] w { w' with left := w'.left ++ [h] } (new ++ [h]) := by
  have hedge : ∀ d, DependsOn c h d → d ∈ deps := by
    rintro d ⟨deps', hdeps', hd⟩
    rw [hdeps] at hdeps'
    cases hdeps'
    exact hd
  have hentered : ∀ x, x ∈ w'.entered ↔ x ∈ w.entered ∨ x ∈ new ++ [h] := by
    intro x
    rw [hv.entered, List.mem_cons, List.mem_append, List.mem_singleton]
    tauto
  refine ⟨?_, hentered, ?_, ?_, ?_, ?_, ?_, ?_⟩
  · rw [hv.left, List.append_assoc]
  · refine List.nodup_append.mpr ⟨hv.nodup, by simp, ?_⟩
    rintro x hx y hy rfl
    rw [List.mem_singleton] at hy
    subst hy
    exact hv.fresh x hx (.head _)
  · intro x hx
    rcases List.mem_append.mp hx with hx | hx
    · exact fun hold => hv.fresh x hx (.tail _ hold)
    · rw [List.mem_singleton.mp hx]
      exact hnew
  · intro x hx
    rw [hentered]
    exact Or.inr (List.mem_append_right _ hx)
  · intro x hx
    refine ⟨h, List.mem_singleton_self _, ?_⟩
    rcases List.mem_append.mp hx with hx | hx
    · obtain ⟨d, hd, hreach⟩ := hv.reached x hx
      exact .head ⟨deps, hdeps, hd⟩ hreach
    · rw [List.mem_singleton.mp hx]
      exact .refl
  · intro x hx d hd
    rcases List.mem_append.mp hx with hx | hx
    · exact hv.closed x hx d hd
    · rw [List.mem_singleton.mp hx] at hd
      exact hv.starts_entered d (hedge d hd)
  · intro x hx d hd
    rcases List.mem_append.mp hx with hx | hx
    · exact (hv.ordered x hx d hd).imp_left fun hp => hp.append [h]
    · rw [List.mem_singleton.mp hx] at hd ⊢
      -- a dependency that was not left before is an open declaration, or the declaration itself
      have hafter : ∀ d ∈ w'.left, Precedes (w'.left ++ [h]) d h :=
        fun d hd => ⟨w'.left, [], rfl, hd⟩
      rcases (hentered d).mp (hv.starts_entered d (hedge d hd)) with hold | hlater
      · by_cases hleft : d ∈ w.left
        · refine Or.inl (hafter d ?_)
          rw [hv.left]
          exact List.mem_append_left _ hleft
        · exact Or.inr (hopen d ⟨hold, hleft⟩)
      · rcases List.mem_append.mp hlater with hlater | hlater
        · refine Or.inl (hafter d ?_)
          rw [hv.left]
          exact List.mem_append_right _ hlater
        · rw [List.mem_singleton.mp hlater]
          exact Or.inr .refl

/-- A walk from a declaration visits it, and leaves it last if it had not been entered. -/
theorem walk_visits {depth : Nat} (hopen : OpenReach c w h) (hrun : walk c depth h w = .ok w') :
    ∃ new, Visits c [h] w w' new ∧ (h ∉ w.entered → new.getLast? = some h) := by
  induction depth generalizing h w w' with
  | zero => cases hrun
  | succ depth ih =>
    rw [walk] at hrun
    split at hrun
    · rename_i hmem
      cases hrun
      refine ⟨[], .refl ?_, fun hnew => absurd hmem hnew⟩
      intro x hx
      rw [List.mem_singleton.mp hx]
      exact hmem
    · rename_i hnew
      obtain ⟨deps, hdeps, hrun⟩ := bind_eq_ok hrun
      obtain ⟨w₁, hloop, hrun⟩ := bind_eq_ok hrun
      cases hrun
      -- while its dependencies are walked the declaration is open, and it reaches them
      have hopen₁ : ∀ d ∈ deps, OpenReach c { w with entered := h :: w.entered } d := by
        rintro d hd g ⟨hg, hleft⟩
        have hedge : Reaches c h d := .single ⟨deps, hdeps, hd⟩
        rcases List.mem_cons.mp hg with rfl | hg
        · exact hedge
        · exact (hopen g ⟨hg, hleft⟩).trans hedge
      obtain ⟨new, hv⟩ := foldlM_visits (fun d _ w w' ho hr => (ih ho hr).imp fun _ hv => hv.1)
        hopen₁ hloop
      exact ⟨new ++ [h], hv.leave hnew hopen hdeps, fun _ => by simp⟩

/-- The order lists what the entry reaches, once each, the entry last, and dependencies first
outside of circles. -/
theorem order_spec {entry : Handle} (h : order c entry = .ok handles) :
    handles.Nodup ∧ (∀ x, x ∈ handles ↔ Reaches c entry x) ∧ handles.getLast? = some entry ∧
      ∀ x ∈ handles, ∀ d, DependsOn c x d → Precedes handles d x ∨ Reaches c d x := by
  unfold order at h
  cases hrun : walk c (c.tree.size + 1) entry ⟨[], []⟩ with
  | error e =>
    rw [hrun] at h
    cases h
  | ok w =>
    rw [hrun] at h
    cases h
    have hopen : OpenReach c ⟨[], []⟩ entry := by
      rintro g ⟨hg, -⟩
      cases hg
    obtain ⟨new, hv, hlast⟩ := walk_visits hopen hrun
    dsimp only
    have hleft : w.left = new := hv.left
    have hentered : ∀ x, x ∈ w.entered ↔ x ∈ new := by
      intro x
      rw [hv.entered]
      simp
    rw [hleft]
    refine ⟨hv.nodup, fun x => ⟨fun hx => ?_, fun hx => ?_⟩, hlast List.not_mem_nil, ?_⟩
    · obtain ⟨g, hg, hreach⟩ := hv.reached x hx
      rwa [List.mem_singleton.mp hg] at hreach
    · -- along a path from the entry: the dependencies of what was left were entered
      induction hx with
      | refl => exact (hentered _).mp (hv.starts_entered _ (List.mem_singleton_self _))
      | tail _ hedge ih => exact (hentered _).mp (hv.closed _ ih _ hedge)
    · intro x hx d hd
      rw [← hleft]
      exact hv.ordered x hx d hd

/-! ## Circles -/

/-- The kinds of declarations whose dependencies are types only. -/
def Plain (kind : Kind) : Prop := kind = .struct ∨ kind = .member ∨ kind = .resource

theorem below_of_dependsOn (ht : c.tree.WellFormed) (hplain : Plain kind)
    (hk : c.tree.kind? (some i) = some kind) (hd : DependsOn c (some i) d) :
    c.tree.Below i .struct d := by
  obtain ⟨node, hnode, rfl⟩ := Option.map_eq_some_iff.mp hk
  have hfunction : node.kind ≠ .function := by
    rintro heq
    rw [heq] at hplain
    rcases hplain with h | h | h <;> cases h
  have hfragment : ∀ decl, node ≠ .fragment decl := by
    rintro decl rfl
    rcases hplain with h | h | h <;> cases h
  obtain ⟨deps, hdeps, hbelow⟩ := dependencies_below ht hnode hfunction hfragment
  obtain ⟨deps', hdeps', hmem⟩ := hd
  rw [hdeps] at hdeps'
  cases hdeps'
  exact hbelow d hmem

theorem plain_of_reaches (ht : c.tree.WellFormed) (hplain : Plain kind)
    (hk : c.tree.kind? (some i) = some kind) (hr : Reaches c (some i) h) :
    ∃ j kind, h = some j ∧ j ≤ i ∧ Plain kind ∧ c.tree.kind? h = some kind := by
  induction hr with
  | refl => exact ⟨i, kind, rfl, Nat.le_refl _, hplain, hk⟩
  | tail _ hedge ih =>
    obtain ⟨j, kind', rfl, hj, hplain', hk'⟩ := ih
    obtain ⟨hstruct, k, hlt, rfl⟩ := below_of_dependsOn ht hplain' hk' hedge
    exact ⟨k, .struct, rfl, by omega, Or.inl rfl, hstruct⟩

/-- No plain declaration reaches a declaration that refers to it. -/
theorem not_reaches (ht : c.tree.WellFormed) (hplain : Plain kind) (hk : c.tree.kind? d = some kind)
    (hd : DependsOn c h d) : ¬ Reaches c d h := by
  intro hr
  obtain ⟨i, -, rfl⟩ := Tree.lt_size_of_isSome (Tree.isSome_of_kind? hk)
  obtain ⟨j, kind', rfl, hj, hplain', hk'⟩ := plain_of_reaches ht hplain hk hr
  obtain ⟨-, k, hlt, heq⟩ := below_of_dependsOn ht hplain' hk' hd
  cases heq
  omega

/-! ## Names of the declarations that are written -/

/-- Whether the declaration at a handle is written at the top of a shader: a function, a resource, a
struct that GLSL does not have, or a stage input or output. -/
def isWritten (t : Tree) (h : Handle) : Bool :=
  match t.node? h with
  | some (.function _) => true
  | some (.struct decl) => !decl.isInstance && !isReserved decl.name
  | some (.binding _) => true
  | some (.pushConstant _) => true
  | some (.specialization ..) => true
  | some (.member decl) => (direction? t decl).isSome
  | _ => false

theorem isSome_of_map {α : Type} {x : Except GenerateError α}
    {f : α → Option (List Line) × Numbering} (hf : ∀ a, (f a).1.isSome) (h : x.map f = .ok r) :
    r.1.isSome := by
  cases x with
  | error e => cases h
  | ok a =>
    cases h
    exact hf a

theorem isSome_declarationLines (hrun : declarationLines t s n h = .ok r) :
    r.1.isSome = isWritten t h := by
  unfold declarationLines at hrun
  unfold isWritten
  cases hnode : t.node? h with
  | none =>
    rw [hnode] at hrun
    cases hrun
    rfl
  | some node =>
    rw [hnode] at hrun
    cases node with
    | function decl => exact isSome_of_map (fun _ => rfl) hrun
    | struct decl =>
      dsimp only at hrun ⊢
      rw [← Bool.not_or]
      split at hrun
      · rename_i hskip
        cases hrun
        rw [hskip]
        rfl
      · rename_i hkeep
        rw [isSome_of_map (fun _ => rfl) hrun, Bool.eq_false_iff.mpr hkeep]
        rfl
    | binding | pushConstant | specialization => exact isSome_of_map (fun _ => rfl) hrun
    | member decl =>
      dsimp only at hrun ⊢
      split at hrun
      · rename_i hd
        rw [isSome_of_map (fun _ => rfl) hrun, hd]
        rfl
      · rename_i hd
        cases hrun
        rw [hd]
        rfl
    | _ =>
      cases hrun
      rfl

/-- What is written of a declaration: its name, and its lines at some numbering. -/
def IsText (t : Tree) (s : Spacing) (h : Handle) (text : String × String) : Prop :=
  ∃ n lines n', declarationLines t s n h = .ok (some lines, n') ∧
    text = (t.name h, renderLines s lines)

/-- The texts are those of the declarations that are written, in the order in which they are
given. -/
theorem isText_writeDeclarations (h : writeDeclarations t s n handles = .ok written) :
    List.Forall₂ (IsText t s) (handles.filter (isWritten t)) written := by
  induction handles generalizing n written with
  | nil =>
    cases h
    exact .nil
  | cons handle rest ih =>
    rw [writeDeclarations] at h
    obtain ⟨⟨lines, n'⟩, hlines, h⟩ := bind_eq_ok h
    obtain ⟨more, hmore, h⟩ := bind_eq_ok h
    have hwritten := isSome_declarationLines hlines
    cases lines with
    | some lines =>
      cases h
      rw [List.filter_cons_of_pos hwritten.symm]
      exact .cons ⟨n, lines, n', hlines, rfl⟩ (ih hmore)
    | none =>
      cases h
      rw [List.filter_cons_of_neg (by rw [← hwritten]; exact Bool.false_ne_true)]
      exact ih hmore

/-- The names of the declarations that are written, in the order in which they are given. -/
theorem names_writeDeclarations (h : writeDeclarations t s n handles = .ok written) :
    written.map (·.1) = (handles.filter (isWritten t)).map t.name := by
  have htexts := isText_writeDeclarations h
  generalize handles.filter (isWritten t) = kept at htexts
  clear h
  induction htexts with
  | nil => rfl
  | cons htext _ ih =>
    obtain ⟨n, lines, n', -, rfl⟩ := htext
    rw [List.map_cons, List.map_cons, ih]

/-! ## The order and what is written of it -/

theorem generate_declarations {options : Options} {out : Output}
    (h : generate (some t) options = .ok out) :
    ∃ entry handles, findEntry t options.completed.entryPoint = .ok entry ∧
      order (Catalog.ofTree t) entry = .ok handles ∧
      out.info.declarations = (handles.filter (isWritten t)).map t.name := by
  obtain ⟨entry, hentry, h⟩ := bind_eq_ok h
  obtain ⟨handles, horder, h⟩ := bind_eq_ok h
  obtain ⟨written, hwritten, h⟩ := bind_eq_ok h
  refine ⟨entry, handles, hentry, horder, ?_⟩
  rw [← Except.ok.inj h]
  exact names_writeDeclarations hwritten

/-- The order of an entry lists exactly what it reaches, once each and the entry last. Of two listed
declarations of which one refers to the other, the other comes first or they lie on a circle; in
the tree of a resolved program no struct, member or resource lies on one. A shader declares the
listed declarations that are written, in their order. -/
theorem order_exact :
    (∀ c entry handles, order c entry = .ok handles →
      handles.Nodup ∧ (∀ x, x ∈ handles ↔ Reaches c entry x) ∧ handles.getLast? = some entry ∧
      ∀ h ∈ handles, ∀ d ∈ handles, DependsOn c h d → Precedes handles d h ∨ Reaches c d h) ∧
    (∀ root table t entry handles, Resolution.resolve root table = .ok t →
      order (Catalog.ofTree t) entry = .ok handles →
      ∀ h ∈ handles, ∀ d ∈ handles, DependsOn (Catalog.ofTree t) h d →
        Precedes handles d h ∨
        Reaches (Catalog.ofTree t) d h ∧ ∀ kind, Plain kind → t.kind? d ≠ some kind) ∧
    (∀ t options out, generate (some t) options = .ok out →
      ∃ entry handles, findEntry t options.completed.entryPoint = .ok entry ∧
        order (Catalog.ofTree t) entry = .ok handles ∧
        out.info.declarations = (handles.filter (isWritten t)).map t.name) := by
  refine ⟨?_, ?_, fun t options out h => generate_declarations h⟩
  · intro c entry handles h
    obtain ⟨hnodup, hmem, hlast, hordered⟩ := order_spec h
    exact ⟨hnodup, hmem, hlast, fun x hx d _ hd => hordered x hx d hd⟩
  · intro root table t entry handles hresolve horder h hh d _ hd
    obtain ⟨-, -, -, hordered⟩ := order_spec horder
    have ht : (Catalog.ofTree t).tree.WellFormed := by
      cases root with
      | none => cases hresolve
      | some scope => exact (Resolution.resolve_sound hresolve).1
    refine (hordered h hh d hd).imp_right fun hreach => ⟨hreach, ?_⟩
    intro kind hplain hk
    exact not_reaches ht hplain hk hd hreach

/-- Two functions that call each other are both listed, the entry last. -/
theorem order_exact_sample :
    let t : Tree := ⟨#[.scope "root" [some 3, some 5], .struct ⟨"void", none, [], []⟩,
      .call "main" none [], .function ⟨"f", [], some 1, [some 2], []⟩,
      .call "f" (some 3) [], .function ⟨"main", [], some 1, [some 4], []⟩]⟩
    Resolution.resolve (some (.root [.function "f" [] "void" [.call "main" []] [],
      .function "main" [] "void" [.call "f" []] []])) .empty = .ok t ∧
    ∃ out entry handles, generate (some t) .default = .ok out ∧
      order (Catalog.ofTree t) entry = .ok handles ∧
      (handles.filter (isWritten t)).map t.name = ["f", "main"] ∧
      handles.Nodup ∧ handles.getLast? = some entry ∧
      ∀ h ∈ handles, ∀ d ∈ handles, DependsOn (Catalog.ofTree t) h d →
        Precedes handles d h ∨
        Reaches (Catalog.ofTree t) d h ∧ ∀ kind, Plain kind → t.kind? d ≠ some kind := by
  intro t
  have hresolve : Resolution.resolve (some (.root [.function "f" [] "void" [.call "main" []] [],
      .function "main" [] "void" [.call "f" []] []])) .empty = .ok t :=
    Resolution.resolve_of_evaluate 9 (by decide +kernel)
  have hnames : (generate (some t) .default).toOption.map (·.info.declarations) =
      some ["f", "main"] := by
    decide +kernel
  obtain ⟨out, hout, hlisted⟩ := exists_of_toOption_map hnames
  obtain ⟨entry, handles, -, horder, hwritten⟩ := order_exact.2.2 t .default out hout
  obtain ⟨hnodup, -, hlast, -⟩ := order_exact.1 _ entry handles horder
  exact ⟨hresolve, out, entry, handles, hout, horder, hwritten.symm.trans hlisted, hnodup, hlast,
    order_exact.2.1 _ _ t entry handles hresolve horder⟩

end Shader.Glsl
