import Shader.Proofs.Glsl.Trace

/-!
# Undeclared names

The declarations that an entry function needs are visited each before what it refers to. Generation
stops at the first name that a piece of code reads and that nothing declares: the first in the
first declaration, in the order of the visits, that has one.
-/

namespace Shader.Glsl

open Arena Relation

variable {c : Catalog} {entry g h : Handle} {depth : Nat} {deps seen seen' seen'' : List Handle}
variable {f : List Handle → Handle → List Handle} {x : Except GenerateError Walk}

/-- The declaration `h` refers to `d`, directly or through others, or is `d`. -/
def Leads (c : Catalog) : Handle → Handle → Prop := ReflTransGen fun h d => d ∈ references c h

/-! ## The order of visits -/

attribute [local instance] lawfulBEq_handle in
/-- The declarations seen so far, and behind them those that are visited from `h` on. -/
def visit (c : Catalog) : Nat → List Handle → Handle → List Handle
  | 0, seen, _ => seen
  | depth + 1, seen, h =>
    if h ∈ seen then seen else (references c h).foldl (visit c depth) (seen ++ [h])

/-- The declarations in the order in which they are visited. No visit is deeper than there are
nodes. -/
def visited (c : Catalog) (entry : Handle) : List Handle := visit c (c.tree.size + 1) [] entry

theorem prefix_foldl (hf : ∀ seen h, seen <+: f seen h)
    (deps seen : List Handle) : seen <+: deps.foldl f seen := by
  induction deps generalizing seen with
  | nil => exact List.prefix_refl _
  | cons d deps ih => exact (hf seen d).trans (ih _)

theorem prefix_visit (c : Catalog) (depth : Nat) (seen : List Handle) (h : Handle) :
    seen <+: visit c depth seen h := by
  induction depth generalizing seen h with
  | zero => exact List.prefix_refl _
  | succ depth ih =>
    unfold visit
    split
    · exact List.prefix_refl _
    · exact (List.prefix_append _ _).trans (prefix_foldl ih _ _)

theorem leads_of_mem_foldl (hf : ∀ d ∈ deps, ∀ seen, g ∈ f seen d → g ∈ seen ∨ Leads c h g)
    (hg : g ∈ deps.foldl f seen) : g ∈ seen ∨ Leads c h g := by
  induction deps generalizing seen with
  | nil => exact Or.inl hg
  | cons d deps ih =>
    exact (ih (fun d' hd' => hf d' (.tail _ hd')) hg).elim (hf d (.head _) seen) Or.inr

theorem leads_of_mem_visit (hg : g ∈ visit c depth seen h) : g ∈ seen ∨ Leads c h g := by
  induction depth generalizing seen h with
  | zero => exact Or.inl hg
  | succ depth ih =>
    unfold visit at hg
    split at hg
    · exact Or.inl hg
    · have hnew : g ∈ seen ++ [h] ∨ Leads c h g :=
        leads_of_mem_foldl (fun d hd seen hg => (ih hg).imp_right fun hd' => .head hd hd') hg
      refine hnew.elim (fun hmem => (List.mem_append.mp hmem).imp_right fun hh => ?_) Or.inr
      exact List.mem_singleton.mp hh ▸ .refl

/-- The name that code reads at a mark. -/
def Mark.read? : Mark → Option String
  | .reads name => some name
  | _ => none

/-- What a well-formed declaration refers to are nodes of the tree. -/
theorem isSome_of_mem_references (hc : c.Sound) (hh : (c.tree.node? h).isSome)
    (hg : g ∈ references c h) : (c.tree.node? g).isSome := by
  -- references do not depend on what is undeclared, so all that is read may count as declared
  let c' : Catalog :=
    { c with outputs := (marks c.tree h).filterMap Mark.read? }
  have hc' : c'.Sound := ⟨hc.tree, hc.declared⟩
  have hnone : undeclared c' h = [] := by
    refine List.filterMap_eq_nil_iff.mpr fun missing hmissing => ?_
    obtain ⟨before, m, after, hms, rfl⟩ := mem_along.mp hmissing
    cases m with
    | reads name =>
      have hmem : name ∈ c'.outputs :=
        List.mem_filterMap.mpr ⟨.reads name, by rw [show marks c.tree h = _ from hms]; simp, rfl⟩
      simp [Mark.missing?, Catalog.knows, hmem]
    | _ => rfl
  have hdeps : dependencies c' h = .ok (references c h) := by
    rw [dependencies_eq hc' hh, hnone]
    rfl
  obtain ⟨height, hheight⟩ := exists_height hc.tree.acyclic
  have hanswers := @dependencies_answers h c' True height hheight (fun _ => hc') fun _ => hh
  rw [hdeps] at hanswers
  exact hanswers.2 g hg trivial

/-- Further visits: no declaration is visited twice, and what a declaration refers to is visited
too. -/
structure Explores (c : Catalog) (seen seen' : List Handle) : Prop where
  keeps : seen <+: seen'
  nodup : seen'.Nodup
  nodes : ∀ g ∈ seen', (c.tree.node? g).isSome
  closed : ∀ g ∈ seen', g ∉ seen → ∀ d ∈ references c g, d ∈ seen'

theorem Explores.length_le (he : Explores c seen seen') : seen'.length ≤ c.tree.size :=
  (⟨he.nodes, he.nodup⟩ : Walk.Sound c.tree ⟨seen', []⟩).length_le

theorem Explores.trans (he : Explores c seen seen') (he' : Explores c seen' seen'') :
    Explores c seen seen'' := by
  refine ⟨he.keeps.trans he'.keeps, he'.nodup, he'.nodes, fun g hg hnew d hd => ?_⟩
  by_cases hold : g ∈ seen'
  · exact he'.keeps.subset (he.closed g hold hnew d hd)
  · exact he'.closed g hg hold d hd

theorem explores_foldl
    (hf : ∀ d ∈ deps, ∀ seen', seen.length ≤ seen'.length → Explores c seen' seen' →
      Explores c seen' (f seen' d) ∧ d ∈ f seen' d) (hseen : Explores c seen seen) :
    Explores c seen (deps.foldl f seen) ∧ ∀ d ∈ deps, d ∈ deps.foldl f seen := by
  induction deps generalizing seen with
  | nil => exact ⟨hseen, List.forall_mem_nil _⟩
  | cons d deps ih =>
    obtain ⟨hfirst, hmem⟩ := hf d (.head _) seen (Nat.le_refl _) hseen
    have hlength := hfirst.keeps.length_le
    have hself : Explores c (f seen d) (f seen d) :=
      ⟨List.prefix_refl _, hfirst.nodup, hfirst.nodes, fun g hg hnew => absurd hg hnew⟩
    obtain ⟨hrest, hall⟩ := ih (fun d' hd' seen' hle => hf d' (.tail _ hd') seen' (by omega)) hself
    refine ⟨hfirst.trans hrest, fun d' hd' => ?_⟩
    rcases List.mem_cons.mp hd' with rfl | hd'
    · exact hrest.keeps.subset hmem
    · exact hall d' hd'

theorem explores_visit (hc : c.Sound) (hh : (c.tree.node? h).isSome)
    (hseen : Explores c seen seen) (hdepth : c.tree.size < depth + seen.length) :
    Explores c seen (visit c depth seen h) ∧ h ∈ visit c depth seen h := by
  induction depth generalizing seen h with
  | zero =>
    -- all nodes have been visited, and the depth cannot have run out before
    have hle := hseen.length_le
    omega
  | succ depth ih =>
    unfold visit
    split
    · rename_i hmem
      exact ⟨hseen, hmem⟩
    · rename_i hnew
      have hentered : Explores c (seen ++ [h]) (seen ++ [h]) := by
        refine ⟨List.prefix_refl _, ?_, ?_, fun g hg hnot => absurd hg hnot⟩
        · exact List.nodup_append.mpr ⟨hseen.nodup, by simp, fun a ha b hb =>
            List.mem_singleton.mp hb ▸ fun heq => hnew (heq ▸ ha)⟩
        · intro g hg
          rcases List.mem_append.mp hg with hg | hg
          · exact hseen.nodes g hg
          · exact List.mem_singleton.mp hg ▸ hh
      obtain ⟨hrest, hall⟩ := explores_foldl (fun d hd seen' hle hseen' =>
        ih (isSome_of_mem_references hc hh hd) hseen' (by simp at hle; omega)) hentered
      refine ⟨⟨?_, hrest.nodup, hrest.nodes, fun g hg hold d hd => ?_⟩, ?_⟩
      · exact (List.prefix_append _ _).trans hrest.keeps
      · by_cases hself : g = h
        · exact hall d (hself ▸ hd)
        · exact hrest.closed g hg (by simp [hold, hself]) d hd
      · exact hrest.keeps.subset (by simp)

/-- Every declaration to which the entry leads is visited, once, and no other. -/
theorem visited_spec (hc : c.Sound) (hentry : (c.tree.node? entry).isSome) :
    (visited c entry).Nodup ∧ ∀ g, g ∈ visited c entry ↔ Leads c entry g := by
  have hstart : Explores c [] [] :=
    ⟨List.prefix_refl _, List.nodup_nil, List.forall_mem_nil _, List.forall_mem_nil _⟩
  obtain ⟨hexplores, hmem⟩ := explores_visit hc hentry hstart (Nat.lt_succ_self _)
  refine ⟨hexplores.nodup, fun g => ⟨fun hg => ?_, fun hg => ?_⟩⟩
  · exact (leads_of_mem_visit hg).resolve_left List.not_mem_nil
  · induction hg with
    | refl => exact hmem
    | tail _ hd ih => exact hexplores.closed _ ih List.not_mem_nil _ hd

/-! ## The walk -/

/-- The walk has entered what was visited, or it has stopped at a defect of the tree or at the first
undeclared name of what was to be visited. -/
def Tracks (c : Catalog) (seen : List Handle) (x : Except GenerateError Walk) : Prop :=
  match x with
  | .ok w => seen.flatMap (undeclared c) = [] ∧ ∀ g, g ∈ w.entered ↔ g ∈ seen
  | .error e => (∃ defect, e = .malformed defect) ∨
      (seen.flatMap (undeclared c)).head?.map .unresolvedSymbol = some e

theorem Tracks.error_later {e : GenerateError} (hx : Tracks c seen (.error e))
    (hlater : seen <+: seen') : Tracks c seen' (.error e) := by
  refine Or.imp_right (fun hhead => ?_) hx
  obtain ⟨rest, rfl⟩ := hlater
  rw [List.flatMap_append]
  cases hmissing : seen.flatMap (undeclared c) with
  | nil =>
    rw [hmissing] at hhead
    cases hhead
  | cons name more =>
    rw [hmissing] at hhead
    exact hhead

theorem tracks_foldlM
    (hstep : ∀ {x seen} h, Tracks c seen x → Tracks c (visit c depth seen h) (x >>= walk c depth h))
    (deps : List Handle) (hx : Tracks c seen x) :
    Tracks c (deps.foldl (visit c depth) seen)
      (x >>= fun w => deps.foldlM (fun w d => walk c depth d w) w) := by
  induction deps generalizing x seen with
  | nil =>
    change Tracks c seen (x >>= pure)
    rwa [bind_pure]
  | cons d deps ih =>
    have hrest := ih (hstep d hx)
    rw [bind_assoc] at hrest
    simp only [List.foldlM_cons]
    exact hrest

theorem tracks_walk (h : Handle) (hx : Tracks c seen x) :
    Tracks c (visit c depth seen h) (x >>= walk c depth h) := by
  induction depth generalizing x seen h with
  | zero =>
    cases x with
    | error e => exact hx
    | ok w => exact Or.inl ⟨_, rfl⟩
  | succ depth ih =>
    cases x with
    | error e => exact hx.error_later (prefix_visit c _ seen h)
    | ok w =>
      obtain ⟨hnone, hentered⟩ := hx
      change Tracks c _ (walk c (depth + 1) h w)
      unfold visit walk
      by_cases hmem : h ∈ seen
      · rw [if_pos hmem, if_pos ((hentered h).mpr hmem)]
        exact ⟨hnone, hentered⟩
      rw [if_neg hmem, if_neg (mt (hentered h).mp hmem)]
      have hmissing : (seen ++ [h]).flatMap (undeclared c) = undeclared c h := by
        rw [List.flatMap_append, hnone, List.nil_append, List.flatMap_singleton]
      rcases dependencies_cases c h with ⟨defect, hdefect⟩ | hdeps
      · rw [hdefect]
        exact Or.inl ⟨defect, rfl⟩
      rw [hdeps]
      cases hown : undeclared c h with
      | cons name more =>
        have hstop : Tracks c (seen ++ [h]) (.error (.unresolvedSymbol name)) :=
          Or.inr (by rw [hmissing, hown]; rfl)
        exact hstop.error_later (prefix_foldl (prefix_visit c depth) _ _)
      | nil =>
        have hstart : Tracks c (seen ++ [h]) (.ok { w with entered := h :: w.entered }) := by
          refine ⟨hmissing.trans hown, fun g => ?_⟩
          rw [List.mem_cons, List.mem_append, List.mem_singleton, hentered, or_comm]
        have hloop : Tracks c _ ((references c h).foldlM (fun w d => walk c depth d w)
          { w with entered := h :: w.entered }) := tracks_foldlM ih _ hstart
        change Tracks c _ ((references c h).foldlM (fun w d => walk c depth d w)
          { w with entered := h :: w.entered } >>= fun w => .ok { w with left := w.left ++ [h] })
        generalize (references c h).foldlM (fun w d => walk c depth d w) _ = y at hloop ⊢
        cases y with
        | ok w' => exact hloop
        | error e => exact hloop

theorem tracks_order (c : Catalog) (entry : Handle) :
    Tracks c (visited c entry) (walk c (c.tree.size + 1) entry ⟨[], []⟩) :=
  @tracks_walk c _ [] (.ok ⟨[], []⟩) entry ⟨rfl, fun _ => Iff.rfl⟩

/-! ## Shaders -/

/-- Generation from a well-formed tree fails with an unresolved name exactly if the walk does. -/
theorem generate_unresolved {t : Tree} {options : Options} {name : String} (ht : t.WellFormed)
    (hentry : findEntry t options.completed.entryPoint = .ok entry) :
    generate (some t) options = .error (.unresolvedSymbol name) ↔
      walk (.ofTree t) (t.size + 1) entry ⟨[], []⟩ = .error (.unresolvedSymbol name) := by
  obtain ⟨height, hheight⟩ := exists_height ht.acyclic
  have horder : order (.ofTree t) entry =
      (walk (.ofTree t) (t.size + 1) entry ⟨[], []⟩).map (·.left) := rfl
  unfold generate
  dsimp only
  rw [hentry]
  change (order (.ofTree t) entry >>= _) = _ ↔ _
  rw [horder]
  cases hrun : walk (.ofTree t) (t.size + 1) entry ⟨[], []⟩ with
  | error e => exact ⟨fun h => by cases h; rfl, fun h => by cases h; rfl⟩
  | ok w =>
    refine ⟨fun h => ?_, nofun⟩
    obtain ⟨written, hwritten⟩ := (writeDeclarations_writes hheight (fun _ : True => ht)
      ⟨options.completed.minify⟩ .start w.left).succeeds trivial
    change (writeDeclarations t _ _ w.left >>= _) = _ at h
    rw [hwritten] at h
    cases h

theorem malformed_of_walk {t : Tree} {defect : Defect} (ht : t.WellFormed)
    (hentry : (t.node? entry).isSome) :
    walk (.ofTree t) (t.size + 1) entry ⟨[], []⟩ ≠ .error (.malformed defect) := by
  intro hrun
  obtain ⟨height, hheight⟩ := exists_height ht.acyclic
  have hanswers := @order_answers (.ofTree t) True height hheight (fun _ => .ofTree ht) entry
    fun _ => hentry
  unfold order at hanswers
  rw [show walk (.ofTree t) ((Catalog.ofTree t).tree.size + 1) _ _ = _ from hrun] at hanswers
  obtain ⟨⟨name, hname⟩, -⟩ := hanswers.2 trivial
  cases hname

/-- Generation fails with an unresolved name if and only if a declaration to which the entry leads
reads a name that nothing declares; it names the first such name, in the order in which the
declarations are visited, each before what it refers to. -/
theorem generate_unresolved_iff {root : Option Program.Scope} {table : Program.TypeTable}
    {t : Tree} {options : Options} {entry : Handle}
    (hresolve : Resolution.resolve root table = .ok t)
    (hentry : findEntry t options.completed.entryPoint = .ok entry) :
    let c := Catalog.ofTree t
    ((∃ name, generate (some t) options = .error (.unresolvedSymbol name)) ↔
      ∃ h, Leads c entry h ∧ undeclared c h ≠ []) ∧
    (∀ name, generate (some t) options = .error (.unresolvedSymbol name) ↔
      ((visited c entry).flatMap (undeclared c)).head? = some name) ∧
    (visited c entry).Nodup ∧ ∀ h, h ∈ visited c entry ↔ Leads c entry h := by
  intro c
  have ht : t.WellFormed := by
    cases root with
    | none => cases hresolve
    | some scope => exact (Resolution.resolve_sound hresolve).1
  have hnode := isSome_of_findEntry hentry
  obtain ⟨hnodup, hvisited⟩ := visited_spec (Catalog.Sound.ofTree ht) hnode
  have hfirst : ∀ name, generate (some t) options = .error (.unresolvedSymbol name) ↔
      ((visited c entry).flatMap (undeclared c)).head? = some name := by
    intro name
    rw [generate_unresolved ht hentry]
    have htracks : Tracks c (visited c entry) (walk c (t.size + 1) entry ⟨[], []⟩) :=
      tracks_order c entry
    cases hrun : walk c (t.size + 1) entry ⟨[], []⟩ with
    | ok w =>
      rw [hrun] at htracks
      rw [htracks.1]
      exact ⟨nofun, nofun⟩
    | error e =>
      rw [hrun] at htracks
      obtain ⟨first, hhead, rfl⟩ := Option.map_eq_some_iff.mp
        (htracks.resolve_left fun ⟨_, heq⟩ => malformed_of_walk ht hnode (heq ▸ hrun))
      rw [hhead]
      simp
  refine ⟨?_, hfirst, hnodup, hvisited⟩
  simp only [hfirst]
  constructor
  · rintro ⟨name, hname⟩
    obtain ⟨g, hg, hmem⟩ := List.mem_flatMap.mp (List.mem_of_head? hname)
    exact ⟨g, (hvisited g).mp hg, List.ne_nil_of_mem hmem⟩
  · rintro ⟨g, hg, hmissing⟩
    obtain ⟨name, hname⟩ := List.exists_mem_of_ne_nil _ hmissing
    have hne := List.ne_nil_of_mem (List.mem_flatMap.mpr ⟨g, (hvisited g).mpr hg, hname⟩)
    exact ⟨_, List.head?_eq_some_head hne⟩

/-- The parameter and the variable of `main` may be read in its code, `noise` may not be read in the
code of `helper`. -/
theorem generate_unresolved_iff_sample :
    let root := Program.Scope.root
      [.function "helper" [] "void" [.fragment ⟨"noise();", ["noise"], []⟩] [],
        .function "main" [⟨"uv", "f32"⟩] "void" [.call "helper" [], .localVar "a" "f32",
          .fragment ⟨"a = uv;", ["uv", "a"], ["b"]⟩] []]
    let t : Tree := ⟨#[.scope "root" [some 3, some 9], .struct ⟨"void", none, [], []⟩,
      .fragment ⟨"noise();", ["noise"], []⟩, .function ⟨"helper", [], some 1, [some 2], []⟩,
      .struct ⟨"f32", none, [], []⟩, .parameter "uv" (some 4), .call "helper" (some 3) [],
      .localVar "a" (some 4), .fragment ⟨"a = uv;", ["uv", "a"], ["b"]⟩,
      .function ⟨"main", [some 5], some 1, [some 6, some 7, some 8], []⟩]⟩
    Resolution.resolve (some root) .empty = .ok t ∧ findEntry t "main" = .ok (some 9) ∧
    undeclared (.ofTree t) (some 9) = [] ∧
    generate (some t) .default = .error (.unresolvedSymbol "noise") ∧
    ∃ h, Leads (.ofTree t) (some 9) h ∧ undeclared (.ofTree t) h ≠ [] := by
  intro root t
  have hresolve : Resolution.resolve (some root) .empty = .ok t :=
    Resolution.resolve_of_evaluate 9 (by decide +kernel)
  have hentry : findEntry t Options.default.completed.entryPoint = .ok (some 9) := by decide +kernel
  obtain ⟨hiff, hfirst, -⟩ := generate_unresolved_iff hresolve hentry
  have herror := (hfirst "noise").mpr (by decide +kernel)
  exact ⟨hresolve, hentry, by decide +kernel, herror, hiff.mp ⟨_, herror⟩⟩

/-- The empty name is not looked up among the declarations, so code that reads it is refused even if
a declaration has no other name. -/
theorem generate_refuses_empty_name :
    let root := Program.Scope.root [.member ⟨"", "f32", 0, []⟩,
      .function "main" [] "void" [.fragment ⟨"x();", [""], []⟩] []]
    ∃ t, Resolution.resolve (some root) .empty = .ok t ∧
      (∃ h ∈ (Catalog.ofTree t).declared, t.name h = "") ∧
      generate (some t) .default = .error (.unresolvedSymbol "") := by
  let t : Tree := ⟨#[.scope "root" [some 2, some 5], .struct ⟨"f32", none, [], []⟩,
    .member ⟨"", some 1, 0, []⟩, .struct ⟨"void", none, [], []⟩, .fragment ⟨"x();", [""], []⟩,
    .function ⟨"main", [], some 3, [some 4], []⟩]⟩
  exact ⟨t, Resolution.resolve_of_evaluate 9 (by decide +kernel), ⟨some 2, by decide +kernel, rfl⟩,
    by decide +kernel⟩

end Shader.Glsl
