import Shader.Compile.Pipeline
import Shader.Proofs.Resolution.Program

/-!
# What a transform may do

A transform may append declarations, and its result may hold at most one function named `main`.
Here is what the two checks accept, and what follows for the declarations of the program.

Before resolution the check compares the identities of declarations with those of the scope that
the transform was given, as the transform left it. So a transform that works on a copy can only
append, while a transform that edits its scope in place can do anything to the declarations.

After resolution the check compares handles. A tree made from the given one by adding nodes and
children keeps every node, but nothing is known about a tree made from scratch.
-/

namespace Shader.Arena

/-! ## Trees made by steps -/

/-- The second tree is made from the first by adding nodes and children of scopes. -/
inductive Tree.Builds (t : Tree) : Tree → Prop
  | refl : Builds t t
  | add {t'} (h : Builds t t') (node : Node) : Builds t (t'.add node).2
  | appendChild {t' t'' scope child} (h : Builds t t')
      (hok : t'.appendChild scope child = .ok t'') : Builds t t''

theorem Tree.Builds.extends {t t' : Tree} (h : t.Builds t') : Extends t t' := by
  induction h with
  | refl => exact .refl t
  | add _ node ih => exact ih.trans (.add _ node)
  | appendChild _ hok ih => exact ih.trans (.appendChild hok)

theorem Extends.rootChildren {t t' : Tree} (he : Extends t t') :
    t.rootChildren <+: t'.rootChildren := by
  cases hroot : t.node? Tree.root with
  | none => simp [Tree.rootChildren, Tree.scope?, hroot]
  | some node =>
    obtain ⟨node', hroot', hgrows⟩ := he hroot
    cases hgrows with
    | same => simp [Tree.rootChildren, Tree.scope?, hroot, hroot']
    | scope name children more =>
      simp only [Tree.rootChildren, Tree.scope?, hroot, hroot']
      exact List.prefix_append children more

end Shader.Arena

namespace Shader.Compile

open Arena

variable {first : Except Breach Unit} {before : List Handle} {t : Tree}

/-! ## Lists that are kept -/

theorem prefix_iff_zip {α : Type} {before after : List α} :
    before <+: after ↔
      before.length ≤ after.length ∧ ∀ pair ∈ before.zip after, pair.1 = pair.2 := by
  induction before generalizing after with
  | nil => simp
  | cons old before ih =>
    cases after with
    | nil => simp
    | cons new after =>
      rw [List.cons_prefix_cons, ih]
      simp only [List.length_cons, Nat.add_le_add_iff_right, List.zip_cons_cons,
        List.forall_mem_cons]
      constructor
      · rintro ⟨hfirst, hlength, hrest⟩
        exact ⟨hlength, hfirst, hrest⟩
      · rintro ⟨hlength, hfirst, hrest⟩
        exact ⟨hfirst, hlength, hrest⟩

theorem checkKept_eq_ok_iff {α : Type} [DecidableEq α] {before after : List α} :
    checkKept before after = .ok () ↔ before <+: after := by
  rw [prefix_iff_zip]
  unfold checkKept
  by_cases hshort : after.length < before.length
  · rw [if_pos hshort]
    constructor
    · intro h
      cases h
    · rintro ⟨hlength, -⟩
      omega
  · rw [if_neg hshort]
    split
    · rename_i index hfirst
      obtain ⟨hlt, hdiffer, -⟩ := List.findIdx?_eq_some_iff_getElem.mp hfirst
      have hne : (before.zip after)[index].1 ≠ (before.zip after)[index].2 := by
        simpa using hdiffer
      constructor
      · intro h
        cases h
      · rintro ⟨-, hsame⟩
        exact absurd (hsame _ (List.getElem_mem hlt)) hne
    · rename_i hfirst
      have hsame := List.findIdx?_eq_none_iff.mp hfirst
      refine ⟨fun _ => ⟨by omega, fun pair hpair => ?_⟩, fun _ => rfl⟩
      simpa using hsame pair hpair

theorem checkMains_eq_ok_iff {count : Nat} : checkMains count = .ok () ↔ count ≤ 1 := by
  unfold checkMains
  by_cases h : 1 < count
  · rw [if_pos h]
    constructor
    · intro herror
      cases herror
    · intro hle
      omega
  · rw [if_neg h]
    exact ⟨fun _ => by omega, fun _ => rfl⟩

theorem checks_eq_ok_iff {β : Type} {second : Except Breach Unit} {a b : β} :
    (do first; second; return a) = Except.ok b ↔
      first = .ok () ∧ second = .ok () ∧ a = b := by
  constructor
  · intro h
    cases first with
    | error e => cases h
    | ok =>
      cases second with
      | error e => cases h
      | ok => exact ⟨rfl, rfl, Except.ok.inj h⟩
  · rintro ⟨rfl, rfl, rfl⟩
    rfl

theorem checks_of_kept {β : Type} (hfirst : first = .ok ()) (count : Nat) (a : β) :
    (do first; checkMains count; return a) =
      if count ≤ 1 then Except.ok a else .error (.mains count) := by
  subst hfirst
  unfold checkMains
  by_cases hle : count ≤ 1
  · rw [if_pos hle, if_neg (by omega)]
    rfl
  · rw [if_neg hle, if_pos (by omega)]
    rfl

/-! ## Before resolution -/

namespace Draft

variable {x : Keyed}

def keys (draft : Draft) : List Nat := draft.children.map (·.key)

/-- The number of functions named `main`, apart from those in nested scopes. -/
def mains (draft : Draft) : Nat := draft.children.countP (isMain ·.node)

/-- The second draft is a root scope that starts with the declarations of the first and has at most
one function named `main`. -/
structure Continues (given draft : Draft) : Prop where
  root : draft.name = Program.rootName
  kept : given.keys <+: draft.keys
  main : draft.mains ≤ 1

/-- Declarations of one identity are equal. -/
def Agrees (given draft : Draft) : Prop :=
  ∀ old ∈ given.children, ∀ new ∈ draft.children, old.key = new.key → old.node = new.node

theorem mains_eq (draft : Draft) : draft.mains = draft.toScope.children.countP isMain := by
  unfold mains toScope
  rw [List.countP_map]
  rfl

theorem toScope_ofScope (scope : Program.Scope) : (ofScope scope).toScope = scope := by
  have hnodes : (ofScope scope).children.map (·.node) = scope.children := by
    unfold ofScope
    rw [List.map_map]
    exact List.zipIdx_map_fst 0 scope.children
  unfold toScope
  rw [hnodes]
  rfl

theorem mem_ofScope {scope : Program.Scope} :
    x ∈ (ofScope scope).children ↔ scope.children[x.key]? = some x.node := by
  obtain ⟨key, node⟩ := x
  unfold ofScope
  rw [List.mem_map]
  constructor
  · rintro ⟨pair, hpair, heq⟩
    cases heq
    exact List.mem_zipIdx_iff_getElem?.mp hpair
  · intro hnode
    exact ⟨(node, key), List.mem_zipIdx_iff_getElem?.mpr hnode, rfl⟩

theorem lt_freshKey {draft : Draft} (hx : x ∈ draft.children) : x.key < draft.freshKey := by
  have hstart (xs : List Keyed) (n : Nat) : n ≤ xs.foldl (fun n d => max n (d.key + 1)) n := by
    induction xs generalizing n with
    | nil => exact Nat.le_refl n
    | cons y xs ih => exact Nat.le_trans (Nat.le_max_left n (y.key + 1)) (ih _)
  have hfresh (xs : List Keyed) (n : Nat) (hmem : x ∈ xs) :
      x.key < xs.foldl (fun n d => max n (d.key + 1)) n := by
    induction xs generalizing n with
    | nil => cases hmem
    | cons y xs ih =>
      rcases List.mem_cons.mp hmem with rfl | hmem
      · have hmax := Nat.le_max_right n (x.key + 1)
        have hrest := hstart xs (max n (x.key + 1))
        rw [List.foldl_cons]
        omega
      · exact ih _ hmem
  exact hfresh draft.children 0 hx

theorem agrees_append (scope : Program.Scope) (nodes : List Program.Node) :
    (ofScope scope).Agrees ((ofScope scope).append nodes) := by
  intro old hold new hnew hkey
  rcases List.mem_append.mp hnew with hnew | hnew
  · rw [mem_ofScope] at hold hnew
    rw [hkey, hnew] at hold
    exact (Option.some.inj hold).symm
  · obtain ⟨pair, -, rfl⟩ := List.mem_map.mp hnew
    have hlt := lt_freshKey hold
    dsimp only at hkey
    omega

theorem keys_append (draft : Draft) (nodes : List Program.Node) :
    draft.keys <+: (draft.append nodes).keys := by
  unfold keys append
  rw [List.map_append]
  exact List.prefix_append _ _

theorem toScope_append (draft : Draft) (nodes : List Program.Node) :
    (draft.append nodes).toScope = ⟨draft.name, draft.toScope.children ++ nodes⟩ := by
  have hnodes : (draft.append nodes).children.map (·.node) =
      draft.children.map (·.node) ++ nodes := by
    unfold append
    rw [List.map_append, List.map_map]
    exact congrArg _ (List.zipIdx_map_fst 0 nodes)
  unfold toScope
  rw [hnodes]
  rfl

theorem prefix_of_keys {old new : List Keyed} (hkeys : old.map (·.key) <+: new.map (·.key))
    (hsame : ∀ x ∈ old, ∀ y ∈ new, x.key = y.key → x.node = y.node) :
    old.map (·.node) <+: new.map (·.node) := by
  induction old generalizing new with
  | nil => exact List.nil_prefix
  | cons x old ih =>
    cases new with
    | nil => simp at hkeys
    | cons y new =>
      simp only [List.map_cons, List.cons_prefix_cons] at hkeys ⊢
      obtain ⟨hkey, hrest⟩ := hkeys
      refine ⟨hsame x (.head _) y (.head _) hkey, ih hrest ?_⟩
      intro x' hx' y' hy'
      exact hsame x' (.tail _ hx') y' (.tail _ hy')

theorem Continues.children {given draft : Draft} (h : given.Continues draft)
    (hsame : given.Agrees draft) : given.toScope.children <+: draft.toScope.children :=
  prefix_of_keys h.kept hsame

end Draft

theorem checkDraft_eq_ok_iff {given draft : Draft} {after : Option Draft} :
    checkDraft given.children after = .ok draft ↔ after = some draft ∧ given.Continues draft := by
  cases after with
  | none => simp [checkDraft]
  | some found =>
    unfold checkDraft
    by_cases hname : found.name = Program.rootName
    · dsimp only
      rw [if_neg (not_not_intro hname), checks_eq_ok_iff, checkKept_eq_ok_iff,
        checkMains_eq_ok_iff]
      constructor
      · rintro ⟨hkept, hmain, rfl⟩
        exact ⟨rfl, hname, hkept, hmain⟩
      · rintro ⟨hfound, hcontinues⟩
        cases hfound
        exact ⟨hcontinues.kept, hcontinues.main, rfl⟩
    · dsimp only
      rw [if_pos hname]
      constructor
      · intro h
        cases h
      · rintro ⟨hfound, hcontinues⟩
        cases hfound
        exact absurd hcontinues.root hname

theorem checkDraft_of_kept {given draft : Draft} (hroot : draft.name = Program.rootName)
    (hkept : given.keys <+: draft.keys) :
    checkDraft given.children (some draft) =
      if draft.mains ≤ 1 then .ok draft else .error (.mains draft.mains) := by
  unfold checkDraft
  dsimp only
  rw [if_neg (not_not_intro hroot)]
  exact checks_of_kept (checkKept_eq_ok_iff.mpr hkept) draft.mains draft

theorem transformScope_eq_ok_iff {f : ProgramTransform} {config : Option Program.Node}
    {scope scope' : Program.Scope} :
    transformScope f config scope = .ok scope' ↔
      ∃ given draft, f (.ofScope scope) config = .ok ⟨given, some draft⟩ ∧
        given.Continues draft ∧ scope' = draft.toScope := by
  unfold transformScope
  cases hrun : f (.ofScope scope) config with
  | error text => simp
  | ok revision =>
    obtain ⟨given, result⟩ := revision
    dsimp only
    cases hcheck : checkDraft given.children result with
    | error b =>
      constructor
      · intro h
        cases h
      · rintro ⟨given', draft, hrevision, hcontinues, -⟩
        cases hrevision
        rw [checkDraft_eq_ok_iff.mpr ⟨rfl, hcontinues⟩] at hcheck
        cases hcheck
    | ok draft =>
      obtain ⟨rfl, hcontinues⟩ := checkDraft_eq_ok_iff.mp hcheck
      constructor
      · intro h
        exact ⟨given, draft, rfl, hcontinues, (Except.ok.inj h).symm⟩
      · rintro ⟨given', draft', hrevision, -, rfl⟩
        cases hrevision
        rfl

theorem beforeResolution_eq_ok_iff {o : CompileOptions} {f : ProgramTransform}
    (hf : o.beforeResolve = some f) {scope scope' : Program.Scope} :
    beforeResolution o scope = .ok scope' ↔
      transformScope f o.transformConfig scope = .ok scope' := by
  unfold beforeResolution
  rw [hf]
  dsimp only
  cases transformScope f o.transformConfig scope with
  | error e => simp
  | ok found => rw [Except.ok.injEq, Except.ok.injEq]

def inPlace (edit : Draft → Draft) : ProgramTransform := fun draft _ =>
  .ok ⟨edit draft, some (edit draft)⟩

/-- Of an edit in place only the name of the scope and its functions named `main` are checked. -/
theorem transformScope_inPlace (edit : Draft → Draft) (config : Option Program.Node)
    (scope scope' : Program.Scope) :
    transformScope (inPlace edit) config scope = .ok scope' ↔
      (edit (.ofScope scope)).name = Program.rootName ∧ (edit (.ofScope scope)).mains ≤ 1 ∧
        scope' = (edit (.ofScope scope)).toScope := by
  rw [transformScope_eq_ok_iff]
  constructor
  · rintro ⟨given, draft, hrun, hcontinues, hscope⟩
    cases hrun
    exact ⟨hcontinues.root, hcontinues.main, hscope⟩
  · rintro ⟨hroot, hmain, hscope⟩
    exact ⟨_, _, rfl, ⟨hroot, List.prefix_refl _, hmain⟩, hscope⟩

/-- What a transform gives back is accepted if and only if it is a root scope that starts with the
declarations that the transform left in the scope it was given, and has at most one function named
`main`. If the transform has left that scope as it was, the declarations of the program are kept. -/
theorem beforeResolution_appendOnly {o : CompileOptions} {f : ProgramTransform}
    (hf : o.beforeResolve = some f) (scope scope' : Program.Scope) :
    (beforeResolution o scope = .ok scope' ↔
      ∃ given draft, f (.ofScope scope) o.transformConfig = .ok ⟨given, some draft⟩ ∧
        given.Continues draft ∧ scope' = draft.toScope) ∧
    ∀ draft, f (.ofScope scope) o.transformConfig = .ok ⟨.ofScope scope, some draft⟩ →
      (Draft.ofScope scope).Agrees draft → beforeResolution o scope = .ok scope' →
        scope'.name = Program.rootName ∧ scope.children <+: scope'.children := by
  have hiff := (beforeResolution_eq_ok_iff hf).trans
    (@transformScope_eq_ok_iff f o.transformConfig scope scope')
  refine ⟨hiff, fun draft hleft hsame hok => ?_⟩
  obtain ⟨given, draft', hrun, hcontinues, rfl⟩ := hiff.mp hok
  rw [hleft] at hrun
  cases hrun
  have hkept := hcontinues.children hsame
  rw [Draft.toScope_ofScope] at hkept
  exact ⟨hcontinues.root, hkept⟩

/-- Appending a declaration to a copy of a scope is accepted and keeps its declarations. -/
theorem beforeResolution_appendOnly_sample :
    let f : ProgramTransform := fun draft _ =>
      .ok ⟨draft, some (draft.append [.specialization "count" "u32"])⟩
    let o : CompileOptions := ⟨.default, some f, none, none⟩
    let scope : Program.Scope := .root [.function "main" [] "void" [] []]
    let scope' : Program.Scope :=
      .root [.function "main" [] "void" [] [], .specialization "count" "u32"]
    o.beforeResolve = some f ∧ beforeResolution o scope = .ok scope' ∧
      scope'.name = Program.rootName ∧ scope.children <+: scope'.children := by
  intro f o scope scope'
  have hok : beforeResolution o scope = .ok scope' := rfl
  exact ⟨rfl, hok, (beforeResolution_appendOnly (o := o) rfl scope scope').2 _ rfl
    (Draft.agrees_append _ _) hok⟩

/-- Removing the last declaration in place is accepted, and the declaration is gone. -/
theorem beforeResolution_inPlace_removes :
    let dropLast (draft : Draft) : Draft := { draft with children := draft.children.dropLast }
    let o : CompileOptions := ⟨.default, some (inPlace dropLast), none, none⟩
    let main : Program.Node := .function "main" [] "void" [] []
    let helper : Program.Node := .function "helper" [] "void" [] []
    beforeResolution o (.root [main, helper]) = .ok (.root [main]) ∧
      ¬ [main, helper] <+: [main] := by
  intro dropLast o main helper
  constructor
  · rw [beforeResolution_eq_ok_iff (o := o) rfl, transformScope_inPlace]
    exact ⟨rfl, by decide, rfl⟩
  · intro h
    have hlength := h.length_le
    simp at hlength

/-! ## After resolution -/

def mainsIn (t : Tree) : Nat := t.declarations.countP (isMainAt t)

theorem checkTree_eq_ok_iff {after : Option Tree} :
    checkTree before after = .ok t ↔
      after = some t ∧ before <+: t.rootChildren ∧ mainsIn t ≤ 1 := by
  cases after with
  | none => simp [checkTree]
  | some found =>
    unfold checkTree
    dsimp only
    rw [checks_eq_ok_iff, checkKept_eq_ok_iff, checkMains_eq_ok_iff]
    constructor
    · rintro ⟨hkept, hmain, rfl⟩
      exact ⟨rfl, hkept, hmain⟩
    · rintro ⟨hfound, hkept, hmain⟩
      cases hfound
      exact ⟨hkept, hmain, rfl⟩

theorem checkTree_of_kept (hkept : before <+: t.rootChildren) :
    checkTree before (some t) =
      if mainsIn t ≤ 1 then .ok t else .error (.mains (mainsIn t)) :=
  checks_of_kept (checkKept_eq_ok_iff.mpr hkept) (mainsIn t) t

theorem afterResolution_eq_ok_iff {o : CompileOptions} {f : TreeTransform}
    (hf : o.afterResolve = some f) {t t' : Tree} :
    afterResolution o t = .ok t' ↔
      f t o.transformConfig = .ok (some t') ∧ t.rootChildren <+: t'.rootChildren ∧
        mainsIn t' ≤ 1 := by
  unfold afterResolution transformTree
  rw [hf]
  dsimp only
  cases hrun : f t o.transformConfig with
  | error text => simp
  | ok after =>
    rw [Except.ok.injEq, ← checkTree_eq_ok_iff]
    dsimp only
    cases checkTree t.rootChildren after with
    | error b => simp
    | ok found => rw [Except.ok.injEq, Except.ok.injEq]

/-- What a transform gives back is accepted if and only if its root starts with the same handles and
it has at most one function named `main`. Nothing else is asked of it: it may be empty or have nodes
that stand inside themselves, and the equivalence holds for such trees as well. If the transform has
made it from the tree it was given by adding nodes and children, the handles are the same anyway,
and every node is kept but for scopes that have gained children at their end. -/
theorem afterResolution_appendOnly {o : CompileOptions} {f : TreeTransform}
    (hf : o.afterResolve = some f) (t t' : Tree) :
    (afterResolution o t = .ok t' ↔
      f t o.transformConfig = .ok (some t') ∧ t.rootChildren <+: t'.rootChildren ∧
        mainsIn t' ≤ 1) ∧
    (t.Builds t' → f t o.transformConfig = .ok (some t') →
      (afterResolution o t = .ok t' ↔ mainsIn t' ≤ 1) ∧
      ∀ h node, t.node? h = some node → ∃ node', t'.node? h = some node' ∧ node.Grows node') := by
  have hiff := @afterResolution_eq_ok_iff o f hf t t'
  refine ⟨hiff, fun hbuilds hrun => ⟨?_, fun h node hnode => hbuilds.extends hnode⟩⟩
  constructor
  · intro hok
    exact (hiff.mp hok).2.2
  · intro hmain
    exact hiff.mpr ⟨hrun, hbuilds.extends.rootChildren, hmain⟩

/-- A literal is added to a tree and to its root. -/
theorem afterResolution_appendOnly_sample :
    let t : Tree := ⟨#[.scope "root" [some 2], .struct ⟨"void", none, [], []⟩,
      .function ⟨"main", [], some 1, [], []⟩]⟩
    let t' : Tree := ⟨#[.scope "root" [some 2, some 3], .struct ⟨"void", none, [], []⟩,
      .function ⟨"main", [], some 1, [], []⟩, .literal "pi" "3.14"]⟩
    let f : TreeTransform := fun _ _ => .ok (some t')
    let o : CompileOptions := ⟨.default, none, some f, none⟩
    o.afterResolve = some f ∧ t.Builds t' ∧ afterResolution o t = .ok t' ∧
      ∀ h node, t.node? h = some node → ∃ node', t'.node? h = some node' ∧ node.Grows node' := by
  intro t t' f o
  have hbuilds : t.Builds t' :=
    @Tree.Builds.appendChild t _ t' Tree.root (some 3) (.add .refl (.literal "pi" "3.14")) rfl
  obtain ⟨haccepted, hkept⟩ := (afterResolution_appendOnly (o := o) rfl t t').2 hbuilds rfl
  exact ⟨rfl, hbuilds, haccepted.mpr (by decide), hkept⟩

/-- A tree made from scratch is accepted although it has another function at the handle of the
only declaration. -/
theorem afterResolution_replaces_function :
    let main : Program.Node := .function "main" [] "void" [.ret none] []
    let t : Tree := ⟨#[.scope "root" [some 3], .struct ⟨"void", none, [], []⟩, .ret none,
      .function ⟨"main", [], some 1, [some 2], []⟩]⟩
    let t' : Tree := ⟨#[.scope "root" [some 3], .struct ⟨"void", none, [], []⟩, .placeholder,
      .function ⟨"main", [], some 1, [], []⟩]⟩
    let o : CompileOptions := ⟨.default, none, some fun _ _ => .ok (some t'), none⟩
    Resolution.resolve (some (.root [main])) .empty = .ok t ∧ afterResolution o t = .ok t' ∧
      some 3 ∈ t.rootChildren ∧ (t.node? (some 3)).isSome ∧ t'.node? (some 3) ≠ t.node? (some 3) ∧
      t'.kind? (some 3) ≠ some .scope := by
  intro main t t' o
  refine ⟨?_, rfl, by decide, rfl, by decide, by decide⟩
  exact Resolution.resolve_of_evaluate 9 (by decide +kernel)

end Shader.Compile
