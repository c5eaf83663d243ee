import Mathlib.Data.List.Perm.Subperm
import Shader.Glsl.Dependency
import Shader.Proofs.Glsl.Depth

/-!
# Dependencies in well-formed trees

In a well-formed tree the dependencies of every declaration can be read, and they are nodes of the
tree. The only thing that can go wrong is that a piece of code reads a name that nothing declares.
In any other acyclic tree more can go wrong, but never for want of depth.
-/

namespace Shader.Glsl

open Arena

variable {t : Tree} {depth i : Nat} {h : Handle} {c : Catalog} {r : References}

/-! ## Outcomes -/

/-- The tree holds a piece of code. -/
def HasCode (t : Tree) : Prop := ∃ h decl, t.node? h = some (.fragment decl)

/-- The computation gives a result with the property. Provided that `Q` holds it fails only because
a piece of code of the tree reads a name that nothing declares. -/
def Answers {α : Type} (Q : Prop) (t : Tree) (x : Except GenerateError α) (post : α → Prop) :
    Prop :=
  Outcome Q (fun e => (∃ name, e = .unresolvedSymbol name) ∧ HasCode t) x post

/-! ## Declarations of a tree -/

theorem isSome_of_mem_declarationsIn (ht : t.WellFormed) {scope : Handle}
    (hh : h ∈ t.declarationsIn depth scope) : (t.node? h).isSome := by
  induction depth generalizing scope with
  | zero => cases hh
  | succ depth ih =>
    rw [Tree.declarationsIn] at hh
    split at hh
    · rename_i name children hscope
      obtain ⟨child, hchild, hh⟩ := List.mem_flatMap.mp hh
      split at hh
      · exact ih hh
      · rw [List.mem_singleton.mp hh]
        cases scope with
        | none => cases hscope
        | some i =>
          unfold Tree.scope? at hscope
          split at hscope
          · rename_i hnode
            cases hscope
            exact (ht.node hnode child hchild).1
          · cases hscope
    · cases hh

/-- The declarations of the catalog are nodes of its tree, which is well formed. -/
structure Catalog.Sound (c : Catalog) : Prop where
  tree : c.tree.WellFormed
  declared : ∀ h ∈ c.declared, (c.tree.node? h).isSome

theorem Catalog.Sound.ofTree {t : Tree} (ht : t.WellFormed) : (Catalog.ofTree t).Sound :=
  ⟨ht, fun _ hh => isSome_of_mem_declarationsIn ht hh⟩

theorem Catalog.mem_of_byName? {name : String} (hl : c.byName? name = some h) : h ∈ c.declared := by
  unfold Catalog.byName? at hl
  split at hl
  · cases hl
  · exact List.mem_of_find?_eq_some hl

/-! ## Growth of references -/

section References

variable {p : Handle → Prop} {r : References} {t : Tree} {c : Catalog}

theorem References.found_add (hr : ∀ d ∈ r.found, p d) (hp : h.isSome → p h) :
    ∀ d ∈ (r.add h).found, p d := by
  unfold References.add
  split
  · exact hr
  · rename_i hnew
    intro d hd
    rcases List.mem_append.mp hd with hd | hd
    · exact hr d hd
    · rw [List.mem_singleton.mp hd]
      refine hp ?_
      cases h with
      | none => exact absurd rfl hnew
      | some j => rfl

theorem References.found_addTypeOf (hr : ∀ d ∈ r.found, p d)
    (hmember : ∀ decl, t.node? h = some (.member decl) → p decl.type)
    (hparameter : ∀ name type, t.node? h = some (.parameter name type) → p type) :
    ∀ d ∈ (r.addTypeOf t h).found, p d := by
  unfold References.addTypeOf
  split
  · rename_i decl hnode
    exact References.found_add hr fun _ => hmember decl hnode
  · rename_i name type hnode
    exact References.found_add hr fun _ => hparameter name type hnode
  · exact hr

theorem References.found_addNamed (hr : ∀ d ∈ r.found, p d) (hp : ∀ h ∈ c.declared, p h)
    (h : Handle) (name : String) : ∀ d ∈ (r.addNamed c h name).found, p d := by
  unfold References.addNamed
  split
  · split
    · rename_i hmem
      exact References.found_add hr fun _ => hp h hmem
    · exact hr
  · split
    · exact hr
    · split
      · rename_i decl hl
        exact References.found_add hr fun _ => hp decl (Catalog.mem_of_byName? hl)
      · exact hr

theorem References.addInputs_answers {Q : Prop} (hcode : HasCode c.tree)
    (hp : ∀ h ∈ c.declared, p h) {inputs : List String} (hr : ∀ d ∈ r.found, p d) :
    Answers Q c.tree (r.addInputs c inputs) fun r => ∀ d ∈ r.found, p d := by
  induction inputs generalizing r with
  | nil => exact hr
  | cons name rest ih =>
    rw [References.addInputs]
    split
    · rename_i decl hl
      exact ih (References.found_add hr fun _ => hp decl (Catalog.mem_of_byName? hl))
    · split
      · exact ih hr
      · exact ⟨by simp [GenerateError.cause], fun _ => ⟨⟨name, rfl⟩, hcode⟩⟩

end References

/-! ## Types and resources -/

theorem addTypeOf_below (ht : t.WellFormed) {kind : Kind} {m : Handle} (hm : t.Below i kind m)
    (hr : ∀ d ∈ r.found, t.Below i .struct d) :
    ∀ d ∈ (r.addTypeOf t m).found, t.Below i .struct d := by
  obtain ⟨-, j, hj, rfl⟩ := hm
  refine References.found_addTypeOf hr ?_ ?_
  · intro decl hnode
    exact Tree.Below.trans (ht.node hnode) hj
  · intro name type hnode
    exact Tree.Below.trans (ht.node hnode) hj

theorem foldl_addTypeOf_below (ht : t.WellFormed) {kind : Kind} {members : List Handle}
    (hm : ∀ m ∈ members, t.Below i kind m) (hr : ∀ d ∈ r.found, t.Below i .struct d) :
    ∀ d ∈ (members.foldl (fun r m => r.addTypeOf t m) r).found, t.Below i .struct d := by
  induction members generalizing r with
  | nil => exact hr
  | cons m members ih =>
    exact ih (fun m' hm' => hm m' (.tail _ hm'))
      (addTypeOf_below ht (hm m (.head _)) hr)

theorem foldl_add_below {types : List Handle} (htypes : ∀ a ∈ types, t.Below i .struct a)
    (hr : ∀ d ∈ r.found, t.Below i .struct d) :
    ∀ d ∈ (types.foldl References.add r).found, t.Below i .struct d := by
  induction types generalizing r with
  | nil => exact hr
  | cons a types ih =>
    exact ih (fun a' ha' => htypes a' (.tail _ ha'))
      (References.found_add hr fun _ => htypes a (.head _))

/-- A declaration that is neither function nor piece of code depends on structs that were added
before it. -/
theorem dependencies_below (ht : c.tree.WellFormed) {node : Node}
    (hnode : c.tree.node? (some i) = some node) (hfunction : node.kind ≠ .function)
    (hfragment : ∀ decl, node ≠ .fragment decl) :
    ∃ deps, dependencies c (some i) = .ok deps ∧ ∀ d ∈ deps, c.tree.Below i .struct d := by
  have hw := ht.node hnode
  have hnone : ∀ d ∈ References.none.found, c.tree.Below i .struct d := nofun
  unfold dependencies
  rw [hnode]
  cases node with
  | function decl => exact absurd rfl hfunction
  | fragment decl => exact absurd rfl (hfragment decl)
  | struct decl =>
    exact ⟨_, rfl, foldl_add_below hw.2.2 (foldl_addTypeOf_below ht hw.2.1 hnone)⟩
  | member decl => exact ⟨_, rfl, References.found_add hnone fun _ => hw⟩
  | binding decl => exact ⟨_, rfl, foldl_addTypeOf_below ht hw.1 hnone⟩
  | pushConstant members => exact ⟨_, rfl, foldl_addTypeOf_below ht hw hnone⟩
  | specialization name type => exact ⟨_, rfl, References.found_add hnone fun _ => hw⟩
  | _ => exact ⟨[], rfl, nofun⟩

/-! ## Functions -/

section Functions

variable {Q : Prop} {height : Handle → Nat}

/-- All that has been found are nodes of the tree, provided that `Q` holds. -/
def Found (Q : Prop) (t : Tree) (r : References) : Prop := ∀ d ∈ r.found, Q → (t.node? d).isSome

theorem readExpr_answers (ht : Height c.tree height) (hc : Q → c.Sound) (hh : height h < depth)
    (hk : Q → c.tree.kind? h = some .expression) (hr : Found Q c.tree r) :
    Answers Q c.tree (readExpr c depth h r) (Found Q c.tree) := by
  induction depth generalizing h r with
  | zero => omega
  | succ depth ih =>
    rw [readExpr]
    cases hnode : c.tree.node? h with
    | none =>
      refine .error (by simp [GenerateError.cause]) fun hq => ?_
      simpa [Tree.kind?, hnode] using hk hq
    | some node =>
      have hw (hq : Q) := exists_wellFormed (hc hq).tree hnode
      have hdeclared : ∀ d ∈ c.declared, Q → (c.tree.node? d).isSome :=
        fun d hd hq => (hc hq).declared d hd
      have hone {d : Handle} {r : References} (hd : d ∈ node.references)
          (hpart : ∀ i, node.WellFormed c.tree i → c.tree.kind? d = some .expression)
          (hr : Found Q c.tree r) : Answers Q c.tree (readExpr c depth d r) (Found Q c.tree) := by
        have hlt := ht.lt hnode d hd
        exact ih (by omega) (fun hq => (hw hq).elim hpart) hr
      have hall {ds : List Handle} {r : References} (hds : ∀ d ∈ ds, d ∈ node.references)
          (hparts : ∀ i, node.WellFormed c.tree i →
            ∀ d ∈ ds, c.tree.Below i .expression d) (hr : Found Q c.tree r) :
          Answers Q c.tree (ds.foldlM (fun r d => readExpr c depth d r) r) (Found Q c.tree) :=
        Outcome.foldlM hr fun _ hr d hd => hone (hds d hd) (fun i hi => (hparts i hi d hd).1) hr
      cases node with
      | ident name source => exact References.found_addNamed hr hdeclared source name
      | access left right =>
        refine (hone (by simp [Node.references]) (fun _ hw => hw.1.1) hr).bind fun r' hr' => ?_
        split
        · exact hr'
        · exact hone (by simp [Node.references]) (fun _ hw => hw.2.1) hr'
      | call callee target args =>
        refine hall (fun a ha => .tail _ ha) (fun _ hw => hw.1) ?_
        split
        · rename_i hstruct
          obtain ⟨decl, hdecl⟩ := Option.isSome_iff_exists.mp hstruct
          refine References.found_add hr fun _ _ => ?_
          exact Tree.isSome_of_kind? (kind?_of_struct? hdecl).2
        · exact References.found_addNamed hr hdeclared target callee
      | intrinsicCall callee elements =>
        exact hall (fun e he => .tail _ he) (fun _ hw => hw.2) hr
      | binary op left right =>
        refine (hone (by simp [Node.references]) (fun _ hw => hw.1.1) hr).bind fun r' hr' => ?_
        exact hone (by simp [Node.references]) (fun _ hw => hw.2.1) hr'
      | localVar name type =>
        exact References.found_add hr fun _ hq => (hw hq).elim fun _ hw => hw.isSome
      | sequence elements => exact hall (fun e he => he) (fun _ hw => hw) hr
      | ret value =>
        dsimp only
        split
        · rename_i hsome
          refine hone (List.mem_singleton_self _) (fun _ hw => ?_) hr
          refine (hw.resolve_left fun hnone => ?_).1
          rw [hnone] at hsome
          cases hsome
        · exact hr
      | fragment decl => exact References.addInputs_answers ⟨_, decl, hnode⟩ hdeclared hr
      | constant | marker | literal | placeholder => exact hr
      | _ =>
        refine .error (by simp [GenerateError.cause]) fun hq => ?_
        simpa [Tree.kind?, hnode, Node.kind] using hk hq

theorem found_params {t : Tree} (ht : t.WellFormed) {i : Nat} {params : List Handle}
    (hp : ∀ p ∈ params, t.Below i .parameter p) {r : References}
    (hr : ∀ d ∈ r.found, t.Below i .struct d) :
    ∀ d ∈ (params.foldl (fun r p => (r.addTypeOf t p).addLocal (t.name p)) r).found,
      t.Below i .struct d := by
  induction params generalizing r with
  | nil => exact hr
  | cons p params ih =>
    exact ih (fun p' hp' => hp p' (.tail _ hp'))
      (addTypeOf_below ht (hp p (.head _)) hr)

theorem readFunction_answers (ht : Height c.tree height) (hc : Q → c.Sound) {decl : Function}
    (hnode : c.tree.node? h = some (.function decl)) :
    Answers Q c.tree (readFunction c decl) (Found Q c.tree) := by
  have hw (hq : Q) := exists_wellFormed (hc hq).tree hnode
  unfold readFunction
  refine Outcome.foldlM ?_ fun r hr s hs => ?_
  · intro d hd hq
    obtain ⟨i, hparams, hreturns, -⟩ := hw hq
    have hfound := @found_params _ (hc hq).tree i decl.params hparams References.none nofun
    exact (References.found_add hfound (fun _ => hreturns) d hd).isSome
  · refine readExpr_answers ht hc (Nat.lt_succ_of_le (ht.le_size s)) (fun hq => ?_) hr
    exact (hw hq).elim fun _ hw => (hw.2.2 s hs).1

/-- What has dependencies is a node of the tree, and so are they. -/
theorem dependencies_answers (ht : Height c.tree height) (hc : Q → c.Sound)
    (hh : Q → (c.tree.node? h).isSome) :
    Answers Q c.tree (dependencies c h) fun deps =>
      (c.tree.node? h).isSome ∧ ∀ d ∈ deps, Q → (c.tree.node? d).isSome := by
  unfold dependencies
  cases hnode : c.tree.node? h with
  | none =>
    refine .error (by simp [GenerateError.cause]) fun hq => ?_
    simpa [hnode] using hh hq
  | some node =>
    cases node with
    | function decl => exact (readFunction_answers ht hc hnode).map fun _ hr => ⟨rfl, hr⟩
    | fragment decl =>
      have hdeclared : ∀ d ∈ c.declared, Q → (c.tree.node? d).isSome :=
        fun d hd hq => (hc hq).declared d hd
      have hnone : ∀ d ∈ References.none.found, Q → (c.tree.node? d).isSome := nofun
      exact (References.addInputs_answers ⟨_, decl, hnode⟩ hdeclared hnone).map
        fun _ hr => ⟨rfl, hr⟩
    | _ =>
      refine ⟨rfl, fun d hd hq => ?_⟩
      obtain ⟨i, -, rfl⟩ := Tree.index_of_node? hnode
      obtain ⟨deps, hdeps, hbelow⟩ :=
        dependencies_below (hc hq).tree hnode (by simp [Node.kind]) (by simp)
      unfold dependencies at hdeps
      rw [hnode] at hdeps
      cases hdeps
      exact (hbelow d hd).isSome

end Functions

/-! ## The walk -/

/-- The walk has entered each node at most once, and nodes of the tree only. -/
structure Walk.Sound (t : Tree) (w : Walk) : Prop where
  entered : ∀ h ∈ w.entered, (t.node? h).isSome
  nodup : w.entered.Nodup

theorem Walk.Sound.length_le {t : Tree} {w : Walk} (hw : w.Sound t) :
    w.entered.length ≤ t.size := by
  have hsub : w.entered ⊆ (List.range t.size).map some := by
    intro h hh
    obtain ⟨j, hj, rfl⟩ := Tree.lt_size_of_isSome (hw.entered h hh)
    exact List.mem_map_of_mem (List.mem_range.mpr hj)
  have hle := (hw.nodup.subperm hsub).length_le
  rwa [List.length_map, List.length_range] at hle

section Walks

variable {Q : Prop} {height : Handle → Nat}

theorem walk_answers (ht : Height c.tree height) (hc : Q → c.Sound) {w : Walk}
    (hh : Q → (c.tree.node? h).isSome) (hw : w.Sound c.tree)
    (hdepth : c.tree.size < depth + w.entered.length) :
    Answers Q c.tree (walk c depth h w) fun w' =>
      w'.Sound c.tree ∧ w.entered.length ≤ w'.entered.length := by
  induction depth generalizing h w with
  | zero =>
    -- all nodes have been entered, and the depth cannot have run out before
    have hle := hw.length_le
    omega
  | succ depth ih =>
    rw [walk]
    split
    · exact ⟨hw, Nat.le_refl _⟩
    · rename_i hnew
      refine (dependencies_answers ht hc hh).bind fun deps hdeps => ?_
      obtain ⟨hnode, hdeps⟩ := hdeps
      have hentered : Walk.Sound c.tree { w with entered := h :: w.entered } :=
        ⟨List.forall_mem_cons.mpr ⟨hnode, hw.entered⟩, List.nodup_cons.mpr ⟨hnew, hw.nodup⟩⟩
      have hloop : Answers Q c.tree
          (deps.foldlM (fun w d => walk c depth d w) { w with entered := h :: w.entered })
          fun w' => w'.Sound c.tree ∧ w.entered.length + 1 ≤ w'.entered.length := by
        refine Outcome.foldlM ⟨hentered, Nat.le_refl _⟩ ?_
        rintro w' ⟨hw', hle⟩ d hd
        refine Outcome.imp (ih (hdeps d hd) hw' (by omega)) ?_
        rintro w'' ⟨hw'', hle'⟩
        exact ⟨hw'', Nat.le_trans hle hle'⟩
      refine hloop.bind fun w' hw' => ?_
      exact ⟨⟨hw'.1.entered, hw'.1.nodup⟩, Nat.le_of_succ_le hw'.2⟩

theorem order_answers (ht : Height c.tree height) (hc : Q → c.Sound) {entry : Handle}
    (hentry : Q → (c.tree.node? entry).isSome) :
    Answers Q c.tree (order c entry) fun _ => True := by
  have hstart : Walk.Sound c.tree ⟨[], []⟩ := ⟨nofun, List.nodup_nil⟩
  exact (walk_answers ht hc hentry hstart (Nat.lt_succ_self _)).map fun _ _ => trivial

end Walks

end Shader.Glsl
