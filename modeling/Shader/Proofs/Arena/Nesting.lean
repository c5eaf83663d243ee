import Shader.Proofs.Arena.History

/-!
# Nested scopes

A scope may hold scopes. The declarations of a tree are found by a walk through the scopes, and the
walk ends if and only if it meets no scope that can be reached from itself. Nothing keeps an edit
from closing such a circle: a scope accepts any node, also itself or a scope around it, and a new
scope may list any handles. What is true is that circles come from such edits alone.
-/

namespace Shader.Arena

open Relation

variable {t : Tree} {h top : Handle} {name : String} {found : List Handle} {result : Option Handle}
  {depth : Nat}

/-! ## Scopes and what they list -/

def Node.children : Node → List Handle
  | .scope _ children => children
  | _ => []

def Tree.childrenOf (t : Tree) (h : Handle) : List Handle :=
  match t.node? h with
  | some node => node.children
  | none => []

/-- The scope at the first handle lists the second. -/
def Tree.Holds (t : Tree) (outer inner : Handle) : Prop := inner ∈ t.childrenOf outer

/-- No scope can be reached from itself through lists of children. -/
def Tree.Acyclic (t : Tree) : Prop := ∀ h, ¬ TransGen t.Holds h h

/-- No scope that can be reached from the given one can be reached from itself. -/
def Tree.AcyclicBelow (t : Tree) (top : Handle) : Prop :=
  ∀ h, ReflTransGen t.Holds top h → ¬ TransGen t.Holds h h

theorem Tree.childrenOf_of_node? {node : Node} (hnode : t.node? h = some node) :
    t.childrenOf h = node.children := by
  unfold Tree.childrenOf
  rw [hnode]

theorem Tree.childrenOf_of_scope? {children : List Handle}
    (hscope : t.scope? h = some (name, children)) : t.childrenOf h = children :=
  Tree.childrenOf_of_node? (Tree.scope?_eq_some_iff.mp hscope)

theorem Tree.childrenOf_of_leaf (hleaf : t.scope? h = none) : t.childrenOf h = [] := by
  unfold Tree.childrenOf
  cases hnode : t.node? h with
  | none => rfl
  | some node =>
    cases node with
    | scope name children =>
      rw [Tree.scope?_eq_some_iff.mpr hnode] at hleaf
      cases hleaf
    | _ => rfl

theorem Tree.rootChildren_eq (t : Tree) : t.rootChildren = t.childrenOf Tree.root := by
  unfold Tree.rootChildren
  split
  · rename_i hscope
    exact (Tree.childrenOf_of_scope? hscope).symm
  · rename_i hleaf
    exact (Tree.childrenOf_of_leaf hleaf).symm

theorem Tree.Holds.scope {t : Tree} {outer inner : Handle} (h : t.Holds outer inner) :
    ∃ name children, t.scope? outer = some (name, children) := by
  cases hscope : t.scope? outer with
  | none =>
    rw [Tree.Holds, Tree.childrenOf_of_leaf hscope] at h
    cases h
  | some found => exact ⟨found.1, found.2, rfl⟩

/-! ## Edits that close a circle -/

/-- The node that an event added or changed, and the children that it got by that. -/
def Event.links : Event → Handle × List Handle
  | .added node h => (h, node.children)
  | .appended scope child => (scope, [child])
  | .refused scope .. => (scope, [])

/-- An edit closes a circle if it gives a scope a child from which the scope can be reached. -/
def Tree.Closes (t : Tree) (edit : Edit) : Prop :=
  ∃ child ∈ (t.edit edit).1.links.2, ReflTransGen t.Holds child (t.edit edit).1.links.1

theorem Tree.Change.holds_iff {after : Tree} {event : Event} (hchange : t.Change event after)
    (outer inner : Handle) :
    after.Holds outer inner ↔
      t.Holds outer inner ∨ outer = event.links.1 ∧ inner ∈ event.links.2 := by
  cases hchange with
  | added node =>
    show inner ∈ (t.add node).2.childrenOf outer ↔
      inner ∈ t.childrenOf outer ∨ outer = some t.size ∧ inner ∈ node.children
    unfold Tree.childrenOf
    rw [Tree.node?_add]
    by_cases heq : outer = some t.size
    · subst heq
      simp [Tree.node?_size]
    · simp [heq]
  | @appended scope child after hok =>
    show inner ∈ after.childrenOf outer ↔
      inner ∈ t.childrenOf outer ∨ outer = scope ∧ inner ∈ [child]
    obtain ⟨name, children, hscope, -, hnodes⟩ := Tree.appendChild_eq_ok hok
    unfold Tree.childrenOf
    rw [hnodes]
    by_cases heq : outer = scope
    · subst heq
      simp [hscope, Node.children]
    · simp [heq]
  | @refused scope =>
    show t.Holds outer inner ↔ t.Holds outer inner ∨ outer = scope ∧ inner ∈ []
    simp

/-- With some links added at one place `x`, a path is an old one, or it starts with an old path to
`x` and ends with an old path from the end of a new link. -/
theorem transGen_of_links {α : Type} {old new : α → α → Prop} {x : α} {ends : List α}
    (hnew : ∀ a b, new a b ↔ old a b ∨ a = x ∧ b ∈ ends) {a b : α} (hpath : TransGen new a b) :
    TransGen old a b ∨ ReflTransGen old a x ∧ ∃ c ∈ ends, ReflTransGen old c b := by
  induction hpath with
  | single edge =>
    rcases (hnew _ _).mp edge with hold | ⟨rfl, hend⟩
    · exact Or.inl (.single hold)
    · exact Or.inr ⟨.refl, _, hend, .refl⟩
  | tail _ edge ih =>
    rcases (hnew _ _).mp edge with hold | ⟨rfl, hend⟩
    · rcases ih with hpath | ⟨hto, c, hc, hfrom⟩
      · exact Or.inl (hpath.tail hold)
      · exact Or.inr ⟨hto, c, hc, hfrom.tail hold⟩
    · rcases ih with hpath | ⟨hto, -⟩
      · exact Or.inr ⟨hpath.to_reflTransGen, _, hend, .refl⟩
      · exact Or.inr ⟨hto, _, hend, .refl⟩

theorem Tree.acyclic_edit_iff (t : Tree) (edit : Edit) :
    (t.edit edit).2.Acyclic ↔ t.Acyclic ∧ ¬ t.Closes edit := by
  have hlinks := (t.edit_change edit).holds_iff
  have hkept : ∀ a b, t.Holds a b → (t.edit edit).2.Holds a b := by
    intro a b hold
    exact (hlinks a b).mpr (Or.inl hold)
  constructor
  · intro hacyclic
    refine ⟨fun h hcircle => hacyclic h (TransGen.mono hkept h h hcircle), ?_⟩
    rintro ⟨child, hchild, hback⟩
    have hlink := (hlinks _ child).mpr (Or.inr ⟨rfl, hchild⟩)
    exact hacyclic _ (TransGen.head' hlink (ReflTransGen.mono hkept _ _ hback))
  · rintro ⟨hacyclic, hopen⟩ h hcircle
    rcases transGen_of_links hlinks hcircle with hold | ⟨hto, child, hchild, hfrom⟩
    · exact hacyclic h hold
    · exact hopen ⟨child, hchild, hfrom.trans hto⟩

/-- A tree has no circle after edits if and only if it had none and no edit closed one. -/
theorem Tree.acyclic_replay_iff (t : Tree) (edits : List Edit) :
    (t.replay edits).2.Acyclic ↔
      t.Acyclic ∧ ∀ before edit, before ++ [edit] <+: edits →
        ¬ (t.replay before).2.Closes edit := by
  induction edits generalizing t with
  | nil => simp
  | cons first rest ih =>
    rw [Tree.replay_cons, ih, Tree.acyclic_edit_iff]
    constructor
    · rintro ⟨⟨hacyclic, hfirst⟩, hrest⟩
      refine ⟨hacyclic, ?_⟩
      intro before edit hprefix
      cases before with
      | nil =>
        obtain ⟨rfl, -⟩ := List.cons_prefix_cons.mp hprefix
        exact hfirst
      | cons e before =>
        obtain ⟨rfl, htail⟩ := List.cons_prefix_cons.mp hprefix
        exact hrest before edit htail
    · rintro ⟨hacyclic, hall⟩
      refine ⟨⟨hacyclic, hall [] first (List.prefix_append [first] rest)⟩, ?_⟩
      intro before edit hprefix
      exact hall (first :: before) edit (List.cons_prefix_cons.mpr ⟨rfl, hprefix⟩)

theorem Tree.acyclic_empty : Tree.empty.Acyclic := by
  have hnone : ∀ a b, ¬ Tree.empty.Holds a b := by
    intro a b hab
    obtain ⟨name, children, hscope⟩ := hab.scope
    have hnode := Tree.scope?_eq_some_iff.mp hscope
    obtain ⟨j, hj, rfl⟩ := Tree.index_of_node? hnode
    obtain rfl : j = 0 := Nat.lt_one_iff.mp hj
    exact List.not_mem_nil hab
  intro h hcircle
  obtain ⟨b, -, hlast⟩ := TransGen.tail'_iff.mp hcircle
  exact hnone b h hlast

/-! ## Walks -/

/-- The walk through a list of children ends, and meets the given declarations. A scope is walked
through where it stands. -/
inductive Tree.Walk (t : Tree) : List Handle → List Handle → Prop
  | nil : Walk t [] []
  | scope {child rest inside later} (hscope : (t.scope? child).isSome)
      (hinside : Walk t (t.childrenOf child) inside) (hlater : Walk t rest later) :
      Walk t (child :: rest) (inside ++ later)
  | leaf {child rest later} (hleaf : t.scope? child = none) (hlater : Walk t rest later) :
      Walk t (child :: rest) (child :: later)

/-- The search for a name in a list of children ends with the given result. It goes into a scope
where it stands, and stops at the first declaration of the name. -/
inductive Tree.Search (t : Tree) (name : String) : List Handle → Option Handle → Prop
  | nil : Search t name [] none
  | inside {child found rest} (hscope : (t.scope? child).isSome)
      (hinside : Search t name (t.childrenOf child) (some found)) :
      Search t name (child :: rest) (some found)
  | outside {child rest result} (hscope : (t.scope? child).isSome)
      (hinside : Search t name (t.childrenOf child) none) (hlater : Search t name rest result) :
      Search t name (child :: rest) result
  | hit {child rest} (hleaf : t.scope? child = none) (hname : t.name child = name) :
      Search t name (child :: rest) (some child)
  | miss {child rest result} (hleaf : t.scope? child = none) (hname : t.name child ≠ name)
      (hlater : Search t name rest result) : Search t name (child :: rest) result

theorem Tree.Walk.unique {children found' : List Handle} (h : t.Walk children found)
    (h' : t.Walk children found') : found = found' := by
  induction h generalizing found' with
  | nil =>
    cases h'
    rfl
  | scope hscope _ _ ihinside ihlater =>
    cases h' with
    | scope _ hinside hlater => rw [ihinside hinside, ihlater hlater]
    | leaf hleaf _ =>
      rw [hleaf] at hscope
      cases hscope
  | leaf hleaf _ ihlater =>
    cases h' with
    | scope hscope _ _ =>
      rw [hleaf] at hscope
      cases hscope
    | leaf _ hlater => rw [ihlater hlater]

theorem Tree.Search.unique {children : List Handle} {result' : Option Handle}
    (h : t.Search name children result) (h' : t.Search name children result') :
    result = result' := by
  induction h generalizing result' with
  | nil =>
    cases h'
    rfl
  | inside hscope _ ih =>
    cases h' with
    | inside _ hinside => exact ih hinside
    | outside _ hinside _ => cases ih hinside
    | hit hleaf | miss hleaf => simp [hleaf] at hscope
  | outside hscope _ _ ihinside ihlater =>
    cases h' with
    | inside _ hinside => cases ihinside hinside
    | outside _ _ hlater => exact ihlater hlater
    | hit hleaf | miss hleaf => simp [hleaf] at hscope
  | hit hleaf hname =>
    cases h' with
    | inside hscope | outside hscope => simp [hleaf] at hscope
    | hit => rfl
    | miss _ hother _ => exact absurd hname hother
  | miss hleaf hname _ ih =>
    cases h' with
    | inside hscope | outside hscope => simp [hleaf] at hscope
    | hit _ hother => exact absurd hother hname
    | miss _ _ hlater => exact ih hlater

/-! ## When a walk ends -/

theorem Tree.Walk.acc {children : List Handle} (h : t.Walk children found) :
    ∀ child ∈ children, Acc (fun inner outer => t.Holds outer inner) child := by
  induction h with
  | nil =>
    intro child hchild
    cases hchild
  | scope _ _ _ ihinside ihlater =>
    intro child hchild
    rcases List.mem_cons.mp hchild with rfl | hrest
    · exact Acc.intro _ ihinside
    · exact ihlater child hrest
  | leaf hleaf _ ihlater =>
    intro child hchild
    rcases List.mem_cons.mp hchild with rfl | hrest
    · refine Acc.intro _ ?_
      intro inner hinner
      rw [Tree.Holds, Tree.childrenOf_of_leaf hleaf] at hinner
      cases hinner
    · exact ihlater child hrest

theorem Tree.Walk.acyclicBelow (h : t.Walk (t.childrenOf top) found) : t.AcyclicBelow top := by
  have htop : Acc (fun inner outer => t.Holds outer inner) top := Acc.intro _ h.acc
  intro g hreach
  have hg : Acc (fun inner outer => t.Holds outer inner) g := by
    induction hreach with
    | refl => exact htop
    | tail _ hlast ih => exact ih.inv hlast
  induction hg with
  | intro g _ ih =>
    intro hcircle
    -- the next scope on the circle is on a circle, too
    obtain ⟨next, hnext, hback⟩ := TransGen.head'_iff.mp hcircle
    exact ih next hnext (hreach.tail hnext) (TransGen.tail' hback hnext)

/-- The scopes on a way down from `top` to `h`, each of them once. -/
structure Tree.Trail (t : Tree) (top : Handle) (path : List Handle) (h : Handle) : Prop where
  nodup : path.Nodup
  handles : path ⊆ (List.range t.size).map some
  above : ∀ p ∈ path, TransGen t.Holds p h
  reach : ReflTransGen t.Holds top h

namespace Tree.Trail

variable {t : Tree} {h top : Handle} {children path : List Handle} {name : String}

theorem start (t : Tree) (top : Handle) : t.Trail top [] top :=
  ⟨List.nodup_nil, List.nil_subset _, nofun, .refl⟩

theorem nodup_cons (htrail : t.Trail top path h) (hacyclic : t.AcyclicBelow top) :
    (h :: path).Nodup := by
  refine List.nodup_cons.mpr ⟨?_, htrail.nodup⟩
  intro hmem
  exact hacyclic h htrail.reach (htrail.above h hmem)

theorem handles_cons (htrail : t.Trail top path h) (hscope : t.scope? h = some (name, children)) :
    h :: path ⊆ (List.range t.size).map some := by
  have hnode := Tree.scope?_eq_some_iff.mp hscope
  obtain ⟨j, hj, rfl⟩ := Tree.index_of_node? hnode
  exact List.cons_subset.mpr ⟨List.mem_map.mpr ⟨j, List.mem_range.mpr hj, rfl⟩, htrail.handles⟩

theorem down (htrail : t.Trail top path h) (hacyclic : t.AcyclicBelow top)
    (hscope : t.scope? h = some (name, children)) {child : Handle} (hchild : child ∈ children) :
    t.Trail top (h :: path) child := by
  have hholds : t.Holds h child := by
    rw [Tree.Holds, Tree.childrenOf_of_scope? hscope]
    exact hchild
  refine ⟨htrail.nodup_cons hacyclic, htrail.handles_cons hscope, ?_, htrail.reach.tail hholds⟩
  intro p hp
  rcases List.mem_cons.mp hp with rfl | hp
  · exact .single hholds
  · exact (htrail.above p hp).tail hholds

theorem length_lt (htrail : t.Trail top path h) (hacyclic : t.AcyclicBelow top)
    (hscope : t.scope? h = some (name, children)) : path.length < t.size := by
  have hlength := (htrail.nodup_cons hacyclic).length_le_of_subset (htrail.handles_cons hscope)
  simp only [List.length_cons, List.length_map, List.length_range] at hlength
  omega

end Tree.Trail

/-- Induction over the scopes below `top`, with a bound on the depth. No scope comes up twice on the
way down, so the bound is not reached. -/
theorem Tree.AcyclicBelow.descend {P : Nat → Handle → Prop}
    (hacyclic : t.AcyclicBelow top) (leaf : ∀ depth h, t.scope? h = none → P depth h)
    (scope : ∀ depth h name children, t.scope? h = some (name, children) →
      (∀ child ∈ children, P depth child) → P (depth + 1) h) : P t.size top := by
  have hall : ∀ (depth : Nat) (path : List Handle) (h : Handle), t.Trail top path h →
      t.size ≤ depth + path.length → P depth h := by
    intro depth
    induction depth with
    | zero =>
      intro path h htrail hsize
      cases hscope : t.scope? h with
      | none => exact leaf 0 h hscope
      | some found =>
        have hlt := htrail.length_lt hacyclic hscope
        omega
    | succ depth ih =>
      intro path h htrail hsize
      cases hscope : t.scope? h with
      | none => exact leaf _ h hscope
      | some found =>
        apply scope depth h found.1 found.2 hscope
        intro child hchild
        apply ih (h :: path) child (htrail.down hacyclic hscope hchild)
        rw [List.length_cons]
        omega
  exact hall t.size [] top (.start t top) (Nat.le_refl _)

/-! ## Walks of bounded depth -/

theorem Tree.declarationsIn_of_leaf (hleaf : t.scope? h = none) (depth : Nat) :
    t.declarationsIn depth h = [] := by
  cases depth with
  | zero => rfl
  | succ depth => rw [Tree.declarationsIn, hleaf]

theorem Tree.findIn?_of_leaf (hleaf : t.scope? h = none) (name : String) (depth : Nat) :
    t.findIn? name depth h = none := by
  cases depth with
  | zero => rfl
  | succ depth => rw [Tree.findIn?, hleaf]

theorem Tree.walk_flatMap {children : List Handle}
    (hchildren : ∀ c ∈ children, t.Walk (t.childrenOf c) (t.declarationsIn depth c)) :
    t.Walk children (children.flatMap fun child =>
      if (t.scope? child).isSome then t.declarationsIn depth child else [child]) := by
  induction children with
  | nil => exact .nil
  | cons child rest ih =>
    have hlater := ih fun c hc => hchildren c (.tail _ hc)
    rw [List.flatMap_cons]
    by_cases hscope : (t.scope? child).isSome
    · rw [if_pos hscope]
      exact .scope hscope (hchildren child (.head _)) hlater
    · rw [if_neg hscope]
      exact .leaf (Option.not_isSome_iff_eq_none.mp hscope) hlater

theorem Tree.search_findSome? {children : List Handle}
    (hchildren : ∀ c ∈ children, t.Search name (t.childrenOf c) (t.findIn? name depth c)) :
    t.Search name children (children.findSome? fun child =>
      if (t.scope? child).isSome then t.findIn? name depth child
      else if t.name child = name then some child else none) := by
  induction children with
  | nil => exact .nil
  | cons child rest ih =>
    have hlater := ih fun c hc => hchildren c (.tail _ hc)
    have hinside := hchildren child (.head _)
    rw [List.findSome?_cons]
    by_cases hscope : (t.scope? child).isSome
    · rw [if_pos hscope]
      cases hfound : t.findIn? name depth child with
      | none =>
        rw [hfound] at hinside
        exact .outside hscope hinside hlater
      | some found =>
        rw [hfound] at hinside
        exact .inside hscope hinside
    · have hleaf := Option.not_isSome_iff_eq_none.mp hscope
      rw [if_neg hscope]
      by_cases hname : t.name child = name
      · rw [if_pos hname]
        exact .hit hleaf hname
      · rw [if_neg hname]
        exact .miss hleaf hname hlater

theorem Tree.AcyclicBelow.walk (hacyclic : t.AcyclicBelow Tree.root) :
    t.Walk t.rootChildren t.declarations := by
  rw [Tree.rootChildren_eq]
  apply hacyclic.descend (P := fun depth h => t.Walk (t.childrenOf h) (t.declarationsIn depth h))
  · intro depth h hleaf
    rw [Tree.childrenOf_of_leaf hleaf, Tree.declarationsIn_of_leaf hleaf]
    exact .nil
  · intro depth h name children hscope hchildren
    rw [Tree.childrenOf_of_scope? hscope, Tree.declarationsIn, hscope]
    exact Tree.walk_flatMap hchildren

theorem Tree.AcyclicBelow.search (hacyclic : t.AcyclicBelow Tree.root) (name : String) :
    t.Search name t.rootChildren (t.find? name) := by
  rw [Tree.rootChildren_eq]
  apply hacyclic.descend
    (P := fun depth h => t.Search name (t.childrenOf h) (t.findIn? name depth h))
  · intro depth h hleaf
    rw [Tree.childrenOf_of_leaf hleaf, Tree.findIn?_of_leaf hleaf]
    exact .nil
  · intro depth h found children hscope hchildren
    rw [Tree.childrenOf_of_scope? hscope, Tree.findIn?, hscope]
    exact Tree.search_findSome? hchildren

/-- The walk through a tree ends if and only if it meets no circle, and then with what
`Tree.declarations` gives. -/
theorem Tree.walk_iff :
    t.Walk t.rootChildren found ↔ t.AcyclicBelow Tree.root ∧ found = t.declarations := by
  constructor
  · intro hwalk
    have hacyclic : t.AcyclicBelow Tree.root := by
      rw [Tree.rootChildren_eq] at hwalk
      exact hwalk.acyclicBelow
    exact ⟨hacyclic, hwalk.unique hacyclic.walk⟩
  · rintro ⟨hacyclic, rfl⟩
    exact hacyclic.walk

theorem Tree.AcyclicBelow.search_iff (hacyclic : t.AcyclicBelow Tree.root) :
    t.Search name t.rootChildren result ↔ result = t.find? name := by
  constructor
  · intro hsearch
    exact hsearch.unique (hacyclic.search name)
  · rintro rfl
    exact hacyclic.search name

/-- After any edits a tree is free of circles if and only if no edit closed one. The walk through
its declarations ends exactly if no circle can be reached from the root. Then it meets what
`Tree.declarations` lists, and the search for any name ends with the result of `Tree.find?`. -/
theorem replay_walks_end (edits : List Edit) :
    let t := (Tree.empty.replay edits).2
    (t.Acyclic ↔ ∀ before edit, before ++ [edit] <+: edits →
      ¬ (Tree.empty.replay before).2.Closes edit) ∧
    (t.Acyclic → t.AcyclicBelow Tree.root) ∧
    (∀ found, t.Walk t.rootChildren found ↔
      t.AcyclicBelow Tree.root ∧ found = t.declarations) ∧
    (t.AcyclicBelow Tree.root → ∀ name result,
      t.Search name t.rootChildren result ↔ result = t.find? name) := by
  intro t
  refine ⟨?_, fun hacyclic h _ => hacyclic h, fun _ => Tree.walk_iff, ?_⟩
  · rw [Tree.acyclic_replay_iff]
    exact and_iff_right Tree.acyclic_empty
  · intro hacyclic name result
    exact hacyclic.search_iff

/-- A scope with a literal in it is walked through. -/
theorem replay_walks_end_sample :
    let edits : List Edit := [.add (.scope "inner" []), .append Tree.root (some 1),
      .add (.literal "pi" "3.14"), .append (some 1) (some 2)]
    let t := (Tree.empty.replay edits).2
    t.Walk t.rootChildren [some 2] ∧ t.AcyclicBelow Tree.root ∧ [some 2] = t.declarations ∧
      t.Search "pi" t.rootChildren (t.find? "pi") := by
  intro edits t
  obtain ⟨-, -, hwalk, hsearch⟩ := replay_walks_end edits
  have hends : t.Walk [some 1] ([some 2] ++ []) := .scope rfl (.leaf rfl .nil) .nil
  obtain ⟨hacyclic, hfound⟩ := (hwalk _).mp hends
  exact ⟨hends, hacyclic, hfound, (hsearch hacyclic "pi" _).mpr rfl⟩

/-- The root is accepted as its own child. Then it can be reached from itself, and neither the walk
through the tree nor the search for a name ends. -/
theorem replay_closes_circle :
    let t := (Tree.empty.replay [.append Tree.root Tree.root]).2
    (Tree.empty.replay [.append Tree.root Tree.root]).1 = [.appended Tree.root Tree.root] ∧
      TransGen t.Holds Tree.root Tree.root ∧ (∀ found, ¬ t.Walk t.rootChildren found) ∧
      ∀ name result, ¬ t.Search name t.rootChildren result := by
  intro t
  have hself : Tree.root ∈ t.childrenOf Tree.root := by decide
  have hcircle : TransGen t.Holds Tree.root Tree.root := .single hself
  refine ⟨by decide, hcircle, ?_, ?_⟩
  · intro found hwalk
    exact (Tree.walk_iff.mp hwalk).1 Tree.root .refl hcircle
  · have hroot : t.childrenOf Tree.root = [Tree.root] := by decide
    have hscope : (t.scope? Tree.root).isSome := by decide
    -- every search in the root starts with the same search
    have hendless : ∀ name children result, t.Search name children result →
        children = [Tree.root] → False := by
      intro name children result hsearch
      induction hsearch with
      | nil => exact nofun
      | inside _ _ ih =>
        intro heq
        cases heq
        exact ih hroot
      | outside _ _ _ ih _ =>
        intro heq
        cases heq
        exact ih hroot
      | hit hleaf _ =>
        intro heq
        cases heq
        rw [hleaf] at hscope
        cases hscope
      | miss hleaf _ _ _ =>
        intro heq
        cases heq
        rw [hleaf] at hscope
        cases hscope
    intro name result hsearch
    rw [Tree.rootChildren_eq, hroot] at hsearch
    exact hendless name _ result hsearch rfl

end Shader.Arena
