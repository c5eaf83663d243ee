import Shader.Proofs.Arena.WellFormed

/-!
# Histories of a tree

A tree is made by edits: a node is added, or a child is appended to a scope. A history is what a
sequence of edits did, each with its answer. The tree can be read off its history: it holds the
nodes that were added, at the handles that were given out for them, and a scope has gained the
children that were appended to it, in order. Nothing else ever changes.
-/

namespace Shader.Arena

variable {after t : Tree} {child h scope : Handle} {node : Node} {event : Event} {edits : List Edit}

/-! ## Edits and their answers -/

/-- A request to change a tree. -/
inductive Edit where
  | add (node : Node)
  | append (scope child : Handle)
  deriving Repr, DecidableEq

/-- What a request did. -/
inductive Event where
  | added (node : Node) (handle : Handle)
  | appended (scope child : Handle)
  | refused (scope child : Handle) (error : TreeError)
  deriving Repr, DecidableEq

def Tree.edit (t : Tree) : Edit → Event × Tree
  | .add node => (.added node (t.add node).1, (t.add node).2)
  | .append scope child =>
    match t.appendChild scope child with
    | .ok after => (.appended scope child, after)
    | .error error => (.refused scope child error, t)

def Tree.replay (t : Tree) : List Edit → List Event × Tree
  | [] => ([], t)
  | edit :: rest =>
    ((t.edit edit).1 :: ((t.edit edit).2.replay rest).1, ((t.edit edit).2.replay rest).2)

@[simp] theorem Tree.replay_nil (t : Tree) : t.replay [] = ([], t) := rfl

@[simp] theorem Tree.replay_cons (t : Tree) (edit : Edit) (rest : List Edit) :
    t.replay (edit :: rest) =
      ((t.edit edit).1 :: ((t.edit edit).2.replay rest).1, ((t.edit edit).2.replay rest).2) := rfl

/-- What one edit can do: the event, and the tree after it. -/
inductive Tree.Change (t : Tree) : Event → Tree → Prop
  | added (node : Node) : Change t (.added node (some t.size)) (t.add node).2
  | appended {scope child : Handle} {after : Tree} (hok : t.appendChild scope child = .ok after) :
    Change t (.appended scope child) after
  | refused {scope child : Handle} {error : TreeError}
    (hrefused : t.appendChild scope child = .error error) :
    Change t (.refused scope child error) t

theorem Tree.edit_change (t : Tree) (edit : Edit) :
    t.Change (t.edit edit).1 (t.edit edit).2 := by
  cases edit with
  | add node => exact .added node
  | append scope child =>
    unfold Tree.edit
    dsimp only
    split
    · rename_i hok
      exact .appended hok
    · rename_i hrefused
      exact .refused hrefused

/-! ## When a child is refused -/

theorem Tree.scope?_eq_some_iff {name : String} {children : List Handle} :
    t.scope? h = some (name, children) ↔ t.node? h = some (.scope name children) := by
  unfold Tree.scope?
  constructor
  · intro hscope
    split at hscope
    · rename_i hnode
      cases hscope
      exact hnode
    · cases hscope
  · intro hnode
    rw [hnode]

theorem Tree.appendChild_isOk_iff :
    (∃ after, t.appendChild scope child = .ok after) ↔
      (t.scope? scope).isSome ∧ (t.node? child).isSome := by
  constructor
  · rintro ⟨after, hok⟩
    obtain ⟨name, children, hscope, hchild, -⟩ := Tree.appendChild_eq_ok hok
    rw [Tree.scope?_eq_some_iff.mpr hscope]
    exact ⟨rfl, hchild⟩
  · rintro ⟨hscope, hchild⟩
    obtain ⟨⟨name, children⟩, hfound⟩ := Option.isSome_iff_exists.mp hscope
    cases scope with
    | none => cases hfound
    | some i =>
      unfold Tree.appendChild
      rw [hfound]
      dsimp only
      rw [if_pos hchild]
      exact ⟨_, rfl⟩

theorem Tree.edit_appended_iff :
    (t.edit (.append scope child)).1 = .appended scope child ↔
      (t.scope? scope).isSome ∧ (t.node? child).isSome := by
  rw [← Tree.appendChild_isOk_iff]
  cases hrun : t.appendChild scope child with
  | ok | error => simp [Tree.edit, hrun]

theorem Tree.Change.eq_of_refused {error : TreeError}
    (h : t.Change (.refused scope child error) after) : after = t := by
  cases h
  rfl

/-! ## What a history gives to a scope -/

def Event.gift? (h : Handle) : Event → Option Handle
  | .appended scope child => if scope = h then some child else none
  | _ => none

def gained (h : Handle) (events : List Event) : List Handle := events.filterMap (Event.gift? h)

theorem gained_cons (h : Handle) (event : Event) (later : List Event) :
    gained h (event :: later) = gained h [event] ++ gained h later :=
  List.filterMap_append (l := [event])

def Node.grow (node : Node) (more : List Handle) : Node :=
  match node with
  | .scope name children => .scope name (children ++ more)
  | other => other

@[simp] theorem Node.grow_nil (node : Node) : node.grow [] = node := by
  cases node with
  | scope name children => exact congrArg (Node.scope name) (List.append_nil children)
  | _ => rfl

@[simp] theorem Node.grow_grow (node : Node) (first second : List Handle) :
    (node.grow first).grow second = node.grow (first ++ second) := by
  cases node with
  | scope name children =>
    exact congrArg (Node.scope name) (List.append_assoc children first second)
  | _ => rfl

theorem Node.grows_grow (node : Node) (more : List Handle) : node.Grows (node.grow more) := by
  cases node with
  | scope name children => exact .scope name children more
  | _ => exact .same _

/-! ## What a handle refers to -/

theorem Tree.Change.node? (hchange : t.Change event after) (hnode : t.node? h = some node) :
    after.node? h = some (node.grow (gained h [event])) := by
  cases hchange with
  | added new =>
    have hold : h ≠ some t.size := by
      rintro rfl
      rw [Tree.node?_size] at hnode
      cases hnode
    rw [Tree.node?_add, if_neg hold, hnode]
    exact congrArg some node.grow_nil.symm
  | @appended scope child after hok =>
    obtain ⟨name, children, hscope, -, hnodes⟩ := Tree.appendChild_eq_ok hok
    rw [hnodes]
    by_cases heq : h = scope
    · subst heq
      rw [hnode] at hscope
      cases hscope
      simp [gained, Event.gift?, Node.grow]
    · have hnone : gained h [.appended scope child] = [] := by
        simp [gained, Event.gift?, Ne.symm heq]
      rw [if_neg heq, hnone, hnode, Node.grow_nil]
  | refused =>
    rw [hnode]
    exact congrArg some node.grow_nil.symm

/-- Edits change a node only by the children that they give to it. -/
theorem Tree.replay_node? (hnode : t.node? h = some node) (edits : List Edit) :
    (t.replay edits).2.node? h = some (node.grow (gained h (t.replay edits).1)) := by
  induction edits generalizing t node with
  | nil => exact hnode.trans (congrArg some node.grow_nil.symm)
  | cons edit rest ih =>
    rw [Tree.replay_cons, ih ((t.edit_change edit).node? hnode), Node.grow_grow, ← gained_cons]

theorem Tree.Change.size_le (hchange : t.Change event after) : t.size ≤ after.size := by
  by_cases hzero : t.size = 0
  · omega
  · -- the last node of the tree is still there
    have hlt : t.size - 1 < t.nodes.size := Nat.sub_one_lt hzero
    have hlast : t.node? (some (t.size - 1)) = some t.nodes[t.size - 1] :=
      Array.getElem?_eq_getElem hlt
    have hkept := Tree.lt_size_of_node? (hchange.node? hlast)
    omega

theorem Tree.Change.gained_of_fresh (hchange : t.Change event after) {j : Nat} (hj : t.size ≤ j) :
    gained (some j) [event] = [] := by
  cases hchange with
  | added => rfl
  | @appended scope child _ hok =>
    obtain ⟨name, children, hscope, -, -⟩ := Tree.appendChild_eq_ok hok
    have hne : scope ≠ some j := by
      rintro rfl
      have hlt := Tree.lt_size_of_node? hscope
      omega
    simp [gained, Event.gift?, hne]
  | refused => rfl

theorem Tree.Change.added_eq (hchange : t.Change (.added node h) after) :
    h = some t.size ∧ after.node? h = some node := by
  cases hchange
  rw [Tree.node?_add, if_pos rfl]
  exact ⟨rfl, rfl⟩

theorem Tree.replay_added_fresh (hadded : .added node h ∈ (t.replay edits).1) :
    ∃ j, t.size ≤ j ∧ h = some j := by
  induction edits generalizing t with
  | nil => cases hadded
  | cons edit rest ih =>
    have hchange := t.edit_change edit
    rcases List.mem_cons.mp hadded with hfirst | hrest
    · rw [← hfirst] at hchange
      exact ⟨t.size, Nat.le_refl _, hchange.added_eq.1⟩
    · obtain ⟨j, hj, rfl⟩ := ih hrest
      exact ⟨j, Nat.le_trans hchange.size_le hj, rfl⟩

/-- A node that was added is at the handle that was given out for it, and has gained what was
appended to it since. -/
theorem Tree.replay_added (hadded : .added node h ∈ (t.replay edits).1) :
    (t.replay edits).2.node? h = some (node.grow (gained h (t.replay edits).1)) := by
  induction edits generalizing t with
  | nil => cases hadded
  | cons edit rest ih =>
    have hchange := t.edit_change edit
    rw [Tree.replay_cons] at hadded ⊢
    rcases List.mem_cons.mp hadded with hfirst | hrest
    · rw [← hfirst] at hchange
      rw [Tree.replay_node? hchange.added_eq.2 rest, gained_cons, ← hfirst]
      rfl
    · -- the handle is given out later, so the first edit has nothing for it
      obtain ⟨j, hj, rfl⟩ := Tree.replay_added_fresh hrest
      have hnone := hchange.gained_of_fresh (Nat.le_trans hchange.size_le hj)
      rw [ih hrest, gained_cons, hnone, List.nil_append]

theorem Tree.Change.isSome_iff (hchange : t.Change event after) :
    (after.node? h).isSome ↔ (t.node? h).isSome ∨ ∃ node, .added node h = event := by
  cases hchange with
  | added new =>
    rw [Tree.node?_add]
    by_cases heq : h = some t.size
    · simp [heq]
    · simp [heq]
  | @appended scope child after hok =>
    obtain ⟨name, children, hscope, -, hnodes⟩ := Tree.appendChild_eq_ok hok
    rw [hnodes]
    by_cases heq : h = scope
    · simp [heq, hscope]
    · simp [heq]
  | refused => simp

theorem Tree.replay_isSome_iff :
    ((t.replay edits).2.node? h).isSome ↔
      (t.node? h).isSome ∨ ∃ node, .added node h ∈ (t.replay edits).1 := by
  induction edits generalizing t with
  | nil => simp
  | cons edit rest ih =>
    rw [Tree.replay_cons, ih, (t.edit_change edit).isSome_iff, or_assoc]
    simp only [List.mem_cons, exists_or]

/-! ## Trees that were empty at first -/

/-- The tree after any edits holds exactly the root and the nodes that were added, each at its
handle, with the children that were appended to it behind those it had. The root is a scope named
`root`. Later edits keep all of this but for scopes that gain children at their end; so an earlier
list of the root's children starts every later one. A child is appended if there are a scope and a
node for it, and an edit that is refused leaves the tree as it is. -/
theorem replay_appendOnly (edits later : List Edit) :
    let events := (Tree.empty.replay edits).1
    let t := (Tree.empty.replay edits).2
    let t' := (t.replay later).2
    (∀ node h, .added node h ∈ events → t.node? h = some (node.grow (gained h events))) ∧
    t.node? Tree.root = some (.scope Program.rootName (gained Tree.root events)) ∧
    (∀ h, (t.node? h).isSome → h = Tree.root ∨ ∃ node, .added node h ∈ events) ∧
    (∀ h node, t.node? h = some node → ∃ node', t'.node? h = some node' ∧ node.Grows node') ∧
    t.rootChildren <+: t'.rootChildren ∧
    ∀ scope child,
      ((t.edit (.append scope child)).1 = .appended scope child ↔
        (t.scope? scope).isSome ∧ (t.node? child).isSome) ∧
      ∀ error, (t.edit (.append scope child)).1 = .refused scope child error →
        (t.edit (.append scope child)).2 = t := by
  intro events t t'
  have hempty : Tree.empty.node? Tree.root = some (.scope Program.rootName []) := rfl
  have hroot : t.node? Tree.root = some (.scope Program.rootName (gained Tree.root events)) :=
    Tree.replay_node? hempty edits
  have hkept : ∀ h node, t.node? h = some node →
      ∃ node', t'.node? h = some node' ∧ node.Grows node' := by
    intro h node hnode
    exact ⟨_, Tree.replay_node? hnode later, node.grows_grow _⟩
  refine ⟨fun node h => Tree.replay_added, hroot, ?_, hkept, ?_, ?_⟩
  · intro h hsome
    rcases Tree.replay_isSome_iff.mp hsome with hold | hadded
    · obtain ⟨j, hj, rfl⟩ := Tree.lt_size_of_isSome hold
      obtain rfl : j = 0 := Nat.lt_one_iff.mp hj
      exact Or.inl rfl
    · exact Or.inr hadded
  · have hroot' := Tree.replay_node? hroot later
    rw [Tree.rootChildren, Tree.rootChildren, Tree.scope?_eq_some_iff.mpr hroot,
      Tree.scope?_eq_some_iff.mpr hroot']
    exact List.prefix_append _ _
  · intro scope child
    refine ⟨Tree.edit_appended_iff, ?_⟩
    intro error hrefused
    have hchange := t.edit_change (.append scope child)
    rw [hrefused] at hchange
    exact hchange.eq_of_refused

/-- A scope, a literal in it, and the scope in the root; two requests are refused. -/
theorem replay_appendOnly_sample :
    let edits : List Edit := [.add (.scope "inner" []), .append (some 1) (some 2),
      .add (.literal "pi" "3.14"), .append (some 1) (some 2), .append (some 2) (some 1)]
    let later : List Edit := [.append Tree.root (some 1)]
    let t := (Tree.empty.replay edits).2
    let t' := (t.replay later).2
    .added (.scope "inner" []) (some 1) ∈ (Tree.empty.replay edits).1 ∧
      t.node? (some 1) = some (.scope "inner" [some 2]) ∧
      t.node? Tree.root = some (.scope "root" []) ∧
      (t.edit (.append Tree.root (some 3))).2 = t ∧
      (∃ node', t'.node? (some 2) = some node' ∧ Node.Grows (.literal "pi" "3.14") node') ∧
      t.rootChildren <+: t'.rootChildren ∧ t'.rootChildren = [some 1] := by
  intro edits later t t'
  obtain ⟨hadded, hroot, -, hkept, hprefix, happend⟩ := replay_appendOnly edits later
  have hfirst : Event.added (.scope "inner" []) (some 1) ∈ (Tree.empty.replay edits).1 := by
    decide
  have hrefused := (happend Tree.root (some 3)).2 (.noSuchChild (some 3)) (by decide)
  exact ⟨hfirst, hadded _ _ hfirst, hroot, hrefused, hkept _ _ (by decide), hprefix, by decide⟩

end Shader.Arena
