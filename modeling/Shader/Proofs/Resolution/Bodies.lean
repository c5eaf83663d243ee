import Shader.Proofs.Grammar.Printer
import Shader.Proofs.Resolution.Mentions
import Shader.Proofs.Resolution.Types

/-!
# What the body of a function becomes

An expression of the grammar is resolved to a node of its form. Names refer to the variables
declared before them in the body, and else to the declarations before the function; the target of a
call is looked up after its arguments, so a variable that an argument declares hides it. A name on
the right side of an access refers first of all to a field.
-/

namespace Shader.Program

mutual

/-- The names of the variables that an expression declares, the latest first. -/
def Node.lets : Node → List String
  | .localVar name _ => [name]
  | .access left right => right.lets ++ left.lets
  | .binary _ left right => right.lets ++ left.lets
  | .call _ args => letsOfAll args
  | .ret (some value) => value.lets
  | _ => []

/-- The names of the variables that a list of expressions declares, the latest first. -/
def letsOfAll : List Node → List String
  | [] => []
  | node :: rest => letsOfAll rest ++ node.lets

end

end Shader.Program

namespace Shader.Resolution

open Arena Program

/-! ## Names -/

/-- What the nodes of a body are read in: the tree, what type names stand for, and the
declarations before the function. -/
structure View where
  tree : Tree
  types : String → Handle → Prop
  outer : Block

namespace View

/-- What a name refers to: a variable, or else the latest declaration of the name. -/
structure IsSource (v : View) (locals : List String) (name : String) (source : Handle) :
    Prop where
  bound : name ∈ locals → ∃ var type, v.tree.node? source = some (.localVar var type)
  declared : name ∉ locals → source = (v.outer.latest? name).getD none

def isCallable (v : View) (h : Handle) : Bool :=
  match v.tree.node? h with
  | some (.function _) => true
  | some (.struct _) => true
  | _ => false

/-- What a call refers to: the latest declaration of the name, if that can be called, or an
intrinsic type. -/
structure IsCallee (v : View) (locals : List String) (callee : String) (target : Handle) :
    Prop where
  hidden : callee ∈ locals → target = none
  declared : callee ∉ locals → ∀ h, v.outer.latest? callee = some h →
    target = if v.isCallable h then h else none
  intrinsic : callee ∉ locals → v.outer.latest? callee = none → isIntrinsicType callee = true →
    v.types callee target
  unknown : callee ∉ locals → v.outer.latest? callee = none → isIntrinsicType callee = false →
    target = none

end View

mutual

/-- The node stands for the expression, where `locals` are the variables declared before. -/
inductive Represents (v : View) : List String → Program.Node → Handle → Prop
  | ident {locals name source h} (hnode : v.tree.node? h = some (.ident name source))
      (hsource : v.IsSource locals name source) : Represents v locals (.ident name) h
  | constant {locals text h} (hnode : v.tree.node? h = some (.constant text)) :
      Represents v locals (.constant text) h
  | localVar {locals name type typeHandle h}
      (hnode : v.tree.node? h = some (.localVar name typeHandle))
      (htype : v.types type typeHandle) : Represents v locals (.localVar name type) h
  | access {locals left right l r h} (hnode : v.tree.node? h = some (.access l r))
      (hleft : Represents v locals left l)
      (hright : RepresentsField v (left.lets ++ locals) right r) :
      Represents v locals (.access left right) h
  | call {locals callee args target h hs} (hnode : v.tree.node? h = some (.call callee target hs))
      (hargs : RepresentsAll v locals args hs)
      (htarget : v.IsCallee (letsOfAll args ++ locals) callee target) :
      Represents v locals (.call callee args) h
  | binary {locals symbol op left right l r h} (hop : Operator.ofSymbol? symbol = some op)
      (hnode : v.tree.node? h = some (.binary op l r)) (hleft : Represents v locals left l)
      (hright : Represents v (left.lets ++ locals) right r) :
      Represents v locals (.binary symbol left right) h
  | leave {locals h} (hnode : v.tree.node? h = some (.ret none)) : Represents v locals (.ret none) h
  | leaveWith {locals value x h} (hnode : v.tree.node? h = some (.ret x))
      (hvalue : Represents v locals value x) : Represents v locals (.ret (some value)) h

/-- The node stands for the right side of an access. -/
inductive RepresentsField (v : View) : List String → Program.Node → Handle → Prop
  | name {locals name source h} (hnode : v.tree.node? h = some (.ident name source)) :
      RepresentsField v locals (.ident name) h
  | value {locals node h} (hname : ∀ name, node ≠ .ident name)
      (hnode : Represents v locals node h) : RepresentsField v locals node h

/-- The nodes stand for the expressions of a list, one after the other. -/
inductive RepresentsAll (v : View) : List String → List Program.Node → List Handle → Prop
  | nil {locals} : RepresentsAll v locals [] []
  | cons {locals node nodes h hs} (hnode : Represents v locals node h)
      (hrest : RepresentsAll v (node.lets ++ locals) nodes hs) :
      RepresentsAll v locals (node :: nodes) (h :: hs)

end

variable {locals : List String} {callee name : String} {h : Handle} {block : Block}
  {node : Program.Node}
variable {ms : List Mention} {t : Tree} {left : Option Handle}

/-! ## Growing trees -/

/-- The second view has more nodes and knows more types. -/
structure View.Grows (v v' : View) : Prop where
  tree : Extends v.tree v'.tree
  types : ∀ key h, v.types key h → v'.types key h
  outer : v'.outer = v.outer
  declared : ∀ name h, v.outer.latest? name = some h → Declared v.tree h

section Growth

variable {v v' : View}

theorem View.Grows.node? (hv : v.Grows v') {node : Arena.Node}
    (hnode : v.tree.node? h = some node) (hkind : (node.kind == .scope) = false) :
    v'.tree.node? h = some node := hv.tree.keeps hnode hkind

theorem View.Grows.isSource (hv : v.Grows v')
    {source : Handle} (h : v.IsSource locals name source) : v'.IsSource locals name source where
  bound hmem := by
    obtain ⟨var, type, hnode⟩ := h.bound hmem
    exact ⟨var, type, hv.node? hnode rfl⟩
  declared hmem := by
    rw [hv.outer]
    exact h.declared hmem

theorem View.Grows.isCallable (hv : v.Grows v')
    (hl : v.outer.latest? name = some h) : v'.isCallable h = v.isCallable h := by
  obtain ⟨kind, hkind, hk⟩ := hv.declared name h hl
  obtain ⟨node, hnode, rfl⟩ := Option.map_eq_some_iff.mp hk
  unfold View.isCallable
  rw [hnode, hv.tree.node? hnode hkind]

theorem View.Grows.isCallee (hv : v.Grows v') {target : Handle}
    (h : v.IsCallee locals callee target) : v'.IsCallee locals callee target where
  hidden := h.hidden
  declared hmem g hg := by
    rw [hv.outer] at hg
    rw [hv.isCallable hg]
    exact h.declared hmem g hg
  intrinsic hmem hnone hintrinsic := by
    rw [hv.outer] at hnone
    exact hv.types _ _ (h.intrinsic hmem hnone hintrinsic)
  unknown hmem hnone hintrinsic := by
    rw [hv.outer] at hnone
    exact h.unknown hmem hnone hintrinsic

mutual

theorem Represents.grow (hv : v.Grows v') {locals : List String} {node : Program.Node}
    {h : Handle} : Represents v locals node h → Represents v' locals node h
  | .ident hnode hsource => .ident (hv.node? hnode rfl) (hv.isSource hsource)
  | .constant hnode => .constant (hv.node? hnode rfl)
  | .localVar hnode htype =>
    .localVar (hv.node? hnode rfl) (hv.types _ _ htype)
  | .access hnode hleft hright =>
    .access (hv.node? hnode rfl) (hleft.grow hv) (hright.grow hv)
  | .call hnode hargs htarget =>
    .call (hv.node? hnode rfl) (hargs.grow hv) (hv.isCallee htarget)
  | .binary hop hnode hleft hright =>
    .binary hop (hv.node? hnode rfl) (hleft.grow hv) (hright.grow hv)
  | .leave hnode => .leave (hv.node? hnode rfl)
  | .leaveWith hnode hvalue =>
    .leaveWith (hv.node? hnode rfl) (hvalue.grow hv)

theorem RepresentsField.grow (hv : v.Grows v') {locals : List String} {node : Program.Node}
    {h : Handle} : RepresentsField v locals node h → RepresentsField v' locals node h
  | .name hnode => .name (hv.node? hnode rfl)
  | .value hname hnode => .value hname (hnode.grow hv)

theorem RepresentsAll.grow (hv : v.Grows v') {locals : List String} {nodes : List Program.Node}
    {hs : List Handle} : RepresentsAll v locals nodes hs → RepresentsAll v' locals nodes hs
  | .nil => .nil
  | .cons hnode hrest => .cons (hnode.grow hv) (hrest.grow hv)

end

end Growth

/-! ## The state inside a body -/

theorem Block.latest?_eq_none : block.latest? name = none ↔ name ∉ block.map (·.1) := by
  unfold Block.latest?
  rw [Option.map_eq_none_iff, List.find?_eq_none, List.mem_map]
  constructor
  · rintro h ⟨entry, hentry, rfl⟩
    exact absurd (h entry hentry) (by simp)
  · intro h entry hentry hname
    exact h ⟨entry, hentry, by simpa using hname⟩

theorem Block.mem_of_latest? (hl : block.latest? name = some h) : (name, h) ∈ block := by
  obtain ⟨entry, hentry, rfl⟩ := Option.map_eq_some_iff.mp hl
  have hname : entry.1 = name := by simpa using List.find?_some hentry
  rw [← hname]
  exact List.mem_of_find?_eq_some hentry

/-- The blocks inside a body: the variables declared so far, and the declarations before the
function. -/
structure InBody (s : State) (inner outer : Block) : Prop where
  blocks : s.blocks = [inner, outer]
  locals : ∀ entry ∈ inner, ∃ name type, s.tree.node? entry.2 = some (.localVar name type)

/-- What the resolution of a body needs: it makes only structs that can come up, and the structs of
the table that have been reached are declared. -/
structure Ready (Ok : Program.Struct → Prop) (table : TypeTable) (outer : Block) (s : State) :
    Prop where
  plain : PlainTable table
  creates : Creates Ok table (structNames table) s
  reached : ∀ decl ∈ table.structs, decl.name ∉ s.pending → (outer.latest? decl.name).isSome

section Body

variable {Ok : Program.Struct → Prop} {table : TypeTable} {G : String → Handle → Prop}
  {s s₁ : State} {inner outer : Block}

theorem InBody.lookup? (hb : InBody s inner outer) (name : String) :
    s.lookup? name = (inner.latest? name).or (outer.latest? name) := by
  unfold State.lookup?
  rw [hb.blocks]
  change [inner, outer].findSome? (·.latest? name) = _
  cases hi : inner.latest? name with
  | some h => simp [hi]
  | none =>
    rw [List.findSome?_cons_of_isNone (by rw [hi]; rfl)]
    cases ho : outer.latest? name with
    | some | none => simp [ho]

theorem InBody.declared (hs : Typed Ok G s) (hb : InBody s inner outer)
    (hl : outer.latest? name = some h) : Declared s.tree h := by
  refine (hs.sound.blocks outer ?_ _ (Block.mem_of_latest? hl)).1
  rw [hb.blocks]
  simp

theorem InBody.steps (hb : InBody s inner outer) (h : Steps Ok G s s₁)
    (hblocks : s₁.blocks = s.blocks) : InBody s₁ inner outer := by
  refine ⟨hblocks.trans hb.blocks, fun entry hentry => ?_⟩
  obtain ⟨name, type, hnode⟩ := hb.locals entry hentry
  exact ⟨name, type, h.grows.keeps hnode rfl⟩

theorem Ready.steps (hr : Ready Ok table outer s) (h : Steps Ok G s s₁) :
    Ready Ok table outer s₁ := by
  refine ⟨hr.plain, hr.creates.mono h (List.Subset.refl _), fun decl hmem hpending => ?_⟩
  rw [h.pending] at hpending
  exact hr.reached decl hmem hpending

def State.view (s : State) (G : String → Handle → Prop) (outer : Block) : View :=
  ⟨s.tree, Known G s, outer⟩

theorem InBody.view_grows (hb : InBody s inner outer) (hs : Typed Ok G s) (h : Steps Ok G s s₁) :
    (s.view G outer).Grows (s₁.view G outer) :=
  ⟨h.grows, h.known, rfl, fun _ _ hl => hb.declared hs hl⟩

/-! ## Names and calls -/

theorem InBody.isSource (hb : InBody s inner outer) (name : String) :
    (s.view G outer).IsSource (inner.map (·.1)) name (s.source none name) := by
  have hsource : s.source none name = ((inner.latest? name).or (outer.latest? name)).getD none := by
    rw [← hb.lookup?]
    rfl
  constructor
  · intro hmem
    cases hl : inner.latest? name with
    | none => exact absurd hmem (Block.latest?_eq_none.mp hl)
    | some h =>
      obtain ⟨var, type, hnode⟩ := hb.locals _ (Block.mem_of_latest? hl)
      refine ⟨var, type, ?_⟩
      rw [hsource, hl]
      exact hnode
  · intro hmem
    rw [hsource, Block.latest?_eq_none.mpr hmem, Option.none_or]
    rfl

def Block.declare (block : Block) (name : String) (h : Handle) : Block :=
  if name = "" then block else (name, h) :: block

theorem declare_gives (hs : Typed Ok G s) (hh : Bears s.tree name h) :
    Gives Ok G s (Resolution.declare name h) fun s' _ =>
      s'.tree = s.tree ∧
        ∀ block rest, s.blocks = block :: rest → s'.blocks = block.declare name h :: rest := by
  intro a s' hrun
  obtain ⟨hsound, -, -⟩ := declare_yields hs.sound hh a s' hrun
  have hshape : s'.tree = s.tree ∧ s'.registry = s.registry ∧ s'.pending = s.pending ∧
      ∀ block rest, s.blocks = block :: rest → s'.blocks = block.declare name h :: rest := by
    cases hrun
    unfold Block.declare
    by_cases hname : name = ""
    · simp [hname]
    · simp only [if_neg hname]
      cases hblocks : s.blocks with
      | nil | cons => simp
  obtain ⟨htree, hregistry, hpending, hblocks⟩ := hshape
  have htyped := hs.of_lookup hsound htree fun key => by rw [hregistry]
  refine ⟨⟨htyped, fun h node hnode => ?_, fun key h hl => ?_, hpending⟩, htree, hblocks⟩
  · rwa [htree]
  · rwa [hregistry]

theorem isIntrinsicType_of_not_visible (h : visibleStruct? table s name = none) :
    isIntrinsicType name = false := by
  unfold isIntrinsicType
  unfold visibleStruct? at h
  split at h
  · rw [h]
    rfl
  · rw [(Option.or_eq_none_iff.mp h).2]
    rfl

theorem resolveStruct_gives {decl : Program.Struct} (hs : Typed Ok G s)
    (hr : Ready Ok table outer s) (hvisible : visibleStruct? table s name = some decl) :
    Gives Ok G s (resolveStruct table decl) fun s' h =>
      s'.registry.lookup? decl.name = some h ∧ s'.blocks = s.blocks := by
  have hmem : decl.name ∈ structNames table := by
    rcases (visibleStruct?_spec hvisible).1 with ⟨h, -⟩ | h
    · exact List.mem_append_left _ (List.mem_map_of_mem h)
    · exact List.mem_append_right _ (List.mem_map_of_mem h)
  refine structHandle_gives hr.plain _ decl hs ?_ ?_ (hr.plain.visible hvisible)
  · refine hr.creates.mono (.refl hs) fun n hn => ?_
    obtain ⟨hn, hne⟩ := List.mem_filter.mp hn
    exact (List.mem_cons.mp hn).resolve_left (by simpa using hne)
  · exact fun _ => hr.creates name decl hvisible hmem

theorem calleeHandle_gives (hs : Typed Ok G s) (hb : InBody s inner outer)
    (hr : Ready Ok table outer s) (hcallee : PlainName callee) :
    Gives Ok G s (calleeHandle table callee) fun s' target =>
      s'.blocks = s.blocks ∧ (s'.view G outer).IsCallee (inner.map (·.1)) callee
        (if (s'.view G outer).isCallable target then target else none) := by
  unfold calleeHandle
  refine gives_get ?_
  have hlookup := hb.lookup? callee
  split
  · rename_i h hl
    rw [hl] at hlookup
    refine gives_pure hs ⟨rfl, ⟨fun hmem => ?_, fun hmem g hg => ?_, fun hmem hnone => ?_,
      fun hmem hnone => ?_⟩⟩
    · cases hi : inner.latest? callee with
      | none => exact absurd hmem (Block.latest?_eq_none.mp hi)
      | some x =>
        obtain ⟨var, type, hnode⟩ := hb.locals _ (Block.mem_of_latest? hi)
        rw [hi] at hlookup
        cases hlookup
        have hcall : (s.view G outer).isCallable h = false := by
          unfold View.isCallable State.view
          rw [hnode]
        rw [hcall]
        rfl
    · change outer.latest? callee = some g at hg
      rw [Block.latest?_eq_none.mpr hmem, hg] at hlookup
      cases hlookup
      rfl
    · change outer.latest? callee = none at hnone
      rw [Block.latest?_eq_none.mpr hmem, hnone] at hlookup
      cases hlookup
    · change outer.latest? callee = none at hnone
      rw [Block.latest?_eq_none.mpr hmem, hnone] at hlookup
      cases hlookup
  · rename_i hl
    rw [hl] at hlookup
    obtain ⟨hinner, houter⟩ := Option.or_eq_none_iff.mp hlookup.symm
    have hnot := Block.latest?_eq_none.mp hinner
    split
    · rename_i decl hvisible
      obtain ⟨hwhere, hname⟩ := visibleStruct?_spec hvisible
      have hname : callee = decl.name := hname.resolve_right (hcallee.ne_star _)
      have hintrinsic : decl ∈ intrinsicTypes := by
        refine hwhere.resolve_left ?_
        rintro ⟨hmem, hpending⟩
        have hstar : TypeName.withoutStar callee = callee := by
          simp [TypeName.withoutStar, hcallee.2]
        rw [hstar, hname] at hpending
        have hsome := hr.reached decl hmem hpending
        rw [← hname, houter] at hsome
        cases hsome
      refine (resolveStruct_gives hs hr hvisible).imp fun s₁ h h₁ hpost => ?_
      obtain ⟨hregistered, hblocks⟩ := hpost
      rw [← hname] at hregistered
      refine ⟨hblocks, ⟨fun hmem => absurd hmem hnot, fun _ g hg => ?_, fun _ _ _ => ?_,
        fun _ _ hfalse => ?_⟩⟩
      · change outer.latest? callee = some g at hg
        rw [houter] at hg
        cases hg
      · obtain ⟨node, hnode, hkind⟩ := Option.map_eq_some_iff.mp
          (h₁.typed.sound.lookup_struct hregistered)
        have hcall : (s₁.view G outer).isCallable h = true := by
          unfold View.isCallable State.view
          rw [hnode]
          cases node with
          | struct => rfl
          | _ => cases hkind
        rw [hcall]
        exact Or.inr hregistered
      · rw [hname, isIntrinsicType_of_mem hintrinsic] at hfalse
        cases hfalse
    · rename_i hvisible
      have hfalse := isIntrinsicType_of_not_visible hvisible
      refine gives_pure hs ⟨rfl, ⟨fun hmem => absurd hmem hnot, fun _ g hg => ?_,
        fun _ _ htrue => ?_, fun _ _ _ => ite_self _⟩⟩
      · change outer.latest? callee = some g at hg
        rw [houter] at hg
        cases hg
      · rw [hfalse] at htrue
        cases htrue

theorem resolveCall_gives {args : List Handle} (hs : Typed Ok G s) (hb : InBody s inner outer)
    (hr : Ready Ok table outer s) (hcallee : PlainName callee)
    (hargs : AllOfKind .expression s.tree args) :
    Gives Ok G s (resolveCall table callee args) fun s' h =>
      s'.blocks = s.blocks ∧ ∃ target, s'.tree.node? h = some (.call callee target args) ∧
        (s'.view G outer).IsCallee (inner.map (·.1)) callee target := by
  unfold resolveCall
  refine ((calleeHandle_gives hs hb hr hcallee).yields (calleeHandle_yields hs.sound)).bind ?_
  rintro target s₁ h₁ ⟨⟨hblocks, hisCallee⟩, hbears⟩
  refine gives_get ?_
  dsimp only
  have hargs₁ := (hargs.extend h₁.grows).below
  have hadd {target' : Handle}
      (hcall : (Node.call callee target' args).WellFormed s₁.tree s₁.tree.size)
      (hbears : target' = none ∨ Bears s₁.tree callee target')
      (htarget : (s₁.view G outer).IsCallee (inner.map (·.1)) callee target') :
      Gives Ok G s₁ (addNode (.call callee target' args)) fun s' h =>
        s'.blocks = s.blocks ∧ ∃ target, s'.tree.node? h = some (.call callee target args) ∧
          (s'.view G outer).IsCallee (inner.map (·.1)) callee target := by
    refine (addNode_gives h₁.typed hcall hbears trivial).imp
      fun s₂ h h₂ ⟨hnode, _, hblocks'⟩ => ?_
    have hgrows := (hb.steps h₁ hblocks).view_grows h₁.typed h₂
    exact ⟨hblocks'.trans hblocks, target', hnode, hgrows.isCallee htarget⟩
  have hcallable : (s₁.view G outer).isCallable target =
      match s₁.tree.node? target with
      | some (.function _) => true
      | some (.struct _) => true
      | _ => false := rfl
  split
  · rename_i decl hnode
    rw [hcallable, hnode] at hisCallee
    split
    · rename_i hlength
      refine hadd ⟨hargs₁, Or.inr (Or.inl (OfKind.below (Tree.kind?_of_node? hnode))), ?_⟩ hbears
        hisCallee
      intro decl' hdecl'
      rw [hnode] at hdecl'
      cases hdecl'
      exact hlength.symm
    · exact ends_throw _
  · rename_i decl hnode
    exact absurd (h₁.typed.direct _ _ hnode) id
  · rename_i decl hnode
    rw [hcallable, hnode] at hisCallee
    refine hadd ⟨hargs₁, Or.inr (Or.inr (OfKind.below (Tree.kind?_of_node? hnode))), ?_⟩ hbears
      hisCallee
    intro decl' hdecl'
    rw [hnode] at hdecl'
    cases hdecl'
  · rename_i hfunction _ hstruct
    have hfalse : (s₁.view G outer).isCallable target = false := by
      rw [hcallable]
      split
      · rename_i hnode
        exact absurd hnode (hfunction _)
      · rename_i hnode
        exact absurd hnode (hstruct _)
      · rfl
    rw [hfalse] at hisCallee
    exact hadd ⟨hargs₁, Or.inl rfl, by simp [Tree.node?]⟩ (Or.inl rfl) hisCallee

/-! ## Expressions -/

/-- The state after part of a body with the given mentions. -/
structure HasRead (inner outer : Block) (ms : List Mention) (s : State) : Prop where
  body : InBody s (localsOf ms ++ inner) outer
  names : Scoped s.tree inner outer ms

theorem InBody.reads (hb : InBody s inner outer) : HasRead inner outer [] s :=
  ⟨hb, scoped_of_no_use fun _ _ _ => List.not_mem_nil⟩

theorem HasRead.steps (hd : HasRead inner outer ms s) (h : Steps Ok G s s₁)
    (hblocks : s₁.blocks = s.blocks) : HasRead inner outer ms s₁ :=
  ⟨hd.body.steps h hblocks, hd.names.extend h.grows⟩

theorem HasRead.append {ms' : List Mention} (hd : HasRead inner outer ms s)
    (hd' : HasRead (localsOf ms ++ inner) outer ms' s₁) (h : Steps Ok G s s₁) :
    HasRead inner outer (ms ++ ms') s₁ := by
  refine ⟨?_, (hd.names.extend h.grows).append hd'.names⟩
  rw [localsOf_append, List.append_assoc]
  exact hd'.body

theorem Represents.ofKind {v : View} (hr : Represents v locals node h) :
    OfKind .expression v.tree h := by
  cases hr with
  | ident hnode | constant hnode | localVar hnode | access hnode | call hnode | binary _ hnode
  | leave hnode | leaveWith hnode => exact Tree.kind?_of_node? hnode

theorem RepresentsField.ofKind {v : View}
    (hr : RepresentsField v locals node h) : OfKind .expression v.tree h := by
  cases hr with
  | name hnode => exact Tree.kind?_of_node? hnode
  | value _ hnode => exact hnode.ofKind

theorem RepresentsAll.ofKind {v : View} {nodes : List Program.Node}
    {hs : List Handle} (hr : RepresentsAll v locals nodes hs) :
    AllOfKind .expression v.tree hs := by
  induction nodes generalizing locals hs with
  | nil =>
    cases hr
    exact .nil
  | cons node nodes ih =>
    cases hr with
    | cons hnode hrest => exact .cons hnode.ofKind (ih hrest)

mutual

theorem Mentions.lets {t : Tree} {left : Option Handle} {node : Program.Node} {h : Handle}
    {ms : List Mention} : Mentions t left node h ms → (localsOf ms).map (·.1) = node.lets
  | .ident _ | .constant _ | .localVar _ | .leave _ => by simp [localsOf, Mention.entry?, Node.lets]
  | .access _ hleft hright | .binary _ hleft hright => by
    rw [localsOf_append, List.map_append, hleft.lets, hright.lets, Node.lets]
  | .call _ hargs => by rw [hargs.lets, Node.lets]
  | .leaveWith _ hvalue => by rw [hvalue.lets, Node.lets]

theorem MentionsAll.lets {t : Tree} {nodes : List Program.Node} {hs : List Handle}
    {ms : List Mention} : MentionsAll t nodes hs ms → (localsOf ms).map (·.1) = letsOfAll nodes
  | .nil => rfl
  | .cons hnode hrest => by
    rw [localsOf_append, List.map_append, hnode.lets, hrest.lets, letsOfAll]

end

theorem plainName_of_isIdentifier (h : isIdentifier name = true) : PlainName name :=
  ⟨notMem_of_isIdentifier h (by decide), isPointer_of_isIdentifier h⟩

theorem addExpr_gives {node : Arena.Node} (hs : Typed Ok G s)
    (hd : HasRead inner outer ms s) (hnode : node.WellFormed s.tree s.tree.size)
    (hsuits : Suits False s.tree node) (hdirect : IsDirect node) :
    Gives Ok G s (addNode node) fun s' h =>
      HasRead inner outer ms s' ∧ s'.tree.node? h = some node :=
  (addNode_gives hs hnode hsuits hdirect).imp fun _ _ h₁ ⟨hadded, _, hblocks⟩ =>
    ⟨hd.steps h₁ hblocks, hadded⟩

theorem resolveType_gives (hs : Typed Ok G s) (hr : Ready Ok table outer s) :
    Gives Ok G s (resolveType table name) fun s' h =>
      s'.registry.lookup? name = some h ∧ s'.blocks = s.blocks :=
  typeHandle_gives hr.plain _ name hs hr.creates

theorem resolveName_gives {container : Handle} (left : Option Handle) (hs : Typed Ok G s)
    (hb : InBody s inner outer) (hreferent : ∀ ⦃t⦄, Extends s.tree t →
      s.source container name = referent t inner outer name left) :
    Gives Ok G s (resolveExpr table container (.ident name)) fun s' h =>
      s'.tree.node? h = some (.ident name (s.source container name)) ∧
        HasRead inner outer [.used name (s.source container name) left] s' := by
  rw [resolveExpr]
  refine gives_get ?_
  have hident : (Arena.Node.ident name (s.source container name)).WellFormed s.tree
      s.tree.size := by
    refine (hs.sound.source_bears container name).imp_right ?_
    rintro ⟨⟨kind, hkind, hk⟩, -⟩
    exact ⟨kind, hkind, hk.below⟩
  refine (addNode_gives hs hident (hs.sound.source_bears container name) trivial).imp ?_
  rintro s₁ h h₁ ⟨hadded, -, hblocks⟩
  exact ⟨hadded, hb.steps h₁ hblocks, scoped_use fun t he => hreferent (h₁.grows.trans he)⟩

/-- What an expression of a body is resolved to. -/
def Resolves (G : String → Handle → Prop) (inner outer : Block) (node : Program.Node)
    (s : State) (h : Handle) : Prop :=
  ∃ ms, HasRead inner outer ms s ∧ Mentions s.tree none node h ms ∧
    Represents (s.view G outer) (inner.map (·.1)) node h

theorem resolveVariable_gives {type : String} (hs : Typed Ok G s) (hb : InBody s inner outer)
    (hr : Ready Ok table outer s) (hname : name ≠ "") :
    Gives Ok G s (resolveExpr table none (.localVar name type))
      (Resolves G inner outer (.localVar name type)) := by
  rw [resolveExpr]
  refine (resolveType_gives hs hr).within.bind ?_
  rintro type' s₁ h₁ ⟨htype, hblocks₁⟩
  have hkind := h₁.typed.sound.lookup_struct htype
  have hvar : (Arena.Node.localVar name type').WellFormed s₁.tree s₁.tree.size := hkind.below
  refine (addNode_gives h₁.typed hvar trivial trivial).bind ?_
  rintro h s₂ h₂ ⟨hnode, -, hblocks₂⟩
  refine (declare_gives h₂.typed (bears_of_node? hnode (by simp [Node.kind]) trivial)).bind ?_
  rintro - s₃ h₃ ⟨htree, hblocks₃⟩
  have hb₂ := (hb.steps h₁ hblocks₁).steps h₂ hblocks₂
  have hnode₃ := h₃.grows.keeps hnode rfl
  refine gives_pure h₃.typed ⟨[.declared name h], ⟨⟨?_, fun entry hentry => ?_⟩, ?_⟩,
    .localVar hnode₃, .localVar hnode₃ (Or.inr (h₃.keeps _ _ (h₂.keeps _ _ htype)))⟩
  · rw [hblocks₃ _ _ hb₂.blocks, Block.declare, if_neg hname]
    rfl
  · rw [htree]
    rcases List.mem_cons.mp hentry with rfl | hentry
    · exact ⟨name, type', hnode⟩
    · exact hb₂.locals entry hentry
  · exact scoped_of_no_use fun _ _ _ h => by simp at h

theorem resolveExpr_container (container : Handle) (hname : ∀ name, node ≠ .ident name)
    (haccess : ∀ left right, node ≠ .access left right) :
    resolveExpr table container node = resolveExpr table none node := by
  cases node with
  | ident name => exact absurd rfl (hname name)
  | access left right => exact absurd rfl (haccess left right)
  | ret value => cases value <;> rw [resolveExpr, resolveExpr]
  | _ => simp only [resolveExpr]

end Body

section Expressions

variable {Ok : Program.Struct → Prop} {table : TypeTable} {G : String → Handle → Prop}
  {outer : Block}

/-- What the expressions of a list are resolved to. -/
def ResolvesAll (G : String → Handle → Prop) (inner outer : Block)
    (nodes : List Program.Node) (s : State) (hs : List Handle) : Prop :=
  ∃ ms, HasRead inner outer ms s ∧ MentionsAll s.tree nodes hs ms ∧
    RepresentsAll (s.view G outer) (inner.map (·.1)) nodes hs

theorem resolveExprs_gives_of {s : State} {inner : Block} (nodes : List Program.Node)
    (hnodes : ∀ node ∈ nodes, ∀ {s : State} {inner : Block}, Typed Ok G s →
      InBody s inner outer → Ready Ok table outer s → Gives Ok G s (resolveExpr table none node)
        (Resolves G inner outer node))
    (hs : Typed Ok G s) (hb : InBody s inner outer) (hr : Ready Ok table outer s) :
    Gives Ok G s (resolveExprs table nodes) (ResolvesAll G inner outer nodes) := by
  induction nodes generalizing s inner with
  | nil =>
    rw [resolveExprs]
    exact gives_pure hs ⟨[], hb.reads, .nil, .nil⟩
  | cons node rest ih =>
    rw [resolveExprs]
    obtain ⟨hnode, hrest⟩ := List.forall_mem_cons.mp hnodes
    refine (hnode hs hb hr).bind fun h s₁ h₁ ⟨ms, hd, hmentions, hrep⟩ => ?_
    refine (ih hrest h₁.typed hd.body (hr.steps h₁)).bind
      fun hs' s₂ h₂ ⟨ms', hd', hmentions', hreps⟩ => ?_
    rw [List.map_append, hmentions.lets] at hreps
    exact gives_pure h₂.typed ⟨ms ++ ms', hd.append hd' h₂,
      .cons (hmentions.extend h₂.grows) hmentions',
      .cons (hrep.grow (hd.body.view_grows h₁.typed h₂)) hreps⟩

theorem IsSimple.lastOperand_eq (hs : IsSimple t h) :
    lastOperand t h = h := by
  unfold lastOperand
  split
  · rename_i hnode
    rw [IsSimple, hnode] at hs
    exact hs.elim
  · rfl

theorem Mentions.isSimple (hm : Mentions t left node h ms) (hvalue : IsValue node)
    (hpower : 5 < node.power) : IsSimple t h := by
  cases hm with
  | ident hnode | constant hnode | localVar hnode | call hnode =>
    rw [IsSimple, hnode]
    trivial
  | access => exact absurd hpower (Nat.lt_irrefl 5)
  | binary => exact absurd hpower (Nat.not_lt.mpr (bindingPower_le _))
  | leave | leaveWith => cases hvalue

/-- An operand is a chain of accesses or has no operator at its root. -/
theorem Mentions.isSimple_lastOperand (hm : Mentions t left node h ms) (hvalue : IsValue node)
    (hpower : 5 ≤ node.power) : IsSimple t (lastOperand t h) := by
  rcases Nat.lt_or_eq_of_le hpower with hlt | heq
  · have hsimple := hm.isSimple hvalue hlt
    rwa [hsimple.lastOperand_eq]
  · cases hvalue with
    | @access l r hleft hright hgroups =>
      cases hm with
      | access hnode hl hr =>
        rw [lastOperand, hnode]
        exact hr.isSimple hright hgroups.2
    | @binary symbol l r hsymbol haccess =>
      have hpoint : ∀ symbol ∈ operatorSymbols, 5 = bindingPower symbol → symbol = "." := by decide
      exact absurd (hpoint symbol (mem_operatorSymbols hsymbol) heq) haccess
    | _ => cases heq

/-- Behind a point the fields of what stands before it come first. Only a name depends on them. -/
theorem resolveBehind_gives {s : State} {inner : Block} {left right : Program.Node} {l : Handle}
    {ms : List Mention} (hs : Typed Ok G s) (hd : HasRead inner outer ms s)
    (hmentions : Mentions s.tree none left l ms) (hl : OfKind .expression s.tree l)
    (hleft : IsValue left) (hgroups : Groups "." left right)
    (hright : Gives Ok G s (resolveExpr table none right)
      (Resolves G (localsOf ms ++ inner) outer right)) :
    Gives Ok G s (resolveExpr table (containerOf s.tree l) right) fun s' r =>
      ∃ ms', HasRead (localsOf ms ++ inner) outer ms' s' ∧ Mentions s'.tree (some l) right r ms' ∧
        RepresentsField (s'.view G outer) (left.lets ++ inner.map (·.1)) right r := by
  by_cases hname : ∃ name, right = .ident name
  · obtain ⟨name, rfl⟩ := hname
    have hsimple := hmentions.isSimple_lastOperand hleft hgroups.1
    refine (resolveName_gives (some l) hs hd.body fun t he =>
      source_eq_referent hs.sound he hl hsimple (hd.body.lookup? name)).imp ?_
    rintro s' r - ⟨hadded, hd'⟩
    exact ⟨_, hd', .ident hadded, .name hadded⟩
  · have hname' : ∀ name, right ≠ .ident name := fun name heq => hname ⟨name, heq⟩
    have haccess : ∀ l r, right ≠ .access l r := by
      rintro l r rfl
      exact absurd hgroups.2 (Nat.lt_irrefl _)
    rw [resolveExpr_container _ hname' haccess]
    refine hright.imp ?_
    rintro s' r - ⟨ms', hd', hmentions', hrep⟩
    rw [List.map_append, hmentions.lets] at hrep
    exact ⟨ms', hd', hmentions'.behind hname', .value hname' hrep⟩

mutual

theorem resolveValue_gives {node : Program.Node} : IsValue node → ∀ {s : State} {inner : Block},
    Typed Ok G s → InBody s inner outer → Ready Ok table outer s →
      Gives Ok G s (resolveExpr table none node) (Resolves G inner outer node)
  | .ident _, s, inner, hs, hb, _ => by
    refine (resolveName_gives none hs hb fun t _ => ?_).imp
      fun s₁ h h₁ ⟨hadded, hd⟩ => ⟨_, hd, .ident hadded, .ident hadded ?_⟩
    · exact congrArg (Option.getD · none) (hb.lookup? _)
    · exact (hb.view_grows hs h₁).isSource (hb.isSource _)
  | @IsValue.constant text _, s, inner, hs, hb, _ => by
    rw [resolveExpr]
    have hconstant : (Arena.Node.constant text).WellFormed s.tree s.tree.size := trivial
    exact (addExpr_gives hs hb.reads hconstant trivial trivial).imp
      fun s₁ h h₁ ⟨hd, hadded⟩ => ⟨[], hd, .constant hadded, .constant hadded⟩
  | .localVar hname _, s, inner, hs, hb, hr =>
    resolveVariable_gives hs hb hr (ne_of_isIdentifier hname rfl)
  | @IsValue.call callee args hcallee hargs, s, inner, hs, hb, hr => by
    rw [resolveExpr]
    refine (resolveExprs_gives_of args (fun arg harg => resolveExpr_gives (hargs arg harg)) hs hb
      hr).within.bind fun hs' s₁ h₁ ⟨ms, hd, hmentions, hrep⟩ => ?_
    refine (resolveCall_gives h₁.typed hd.body (hr.steps h₁) (plainName_of_isIdentifier hcallee.1)
      hrep.ofKind).imp fun s₂ h h₂ ⟨hblocks, target, hadded, htarget⟩ => ?_
    rw [List.map_append, hmentions.lets] at htarget
    exact ⟨ms, hd.steps h₂ hblocks, .call hadded (hmentions.extend h₂.grows),
      .call hadded (hrep.grow (hd.body.view_grows h₁.typed h₂)) htarget⟩
  | @IsValue.access left right hleft hright hgroups, s, inner, hs, hb, hr => by
    rw [resolveExpr]
    refine (resolveValue_gives hleft hs hb hr).bind fun l s₁ h₁ ⟨ms, hd, hmentions, hrepl⟩ => ?_
    refine gives_get ?_
    refine (resolveBehind_gives h₁.typed hd hmentions hrepl.ofKind hleft hgroups
      (resolveValue_gives hright h₁.typed hd.body (hr.steps h₁))).bind
      fun r s₂ h₂ ⟨ms', hd', hmentions', hrepr⟩ => ?_
    have hd₂ := hd.append hd' h₂
    have hrepl := hrepl.grow (hd.body.view_grows h₁.typed h₂)
    have hwell : (Arena.Node.access l r).WellFormed s₂.tree s₂.tree.size :=
      ⟨hrepl.ofKind.below, hrepr.ofKind.below⟩
    refine (addExpr_gives h₂.typed hd₂ hwell trivial trivial).imp fun s₃ h h₃ ⟨hd₃, hadded⟩ => ?_
    have hgrows := hd₂.body.view_grows h₂.typed h₃
    exact ⟨_, hd₃, .access hadded ((hmentions.extend h₂.grows).extend h₃.grows)
      (hmentions'.extend h₃.grows), .access hadded (hrepl.grow hgrows) (hrepr.grow hgrows)⟩
  | @IsValue.binary symbol left right _ _ hleft hright _, s, inner, hs, hb, hr => by
    rw [resolveExpr]
    split
    · rename_i op hop
      refine (resolveValue_gives hleft hs hb hr).bind fun l s₁ h₁ ⟨ms, hd, hmentions, hrepl⟩ => ?_
      refine (resolveValue_gives hright h₁.typed hd.body (hr.steps h₁)).bind
        fun r s₂ h₂ ⟨ms', hd', hmentions', hrepr⟩ => ?_
      have hd₂ := hd.append hd' h₂
      have hrepl := hrepl.grow (hd.body.view_grows h₁.typed h₂)
      have hwell : (Arena.Node.binary op l r).WellFormed s₂.tree s₂.tree.size :=
        ⟨hrepl.ofKind.below, hrepr.ofKind.below⟩
      refine (addExpr_gives h₂.typed hd₂ hwell trivial trivial).imp fun s₃ h h₃ ⟨hd₃, hadded⟩ => ?_
      have hgrows := hd₂.body.view_grows h₂.typed h₃
      rw [List.map_append, hmentions.lets] at hrepr
      exact ⟨_, hd₃, .binary hadded ((hmentions.extend h₂.grows).extend h₃.grows)
        (hmentions'.extend h₃.grows), .binary hop hadded (hrepl.grow hgrows) (hrepr.grow hgrows)⟩
    · exact ends_throw _

theorem resolveExpr_gives {node : Program.Node} : IsExpression node →
    ∀ {s : State} {inner : Block}, Typed Ok G s → InBody s inner outer → Ready Ok table outer s →
      Gives Ok G s (resolveExpr table none node) (Resolves G inner outer node)
  | .value hvalue, _, _, hs, hb, hr => resolveValue_gives hvalue hs hb hr
  | .leave, s, inner, hs, hb, _ => by
    rw [resolveExpr]
    have hleave : (Arena.Node.ret none).WellFormed s.tree s.tree.size := Or.inl rfl
    exact (addExpr_gives hs hb.reads hleave trivial trivial).imp
      fun s₁ h h₁ ⟨hd, hadded⟩ => ⟨[], hd, .leave hadded, .leave hadded⟩
  | .leaveWith hvalue, s, inner, hs, hb, hr => by
    rw [resolveExpr]
    refine (resolveValue_gives hvalue hs hb hr).bind fun x s₁ h₁ ⟨ms, hd, hmentions, hrep⟩ => ?_
    have hleave : (Arena.Node.ret x).WellFormed s₁.tree s₁.tree.size := Or.inr hrep.ofKind.below
    refine (addExpr_gives h₁.typed hd hleave trivial trivial).imp fun s₂ h h₂ ⟨hd₂, hadded⟩ => ?_
    exact ⟨ms, hd₂, .leaveWith hadded (hmentions.extend h₂.grows),
      .leaveWith hadded (hrep.grow (hd.body.view_grows h₁.typed h₂))⟩

end

/-- What the expressions of a list are resolved to represents them. -/
theorem resolveExprs_gives {s : State} {inner : Block} (nodes : List Program.Node)
    (hnodes : ∀ node ∈ nodes, IsExpression node) (hs : Typed Ok G s) (hb : InBody s inner outer)
    (hr : Ready Ok table outer s) :
    Gives Ok G s (resolveExprs table nodes) (ResolvesAll G inner outer nodes) :=
  resolveExprs_gives_of nodes (fun node hnode => resolveExpr_gives (hnodes node hnode)) hs hb hr

end Expressions

end Shader.Resolution
