import Shader.Proofs.Resolution.Program
import Shader.Proofs.Resolution.Types

/-!
# From types to declarations

Expressions and declarations change the types of a state only where a type or a struct is resolved.
All their other steps add nodes or open, fill and close blocks. So a relation between states holds
between the ends of all their runs once it holds between the ends of the runs that resolve types.
-/

namespace Shader.Program

mutual

/-- The names and bodies of the literals in a tree, at any depth. -/
def Node.literals : Node → List (String × String)
  | .scope _ children => literalsOfAll children
  | .function _ _ _ statements _ => literalsOfAll statements
  | .intrinsic _ _ body _ => literalsOfAll body
  | .literal name body => [(name, body)]
  | .sequence elements => literalsOfAll elements
  | .access left right => left.literals ++ right.literals
  | .call _ args => literalsOfAll args
  | .binary _ left right => left.literals ++ right.literals
  | .ret (some value) => value.literals
  | _ => []

def literalsOfAll : List Node → List (String × String)
  | [] => []
  | node :: rest => node.literals ++ literalsOfAll rest

end

end Shader.Program

namespace Shader.Resolution

open Arena Program.TypeName
open Program (TypeTable)

variable {t t' : Tree} {s s' : State} {name : String} {h : Handle}

/-! ## Structs that are reached -/

section Reached

variable {table : TypeTable} {decl : Program.Struct}

theorem reach_lookup? (key : String) : (s.reach decl).registry.lookup? key =
    if Program.isIntrinsicType decl.name = true ∧ (key = decl.name ∨ key = decl.name ++ "*") then
      none
    else s.registry.lookup? key := by
  unfold State.reach
  by_cases hintrinsic : Program.isIntrinsicType decl.name = true
  · simp only [hintrinsic, if_true, true_and, Registry.lookup?_remove]
    by_cases hname : decl.name = key
    · simp [hname]
    · by_cases hstar : decl.name ++ "*" = key
      · simp [hstar]
      · simp [hname, hstar, Ne.symm hname, Ne.symm hstar]
  · simp [hintrinsic]

theorem resolveStructDecl_eq_ok (hrun : resolveStructDecl table decl s = .ok (h, s')) :
    ∃ s₁, resolveStruct table decl (s.reach decl) = .ok (h, s₁) ∧
      declare decl.name h s₁ = .ok ((), s') := by
  obtain ⟨_, s₀, hreach, hrun⟩ := run_bind_eq_ok hrun
  cases hreach
  obtain ⟨h₁, s₁, hstruct, hrun⟩ := run_bind_eq_ok hrun
  obtain ⟨_, s₂, hdeclare, hrun⟩ := run_bind_eq_ok hrun
  cases hrun
  exact ⟨s₁, hstruct, hdeclare⟩

end Reached

/-! ## Steps that leave the types alone -/

/-- The second tree has the nodes of the first. -/
def Keeps (t t' : Tree) : Prop := ∀ ⦃h node⦄, t.node? h = some node → t'.node? h = some node

theorem Keeps.trans {t'' : Tree} (h : Keeps t t') (h' : Keeps t' t'') : Keeps t t'' :=
  fun _ _ hnode => h' (h hnode)

/-- The second tree has the nodes of the first, and its other nodes are as described. -/
structure Brings (Q : Node → Prop) (t t' : Tree) : Prop where
  nodes : Keeps t t'
  new : ∀ ⦃h node⦄, t'.node? h = some node → t.node? h = some node ∨ Q node

section Brings

variable {Q Q' : Node → Prop} {node : Node}

theorem Brings.refl (t : Tree) : Brings Q t t :=
  ⟨fun _ _ hnode => hnode, fun _ _ hnode => Or.inl hnode⟩

theorem Brings.trans {t'' : Tree} (h : Brings Q t t') (h' : Brings Q t' t'') : Brings Q t t'' :=
  ⟨h.nodes.trans h'.nodes, fun _ _ hnode => (h'.new hnode).elim (fun hold => h.new hold) Or.inr⟩

theorem Brings.imp (h : Brings Q t t') (hQ : ∀ ⦃node⦄, Q node → Q' node) : Brings Q' t t' :=
  ⟨h.nodes, fun _ _ hnode => (h.new hnode).imp_right fun hnew => hQ hnew⟩

theorem Brings.add (t : Tree) (hnode : Q node) : Brings Q t (t.add node).2 := by
  refine ⟨fun _ _ => node?_add_of_some, fun g found hg => ?_⟩
  rw [Tree.node?_add] at hg
  split at hg
  · cases hg
    exact Or.inr hnode
  · exact Or.inl hg

end Brings

/-- The second state has the types of the first and the nodes of its tree. Its other nodes are as
described. -/
structure Leaves (Q : Node → Prop) (s s' : State) : Prop where
  registry : s'.registry = s.registry
  pending : s'.pending = s.pending
  tree : Brings Q s.tree s'.tree

theorem addNode_leaves (node : Node) : Moves (Leaves (· = node)) (addNode node) := by
  intro s h s' hrun
  cases hrun
  exact ⟨rfl, rfl, .add s.tree rfl⟩

theorem addNode_node? {node : Node} (hrun : addNode node s = .ok (h, s')) :
    s'.tree.node? h = some node := by
  cases hrun
  exact (Tree.node?_add s.tree node _).trans (if_pos rfl)

theorem modify_leaves {g : State → State} (htree : ∀ s, (g s).tree = s.tree)
    (hregistry : ∀ s, (g s).registry = s.registry) (hpending : ∀ s, (g s).pending = s.pending) :
    Moves (Leaves fun _ => False) (modify g : ResolveM Unit) := by
  intro s a s' hrun
  cases hrun
  refine ⟨hregistry s, hpending s, ?_⟩
  rw [htree]
  exact .refl _

theorem declare_leaves (name : String) (h : Handle) :
    Moves (Leaves fun _ => False) (declare name h) := by
  refine modify_leaves ?_ ?_ ?_
  all_goals
    intro s
    repeat' split
  all_goals rfl

theorem declareOutside_leaves (name : String) (h : Handle) :
    Moves (Leaves fun _ => False) (declareOutside name h) := by
  refine modify_leaves ?_ ?_ ?_
  all_goals
    intro s
    split
  all_goals rfl

theorem openBlock_leaves : Moves (Leaves fun _ => False) openBlock :=
  modify_leaves (fun _ => rfl) (fun _ => rfl) fun _ => rfl

theorem closeBlock_leaves : Moves (Leaves fun _ => False) closeBlock :=
  modify_leaves (fun _ => rfl) (fun _ => rfl) fun _ => rfl

/-! ## Copies of expressions -/

section Substitution

variable {R : State → State → Prop} {args : List (Handle × Handle)}

theorem moves_substituteAll {depth : Nat} (hrefl : ∀ s, R s s)
    (htrans : ∀ ⦃s s' s''⦄, R s s' → R s' s'' → R s s'')
    (hone : ∀ h, Moves R (substitute args depth h)) (hs : List Handle) :
    Moves R (substituteAll args depth hs) := by
  induction hs with
  | nil =>
    rw [substituteAll]
    exact moves_pure hrefl []
  | cons h hs ih =>
    rw [substituteAll]
    exact (hone h).bind htrans fun _ => ih.bind htrans fun _ => moves_pure hrefl _

theorem moves_substitute (hrefl : ∀ s, R s s) (htrans : ∀ ⦃s s' s''⦄, R s s' → R s' s'' → R s s'')
    (hadd : ∀ ⦃node⦄, IsInert node → IsCommon node → Moves R (addNode node)) (depth : Nat)
    (h : Handle) : Moves R (substitute args depth h) := by
  induction depth generalizing h with
  | zero =>
    rw [substitute]
    exact moves_pure hrefl h
  | succ depth ih =>
    -- a node is copied only if one of its parts was replaced
    have hcopy {changed : Prop} [Decidable changed] {node : Node} (hinert : IsInert node)
        (hcommon : IsCommon node) : Moves R (if changed then return h else addNode node) := by
      split
      · exact moves_pure hrefl h
      · exact hadd hinert hcommon
    have hall (hs : List Handle) := moves_substituteAll hrefl htrans ih hs
    rw [substitute]
    refine moves_get fun s => ?_
    split
    · exact moves_pure hrefl _
    · exact (ih _).bind htrans fun _ => hcopy trivial trivial
    · exact (ih _).bind htrans fun _ => (ih _).bind htrans fun _ => hcopy trivial trivial
    · exact (hall _).bind htrans fun _ => hcopy trivial trivial
    · exact (hall _).bind htrans fun _ => hcopy trivial trivial
    · exact (ih _).bind htrans fun _ => hcopy trivial trivial
    · exact moves_pure hrefl h

end Substitution

theorem IsStepRelation.callee {R : State → State → Prop} (hR : IsStepRelation R)
    (table : TypeTable) (callee : String) : Moves R (calleeHandle table callee) := by
  unfold calleeHandle
  refine moves_get fun s => ?_
  split
  · exact moves_pure hR.refl _
  · split
    · exact fun _ _ _ => (hR.isTypeInduction table).struct _ _
    · exact moves_pure hR.refl _

/-! ## Relations that hold along runs -/

/-- The literals are nodes as described. -/
def HasLiterals (Q : Node → Prop) (literals : List (String × String)) : Prop :=
  ∀ p ∈ literals, Q (.literal p.1 p.2)

/-- The relation holds between the ends of steps that leave the types alone and add nodes as
described, and of runs that resolve a type or a visible struct, and passes on to sequences of
them. -/
structure IsRunRelation (table : TypeTable) (Q : Node → Prop) (R : State → State → Prop) :
    Prop where
  common : ∀ ⦃node⦄, IsCommon node → Q node
  leaves : ∀ ⦃s s'⦄, Leaves Q s s' → R s s'
  trans : ∀ ⦃s s' s''⦄, R s s' → R s' s'' → R s s''
  type : ∀ name, Moves R (resolveType table name)
  struct : ∀ ⦃s s' name decl h⦄, visibleStruct? table s name = some decl →
    resolveStruct table decl s = .ok (h, s') → R s s'

namespace IsRunRelation

variable {table : TypeTable} {Q : Node → Prop} {R : State → State → Prop}

section Steps

variable {α β : Type} {node : Node}

theorem refl (hR : IsRunRelation table Q R) (s : State) : R s s := hR.leaves ⟨rfl, rfl, .refl _⟩

theorem pure (hR : IsRunRelation table Q R) (a : α) : Moves R (pure a : ResolveM α) :=
  moves_pure hR.refl a

theorem bind (hR : IsRunRelation table Q R) {act : ResolveM α} {f : α → ResolveM β}
    (hact : Moves R act) (hf : ∀ a, Moves R (f a)) : Moves R (act >>= f) :=
  hact.bind hR.trans hf

theorem mapM (hR : IsRunRelation table Q R) {xs : List α} {g : α → ResolveM β}
    (hg : ∀ x, Moves R (g x)) : Moves R (xs.mapM g) := by
  induction xs with
  | nil => exact hR.pure []
  | cons x xs ih =>
    rw [List.mapM_cons]
    exact hR.bind (hg x) fun _ => hR.bind ih fun _ => hR.pure _

theorem forM (hR : IsRunRelation table Q R) {xs : List α} {g : α → ResolveM Unit}
    (hg : ∀ x, Moves R (g x)) : Moves R (xs.forM g) := by
  induction xs with
  | nil => exact hR.pure ()
  | cons x xs ih => exact hR.bind (hg x) fun _ => ih

theorem add (hR : IsRunRelation table Q R) (hnode : Q node) : Moves R (addNode node) :=
  (addNode_leaves node).imp fun _ _ h =>
    hR.leaves { h with tree := h.tree.imp fun _ heq => heq ▸ hnode }

theorem addNode (hR : IsRunRelation table Q R) (hnode : IsCommon node) : Moves R (addNode node) :=
  hR.add (hR.common hnode)

theorem blocks (hR : IsRunRelation table Q R) ⦃s s' : State⦄ (h : Leaves (fun _ => False) s s') :
    R s s' :=
  hR.leaves { h with tree := h.tree.imp fun _ => False.elim }

theorem declare (hR : IsRunRelation table Q R) (name : String) (h : Handle) :
    Moves R (declare name h) :=
  (declare_leaves name h).imp hR.blocks

theorem declareOutside (hR : IsRunRelation table Q R) (name : String) (h : Handle) :
    Moves R (declareOutside name h) :=
  (declareOutside_leaves name h).imp hR.blocks

theorem openBlock (hR : IsRunRelation table Q R) : Moves R openBlock :=
  openBlock_leaves.imp hR.blocks

theorem closeBlock (hR : IsRunRelation table Q R) : Moves R closeBlock :=
  closeBlock_leaves.imp hR.blocks

theorem addDeclared (hR : IsRunRelation table Q R) (hnode : Q node) (name : String) :
    Moves R (do let h ← Resolution.addNode node; Resolution.declare name h; return h) :=
  hR.bind (hR.add hnode) fun h => hR.bind (hR.declare name h) fun _ => hR.pure h

end Steps

/-! ### Expressions -/

theorem members (hR : IsRunRelation table Q R) (members : List Program.Member) :
    Moves R (resolveMembers table members) := by
  unfold resolveMembers
  induction members with
  | nil =>
    rw [memberHandles]
    exact hR.pure []
  | cons m rest ih =>
    rw [memberHandles]
    refine hR.bind (Moves.within (hR.type m.type)) fun type => ?_
    exact hR.bind (hR.addNode trivial) fun h => hR.bind ih fun _ => hR.pure _

theorem callee (hR : IsRunRelation table Q R) (name : String) :
    Moves R (calleeHandle table name) := by
  intro s a s' hrun
  unfold calleeHandle at hrun
  rw [run_get] at hrun
  cases hl : s.lookup? name with
  | some h =>
    rw [hl] at hrun
    exact hR.pure h hrun
  | none =>
    rw [hl] at hrun
    cases hvisible : visibleStruct? table s name with
    | some decl =>
      rw [hvisible] at hrun
      exact hR.struct hvisible hrun
    | none =>
      rw [hvisible] at hrun
      exact hR.pure none hrun

theorem call (hR : IsRunRelation table Q R) (name : String) (args : List Handle) :
    Moves R (resolveCall table name args) := by
  unfold resolveCall
  refine hR.bind (hR.callee name) fun target => moves_get fun s => ?_
  dsimp only
  split
  · split
    · exact hR.addNode trivial
    · exact moves_throw _
  · split
    · refine hR.bind (moves_substituteAll hR.refl hR.trans ?_ _) fun _ => hR.addNode trivial
      exact moves_substitute hR.refl hR.trans (fun _ _ hnode => hR.addNode hnode) _
    · exact moves_throw _
  · exact hR.addNode trivial
  · exact hR.addNode trivial

theorem fragment (hR : IsRunRelation table Q R) (decl : Program.Fragment) :
    Moves R (resolveFragment decl) := by
  unfold resolveFragment
  refine hR.bind (hR.addNode trivial) fun h => ?_
  exact hR.bind (hR.forM fun name => hR.declare name h) fun _ => hR.pure h

mutual

theorem expr (hR : IsRunRelation table Q R) (container : Handle) (node : Program.Node)
    (hknown : HasLiterals Q node.literals) : Moves R (resolveExpr table container node) := by
  unfold resolveExpr
  cases node with
  | ident name => exact moves_get fun s => hR.addNode trivial
  | access left right =>
    obtain ⟨hleft, hright⟩ := List.forall_mem_append.mp hknown
    refine hR.bind (hR.expr container left hleft) fun left' => moves_get fun s => ?_
    exact hR.bind (hR.expr _ right hright) fun _ => hR.addNode trivial
  | call callee args =>
    exact hR.bind (Moves.within (hR.exprs args hknown)) fun args' => hR.call callee args'
  | binary symbol left right =>
    dsimp only
    split
    · obtain ⟨hleft, hright⟩ := List.forall_mem_append.mp hknown
      refine hR.bind (hR.expr none left hleft) fun _ => ?_
      exact hR.bind (hR.expr none right hright) fun _ => hR.addNode trivial
    · exact moves_throw _
  | localVar name type =>
    exact hR.bind (Moves.within (hR.type type)) fun _ =>
      hR.addDeclared (hR.common (by trivial)) name
  | sequence elements => exact hR.bind (hR.exprs elements hknown) fun _ => hR.addNode trivial
  | ret value =>
    cases value with
    | none => exact hR.addNode trivial
    | some value => exact hR.bind (hR.expr none value hknown) fun _ => hR.addNode trivial
  | constant | marker | placeholder => exact hR.addNode trivial
  | fragment decl => exact hR.fragment decl
  | literal name body => exact hR.addDeclared (hknown _ (.head _)) name
  | _ => exact moves_throw _
termination_by structural node

theorem exprs (hR : IsRunRelation table Q R) (nodes : List Program.Node)
    (hknown : HasLiterals Q (Program.literalsOfAll nodes)) :
    Moves R (resolveExprs table nodes) := by
  match nodes with
  | [] =>
    rw [resolveExprs]
    exact hR.pure _
  | node :: rest =>
    rw [resolveExprs]
    obtain ⟨hnode, hrest⟩ := List.forall_mem_append.mp hknown
    refine hR.bind (hR.expr none node hnode) fun h => ?_
    exact hR.bind (hR.exprs rest hrest) fun _ => hR.pure _
termination_by structural nodes

end

/-! ### Declarations -/

theorem parameter (hR : IsRunRelation table Q R) (p : Program.Parameter) :
    Moves R (resolveParameter table p) :=
  hR.bind (Moves.within (hR.type p.type)) fun _ => hR.addDeclared (hR.common (by trivial)) p.name

theorem function (hR : IsRunRelation table Q R) (hQ : ∀ node, Q node) (name : String)
    (params : List Program.Parameter) (returns : String) (statements : List Program.Node)
    (annotations : List String) :
    Moves R (resolveFunction table name params returns statements annotations) := by
  unfold resolveFunction
  refine hR.bind (Moves.within ?_) fun h => hR.bind (hR.declare name h) fun _ => hR.pure h
  refine hR.bind (hR.type _) fun _ => hR.bind hR.openBlock fun _ => ?_
  refine hR.bind (hR.mapM hR.parameter) fun _ =>
    hR.bind (hR.exprs statements fun _ _ => hQ _) fun _ => ?_
  exact hR.bind hR.closeBlock fun _ => hR.add (hQ _)

theorem intrinsic (hR : IsRunRelation table Q R) (name : String) (params : List Program.Parameter)
    (body : List Program.Node) (returns : String)
    (hknown : HasLiterals Q (Program.literalsOfAll body)) :
    Moves R (resolveIntrinsic table name params body returns) := by
  unfold resolveIntrinsic
  refine Moves.within (hR.bind (hR.type _) fun _ => hR.bind hR.openBlock fun _ => ?_)
  refine hR.bind (hR.mapM hR.parameter) fun _ => hR.bind (hR.exprs body hknown) fun _ => ?_
  refine hR.bind (hR.addNode trivial) fun h => hR.bind (hR.declareOutside name h) fun _ => ?_
  exact hR.bind hR.closeBlock fun _ => hR.pure h

theorem resource (hR : IsRunRelation table Q R) (name : String)
    (resource : Option Program.Resource) : Moves R (resolveResource table name resource) := by
  unfold resolveResource
  split
  · exact hR.bind (Moves.within (hR.members _)) fun _ => hR.pure _
  · exact hR.pure _
  · exact hR.pure _
  · exact moves_throw _

theorem plain (hR : IsRunRelation table Q R) (node : Program.Node) (hplain : node.IsPlain)
    (hknown : HasLiterals Q node.literals) (hstruct : ∀ decl, node ≠ .struct decl) :
    Moves R (resolveDeclaration table node) := by
  unfold resolveDeclaration
  cases node with
  | scope | function => exact hplain.elim
  | struct decl => exact absurd rfl (hstruct decl)
  | member decl =>
    exact hR.bind (Moves.within (hR.type decl.type)) fun _ =>
      hR.addDeclared (hR.common (by trivial)) decl.name
  | binding decl =>
    exact hR.bind (hR.resource decl.name decl.resource) fun _ =>
      hR.addDeclared (hR.common (by trivial)) decl.name
  | pushConstant members =>
    exact hR.bind (Moves.within (hR.members members)) fun _ =>
      hR.addDeclared (hR.common (by trivial)) _
  | specialization name type =>
    exact hR.bind (Moves.within (hR.type type)) fun _ =>
      hR.addDeclared (hR.common (by trivial)) name
  | fragment decl => exact hR.fragment decl
  | intrinsic name params body returns => exact hR.intrinsic name params body returns hknown
  | literal name body => exact hR.addDeclared (hknown _ (.head _)) name
  | parameter decl => exact hR.parameter decl
  | placeholder => exact hR.addNode trivial
  | _ => exact moves_throw _

end IsRunRelation

theorem IsRunRelation.mono {table : TypeTable} {Q : Node → Prop} {R R' : State → State → Prop}
    (hR : IsRunRelation table Q R) (h : ∀ ⦃s s'⦄, R s s' → R' s s')
    (htrans : ∀ ⦃s s' s''⦄, R' s s' → R' s' s'' → R' s s'') : IsRunRelation table Q R' where
  common := hR.common
  leaves _ _ hl := h (hR.leaves hl)
  trans := htrans
  type name _ _ _ hrun := h (hR.type name hrun)
  struct _ _ _ _ _ hvisible hrun := h (hR.struct hvisible hrun)

/-! ## Invariants of whole programs -/

theorem resolve_eq_ok_iff {scope : Program.Scope} {table : TypeTable} {t : Tree} :
    resolve (some scope) table = .ok t ↔ ∃ s, resolveChildren table id Tree.root scope.children
      (State.initial scope.children) = .ok ((), s) ∧ s.tree = t := by
  unfold resolve
  dsimp only
  split
  · rename_i s hrun
    rw [hrun]
    simp
  · rename_i e hrun
    rw [hrun]
    simp

theorem resolve_eq_error_iff {scope : Program.Scope} {table : TypeTable} {e : ResolveError} :
    resolve (some scope) table = .error e ↔
      resolveChildren table id Tree.root scope.children (State.initial scope.children) =
        .error e := by
  unfold resolve
  dsimp only
  split
  · rename_i s hrun
    rw [hrun]
    simp
  · rename_i e hrun
    rw [hrun]
    simp

theorem adopt_eq_ok {scope child : Handle} {a : Unit} (hrun : adopt scope child s = .ok (a, s')) :
    s'.registry = s.registry ∧ s'.pending = s.pending ∧ s'.blocks = s.blocks ∧
      ∀ g found, found.kind ≠ .scope → s.tree.node? g = some found →
        s'.tree.node? g = some found := by
  obtain ⟨tree, htree, rfl⟩ := exists_of_adopt hrun
  obtain ⟨name, children, hscope, -, hnodes⟩ := Tree.appendChild_eq_ok htree
  refine ⟨rfl, rfl, rfl, fun g found hkind hnode => (hnodes g).trans ((if_neg ?_).trans hnode)⟩
  rintro rfl
  rw [hscope] at hnode
  cases hnode
  exact hkind rfl

/-- A property of states and of the structs declared before them that every step keeps. -/
structure IsDocumentInvariant (table : TypeTable)
    (I : List Program.Struct → State → Prop) : Prop where
  run : IsRunRelation table (fun _ => True) fun s s' => ∀ before, I before s → I before s'
  adopt : ∀ ⦃before s s' scope child⦄, adopt scope child s = .ok ((), s') → I before s →
    I before s'
  struct : ∀ ⦃before s s' decl h⦄, resolveStructDecl table decl s = .ok (h, s') → I before s →
    I (before ++ [decl]) s'

namespace IsDocumentInvariant

variable {table : TypeTable} {I : List Program.Struct → State → Prop}

theorem leaves (hI : IsDocumentInvariant table I) {before : List Program.Struct}
    {Q : Node → Prop} (h : Leaves Q s s') (hs : I before s) : I before s' :=
  hI.run.leaves { h with tree := h.tree.imp fun _ _ => trivial } before hs

mutual

theorem declaration (hI : IsDocumentInvariant table I) {before : List Program.Struct}
    {s s' : State} {h : Handle} (node : Program.Node) (hs : I before s)
    (hrun : resolveDeclaration table node s = .ok (h, s')) : I (before ++ node.structs) s' := by
  cases node with
  | scope name children =>
    rw [resolveDeclaration] at hrun
    obtain ⟨i, s₁, hadd, hrun⟩ := run_bind_eq_ok hrun
    obtain ⟨_, s₂, hopen, hrun⟩ := run_bind_eq_ok hrun
    obtain ⟨_, s₃, hchildren, hrun⟩ := run_bind_eq_ok hrun
    obtain ⟨_, s₄, hclose, hrun⟩ := run_bind_eq_ok hrun
    cases hrun
    have hs₂ := hI.leaves (openBlock_leaves hopen) (hI.leaves (addNode_leaves _ hadd) hs)
    rw [Program.Node.structs]
    refine hI.leaves (closeBlock_leaves hclose) ?_
    exact hI.children children (fun _ _ _ => run_of_within) hs₂ hchildren
  | struct decl =>
    rw [resolveDeclaration] at hrun
    rw [Program.Node.structs]
    exact hI.struct hrun hs
  | function name params returns statements annotations =>
    rw [resolveDeclaration] at hrun
    simpa [Program.Node.structs] using hI.run.function (fun _ => trivial) _ _ _ _ _ hrun before hs
  | _ =>
    simpa [Program.Node.structs] using
      hI.run.plain _ (by trivial) (fun _ _ => trivial) (by simp) hrun before hs
termination_by structural node

theorem children (hI : IsDocumentInvariant table I) {before : List Program.Struct}
    {s s' : State} {scope : Handle} (nodes : List Program.Node)
    {place : ResolveM Handle → ResolveM Handle}
    (hplace : ∀ ⦃act : ResolveM Handle⦄ ⦃s : State⦄ ⦃r : Handle × State⦄,
      place act s = .ok r → act s = .ok r) (hs : I before s)
    (hrun : resolveChildren table place scope nodes s = .ok ((), s')) :
    I (before ++ Program.structsOfAll nodes) s' := by
  match nodes with
  | [] =>
    rw [resolveChildren] at hrun
    cases hrun
    rwa [Program.structsOfAll, List.append_nil]
  | node :: rest =>
    rw [resolveChildren] at hrun
    obtain ⟨child, s₁, hchild, hrun⟩ := run_bind_eq_ok hrun
    obtain ⟨_, s₂, hadopt, hrest⟩ := run_bind_eq_ok hrun
    have hs₂ := hI.adopt hadopt (hI.declaration node hs (hplace hchild))
    rw [Program.structsOfAll, ← List.append_assoc]
    exact hI.children rest hplace hs₂ hrest
termination_by structural nodes

end

end IsDocumentInvariant

end Shader.Resolution
