import Shader.Proofs.Resolution.Moves

/-!
# The scopes of a resolved program

Resolution changes a node of the tree only where a scope adopts a declaration. All other steps add
nodes at the end, so a finished scope stays as it is, and the scopes of the tree are nested like
those of the program.
-/

namespace Shader.Program

mutual

/-- The names of the functions that a declaration stands for, those in nested scopes included. -/
def Node.functionNames : Node → List String
  | .function name .. => [name]
  | .scope _ children => functionNamesOfAll children
  | _ => []

def functionNamesOfAll : List Node → List String
  | [] => []
  | node :: rest => node.functionNames ++ functionNamesOfAll rest

end

theorem Node.IsPlain.functionNames {node : Node} (h : node.IsPlain) : node.functionNames = [] := by
  cases node with
  | scope | function => exact h.elim
  | _ => simp only [Node.functionNames]

end Shader.Program

namespace Shader.Resolution

open Arena

variable {t t' : Tree} {i : Nat} {h : Handle} {s : State} {scope : Program.Scope}

/-! ## Steps that only add nodes -/

/-- The second tree has the nodes of the first, but perhaps for the one at an index. -/
def KeepsBut (i : Nat) (t t' : Tree) : Prop :=
  ∀ ⦃h node⦄, h ≠ some i → t.node? h = some node → t'.node? h = some node

theorem Keeps.but (hk : Keeps t t') (i : Nat) : KeepsBut i t t' :=
  fun _ _ _ hnode => hk hnode

theorem KeepsBut.trans {t'' : Tree} (h : KeepsBut i t t') (h' : KeepsBut i t' t'') :
    KeepsBut i t t'' :=
  fun _ _ hne hnode => h' hne (h hne hnode)

section Brings

variable {Q : Node → Prop}

theorem brings_isStepRelation (hQ : ∀ ⦃node⦄, IsCommon node → Q node) :
    IsStepRelation fun s s' => Brings Q s.tree s'.tree where
  refl _ := .refl _
  trans _ _ _ := Brings.trans
  add node _ hnode s h s' hrun := by
    cases hrun
    exact .add _ (hQ hnode)
  shared key decl s h s' hrun := by
    rcases sharedStruct_run hrun with ⟨-, rfl⟩ | ⟨-, -, rfl⟩
    · exact .refl _
    · exact .add _ (hQ trivial)
  share key h s a s' hrun := by
    cases hrun
    exact .refl _

/-- The steps of types keep all nodes. -/
theorem brings_any : IsStepRelation fun s s' => Brings (fun _ => True) s.tree s'.tree :=
  brings_isStepRelation fun _ _ => trivial

variable (table : Program.TypeTable)

/-! ## Declarations without children -/

theorem brings_isRunRelation (hQ : ∀ ⦃node⦄, IsCommon node → Q node) :
    IsRunRelation table Q fun s s' => Brings Q s.tree s'.tree where
  common := hQ
  leaves _ _ h := h.tree
  trans _ _ _ := Brings.trans
  type name _ _ _ := ((brings_isStepRelation hQ).isTypeInduction table).type _ name
  struct _ _ _ decl _ _ hrun :=
    ((brings_isStepRelation hQ).isTypeInduction table).struct _ decl hrun

theorem resolvePlain_brings (hQ : ∀ ⦃node⦄, IsCommon node → Q node) (node : Program.Node)
    (hplain : node.IsPlain) (hknown : HasLiterals Q node.literals) :
    Moves (fun s s' => Brings Q s.tree s'.tree) (resolveDeclaration table node) := by
  have hR := brings_isRunRelation table hQ
  by_cases hstruct : ∃ decl, node = .struct decl
  · obtain ⟨decl, rfl⟩ := hstruct
    rw [resolveDeclaration]
    intro s h s' hrun
    obtain ⟨s₁, hstruct, hdeclare⟩ := resolveStructDecl_eq_ok hrun
    have hfirst := ((brings_isStepRelation hQ).isTypeInduction table).struct _ decl hstruct
    exact Brings.trans hfirst (hR.declare _ h hdeclare)
  · exact hR.plain node hplain hknown fun decl heq => hstruct ⟨decl, heq⟩

end Brings

variable (table : Program.TypeTable)

/-! ## Scopes -/

mutual

/-- The node at a handle stands for the declaration. A scope has an index from `n` on and children
that stand for those of the declared scope, and a function has the declared name. -/
inductive Mirrors (t : Tree) : Nat → Program.Node → Handle → Prop
  | scope {n i : Nat} {name : String} {children : List Program.Node} {hs : List Handle}
      (hle : n ≤ i) (hnode : t.node? (some i) = some (.scope name hs))
      (hchildren : AllMirror t (i + 1) children hs) : Mirrors t n (.scope name children) (some i)
  | function {n : Nat} {params : List Program.Parameter} {returns : String}
      {statements : List Program.Node} {annotations : List String} {decl : Function} {h : Handle}
      (hnode : t.node? h = some (.function decl)) :
      Mirrors t n (.function decl.name params returns statements annotations) h
  | plain {n : Nat} {node : Program.Node} {found : Node} {h : Handle} (hplain : node.IsPlain)
      (hnode : t.node? h = some found) (hscope : found.kind ≠ .scope)
      (hfunction : found.kind ≠ .function) : Mirrors t n node h

/-- The nodes at a list of handles stand for the declarations. -/
inductive AllMirror (t : Tree) : Nat → List Program.Node → List Handle → Prop
  | nil {n : Nat} : AllMirror t n [] []
  | cons {n : Nat} {node : Program.Node} {nodes : List Program.Node} {h : Handle}
      {hs : List Handle} (hfirst : Mirrors t n node h) (hrest : AllMirror t n nodes hs) :
      AllMirror t n (node :: nodes) (h :: hs)

end

section Growth

variable {t t' : Tree} {i : Nat}

theorem KeepsBut.node? {h : Handle} {node : Node} (hk : KeepsBut i t t')
    (hi : t.kind? (some i) = some .scope) (hnode : t.node? h = some node)
    (hkind : node.kind ≠ .scope) : t'.node? h = some node := by
  refine hk ?_ hnode
  rintro rfl
  rw [Tree.kind?_of_node? hnode] at hi
  exact hkind (Option.some.inj hi)

mutual

theorem Mirrors.mono {n : Nat} {node : Program.Node} {h : Handle} (hk : KeepsBut i t t')
    (hi : t.kind? (some i) = some .scope) (hlt : i < n) (hm : Mirrors t n node h) :
    Mirrors t' n node h := by
  cases hm with
  | @scope _ j _ _ _ hle hnode hchildren =>
    have hne : some j ≠ some i := by
      intro heq
      cases heq
      omega
    exact .scope hle (hk hne hnode) (hchildren.mono hk hi (by omega))
  | function hnode => exact .function (hk.node? hi hnode (by simp [Node.kind]))
  | plain hplain hnode hscope hfunction =>
    exact .plain hplain (hk.node? hi hnode hscope) hscope hfunction

theorem AllMirror.mono {n : Nat} {nodes : List Program.Node} {hs : List Handle}
    (hk : KeepsBut i t t') (hi : t.kind? (some i) = some .scope) (hlt : i < n)
    (hm : AllMirror t n nodes hs) : AllMirror t' n nodes hs := by
  cases hm with
  | nil => exact .nil
  | cons hfirst hrest => exact .cons (hfirst.mono hk hi hlt) (hrest.mono hk hi hlt)

end

theorem Mirrors.weaken {m n : Nat} {node : Program.Node} (hm : Mirrors t n node h) (hle : m ≤ n) :
    Mirrors t m node h := by
  cases hm with
  | scope hn hnode hchildren => exact .scope (Nat.le_trans hle hn) hnode hchildren
  | function hnode => exact .function hnode
  | plain hplain hnode hscope hfunction => exact .plain hplain hnode hscope hfunction

end Growth

/-! ## Programs -/

/-- The run keeps all nodes and gives a node for the declaration. -/
def Reflects (s : State) (node : Program.Node) (act : ResolveM Handle) : Prop :=
  ∀ ⦃h s'⦄, act s = .ok (h, s') → Keeps s.tree s'.tree ∧ Mirrors s'.tree s.tree.size node h

theorem resolvePlain_reflects (node : Program.Node) (hplain : node.IsPlain) (hs : s.Sound True) :
    Reflects s node (resolveDeclaration table node) := by
  intro h s' hrun
  obtain ⟨kind, hscope, hfunction, hyields⟩ :=
    resolvePlain_yields table node hplain hs (Or.inl trivial)
  obtain ⟨-, -, hk⟩ := hyields h s' hrun
  obtain ⟨found, hnode, rfl⟩ := Option.map_eq_some_iff.mp hk
  have hbrings := @resolvePlain_brings (fun _ => True) table (fun _ _ => trivial) node hplain
    (fun _ _ => trivial) _ _ _ hrun
  exact ⟨hbrings.nodes, .plain hplain hnode hscope hfunction⟩

theorem adopt_run {child : Handle} {s' : State} {a : Unit}
    (hrun : adopt (some i) child s = .ok (a, s')) :
    ∃ name children, s.tree.node? (some i) = some (.scope name children) ∧
      s'.tree.node? (some i) = some (.scope name (children ++ [child])) ∧
      KeepsBut i s.tree s'.tree := by
  obtain ⟨tree, htree, rfl⟩ := exists_of_adopt hrun
  obtain ⟨name, children, hscope, -, hnodes⟩ := Tree.appendChild_eq_ok htree
  refine ⟨name, children, hscope, (hnodes _).trans (if_pos rfl), ?_⟩
  intro h node hne hnode
  exact ((hnodes h).trans (if_neg hne)).trans hnode

mutual

theorem resolveDeclaration_reflects {s : State} (node : Program.Node) (hs : s.Sound True) :
    Reflects s node (resolveDeclaration table node) := by
  cases node with
  | scope name children =>
    rw [resolveDeclaration]
    intro h s' hrun
    obtain ⟨_, s₁, hadd, hrun⟩ := run_bind_eq_ok hrun
    have hscope : (Node.scope name []).WellFormed s.tree s.tree.size := List.forall_mem_nil _
    obtain ⟨hs₁, -, hnode, rfl⟩ := addNode_yields hs hscope trivial _ _ hadd
    obtain ⟨_, s₂, hopen, hrun⟩ := run_bind_eq_ok hrun
    obtain ⟨hs₂, -, -⟩ := openBlock_yields hs₁ _ _ hopen
    obtain ⟨_, s₃, hall, hrun⟩ := run_bind_eq_ok hrun
    obtain ⟨hkeeps, hs', hnode', hchildren⟩ := resolveChildren_mirrors children
      (fun _ _ _ => run_of_within) hs₂ ((openBlock_leaves hopen).tree.nodes hnode) hall
    obtain ⟨_, s₄, hclose, hrun⟩ := run_bind_eq_ok hrun
    cases hclose
    cases hrun
    refine ⟨fun g old hold => ?_, .scope (Nat.le_refl _) hnode' hchildren⟩
    -- the new scope is the only node that has changed since it was added
    have hne : g ≠ some s.tree.size := by
      rintro rfl
      rw [Tree.node?_size] at hold
      cases hold
    exact hkeeps hne
      ((openBlock_leaves hopen).tree.nodes ((addNode_leaves _ hadd).tree.nodes hold))
  | function name params returns statements annotations =>
    rw [resolveDeclaration]
    intro h s' hrun
    obtain ⟨-, -, decl, hnode, rfl⟩ := resolveFunction_yields hs (Or.inl trivial) h s' hrun
    have hR := brings_isRunRelation table fun _ _ => trivial
    exact ⟨(hR.function (fun _ => trivial) _ _ _ _ _ hrun).nodes, .function hnode⟩
  | _ => exact resolvePlain_reflects table _ trivial hs
termination_by structural node

theorem resolveChildren_mirrors {s s' : State} {i : Nat} {name : String} {old : List Handle}
    {a : Unit} (nodes : List Program.Node) {place : ResolveM Handle → ResolveM Handle}
    (hplace : ∀ ⦃act s r⦄, place act s = .ok r → act s = .ok r) (hs : s.Sound True)
    (hscope : s.tree.node? (some i) = some (.scope name old))
    (hrun : resolveChildren table place (some i) nodes s = .ok (a, s')) :
    KeepsBut i s.tree s'.tree ∧ ∃ new, s'.tree.node? (some i) = some (.scope name (old ++ new)) ∧
      AllMirror s'.tree (i + 1) nodes new := by
  match nodes with
  | [] =>
    rw [resolveChildren] at hrun
    cases hrun
    exact ⟨fun _ _ _ hnode => hnode, [], by rw [List.append_nil, hscope], .nil⟩
  | node :: rest =>
    rw [resolveChildren] at hrun
    obtain ⟨child, s₁, hchild, hrun⟩ := run_bind_eq_ok hrun
    obtain ⟨_, s₂, hadopt, hrest⟩ := run_bind_eq_ok hrun
    obtain ⟨hkeeps, hmirrors⟩ := resolveDeclaration_reflects node hs (hplace hchild)
    obtain ⟨hs₁, -, hadoptable, -⟩ :=
      resolveDeclaration_yields table node hs (Or.inl trivial) _ _ (hplace hchild)
    have hlt : i + 1 ≤ s.tree.size := Tree.lt_size_of_node? hscope
    obtain ⟨hs₂, -, -⟩ := adopt_yields hs₁ (hadoptable.weaken hlt) _ _ hadopt
    obtain ⟨_, _, hbefore, hafter, hkeeps₂⟩ := adopt_run hadopt
    have hscope₁ := hkeeps hscope
    rw [hscope₁] at hbefore
    cases hbefore
    obtain ⟨hkeeps₃, new, hnew, hall⟩ := resolveChildren_mirrors rest hplace hs₂ hafter hrest
    have hkeeps' := hkeeps₂.trans hkeeps₃
    refine ⟨(hkeeps.but i).trans hkeeps', child :: new, ?_, .cons ?_ hall⟩
    · rw [hnew, List.append_assoc, List.singleton_append]
    · exact (hmirrors.weaken hlt).mono hkeeps' (Tree.kind?_of_node? hscope₁) (Nat.lt_succ_self i)
termination_by structural nodes

end

/-- The children of the root stand for the declarations of the program. -/
theorem resolve_mirrors {table : Program.TypeTable} (h : resolve (some scope) table = .ok t) :
    ∃ name children, t.node? Tree.root = some (.scope name children) ∧
      AllMirror t 1 scope.children children := by
  unfold resolve at h
  dsimp only at h
  split at h
  · rename_i s hrun
    cases h
    obtain ⟨-, new, hnode, hall⟩ := resolveChildren_mirrors table scope.children
      (fun _ _ _ hact => hact) (.initial scope.children) rfl hrun
    exact ⟨_, _, hnode, hall⟩
  · cases h

/-! ## Functions -/

def functionName? (t : Tree) (h : Handle) : Option String := (t.function? h).map (·.name)

def declarationsAt (t : Tree) (depth : Nat) (h : Handle) : List Handle :=
  if (t.scope? h).isSome then t.declarationsIn depth h else [h]

theorem declarationsIn_scope {name : String} {children : List Handle}
    (hnode : t.node? h = some (.scope name children)) (depth : Nat) :
    t.declarationsIn (depth + 1) h = children.flatMap (declarationsAt t depth) := by
  unfold Tree.declarationsIn
  simp only [Tree.scope?, hnode]
  rfl

theorem declarationsAt_of_kind {node : Node} (hnode : t.node? h = some node)
    (hkind : node.kind ≠ .scope) (depth : Nat) : declarationsAt t depth h = [h] := by
  unfold declarationsAt
  rw [if_neg]
  intro hsome
  cases node with
  | scope => exact hkind rfl
  | _ => simp [Tree.scope?, hnode] at hsome

mutual

theorem Mirrors.functionNames {t : Tree} {n depth : Nat} {node : Program.Node} {h : Handle}
    (hm : Mirrors t n node h) (hdepth : t.size ≤ depth + n) :
    (declarationsAt t depth h).filterMap (functionName? t) = node.functionNames := by
  cases hm with
  | @scope _ i name children hs hle hnode hchildren =>
    have hlt : i < t.size := Tree.lt_size_of_node? hnode
    have hscope : declarationsAt t depth (some i) = t.declarationsIn depth (some i) := by
      unfold declarationsAt
      rw [if_pos]
      simp [Tree.scope?, hnode]
    obtain ⟨depth, rfl⟩ : ∃ d, depth = d + 1 := Nat.exists_eq_add_one.mpr (by omega)
    rw [hscope, declarationsIn_scope hnode, Program.Node.functionNames]
    exact hchildren.functionNames (by omega)
  | @function _ _ _ _ _ decl _ hnode =>
    rw [declarationsAt_of_kind hnode (by simp [Node.kind]), Program.Node.functionNames]
    simp [functionName?, Tree.function?, hnode]
  | @plain _ _ found _ hplain hnode hscope hfunction =>
    rw [declarationsAt_of_kind hnode hscope, hplain.functionNames]
    cases found with
    | function => exact absurd rfl hfunction
    | _ => simp [functionName?, Tree.function?, hnode]

theorem AllMirror.functionNames {t : Tree} {n depth : Nat} {nodes : List Program.Node}
    {hs : List Handle} (hm : AllMirror t n nodes hs) (hdepth : t.size ≤ depth + n) :
    (hs.flatMap (declarationsAt t depth)).filterMap (functionName? t) =
      Program.functionNamesOfAll nodes := by
  cases hm with
  | nil => rfl
  | cons hfirst hrest =>
    rw [List.flatMap_cons, List.filterMap_append, Program.functionNamesOfAll,
      hfirst.functionNames hdepth, hrest.functionNames hdepth]

end

/-- The functions among the declarations of the tree are those of the program and of its nested
scopes. -/
theorem functionNames_declarations {table : Program.TypeTable}
    (h : resolve (some scope) table = .ok t) :
    t.declarations.filterMap (functionName? t) = Program.functionNamesOfAll scope.children := by
  obtain ⟨name, children, hroot, hall⟩ := resolve_mirrors h
  have hsize : 0 < t.size := Tree.lt_size_of_node? hroot
  obtain ⟨depth, hdepth⟩ : ∃ d, t.size = d + 1 := Nat.exists_eq_add_one.mpr hsize
  unfold Tree.declarations
  rw [hdepth, declarationsIn_scope hroot]
  exact hall.functionNames (by omega)

end Shader.Resolution
