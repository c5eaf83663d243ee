import Shader.Proofs.Resolution.Runs
import Shader.Resolution.Program

/-!
# Evaluation of the resolver

The resolver ends because the structs that may be entered become fewer, and it carries a proof of
that through the instances of generic types, where the evaluation of a term gets stuck. The
evaluator takes the same steps, at most `fuel` types deep, without one: where it finds a tree, that
is the tree of the program (`resolve_of_evaluate`).
-/

namespace Shader.Resolution

open Arena Program.TypeName

variable {α β : Type} {table : Program.TypeTable}

deriving instance DecidableEq for State

/-- Wherever `x` ends well, `y` ends as `x` does. -/
def Mimics (x y : ResolveM α) : Prop := ∀ s r, x s = .ok r → y s = .ok r

namespace Mimics

variable {x y : ResolveM α}

theorem refl (x : ResolveM α) : Mimics x x := fun _ _ => id

theorem bind {f g : α → ResolveM β} (h : Mimics x y) (hf : ∀ a, Mimics (f a) (g a)) :
    Mimics (x >>= f) (y >>= g) := by
  rintro s ⟨b, s'⟩ hrun
  obtain ⟨a, s₁, hx, hrest⟩ := run_bind_eq_ok hrun
  exact (run_bind (h s _ hx)).trans (hf a s₁ _ hrest)

theorem within (h : Mimics x y) (place : String) :
    Mimics (within place x) (within place y) := by
  intro s r hrun
  unfold Resolution.within at hrun ⊢
  cases hx : x s with
  | ok out =>
    rw [hx] at hrun
    rw [h s _ hx]
    exact hrun
  | error e =>
    rw [hx] at hrun
    cases hrun

end Mimics

/-! ## Types -/

section Types

variable (table : Program.TypeTable)

def evalMembers (eval : String → ResolveM Handle) : List Program.Member → ResolveM (List Handle)
  | [] => return []
  | m :: rest => do
    let type ← within ("member " ++ m.name) (eval m.type)
    let h ← addNode (.member ⟨m.name, type, m.count, m.annotations⟩)
    let more ← evalMembers eval rest
    return h :: more

def evalStruct (eval : List String → String → ResolveM Handle) (names : List String)
    (decl : Program.Struct) : ResolveM Handle := do
  match (← get).registry.lookup? decl.name with
  | some h => return h
  | none =>
    if decl.name ∈ names then
      let fields ← within ("struct " ++ decl.name)
        (evalMembers (eval (names.filter (· ≠ decl.name))) decl.fields)
      let h ← sharedStruct decl.name ⟨decl.name, none, fields, []⟩
      shareAs (decl.name ++ "*") h
      return h
    else throw (.undefined (.selfContaining decl.name))

def evalType : Nat → List String → String → ResolveM Handle
  | 0, _, name => throw (.noSuchType name)
  | fuel + 1, names, name => do
    match (← get).registry.lookup? name with
    | some h => return h
    | none =>
      match splitInstance? name with
      | some (outer, inner) =>
        let template ← evalType fuel names outer
        let argument ←
          if isPointer inner then
            sharedStruct (outer ++ "<" ++ inner ++ ">#pointee") ⟨inner, template, [], []⟩
          else evalType fuel names inner
        sharedStruct name ⟨name, template, [], [argument]⟩
      | none =>
        match visibleStruct? table (← get) name with
        | some decl => evalStruct (evalType fuel) names decl
        | none => throw (.noSuchType name)

end Types

theorem mimics_members {eval : String → ResolveM Handle} {names : List String}
    (heval : ∀ name, Mimics (eval name) (typeHandle table names name))
    (members : List Program.Member) :
    Mimics (evalMembers eval members) (memberHandles table names members) := by
  induction members with
  | nil =>
    rw [memberHandles]
    exact .refl _
  | cons m rest ih =>
    rw [memberHandles, evalMembers]
    refine ((heval _).within _).bind fun _ => (Mimics.refl _).bind fun _ => ?_
    exact ih.bind fun _ => .refl _

theorem mimics_struct {eval : List String → String → ResolveM Handle}
    (heval : ∀ names name, Mimics (eval names name) (typeHandle table names name))
    (names : List String) (decl : Program.Struct) :
    Mimics (evalStruct eval names decl) (structHandle table names decl) := by
  rw [structHandle, evalStruct]
  refine (Mimics.refl get).bind fun s => ?_
  cases s.registry.lookup? decl.name with
  | some h => exact .refl _
  | none =>
    by_cases hmem : decl.name ∈ names
    · simp only [dif_pos hmem, if_pos hmem]
      exact ((mimics_members (heval _) _).within _).bind fun _ => .refl _
    · simp only [dif_neg hmem, if_neg hmem]
      exact .refl _

theorem mimics_type (fuel : Nat) (names : List String) (name : String) :
    Mimics (evalType table fuel names name) (typeHandle table names name) := by
  induction fuel generalizing names name with
  | zero => nofun
  | succ fuel ih =>
    rw [evalType]
    cases hsplit : splitInstance? name with
    | none =>
      rw [typeHandle_plain hsplit]
      refine (Mimics.refl get).bind fun s => ?_
      cases s.registry.lookup? name with
      | some h => exact .refl _
      | none =>
        refine (Mimics.refl get).bind fun s => ?_
        cases visibleStruct? table s name with
        | some decl => exact mimics_struct ih _ _
        | none => exact .refl _
    | some parts =>
      rw [typeHandle_instance hsplit]
      refine (Mimics.refl get).bind fun s => ?_
      cases s.registry.lookup? name with
      | some h => exact .refl _
      | none =>
        refine (ih _ _).bind fun template => ?_
        dsimp only
        split
        · exact .refl _
        · exact (ih _ _).bind fun _ => .refl _

section Programs

variable (fuel : Nat) (table : Program.TypeTable)

def evaluateType (name : String) : ResolveM Handle :=
  evalType table fuel (structNames table) name

def evaluateStruct (decl : Program.Struct) : ResolveM Handle :=
  evalStruct (evalType table fuel) (decl.name :: structNames table) decl

/-! ## Expressions -/

/-- A statement. Only the type of a variable that is declared by the statement itself is evaluated;
other expressions are resolved. -/
def evalStatement : Program.Node → ResolveM Handle
  | .localVar name type => do
    let type ← within ("variable " ++ name) (evaluateType fuel table type)
    let h ← addNode (.localVar name type)
    declare name h
    return h
  | node => resolveExpr table none node

def evalStatements : List Program.Node → ResolveM (List Handle)
  | [] => return []
  | node :: rest => do
    let h ← evalStatement fuel table node
    let more ← evalStatements rest
    return h :: more

theorem mimics_statement (node : Program.Node) :
    Mimics (evalStatement fuel table node) (resolveExpr table none node) := by
  cases node with
  | localVar name type =>
    rw [evalStatement, resolveExpr]
    exact ((mimics_type fuel _ _).within _).bind fun _ => .refl _
  | _ => exact .refl _

theorem mimics_statements (nodes : List Program.Node) :
    Mimics (evalStatements fuel table nodes) (resolveExprs table nodes) := by
  induction nodes with
  | nil => exact .refl _
  | cons node rest ih =>
    rw [evalStatements, resolveExprs]
    exact (mimics_statement fuel table node).bind fun _ => ih.bind fun _ => .refl _

/-! ## Declarations -/

def evalParameters : List Program.Parameter → ResolveM (List Handle)
  | [] => return []
  | p :: rest => do
    let type ← within ("parameter " ++ p.name) (evaluateType fuel table p.type)
    let h ← addNode (.parameter p.name type)
    declare p.name h
    let more ← evalParameters rest
    return h :: more

theorem mimics_parameters (params : List Program.Parameter) :
    Mimics (evalParameters fuel table params) (params.mapM (resolveParameter table)) := by
  induction params with
  | nil => exact .refl _
  | cons p rest ih =>
    rw [evalParameters, List.mapM_cons]
    simp only [resolveParameter, bind_assoc, pure_bind]
    refine ((mimics_type fuel _ _).within _).bind fun _ => (Mimics.refl _).bind fun _ => ?_
    exact (Mimics.refl _).bind fun _ => ih.bind fun _ => .refl _

mutual

def evalDeclaration : Program.Node → ResolveM Handle
  | .scope name children => do
    let h ← addNode (.scope name [])
    openBlock
    evalChildren (within ("scope " ++ name)) h children
    closeBlock
    return h
  | .struct decl => do
    modify fun s => { s with
      pending := s.pending.filter (· ≠ decl.name)
      registry :=
        if Program.isIntrinsicType decl.name then
          (s.registry.remove decl.name).remove (decl.name ++ "*")
        else s.registry }
    let h ← evaluateStruct fuel table decl
    declare decl.name h
    return h
  | .member decl => do
    let type ← within ("member " ++ decl.name) (evaluateType fuel table decl.type)
    let h ← addNode (.member ⟨decl.name, type, decl.count, decl.annotations⟩)
    declare decl.name h
    return h
  | .specialization name type => do
    let type ← within ("specialization " ++ name) (evaluateType fuel table type)
    let h ← addNode (.specialization name type)
    declare name h
    return h
  | .function name params returns statements annotations => do
    let h ← within ("function " ++ name) do
      let returns ← evaluateType fuel table (if returns = "" then "void" else returns)
      openBlock
      let params ← evalParameters fuel table params
      let statements ← evalStatements fuel table statements
      closeBlock
      addNode (.function ⟨name, params, returns, statements, annotations⟩)
    declare name h
    return h
  | .intrinsic name params body returns =>
    within ("intrinsic " ++ name) do
      let returns ← evaluateType fuel table (if returns = "" then "void" else returns)
      openBlock
      let params ← evalParameters fuel table params
      let body ← evalStatements fuel table body
      let h ← addNode (.intrinsic ⟨name, params, body, returns⟩)
      declareOutside name h
      closeBlock
      return h
  | node => resolveDeclaration table node

def evalChildren (place : ResolveM Handle → ResolveM Handle) (scope : Handle) :
    List Program.Node → ResolveM Unit
  | [] => return ()
  | node :: rest => do
    let child ← place (evalDeclaration node)
    adopt scope child
    evalChildren place scope rest

end

mutual

theorem mimics_declaration (node : Program.Node) :
    Mimics (evalDeclaration fuel table node) (resolveDeclaration table node) := by
  cases node with
  | scope name children =>
    rw [evalDeclaration, resolveDeclaration]
    refine (Mimics.refl _).bind fun h => (Mimics.refl _).bind fun _ => ?_
    exact (mimics_children (fun _ _ hact => hact.within _) h children).bind fun _ => .refl _
  | struct decl =>
    rw [evalDeclaration, resolveDeclaration]
    exact (Mimics.refl _).bind fun _ => (mimics_struct (mimics_type fuel) _ _).bind fun _ => .refl _
  | member decl =>
    rw [evalDeclaration, resolveDeclaration]
    exact ((mimics_type fuel _ _).within _).bind fun _ => .refl _
  | specialization name type =>
    rw [evalDeclaration, resolveDeclaration]
    exact ((mimics_type fuel _ _).within _).bind fun _ => .refl _
  | function name params returns statements annotations =>
    rw [evalDeclaration, resolveDeclaration]
    refine Mimics.bind (.within ?_ _) fun _ => .refl _
    refine (mimics_type fuel _ _).bind fun _ => (Mimics.refl _).bind fun _ => ?_
    refine (mimics_parameters fuel table params).bind fun _ => ?_
    exact (mimics_statements fuel table statements).bind fun _ => .refl _
  | intrinsic name params body returns =>
    rw [evalDeclaration, resolveDeclaration]
    refine Mimics.within ?_ _
    refine (mimics_type fuel _ _).bind fun _ => (Mimics.refl _).bind fun _ => ?_
    refine (mimics_parameters fuel table params).bind fun _ => ?_
    exact (mimics_statements fuel table body).bind fun _ => .refl _
  | _ => exact .refl _

theorem mimics_children {place : ResolveM Handle → ResolveM Handle}
    (hplace : ∀ x y, Mimics x y → Mimics (place x) (place y)) (scope : Handle)
    (nodes : List Program.Node) :
    Mimics (evalChildren fuel table place scope nodes)
      (resolveChildren table place scope nodes) := by
  cases nodes with
  | nil => exact .refl _
  | cons node rest =>
    rw [evalChildren, resolveChildren]
    refine (hplace _ _ (mimics_declaration node)).bind fun _ => (Mimics.refl _).bind fun _ => ?_
    exact mimics_children hplace scope rest

end

def evaluate (scope : Program.Scope) : Option Tree :=
  match evalChildren fuel table id Tree.root scope.children (State.initial scope.children) with
  | .ok ((), s) => some s.tree
  | .error _ => none

variable {table} in
theorem resolve_of_evaluate {scope : Program.Scope} {t : Tree}
    (h : evaluate fuel table scope = some t) : resolve (some scope) table = .ok t := by
  unfold evaluate at h
  split at h
  · rename_i s hrun
    cases h
    have hchildren := @mimics_children fuel table id (fun _ _ => id) _ _ _ _ hrun
    unfold resolve
    dsimp only
    rw [hchildren]
  · cases h

end Programs

end Shader.Resolution
