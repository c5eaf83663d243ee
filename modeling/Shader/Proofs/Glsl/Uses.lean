import Shader.Proofs.Glsl.Parallel
import Shader.Proofs.Resolution.Layout

/-!
# What a body refers to

The declarations to which a body refers can be told from its expressions: each name, callee and
type is a use, and each use leads to at most one declaration.
-/

namespace Shader.Glsl

open Arena Program Resolution

variable {c : Catalog} {name returns : String} {hs : List Handle} {r r' : References}
  {node : Program.Node} {h type : Handle} {statements : List Program.Node}
  {annotations : List String}

/-- A use of a name in a body. -/
inductive Use where
  | type (name : String)
  /-- A value that is no variable. -/
  | value (name : String)
  /-- What is called. -/
  | callee (name : String)
  /-- What is called under the name of a variable that the arguments declare. -/
  | hidden (name : String)
  deriving Repr, DecidableEq

def Use.word : Use → String
  | .type name => name
  | .value name => name
  | .callee name => name
  | .hidden name => name

def isIdent : Program.Node → Bool
  | .ident _ => true
  | _ => false

def calleeUses (locals lets : List String) (callee : String) : List Use :=
  if callee ∈ locals then [] else if callee ∈ lets then [.hidden callee] else [.callee callee]

mutual

/-- The uses of an expression, where `locals` are the variables declared before. -/
def uses (locals : List String) : Program.Node → List Use
  | .ident name => if name ∈ locals then [] else [.value name]
  | .localVar _ type => [.type type]
  | .access left right =>
    uses locals left ++ if isIdent right then [] else uses (left.lets ++ locals) right
  | .call callee args => calleeUses locals (letsOfAll args) callee ++ usesOfAll locals args
  | .binary _ left right => uses locals left ++ uses (left.lets ++ locals) right
  | .ret (some value) => uses locals value
  | _ => []

def usesOfAll (locals : List String) : List Program.Node → List Use
  | [] => []
  | node :: rest => uses locals node ++ usesOfAll (node.lets ++ locals) rest

end

/-! ## What uses lead to -/

def firstNamed (c : Catalog) (name : String) : Handle := (c.byName? name).getD none

/-- What a callee that is no variable leads to: the latest declaration of the name before the
function if that can be called, an intrinsic type, or else the first declaration of the name. -/
structure FindsCallee (v : View) (c : Catalog) (name : String) (h : Handle) : Prop where
  callable : ∀ g, v.outer.latest? name = some g → v.isCallable g = true → h = g
  other : ∀ g, v.outer.latest? name = some g → v.isCallable g = false → h = firstNamed c name
  intrinsic : v.outer.latest? name = none → isIntrinsicType name = true → v.types name h
  unknown : v.outer.latest? name = none → isIntrinsicType name = false → h = firstNamed c name

/-- What a use leads to. -/
def Finds (v : View) (c : Catalog) : Use → Handle → Prop
  | .type name, h => v.types name h
  | .value name, h => h = (v.outer.latest? name).getD (firstNamed c name)
  | .callee name, h => FindsCallee v c name h
  | .hidden name, h => h = firstNamed c name

/-! ## References -/

def collect (found : List Handle) (h : Handle) : List Handle :=
  (References.add ⟨found, []⟩ h).found

/-- The references after further handles have been added and variables declared. -/
def References.extend (r : References) (targets : List Handle) (lets : List String) : References :=
  ⟨targets.foldl collect r.found, lets ++ r.locals⟩

section References

variable (r : References)

theorem add_eq_collect (h : Handle) : r.add h = ⟨collect r.found h, r.locals⟩ := by
  unfold collect References.add
  by_cases hold : (h.isNone || h ∈ r.found) = true
  · rw [if_pos hold, if_pos hold]
  · rw [if_neg hold, if_neg hold]

theorem foldl_add_eq (targets : List Handle) :
    targets.foldl References.add r = ⟨targets.foldl collect r.found, r.locals⟩ := by
  induction targets generalizing r with
  | nil => rfl
  | cons h targets ih => rw [List.foldl_cons, List.foldl_cons, ih, add_eq_collect]

@[simp]
theorem extend_nil : r.extend [] [] = r := rfl

theorem add_eq_extend (h : Handle) : r.add h = r.extend [h] [] := add_eq_collect r h

theorem extend_extend (targets more : List Handle) (lets later : List String) :
    (r.extend targets lets).extend more later = r.extend (targets ++ more) (later ++ lets) := by
  unfold References.extend
  rw [List.foldl_append, List.append_assoc]

theorem addNamed_none (hname : name ∉ r.locals) :
    r.addNamed c none name = r.extend [firstNamed c name] [] := by
  unfold References.addNamed firstNamed
  rw [if_neg (by simp), if_neg hname]
  cases c.byName? name with
  | some decl => exact add_eq_extend r decl
  | none => rfl

theorem addNamed_local (hname : name ∈ r.locals) : r.addNamed c none name = r := by
  unfold References.addNamed
  rw [if_neg (by simp), if_pos hname]

end References

/-! ## Bodies -/

/-- What the catalog of a tree has to do with the view of a body in it. -/
structure Settled (v : View) (c : Catalog) : Prop where
  tree : c.tree = v.tree
  outer : ∀ name g, v.outer.latest? name = some g → g ∈ c.declared
  declared : ∀ g ∈ c.declared, ∃ node, v.tree.node? g = some node ∧
    ∀ name type, node ≠ .localVar name type
  types : ∀ key h, v.types key h → ∃ decl, v.tree.node? h = some (.struct decl)

section Bodies

variable {v : View} {c : Catalog}

theorem Settled.isSome (hc : Settled v c) {g : Handle} (hg : g ∈ c.declared) :
    g.isSome = true := by
  obtain ⟨node, hnode, -⟩ := hc.declared g hg
  cases g with
  | none => cases hnode
  | some i => rfl

theorem Settled.addNamed_declared (hc : Settled v c) (r : References) {g : Handle}
    (hg : g ∈ c.declared) : r.addNamed c g name = r.extend [g] [] := by
  unfold References.addNamed
  rw [if_pos (hc.isSome hg), if_pos hg, add_eq_extend]

theorem Settled.readName (hc : Settled v c) (r : References) {source : Handle}
    (hsource : v.IsSource r.locals name source) :
    ∃ targets, List.Forall₂ (Finds v c) (uses r.locals (.ident name)) targets ∧
      r.addNamed c source name = r.extend targets [] := by
  rw [uses]
  by_cases hname : name ∈ r.locals
  · rw [if_pos hname]
    refine ⟨[], .nil, ?_⟩
    obtain ⟨var, type, hnode⟩ := hsource.bound hname
    have hsome : source.isSome = true := by
      cases source with
      | none => cases hnode
      | some i => rfl
    have hnot : source ∉ c.declared := by
      intro hmem
      obtain ⟨node, hnode', hvar⟩ := hc.declared source hmem
      rw [hnode] at hnode'
      cases hnode'
      exact hvar _ _ rfl
    unfold References.addNamed
    rw [if_pos hsome, if_neg hnot, extend_nil]
  · rw [if_neg hname]
    have hdeclared := hsource.declared hname
    cases hlatest : v.outer.latest? name with
    | none =>
      rw [hlatest] at hdeclared
      refine ⟨[firstNamed c name], .cons ?_ .nil, ?_⟩
      · rw [Finds, hlatest]
        rfl
      · rw [hdeclared]
        exact addNamed_none r hname
    | some g =>
      rw [hlatest] at hdeclared
      refine ⟨[g], .cons ?_ .nil, ?_⟩
      · rw [Finds, hlatest]
        rfl
      · rw [hdeclared]
        exact hc.addNamed_declared r (hc.outer name g hlatest)

theorem Settled.readCallee (hc : Settled v c) (r : References) {lets : List String}
    {callee : String} {target : Handle} (htarget : v.IsCallee (lets ++ r.locals) callee target) :
    ∃ targets, List.Forall₂ (Finds v c) (calleeUses r.locals lets callee) targets ∧
      (if (c.tree.struct? target).isSome then r.add target else r.addNamed c target callee) =
        r.extend targets [] := by
  have hnone : (if (c.tree.struct? none).isSome then r.add none else r.addNamed c none callee) =
      r.addNamed c none callee := rfl
  unfold calleeUses
  by_cases hlocal : callee ∈ r.locals
  · rw [if_pos hlocal]
    refine ⟨[], .nil, ?_⟩
    rw [htarget.hidden (List.mem_append_right _ hlocal), hnone, addNamed_local r hlocal, extend_nil]
  rw [if_neg hlocal]
  by_cases hlets : callee ∈ lets
  · rw [if_pos hlets]
    refine ⟨[firstNamed c callee], .cons rfl .nil, ?_⟩
    rw [htarget.hidden (List.mem_append_left _ hlets), hnone, addNamed_none r hlocal]
  rw [if_neg hlets]
  have hfree : callee ∉ lets ++ r.locals := by
    rw [List.mem_append]
    exact fun h => h.elim hlets hlocal
  cases hlatest : v.outer.latest? callee with
  | none =>
    by_cases hintrinsic : isIntrinsicType callee = true
    · have htype := htarget.intrinsic hfree hlatest hintrinsic
      obtain ⟨decl, hnode⟩ := hc.types _ _ htype
      have hstruct : (c.tree.struct? target).isSome = true := by
        rw [Tree.struct?, hc.tree, hnode]
        rfl
      refine ⟨[target], .cons ⟨?_, ?_, fun _ _ => htype, ?_⟩ .nil, ?_⟩
      · simp [hlatest]
      · simp [hlatest]
      · simp [hintrinsic]
      · rw [if_pos hstruct, add_eq_extend]
    · have hfalse : isIntrinsicType callee = false := by simpa using hintrinsic
      have hunknown := htarget.unknown hfree hlatest hfalse
      refine ⟨[firstNamed c callee], .cons ⟨?_, ?_, ?_, fun _ _ => rfl⟩ .nil, ?_⟩
      · simp [hlatest]
      · simp [hlatest]
      · simp [hfalse]
      · rw [hunknown, hnone, addNamed_none r hlocal]
  | some g =>
    have hdeclared := htarget.declared hfree g hlatest
    by_cases hcallable : v.isCallable g = true
    · rw [if_pos hcallable] at hdeclared
      refine ⟨[g], .cons ⟨?_, ?_, ?_, ?_⟩ .nil, ?_⟩
      · simp [hlatest]
      · simp [hlatest, hcallable]
      · simp [hlatest]
      · simp [hlatest]
      · rw [hdeclared]
        split
        · exact add_eq_extend r g
        · exact hc.addNamed_declared r (hc.outer callee g hlatest)
    · rw [if_neg hcallable] at hdeclared
      refine ⟨[firstNamed c callee], .cons ⟨?_, ?_, ?_, ?_⟩ .nil, ?_⟩
      · simp [hlatest, hcallable]
      · simp
      · simp [hlatest]
      · simp [hlatest]
      · rw [hdeclared, hnone, addNamed_none r hlocal]

theorem foldlM_of_representsAll {read : Handle → References → Except GenerateError References}
    (hread : ∀ {node h r r'}, Represents v r.locals node h → read h r = .ok r' →
      ∃ targets, List.Forall₂ (Finds v c) (uses r.locals node) targets ∧
        r' = r.extend targets node.lets)
    {nodes : List Program.Node}
    (hr : RepresentsAll v r.locals nodes hs)
    (hrun : hs.foldlM (fun r h => read h r) r = .ok r') :
    ∃ targets, List.Forall₂ (Finds v c) (usesOfAll r.locals nodes) targets ∧
      r' = r.extend targets (letsOfAll nodes) := by
  induction nodes generalizing hs r with
  | nil =>
    cases hr
    cases hrun
    exact ⟨[], .nil, rfl⟩
  | cons node nodes ih =>
    cases hr with
    | cons hnode hrest =>
      rw [List.foldlM_cons] at hrun
      obtain ⟨r₁, hrun₁, hrun⟩ := bind_eq_ok hrun
      obtain ⟨targets, hfinds, rfl⟩ := hread hnode hrun₁
      obtain ⟨more, hfinds', rfl⟩ := ih hrest hrun
      exact ⟨targets ++ more, List.rel_append hfinds hfinds', extend_extend r _ _ _ _⟩

theorem isName_of_represents {locals : List String} (hr : Represents v locals node h) :
    isName v.tree h = isIdent node := by
  unfold isName
  cases hr with
  | ident hadded | constant hadded | localVar hadded | access hadded | call hadded
  | binary _ hadded | leave hadded | leaveWith hadded => rw [hadded]; rfl

/-- Reading an expression adds what its uses lead to. -/
theorem readExpr_of_represents (hc : Settled v c) {depth : Nat} (hr : Represents v r.locals node h)
    (hrun : readExpr c depth h r = .ok r') :
    ∃ targets, List.Forall₂ (Finds v c) (uses r.locals node) targets ∧
      r' = r.extend targets node.lets := by
  induction depth generalizing node h r r' with
  | zero => cases hrun
  | succ depth ih =>
    cases hr with
    | ident hadded hsource =>
      rw [readExpr, hc.tree, hadded] at hrun
      cases hrun
      exact hc.readName r hsource
    | constant hadded =>
      rw [readExpr, hc.tree, hadded] at hrun
      cases hrun
      exact ⟨[], .nil, rfl⟩
    | @localVar _ name type typeHandle _ hadded htype =>
      rw [readExpr, hc.tree, hadded] at hrun
      cases hrun
      refine ⟨[typeHandle], .cons htype .nil, ?_⟩
      rw [add_eq_extend]
      rfl
    | @access _ left right l r₀ _ hadded hleft hright =>
      rw [readExpr, hc.tree, hadded] at hrun
      obtain ⟨r₁, hrun₁, hrun⟩ := bind_eq_ok hrun
      obtain ⟨targets, hfinds, rfl⟩ := ih hleft hrun₁
      rw [← hc.tree] at hrun
      rw [uses]
      cases hright with
      | @name _ name source _ hname =>
        have hisName : isName c.tree r₀ = true := by rw [isName, hc.tree, hname]
        rw [if_pos hisName] at hrun
        cases hrun
        refine ⟨targets, ?_, rfl⟩
        rw [isIdent, if_pos rfl, List.append_nil]
        exact hfinds
      | value hname hrep =>
        have hfalse : isIdent right = false := by
          cases right with
          | ident name => exact absurd rfl (hname name)
          | _ => rfl
        have hisName : isName c.tree r₀ = false := by
          rw [hc.tree, isName_of_represents hrep, hfalse]
        rw [hisName, if_neg Bool.false_ne_true] at hrun
        obtain ⟨more, hfinds', rfl⟩ := ih hrep hrun
        rw [hfalse, if_neg Bool.false_ne_true]
        exact ⟨targets ++ more, List.rel_append hfinds hfinds', extend_extend r _ _ _ _⟩
    | @call _ callee args target _ hs hadded hargs htarget =>
      rw [readExpr, hc.tree, hadded] at hrun
      rw [← hc.tree] at hrun
      obtain ⟨targets, hfinds, hcallee⟩ := hc.readCallee r htarget
      dsimp only at hrun
      rw [hcallee] at hrun
      obtain ⟨more, hfinds', rfl⟩ :=
        foldlM_of_representsAll ih (r := r.extend targets []) hargs hrun
      refine ⟨targets ++ more, List.rel_append hfinds hfinds', ?_⟩
      rw [extend_extend, List.append_nil, Node.lets]
    | binary _ hadded hleft hright =>
      rw [readExpr, hc.tree, hadded] at hrun
      obtain ⟨r₁, hrun₁, hrun⟩ := bind_eq_ok hrun
      obtain ⟨targets, hfinds, rfl⟩ := ih hleft hrun₁
      obtain ⟨more, hfinds', rfl⟩ := ih hright hrun
      exact ⟨targets ++ more, List.rel_append hfinds hfinds', extend_extend r _ _ _ _⟩
    | leave hadded =>
      rw [readExpr, hc.tree, hadded] at hrun
      cases hrun
      exact ⟨[], .nil, rfl⟩
    | @leaveWith _ value x _ hadded hvalue =>
      cases x with
      | none => exact absurd hvalue.ofKind (by simp [OfKind, Tree.kind?, Tree.node?])
      | some i =>
        rw [readExpr, hc.tree, hadded] at hrun
        obtain ⟨targets, hfinds, rfl⟩ := ih hvalue hrun
        exact ⟨targets, hfinds, rfl⟩

def functionUses (returns : String) (statements : List Program.Node) : List Use :=
  .type returns :: usesOfAll [] statements

theorem dependencies_of_function (hc : Settled v c) {found : List Handle}
    (hnode : v.tree.node? h = some (.function ⟨name, [], type, hs, annotations⟩))
    (htype : v.types returns type) (hbody : RepresentsAll v [] statements hs)
    (hrun : dependencies c h = .ok found) :
    ∃ targets, List.Forall₂ (Finds v c) (functionUses returns statements) targets ∧
      found = (targets.foldl References.add .none).found := by
  unfold dependencies at hrun
  rw [hc.tree, hnode] at hrun
  dsimp only at hrun
  cases hread : readFunction c ⟨name, [], type, hs, annotations⟩ with
  | error e =>
    rw [hread] at hrun
    cases hrun
  | ok r =>
    rw [hread] at hrun
    cases hrun
    unfold readFunction at hread
    dsimp only [List.foldl_nil] at hread
    rw [add_eq_extend] at hread
    obtain ⟨targets, hfinds, rfl⟩ := foldlM_of_representsAll
      (fun hr hrun => readExpr_of_represents hc hr hrun) hbody hread
    refine ⟨type :: targets, .cons htype hfinds, ?_⟩
    rw [extend_extend, foldl_add_eq]
    rfl

end Bodies

/-- Functions of the same statements whose uses lead to related declarations depend on related
declarations. -/
theorem both_dependencies_of_function {R : Handle → Handle → Prop} (hp : Pairing R) {v v' : View}
    {c' : Catalog} (hc : Settled v c) (hc' : Settled v' c') {type' h' : Handle} {hs' : List Handle}
    (hnode : v.tree.node? h = some (.function ⟨name, [], type, hs, annotations⟩))
    (hnode' : v'.tree.node? h' = some (.function ⟨name, [], type', hs', annotations⟩))
    (htype : v.types returns type) (htype' : v'.types returns type')
    (hbody : RepresentsAll v [] statements hs) (hbody' : RepresentsAll v' [] statements hs')
    (huses : ∀ use ∈ functionUses returns statements, ∀ x x', Finds v c use x →
      Finds v' c' use x' → Refers R x x') :
    Both (List.Forall₂ R) (dependencies c h) (dependencies c' h') := by
  intro found found' hrun hrun'
  obtain ⟨targets, hfinds, rfl⟩ := dependencies_of_function hc hnode htype hbody hrun
  obtain ⟨targets', hfinds', rfl⟩ := dependencies_of_function hc' hnode' htype' hbody' hrun'
  exact SameFound.addAll hp (forall₂_of_common hfinds hfinds' huses) .none

end Shader.Glsl
