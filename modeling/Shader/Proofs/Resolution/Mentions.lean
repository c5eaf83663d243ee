import Mathlib.Data.List.Find
import Shader.Proofs.Resolution.Expressions

/-!
# Names and variables of a body

The body of a function declares variables and uses names, which are listed here in the order in
which they are written. A name refers to the latest variable of that name before it in the list,
else to the latest declaration before the function; behind a point it refers first of all to a field
of what stands before the point.
-/

namespace Shader.Resolution

open Arena

def Block.latest? (block : Block) (name : String) : Option Handle :=
  (block.find? (·.1 = name)).map (·.2)

/-! ## Mentions -/

/-- What a body says about names. -/
inductive Mention where
  | declared (name : String) (h : Handle)
  /-- A name and the node it refers to. Behind a point `left` is the node before the point. -/
  | used (name : String) (source : Handle) (left : Option Handle)

def Mention.entry? : Mention → Option (String × Handle)
  | .declared name h => some (name, h)
  | .used .. => none

/-- The declared variables, the latest first. -/
def localsOf (ms : List Mention) : Block := (ms.filterMap Mention.entry?).reverse

theorem localsOf_append (ms ms' : List Mention) :
    localsOf (ms ++ ms') = localsOf ms' ++ localsOf ms := by
  rw [localsOf, List.filterMap_append, List.reverse_append]
  rfl

mutual

/-- What an expression mentions, where its node is `h`. -/
inductive Mentions (t : Tree) : Option Handle → Program.Node → Handle → List Mention → Prop
  | ident {left name source h} (hnode : t.node? h = some (.ident name source)) :
      Mentions t left (.ident name) h [.used name source left]
  | constant {left text h} (hnode : t.node? h = some (.constant text)) :
      Mentions t left (.constant text) h []
  | localVar {left name type typeHandle h} (hnode : t.node? h = some (.localVar name typeHandle)) :
      Mentions t left (.localVar name type) h [.declared name h]
  | access {left l r x y h ms ms'} (hnode : t.node? h = some (.access x y))
      (hleft : Mentions t none l x ms) (hright : Mentions t (some x) r y ms') :
      Mentions t left (.access l r) h (ms ++ ms')
  | call {left callee args target h hs ms} (hnode : t.node? h = some (.call callee target hs))
      (hargs : MentionsAll t args hs ms) : Mentions t left (.call callee args) h ms
  | binary {left symbol op l r x y h ms ms'} (hnode : t.node? h = some (.binary op x y))
      (hleft : Mentions t none l x ms) (hright : Mentions t none r y ms') :
      Mentions t left (.binary symbol l r) h (ms ++ ms')
  | leave {left h} (hnode : t.node? h = some (.ret none)) : Mentions t left (.ret none) h []
  | leaveWith {left value x h ms} (hnode : t.node? h = some (.ret x))
      (hvalue : Mentions t none value x ms) : Mentions t left (.ret (some value)) h ms

/-- What the expressions of a list mention. -/
inductive MentionsAll (t : Tree) : List Program.Node → List Handle → List Mention → Prop
  | nil : MentionsAll t [] [] []
  | cons {node nodes h hs ms ms'} (hnode : Mentions t none node h ms)
      (hrest : MentionsAll t nodes hs ms') : MentionsAll t (node :: nodes) (h :: hs) (ms ++ ms')

end

variable {t t' : Tree} {h : Handle} {name : String}

mutual

theorem Mentions.extend (he : Extends t t') {left : Option Handle} {node : Program.Node}
    {h : Handle} {ms : List Mention} : Mentions t left node h ms → Mentions t' left node h ms
  | .ident hnode => .ident (he.keeps hnode rfl)
  | .constant hnode => .constant (he.keeps hnode rfl)
  | .localVar hnode => .localVar (he.keeps hnode rfl)
  | .access hnode hleft hright =>
    .access (he.keeps hnode rfl) (hleft.extend he) (hright.extend he)
  | .call hnode hargs => .call (he.keeps hnode rfl) (hargs.extend he)
  | .binary hnode hleft hright =>
    .binary (he.keeps hnode rfl) (hleft.extend he) (hright.extend he)
  | .leave hnode => .leave (he.keeps hnode rfl)
  | .leaveWith hnode hvalue =>
    .leaveWith (he.keeps hnode rfl) (hvalue.extend he)

theorem MentionsAll.extend (he : Extends t t') {nodes : List Program.Node} {hs : List Handle}
    {ms : List Mention} : MentionsAll t nodes hs ms → MentionsAll t' nodes hs ms
  | .nil => .nil
  | .cons hnode hrest => .cons (hnode.extend he) (hrest.extend he)

end

/-- Only a name says what stands before it. -/
theorem Mentions.behind {node : Program.Node} {ms : List Mention} {left : Option Handle}
    (hm : Mentions t none node h ms) (hname : ∀ name, node ≠ .ident name) :
    Mentions t left node h ms := by
  cases hm with
  | ident => exact absurd rfl (hname _)
  | constant hnode => exact .constant hnode
  | localVar hnode => exact .localVar hnode
  | access hnode hleft hright => exact .access hnode hleft hright
  | call hnode hargs => exact .call hnode hargs
  | binary hnode hleft hright => exact .binary hnode hleft hright
  | leave hnode => exact .leave hnode
  | leaveWith hnode hvalue => exact .leaveWith hnode hvalue

/-! ## What stands before a point -/

/-- The argument of an instance with one argument, and any other type itself. -/
def unwrapped (t : Tree) (type : Handle) : Handle :=
  match t.node? type with
  | some (.struct ⟨_, some _, _, [argument]⟩) => argument
  | _ => type

/-- The struct that a declared node has the fields of: a variable those of its type, and a member
those of its type or, where that is an instance with one argument, of the argument. -/
def structOf (t : Tree) (h : Handle) : Handle :=
  match t.node? h with
  | some (.localVar _ type) => type
  | some (.parameter _ type) => type
  | some (.specialization _ type) => type
  | some (.member decl) => unwrapped t decl.type
  | some (.struct _) => h
  | some (.binding _) => h
  | some (.pushConstant _) => h
  | _ => none

/-- The struct that an operand other than an access denotes: a name that of what it refers to, a
variable its type, and a call what it returns. -/
def valueStruct (t : Tree) (h : Handle) : Handle :=
  match t.node? h with
  | some (.ident _ source) => structOf t source
  | some (.localVar _ type) => type
  | some (.call _ target _) =>
    match t.node? target with
    | some (.function decl) => decl.returns
    | some (.struct _) => target
    | _ => none
  | _ => none

/-- The right side of an access, and any other operand itself. -/
def lastOperand (t : Tree) (h : Handle) : Handle :=
  match t.node? h with
  | some (.access _ right) => right
  | _ => h

/-- The struct that an operand denotes, if it denotes one. -/
def denoted (t : Tree) (h : Handle) : Handle := valueStruct t (lastOperand t h)

/-- The node is one of those that can stand behind a point. -/
def IsSimple (t : Tree) (h : Handle) : Prop :=
  match t.node? h with
  | some (.ident ..) => True
  | some (.constant _) => True
  | some (.localVar ..) => True
  | some (.call ..) => True
  | _ => False

/-- The fields of a struct, push constants or a binding, in the order in which they are written. -/
def fieldsAt (t : Tree) (h : Handle) : List Handle :=
  match t.node? h with
  | some (.struct decl) => decl.fields
  | some (.pushConstant members) => members
  | some (.binding decl) => decl.members
  | _ => []

/-- The first member of that name. -/
def firstField (t : Tree) (name : String) : List Handle → Handle
  | [] => none
  | m :: ms =>
    match t.node? m with
    | some (.member decl) => if decl.name = name then m else firstField t name ms
    | _ => firstField t name ms

/-- What a name refers to: behind a point the first field of that name, else the latest variable of
that name, else the latest declaration of that name. -/
def referent (t : Tree) (locals outer : Block) (name : String) (left : Option Handle) : Handle :=
  let field := left.bind fun left => firstField t name (fieldsAt t (denoted t left))
  field.or (((locals.latest? name).or (outer.latest? name)).getD none)

section Growth

variable {source c : Handle}

theorem node?_eq_of_extends (he : Extends t t') (hh : h = none ∨ Declared t h) :
    t'.node? h = t.node? h := by
  rcases hh with rfl | ⟨kind, hkind, hh⟩
  · rfl
  · obtain ⟨node, hnode, rfl⟩ := Option.map_eq_some_iff.mp hh
    rw [hnode, he.node? hnode hkind]

theorem size_le_of_extends (he : Extends t t') : t.size ≤ t'.size := by
  by_contra hlt
  have hsome : (t.node? (some t'.size)).isSome := by
    simpa [Tree.node?, Tree.size] using hlt
  have hsome' := he.isSome hsome
  rw [Tree.node?_size] at hsome'
  cases hsome'

theorem find?_eq_firstField (he : Extends t t') {ms : List Handle} (hms : AllOfKind .member t ms) :
    (ms.find? fun m => t.name m = name).getD none = firstField t' name ms := by
  induction ms with
  | nil => rfl
  | cons m ms ih =>
    obtain ⟨hm, hms⟩ := List.forall_mem_cons.mp hms
    obtain ⟨node, hnode, hkind⟩ := Option.map_eq_some_iff.mp hm
    cases node with
    | member decl =>
      have hname : t.name m = decl.name := by rw [Tree.name, hnode]; rfl
      rw [firstField, he.keeps hnode rfl, List.find?_cons, hname]
      by_cases hdecl : decl.name = name
      · simp [hdecl]
      · simp [hdecl, ih hms]
    | _ => cases hkind

theorem fieldOf_eq_firstField (ht : t.WellFormed) (he : Extends t t')
    (hc : c = none ∨ Declared t c) : fieldOf t c name = firstField t' name (fieldsAt t' c) := by
  have hfields : fieldsAt t' c = membersOf t c := by
    unfold fieldsAt
    rw [node?_eq_of_extends he hc]
    rfl
  rw [hfields]
  exact find?_eq_firstField he (membersOf_ofKind ht c)

theorem firstField_ofKind {ms : List Handle} {j : Nat} (hj : firstField t name ms = some j) :
    OfKind .member t (some j) := by
  induction ms with
  | nil => cases hj
  | cons m ms ih =>
    rw [firstField] at hj
    split at hj
    · rename_i decl hnode
      split at hj
      · rw [hj] at hnode
        exact Tree.kind?_of_node? hnode
      · exact ih hj
    · exact ih hj

theorem pointee_eq_unwrapped (ht : t.WellFormed) (he : Extends t t') (hk : OfKind .struct t h) :
    pointee t h = unwrapped t' h ∧ Declared t (unwrapped t' h) := by
  have hh : Declared t h := ⟨.struct, by decide, hk⟩
  obtain ⟨node, hnode, hkind⟩ := Option.map_eq_some_iff.mp hk
  obtain ⟨i, -, rfl⟩ := Tree.index_of_node? hnode
  have hwell := ht.node hnode
  unfold pointee Tree.struct? unwrapped
  rw [node?_eq_of_extends he (Or.inr hh), hnode]
  cases node with
  | struct decl =>
    obtain ⟨_, _ | template, _, _ | ⟨argument, _ | _⟩⟩ := decl
    case some.cons.nil => exact ⟨rfl, .struct, by decide, (hwell.2.2 argument (.head _)).1⟩
    all_goals exact ⟨rfl, hh⟩
  | _ => cases hkind

theorem containerFrom_declared (ht : t.WellFormed) (he : Extends t t') (n : Nat)
    (hsource : source = none ∨ Bears t name source) :
    containerFrom t (n + 1) source = structOf t' source ∧
      (structOf t' source = none ∨ Declared t (structOf t' source)) := by
  rcases hsource with rfl | ⟨hdeclared, hnamed⟩
  · exact ⟨rfl, Or.inl rfl⟩
  obtain ⟨kind, hscope, hkind⟩ := hdeclared
  obtain ⟨node, hnode, rfl⟩ := Option.map_eq_some_iff.mp hkind
  obtain ⟨i, -, rfl⟩ := Tree.index_of_node? hnode
  have hwell := ht.node hnode
  unfold structOf
  rw [containerFrom, hnode, he.node? hnode hscope]
  cases node with
  | localVar | parameter | specialization =>
    exact ⟨rfl, Or.inr ⟨.struct, by decide, hwell.1⟩⟩
  | member decl =>
    obtain ⟨heq, hdeclared⟩ := pointee_eq_unwrapped ht he hwell.1
    exact ⟨heq, Or.inr hdeclared⟩
  | struct | binding | pushConstant => exact ⟨rfl, Or.inr ⟨_, hscope, hkind⟩⟩
  | ident | access | call | intrinsicCall => exact absurd (hnamed hnode) id
  | _ => exact ⟨rfl, Or.inl rfl⟩

variable {s : State} {code : Prop}

theorem containerFrom_simple (hs : s.Sound code) (he : Extends s.tree t) (n : Nat)
    (hsimple : IsSimple s.tree h) :
    containerFrom s.tree (n + 2) h = valueStruct t h ∧
      (valueStruct t h = none ∨ Declared s.tree (valueStruct t h)) := by
  unfold IsSimple at hsimple
  cases hnode : s.tree.node? h with
  | none => simp [hnode] at hsimple
  | some node =>
    obtain ⟨i, -, rfl⟩ := Tree.index_of_node? hnode
    have hwell := hs.tree.node hnode
    rw [hnode] at hsimple
    unfold valueStruct
    cases node with
    | ident name source =>
      rw [containerFrom, hnode, he.keeps hnode rfl]
      exact containerFrom_declared hs.tree he n (hs.nodes hnode)
    | constant text =>
      rw [containerFrom, hnode, he.keeps hnode rfl]
      exact ⟨rfl, Or.inl rfl⟩
    | localVar name type =>
      rw [containerFrom, hnode, he.keeps hnode rfl]
      exact ⟨rfl, Or.inr ⟨.struct, by decide, hwell.1⟩⟩
    | call callee target args =>
      rw [containerFrom, hnode, he.keeps hnode rfl]
      have htarget : target = none ∨ Declared s.tree target :=
        hwell.2.1.imp_right
          fun hk => hk.elim (⟨.function, by decide, ·.1⟩) (⟨.struct, by decide, ·.1⟩)
      dsimp only
      rw [node?_eq_of_extends he htarget]
      refine ⟨rfl, ?_⟩
      split
      · rename_i decl hcallee
        obtain ⟨j, -, rfl⟩ := Tree.index_of_node? hcallee
        exact Or.inr ⟨.struct, by decide, (hs.tree.node hcallee).2.1.1⟩
      · exact htarget
      · exact Or.inl rfl
    | _ => exact hsimple.elim

/-- The resolver finds the struct that an operand denotes, as every tree that extends its own has
it. -/
theorem containerOf_eq_denoted (hs : s.Sound code) (he : Extends s.tree t)
    (hh : OfKind .expression s.tree h) (hsimple : IsSimple s.tree (lastOperand s.tree h)) :
    containerOf s.tree h = denoted t h ∧
      (denoted t h = none ∨ Declared s.tree (denoted t h)) := by
  obtain ⟨node, hnode, hkind⟩ := Option.map_eq_some_iff.mp hh
  obtain ⟨i, hi, rfl⟩ := Tree.index_of_node? hnode
  obtain ⟨n, hn⟩ := Nat.exists_eq_succ_of_ne_zero (Nat.ne_zero_of_lt hi)
  have hwell := hs.tree.node hnode
  have hlast : lastOperand t (some i) = lastOperand s.tree (some i) := by
    unfold lastOperand
    rw [node?_eq_of_extends he (Or.inr ⟨.expression, by decide, hh⟩)]
  have halone := containerFrom_simple (h := some i) hs he n
  unfold denoted containerOf
  rw [hlast, hn]
  unfold lastOperand at hsimple ⊢
  rw [hnode] at hsimple ⊢
  cases node with
  | access left right =>
    obtain ⟨-, -, j, hj, rfl⟩ := hwell
    obtain ⟨m, rfl⟩ : ∃ m, n = m + 1 := ⟨n - 1, by omega⟩
    rw [containerFrom, hnode]
    exact containerFrom_simple hs he m hsimple
  | _ => exact halone hsimple

theorem source_eq_referent (hs : s.Sound code) (he : Extends s.tree t) {left : Handle}
    (hleft : OfKind .expression s.tree left) (hsimple : IsSimple s.tree (lastOperand s.tree left))
    {inner outer : Block}
    (hlookup : s.lookup? name = (inner.latest? name).or (outer.latest? name)) :
    s.source (containerOf s.tree left) name = referent t inner outer name (some left) := by
  obtain ⟨heq, hdeclared⟩ := containerOf_eq_denoted hs he hleft hsimple
  unfold State.source referent
  rw [hlookup, heq]
  dsimp only [Option.bind_some]
  rw [fieldOf_eq_firstField hs.tree he hdeclared]

end Growth

/-! ## Names in scope -/

/-- The names refer to what is in scope, in this tree and in every tree that extends it. -/
def Scoped (t : Tree) (inner outer : Block) (ms : List Mention) : Prop :=
  ∀ ⦃earlier name source left later⦄, ms = earlier ++ .used name source left :: later →
    ∀ ⦃t'⦄, Extends t t' → source = referent t' (localsOf earlier ++ inner) outer name left

section Scopes

variable {inner outer : Block} {ms ms' : List Mention}

theorem Scoped.extend (he : Extends t t') (hs : Scoped t inner outer ms) :
    Scoped t' inner outer ms := fun _ _ _ _ _ hms _ he' => hs hms (he.trans he')

theorem scoped_of_no_use (h : ∀ name source left, .used name source left ∉ ms) :
    Scoped t inner outer ms := by
  rintro earlier name source left later rfl
  exact absurd (List.mem_append_right _ (.head _)) (h name source left)

theorem scoped_use {source : Handle} {left : Option Handle}
    (h : ∀ ⦃t'⦄, Extends t t' → source = referent t' inner outer name left) :
    Scoped t inner outer [.used name source left] := by
  intro earlier name' source' left' later hms t' he
  obtain ⟨rfl, hlater⟩ := List.singleton_eq_append_iff.mp hms |>.resolve_right (by simp)
  cases hlater
  exact h he

theorem Scoped.append (hs : Scoped t inner outer ms)
    (hs' : Scoped t (localsOf ms ++ inner) outer ms') : Scoped t inner outer (ms ++ ms') := by
  intro earlier name source left later hms t' he
  rcases List.append_eq_append_iff.mp hms with ⟨middle, rfl, hbehind⟩ | ⟨middle, rfl, hbehind⟩
  · rw [localsOf_append, List.append_assoc]
    exact hs' hbehind he
  · cases middle with
    | nil =>
      rw [List.append_nil] at hs'
      exact @hs' [] _ _ _ _ hbehind.symm _ he
    | cons first middle =>
      obtain ⟨rfl, -⟩ := List.cons.inj hbehind
      exact hs rfl he

end Scopes

end Shader.Resolution
