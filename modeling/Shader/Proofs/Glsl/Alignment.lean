import Shader.Proofs.Glsl.Body
import Shader.Proofs.Glsl.Uses

/-!
# Programs that differ in the declarations of one name

Two programs with the same declarations, except for those of one name `x`, can be laid out in two
trees side by side. A type name leads to the same type in both, and the declarations of other names
are paired by their place. What is left to show about a pair of programs is where the uses of `x`
lead, and then both give the same shader.
-/

namespace Shader.Program

variable {x : String}

/-- Two programs that differ in the declarations of the name `x` only. The name is not that of a
type which both programs know. -/
structure Variants (x : String) (program program' : List Node) : Prop where
  others : program.filter (·.name ≠ x) = program'.filter (·.name ≠ x)
  root : ∀ node ∈ program, node.IsRoot
  root' : ∀ node ∈ program', node.IsRoot
  keeps : KeepsIntrinsics program
  keeps' : KeepsIntrinsics program'
  intrinsic : isIntrinsicType x = false
  struct : ∀ decl ∈ structsOfAll program, decl.name ≠ x

theorem find?_structsOfAll_filter {name : String} (hname : name ≠ x) {nodes : List Node}
    (hroot : ∀ node ∈ nodes, node.IsRoot) :
    (structsOfAll (nodes.filter (·.name ≠ x))).find? (·.name = name) =
      (structsOfAll nodes).find? (·.name = name) := by
  induction nodes with
  | nil => rfl
  | cons node nodes ih =>
    obtain ⟨hnode, hnodes⟩ := List.forall_mem_cons.mp hroot
    rw [List.filter_cons, structsOfAll, List.find?_append, ← ih hnodes]
    split
    · rw [structsOfAll, List.find?_append]
    · rename_i hx
      have hnone : node.structs.find? (·.name = name) = none := by
        cases node with
        | struct decl =>
          have hdecl : decl.name = x := not_not.mp fun hne => hx (decide_eq_true hne)
          simp [Node.structs, hdecl, hname.symm]
        | scope => exact absurd (hnode.resolve_left (by simp [Node.isResource])) id
        | _ => rfl
      rw [hnone, Option.none_or]

theorem Variants.canonical_eq {program program' : List Node} (hv : Variants x program program')
    {decl decl' : Struct} (hdecl : Canonical program decl) (hdecl' : Canonical program' decl')
    (hname : decl.name = decl'.name) : decl = decl' := by
  have hx : decl.name ≠ x := by
    have hmem := List.mem_of_find?_eq_some hdecl
    rcases List.mem_append.mp hmem with hmem | hmem
    · intro heq
      have hsome : isIntrinsicType x = true := by
        rw [isIntrinsicType, intrinsicType?, List.find?_isSome]
        exact ⟨decl, hmem, by simpa using heq⟩
      rw [hv.intrinsic] at hsome
      cases hsome
    · exact hv.struct decl hmem
  unfold Canonical at hdecl hdecl'
  rw [List.find?_append, ← find?_structsOfAll_filter hx hv.root, hv.others,
    find?_structsOfAll_filter hx hv.root', ← List.find?_append, hname, hdecl'] at hdecl
  exact (Option.some.inj hdecl).symm

end Shader.Program

namespace Shader.Glsl

open Arena Program Resolution

variable {a b c h : Handle} {R : Handle → Handle → Prop} {outer outer' : Block}
  {as bs hs : List Handle} {t : Tree} {name : String} {nodes : List Program.Node}
  {node : Program.Node}

/-! ## Types -/

/-- The handles of one type name in two trees. -/
def SameType (G G' : String → Handle → Prop) (a b : Handle) : Prop := ∃ key, G key a ∧ G' key b

section Types

variable {x : String} {program program' : List Program.Node} {t t' : Tree}
  {G G' : String → Handle → Prop} {hs hs' : List Handle}

theorem sameType_left (hl : Laid t program G hs) (hl' : Laid t' program' G' hs')
    (hk : KeepsIntrinsics program) (hk' : KeepsIntrinsics program') (hb : SameType G G' a b)
    (hc : SameType G G' a c) : b = c := by
  obtain ⟨key, hkey, hb⟩ := hb
  obtain ⟨other, hother, hc⟩ := hc
  rcases hl.shared hk key other a hkey hother with rfl | rfl | rfl
  · exact hl'.single hk' _ _ _ hb hc
  · exact hl'.single hk' _ _ _ (hl'.star hk' _ _ hb) hc
  · exact hl'.single hk' _ _ _ hb (hl'.star hk' _ _ hc)

theorem SameType.symm (h : SameType G G' a b) : SameType G' G b a := by
  obtain ⟨key, ha, hb⟩ := h
  exact ⟨key, hb, ha⟩

theorem sameMember_of_isMember (hR : ∀ a b, SameType G G' a b → R a b) {m : Program.Member}
    (ha : IsMember G t m a) (hb : IsMember G' t' m b) : SameMember R t t' a b := by
  obtain ⟨type, hnode, htype⟩ := ha
  obtain ⟨type', hnode', htype'⟩ := hb
  exact ⟨_, _, _, _, _, hnode, hnode', hR _ _ ⟨_, htype, htype'⟩⟩

theorem sameMembers_of_isMember (hR : ∀ a b, SameType G G' a b → R a b)
    {members : List Program.Member} (has : List.Forall₂ (IsMember G t) members as)
    (hbs : List.Forall₂ (IsMember G' t') members bs) : List.Forall₂ (SameMember R t t') as bs :=
  forall₂_of_common has hbs fun _ _ _ _ => sameMember_of_isMember hR

theorem sameMembers_of_isResource (hR : ∀ a b, SameType G G' a b → R a b)
    {resource : Option Program.Resource} {kind kind' : BindingKind} {format format' : String}
    (ha : IsResource ⟨t, G, outer⟩ resource kind as format)
    (hb : IsResource ⟨t', G', outer'⟩ resource kind' bs format') :
    kind = kind' ∧ format = format' ∧ List.Forall₂ (SameMember R t t') as bs := by
  cases ha with
  | buffer hmembers => cases hb with
    | buffer hmembers' => exact ⟨rfl, rfl, sameMembers_of_isMember hR hmembers hmembers'⟩
  | image => cases hb with
    | image => exact ⟨rfl, rfl, .nil⟩
  | sampler => cases hb with
    | sampler => exact ⟨rfl, rfl, .nil⟩

theorem sameNode_of_sameType (hv : Variants x program program') (hl : Laid t program G hs)
    (hl' : Laid t' program' G' hs')
    (hR : ∀ a b, SameType G G' a b → R a b) (h : SameType G G' a b) :
    SameNode R t t' a b := by
  obtain ⟨key, ha, hb⟩ := h
  have hb := hl'.types key b hb
  cases hl.types key a ha with
  | @struct decl _ fields _ hok hplain hkey hnode hfields =>
    have hopen : '<' ∉ key.toList := by
      rcases hkey with rfl | rfl
      · exact hplain.1
      · simpa using hplain.1
    obtain ⟨decl', fields', hok', hplain', hkey', hnode', hfields'⟩ := hb.of_notMem hopen
    have hname : decl.name = decl'.name := by
      rcases hkey with rfl | rfl <;> rcases hkey' with hkey' | hkey'
      · exact hkey'
      · exact absurd hkey' (hplain.ne_star _)
      · exact absurd hkey'.symm (hplain'.ne_star _)
      · exact (String.append_left_inj "*").mp hkey'
    have hdecl := hv.canonical_eq (hok.canonical hv.keeps) (hok'.canonical hv.keeps') hname
    subst hdecl
    exact .struct hnode hnode' (Or.inl ⟨rfl, rfl⟩) (sameMembers_of_isMember hR hfields hfields')
      .nil
  | generic hsplit htemplate hargument hnode =>
    obtain ⟨template', argument', htemplate', hargument', hnode'⟩ := hb.of_splitInstance hsplit
    exact .struct hnode hnode' (Or.inr (hR _ _ ⟨_, htemplate, htemplate'⟩)) .nil
      (.cons (hR _ _ ⟨_, hargument, hargument'⟩) .nil)
  | pointee hkey hsplit _ htemplate hnode =>
    subst hkey
    obtain ⟨template', htemplate', hnode'⟩ := hb.of_pointee hsplit
    exact .struct hnode hnode' (Or.inr (hR _ _ ⟨_, htemplate, htemplate'⟩)) .nil .nil

end Types

/-! ## Declarations -/

def declaredKind : Program.Node → Kind
  | .struct _ => .struct
  | .member _ => .member
  | .function .. => .function
  | _ => .resource

section Placed

variable {Ok : Program.Struct → Prop} {v : View} {node : Program.Node} {h : Handle}
  (htypes : ∀ key h, v.types key h → IsType Ok v.types v.tree key h)
include htypes

theorem kind?_of_types {key : String} (hkey : v.types key h) : v.tree.kind? h = some .struct := by
  cases htypes key h hkey with
  | struct _ _ _ hnode | generic _ _ _ hnode | pointee _ _ _ _ hnode =>
    exact Tree.kind?_of_node? hnode

theorem kind?_of_placed (hp : Placed v node h) : v.tree.kind? h = some (declaredKind node) := by
  cases hp with
  | struct htype => exact kind?_of_types htypes htype
  | member hmember =>
    obtain ⟨type, hnode, -⟩ := hmember
    exact Tree.kind?_of_node? hnode
  | function hnode | binding hnode | pushConstant hnode | specialization hnode =>
    exact Tree.kind?_of_node? hnode

theorem name_of_placed (hroot : node.IsRoot) (hp : Placed v node h) :
    v.tree.name h = node.name := by
  unfold Tree.name
  cases hp with
  | struct htype =>
    have hname := plainName_of_isIdentifier (hroot.resolve_left nofun).1
    obtain ⟨decl, fields, -, -, hnode, -⟩ := (htypes _ _ htype).of_plainName hname
    rw [hnode]
    rfl
  | member hmember =>
    obtain ⟨type, hnode, -⟩ := hmember
    rw [hnode]
    rfl
  | function hnode | binding hnode | pushConstant hnode | specialization hnode => rw [hnode]; rfl

end Placed

theorem isCallable_eq (v : View) (h : Handle) : v.isCallable h =
    decide (v.tree.kind? h = some .function ∨ v.tree.kind? h = some .struct) := by
  unfold View.isCallable Tree.kind?
  cases v.tree.node? h with
  | none => rfl
  | some node => cases node <;> rfl

theorem isFunctionNamed_eq (t : Tree) (name : String) (h : Handle) : isFunctionNamed t name h =
    decide (t.kind? h = some .function ∧ t.name h = name) := by
  unfold isFunctionNamed Tree.function? Tree.kind? Tree.name
  cases t.node? h with
  | none => rfl
  | some node => cases node <;> simp [Arena.Node.kind, Arena.Node.name]

theorem mem_of_findEntry (hfind : findEntry t name = .ok h) :
    h ∈ t.declarations ∧ isFunctionNamed t name h = true := by
  unfold findEntry at hfind
  split at hfind
  · rename_i g hg
    cases hfind
    exact ⟨List.mem_of_find?_eq_some hg, List.find?_some hg⟩
  · cases hfind

/-! ## Two programs side by side -/

/-- Two programs laid out side by side, with the pairs of the declarations that they share. Those
of the name `x` are left out. -/
inductive Aligned (t : Tree) (G : String → Handle → Prop) (t' : Tree) (G' : String → Handle → Prop)
    (program : List Program.Node) (x : String) : Nat → Nat → Block → Block → List Handle →
      List Handle → List (Handle × Handle) → Prop
  | nil {n n' : Nat} {outer outer' : Block} : Aligned t G t' G' program x n n' outer outer' [] [] []
  | left {n m n' : Nat} {outer outer' : Block} {h : Handle} {hs hs' : List Handle}
      {pairs : List (Handle × Handle)} (hname : t.name h = x) (hle : n ≤ m)
      (hrest : Aligned t G t' G' program x m n' (outer.declare x h) outer' hs hs' pairs) :
      Aligned t G t' G' program x n n' outer outer' (h :: hs) hs' pairs
  | right {n n' m' : Nat} {outer outer' : Block} {h' : Handle} {hs hs' : List Handle}
      {pairs : List (Handle × Handle)} (hname : t'.name h' = x) (hle : n' ≤ m')
      (hrest : Aligned t G t' G' program x n m' outer (outer'.declare x h') hs hs' pairs) :
      Aligned t G t' G' program x n n' outer outer' hs (h' :: hs') pairs
  | both {n m n' m' : Nat} {outer outer' : Block} {node : Program.Node} {h h' : Handle}
      {hs hs' : List Handle} {pairs : List (Handle × Handle)} (hmem : node ∈ program)
      (hother : node.name ≠ x) (hname : t.name h = node.name) (hname' : t'.name h' = node.name)
      (hplaced : Placed ⟨t, G, outer⟩ node h) (hplaced' : Placed ⟨t', G', outer'⟩ node h')
      (hle : n ≤ m) (hle' : n' ≤ m')
      (hfresh : node.isStruct = false → ∃ k, h = some k ∧ n ≤ k ∧ k < m)
      (hfresh' : node.isStruct = false → ∃ k, h' = some k ∧ n' ≤ k ∧ k < m')
      (hrest : Aligned t G t' G' program x m m' (outer.declare node.name h)
        (outer'.declare node.name h') hs hs' pairs) :
      Aligned t G t' G' program x n n' outer outer' (h :: hs) (h' :: hs') ((h, h') :: pairs)

/-- Both searches find nothing, or they find a pair. -/
def Linked (pairs : List (Handle × Handle)) (o o' : Option Handle) : Prop :=
  (o = none ∧ o' = none) ∨ ∃ a b, o = some a ∧ o' = some b ∧ (a, b) ∈ pairs

/-- What the blocks before two paired declarations have in common: the names other than `x` lead to
pairs, and every name to a declaration of that name. -/
structure Beside (t t' : Tree) (x : String) (hs hs' : List Handle)
    (pairs : List (Handle × Handle)) (outer outer' : Block) : Prop where
  linked : ∀ name, name ≠ x →
    Linked pairs (outer.latest? name) (outer'.latest? name)
  left : ∀ name h, outer.latest? name = some h → h ∈ hs ∧ t.name h = name
  right : ∀ name h, outer'.latest? name = some h → h ∈ hs' ∧ t'.name h = name

section Aligned

variable {x : String} {program : List Program.Node} {t t' : Tree} {G G' : String → Handle → Prop}
  {hs hs' : List Handle} {n n' : Nat} {outer outer' : Block} {pairs : List (Handle × Handle)}

theorem exists_aligned {nodes' : List Program.Node} (hl : Layout t G n outer nodes hs)
    (hl' : Layout t' G' n' outer' nodes' hs')
    (hname : ∀ {outer node h}, node ∈ nodes → Placed ⟨t, G, outer⟩ node h → t.name h = node.name)
    (hname' : ∀ {outer node h}, node ∈ nodes' → Placed ⟨t', G', outer⟩ node h →
      t'.name h = node.name)
    (hothers : nodes.filter (·.name ≠ x) = nodes'.filter (·.name ≠ x))
    (hprogram : ∀ node ∈ nodes, node ∈ program) :
    ∃ pairs, Aligned t G t' G' program x n n' outer outer' hs hs' pairs := by
  -- Declarations named `x` are passed over on both sides until two equal ones meet.
  induction hl generalizing n' outer' nodes' hs' with
  | nil =>
    induction hl' with
    | nil => exact ⟨[], .nil⟩
    | @cons _ _ _ node _ _ _ hplaced hle hfresh hrest ih =>
      by_cases hx : node.name = x
      · rw [List.filter_cons_of_neg (by simpa using hx)] at hothers
        obtain ⟨pairs, hpairs⟩ := ih (fun hmem => hname' (.tail _ hmem)) hothers
        have hnamed := (hname' (.head _) hplaced).trans hx
        rw [hx] at hpairs
        exact ⟨pairs, .right hnamed hle hpairs⟩
      · rw [List.filter_cons_of_pos (by simpa using hx)] at hothers
        cases hothers
  | @cons _ _ _ node _ _ _ hplaced hle hfresh hrest ih =>
    obtain ⟨hfirst, hlater⟩ := List.forall_mem_cons.mp hprogram
    have hnamed := hname (.head _) hplaced
    have hlaterName {outer node h} hmem := @hname outer node h (.tail _ hmem)
    by_cases hx : node.name = x
    · rw [List.filter_cons_of_neg (by simpa using hx)] at hothers
      obtain ⟨pairs, hpairs⟩ := ih hl' hlaterName hname' hothers hlater
      rw [hx] at hpairs hnamed
      exact ⟨pairs, .left hnamed hle hpairs⟩
    rw [List.filter_cons_of_pos (by simpa using hx)] at hothers
    induction hl' with
    | nil => cases hothers
    | @cons _ _ _ node' _ _ _ hplaced' hle' hfresh' hrest' ih' =>
      have hnamed' := hname' (.head _) hplaced'
      by_cases hx' : node'.name = x
      · rw [List.filter_cons_of_neg (by simpa using hx')] at hothers
        obtain ⟨pairs, hpairs⟩ := ih' (fun hmem => hname' (.tail _ hmem)) hothers
        rw [hx'] at hpairs hnamed'
        exact ⟨pairs, .right hnamed' hle' hpairs⟩
      · rw [List.filter_cons_of_pos (by simpa using hx')] at hothers
        injection hothers with hnode hothers
        subst hnode
        obtain ⟨pairs, hpairs⟩ := ih hrest' hlaterName
          (fun hmem => hname' (.tail _ hmem)) hothers hlater
        exact ⟨_, .both hfirst hx hnamed hnamed' hplaced hplaced' hle hle' hfresh hfresh' hpairs⟩

/-! ### Names -/

theorem Beside.nil : Beside t t' x hs hs' pairs [] [] :=
  ⟨fun _ _ => Or.inl ⟨rfl, rfl⟩, nofun, nofun⟩

theorem latest?_declare_named {other : String} {g : Handle}
    (houter : ∀ name h, outer.latest? name = some h → h ∈ hs ∧ t.name h = name) (hmem : h ∈ hs)
    (hname : t.name h = name) (hg : (outer.declare name h).latest? other = some g) :
    g ∈ hs ∧ t.name g = other := by
  rw [Block.latest?_declare] at hg
  split at hg
  · rename_i heq
    cases hg
    exact ⟨hmem, hname.trans heq.1⟩
  · exact houter other g hg

theorem Beside.left_declare (hb : Beside t t' x hs hs' pairs outer outer') (hmem : h ∈ hs)
    (hname : t.name h = x) : Beside t t' x hs hs' pairs (outer.declare x h) outer' := by
  refine ⟨fun name hx => ?_, fun _ _ => latest?_declare_named hb.left hmem hname, hb.right⟩
  rw [Block.latest?_declare, if_neg (fun heq => hx heq.1.symm)]
  exact hb.linked name hx

theorem Beside.right_declare (hb : Beside t t' x hs hs' pairs outer outer') (hmem : h ∈ hs')
    (hname : t'.name h = x) : Beside t t' x hs hs' pairs outer (outer'.declare x h) := by
  refine ⟨fun name hx => ?_, hb.left, fun _ _ => latest?_declare_named hb.right hmem hname⟩
  rw [Block.latest?_declare, if_neg (fun heq => hx heq.1.symm)]
  exact hb.linked name hx

theorem Beside.declare {name : String} {h h' : Handle}
    (hb : Beside t t' x hs hs' pairs outer outer') (hmem : h ∈ hs) (hmem' : h' ∈ hs')
    (hname : t.name h = name) (hname' : t'.name h' = name) (hpair : (h, h') ∈ pairs) :
    Beside t t' x hs hs' pairs (outer.declare name h) (outer'.declare name h') := by
  refine ⟨fun other hx => ?_, fun _ _ => latest?_declare_named hb.left hmem hname,
    fun _ _ => latest?_declare_named hb.right hmem' hname'⟩
  rw [Block.latest?_declare, Block.latest?_declare]
  split
  · exact Or.inr ⟨h, h', rfl, rfl, hpair⟩
  · exact hb.linked other hx

theorem Aligned.placed (ha : Aligned t G t' G' program x n n' outer outer' hs hs' pairs)
    {all all' : List Handle} {known : List (Handle × Handle)}
    (hb : Beside t t' x all all' known outer outer') (hall : ∀ h ∈ hs, h ∈ all)
    (hall' : ∀ h ∈ hs', h ∈ all') (hknown : ∀ pair ∈ pairs, pair ∈ known) (hpair : (a, b) ∈ pairs) :
    ∃ node ∈ program, node.name ≠ x ∧ t.name a = node.name ∧ t'.name b = node.name ∧
      ∃ outer outer', Placed ⟨t, G, outer⟩ node a ∧ Placed ⟨t', G', outer'⟩ node b ∧
        Beside t t' x all all' known outer outer' := by
  induction ha with
  | nil => cases hpair
  | left hname _ _ ih =>
    obtain ⟨hfirst, hlater⟩ := List.forall_mem_cons.mp hall
    exact ih (hb.left_declare hfirst hname) hlater hall' hknown hpair
  | right hname _ _ ih =>
    obtain ⟨hfirst, hlater⟩ := List.forall_mem_cons.mp hall'
    exact ih (hb.right_declare hfirst hname) hall hlater hknown hpair
  | both hmem hother hname hname' hplaced hplaced' _ _ _ _ _ ih =>
    obtain ⟨hfirst, hlater⟩ := List.forall_mem_cons.mp hall
    obtain ⟨hfirst', hlater'⟩ := List.forall_mem_cons.mp hall'
    obtain ⟨hpair', hknown⟩ := List.forall_mem_cons.mp hknown
    rcases List.mem_cons.mp hpair with heq | hpair
    · cases heq
      exact ⟨_, hmem, hother, hname, hname', _, _, hplaced, hplaced', hb⟩
    · exact ih (hb.declare hfirst hfirst' hname hname' hpair') hlater hlater' hknown hpair

theorem Aligned.find? (ha : Aligned t G t' G' program x n n' outer outer' hs hs' pairs)
    {q q' : Handle → Bool} (hpairs : ∀ a b, (a, b) ∈ pairs → q a = q' b)
    (hx : ∀ a ∈ hs, t.name a = x → q a = false) (hx' : ∀ b ∈ hs', t'.name b = x → q' b = false) :
    Linked pairs (hs.find? q) (hs'.find? q') := by
  induction ha with
  | nil => exact Or.inl ⟨rfl, rfl⟩
  | left hname _ _ ih =>
    obtain ⟨hfirst, hlater⟩ := List.forall_mem_cons.mp hx
    rw [List.find?_cons_of_neg (by rw [hfirst hname]; exact Bool.false_ne_true)]
    exact ih hpairs hlater hx'
  | right hname _ _ ih =>
    obtain ⟨hfirst, hlater⟩ := List.forall_mem_cons.mp hx'
    rw [List.find?_cons_of_neg (by rw [hfirst hname]; exact Bool.false_ne_true)]
    exact ih hpairs hx hlater
  | @both _ _ _ _ _ _ _ h h' _ _ _ _ _ _ _ _ _ _ _ _ _ _ ih =>
    obtain ⟨-, hlater⟩ := List.forall_mem_cons.mp hx
    obtain ⟨-, hlater'⟩ := List.forall_mem_cons.mp hx'
    have hhead := hpairs h h' (.head _)
    rw [List.find?_cons, List.find?_cons, ← hhead]
    split
    · exact Or.inr ⟨h, h', rfl, rfl, .head _⟩
    · rcases ih (fun a b hab => hpairs a b (.tail _ hab)) hlater hlater' with
        hnone | ⟨a, b, ha, hb, hab⟩
      · exact Or.inl hnone
      · exact Or.inr ⟨a, b, ha, hb, .tail _ hab⟩

/-! ### Handles -/

theorem Aligned.lower (ha : Aligned t G t' G' program x n n' outer outer' hs hs' pairs)
    (hstruct : ∀ {outer node h}, Placed ⟨t, G, outer⟩ node h → t.kind? h ≠ some .struct →
      node.isStruct = false)
    (hpair : (a, b) ∈ pairs) (hkind : t.kind? a ≠ some .struct) :
    ∃ k k', a = some k ∧ b = some k' ∧ n ≤ k ∧ n' ≤ k' := by
  induction ha with
  | nil => cases hpair
  | left _ hle _ ih =>
    obtain ⟨k, k', hk, hk', hn, hn'⟩ := ih hpair
    exact ⟨k, k', hk, hk', Nat.le_trans hle hn, hn'⟩
  | right _ hle _ ih =>
    obtain ⟨k, k', hk, hk', hn, hn'⟩ := ih hpair
    exact ⟨k, k', hk, hk', hn, Nat.le_trans hle hn'⟩
  | both _ _ _ _ hplaced _ hle hle' hfresh hfresh' _ ih =>
    rcases List.mem_cons.mp hpair with heq | hpair
    · cases heq
      obtain ⟨k, hk, hn, -⟩ := hfresh (hstruct hplaced hkind)
      obtain ⟨k', hk', hn', -⟩ := hfresh' (hstruct hplaced hkind)
      exact ⟨k, k', hk, hk', hn, hn'⟩
    · obtain ⟨k, k', hk, hk', hn, hn'⟩ := ih hpair
      exact ⟨k, k', hk, hk', Nat.le_trans hle hn, Nat.le_trans hle' hn'⟩

theorem Aligned.eq_iff (ha : Aligned t G t' G' program x n n' outer outer' hs hs' pairs)
    (hstruct : ∀ {outer node h}, Placed ⟨t, G, outer⟩ node h → t.kind? h ≠ some .struct →
      node.isStruct = false) {d : Handle}
    (hpair : (a, b) ∈ pairs) (hpair' : (c, d) ∈ pairs) (hkind : t.kind? a ≠ some .struct)
    (hkind' : t.kind? c ≠ some .struct) : a = c ↔ b = d := by
  induction ha with
  | nil => cases hpair
  | left _ _ _ ih | right _ _ _ ih => exact ih hpair hpair'
  | @both _ m _ m' _ _ _ h h' _ _ pairs _ _ _ _ hplaced _ _ _ hfresh hfresh' hrest ih =>
    -- The first pair is below the others on both sides.
    have hbelow {e f : Handle} (hkind : t.kind? h ≠ some .struct) (hef : (e, f) ∈ pairs)
        (hkind' : t.kind? e ≠ some .struct) : h ≠ e ∧ h' ≠ f := by
      obtain ⟨k, rfl, -, hk⟩ := hfresh (hstruct hplaced hkind)
      obtain ⟨k', rfl, -, hk'⟩ := hfresh' (hstruct hplaced hkind)
      obtain ⟨l, l', rfl, rfl, hl, hl'⟩ := hrest.lower hstruct hef hkind'
      simp only [ne_eq, Option.some.injEq]
      omega
    rcases List.mem_cons.mp hpair with heq | hmem <;>
      rcases List.mem_cons.mp hpair' with heq' | hmem'
    · cases heq
      cases heq'
      exact ⟨fun _ => rfl, fun _ => rfl⟩
    · cases heq
      obtain ⟨hne, hne'⟩ := hbelow hkind hmem' hkind'
      exact ⟨fun h => absurd h hne, fun h => absurd h hne'⟩
    · cases heq'
      obtain ⟨hne, hne'⟩ := hbelow hkind' hmem hkind
      exact ⟨fun h => absurd h.symm hne, fun h => absurd h.symm hne'⟩
    · exact ih hmem hmem'

end Aligned

/-! ## Matching declarations -/

/-- The handles of one type, or of one pair of declarations that are no structs. -/
def Matches (t : Tree) (G G' : String → Handle → Prop) (pairs : List (Handle × Handle))
    (a b : Handle) : Prop :=
  SameType G G' a b ∨ ((a, b) ∈ pairs ∧ t.kind? a ≠ some .struct)

def declaredUses : Program.Node → List Use
  | .function _ _ returns statements _ => functionUses returns statements
  | _ => []

/-- One declaration in two trees, whose uses lead to related declarations. -/
structure Twin (R : Handle → Handle → Prop) (v v' : View) (hs hs' : List Handle)
    (node : Program.Node) (a b : Handle) : Prop where
  root : node.IsRoot
  placed : Placed v node a
  placed' : Placed v' node b
  outer : ∀ name h, v.outer.latest? name = some h → h ∈ hs
  outer' : ∀ name h, v'.outer.latest? name = some h → h ∈ hs'
  uses : ∀ use ∈ declaredUses node, ∀ y y', Finds v (.ofTree v.tree) use y →
    Finds v' (.ofTree v'.tree) use y' → Refers R y y'

/-- Each pair has one declaration, and pairs of declarations that are no structs do not share
handles. -/
structure Matching (t t' : Tree) (G G' : String → Handle → Prop) (hs hs' : List Handle)
    (pairs : List (Handle × Handle)) : Prop where
  twin : ∀ a b, (a, b) ∈ pairs → ∃ node outer outer',
    Twin (Matches t G G' pairs) ⟨t, G, outer⟩ ⟨t', G', outer'⟩ hs hs' node a b
  eq_iff : ∀ a b c d, (a, b) ∈ pairs → (c, d) ∈ pairs → t.kind? a ≠ some .struct →
    t.kind? c ≠ some .struct → (a = c ↔ b = d)

theorem exists_placed_of_mem {G : String → Handle → Prop} {n : Nat}
    (hl : Layout t G n outer nodes hs) (hmem : h ∈ hs) :
    ∃ node ∈ nodes, ∃ outer, Placed ⟨t, G, outer⟩ node h := by
  induction hl with
  | nil => cases hmem
  | cons hplaced _ _ _ ih =>
    rcases List.mem_cons.mp hmem with rfl | hmem
    · exact ⟨_, .head _, _, hplaced⟩
    · obtain ⟨node, hnode, hplaced⟩ := ih hmem
      exact ⟨node, .tail _ hnode, hplaced⟩

section Matching

variable {x : String} {program program' : List Program.Node} {t t' : Tree}
  {G G' : String → Handle → Prop} {hs hs' : List Handle} {pairs : List (Handle × Handle)}

theorem settled_of_laid (hl : Laid t program G hs)
    (houter : ∀ name h, outer.latest? name = some h → h ∈ hs) :
    Settled ⟨t, G, outer⟩ (.ofTree t) where
  tree := rfl
  outer name g hg := by
    change g ∈ t.declarations
    rw [hl.declarations]
    exact houter name g hg
  declared g hg := by
    change g ∈ t.declarations at hg
    rw [hl.declarations] at hg
    obtain ⟨decl, -, outer, hplaced⟩ := exists_placed_of_mem hl.layout hg
    obtain ⟨node, hnode, hkind⟩ := Option.map_eq_some_iff.mp (kind?_of_placed hl.types hplaced)
    refine ⟨node, hnode, ?_⟩
    rintro name type rfl
    cases decl <;> cases hkind
  types key h hkey := by
    have hkind := kind?_of_types (v := ⟨t, G, outer⟩) hl.types hkey
    obtain ⟨node, hnode, hk⟩ := Option.map_eq_some_iff.mp hkind
    cases node with
    | struct decl => exact ⟨decl, hnode⟩
    | _ => cases hk

theorem matches_of_placed (hl : Laid t program G hs) (hpair : (a, b) ∈ pairs)
    (hplaced : Placed ⟨t, G, outer⟩ node a) (hplaced' : Placed ⟨t', G', outer'⟩ node b) :
    Matches t G G' pairs a b := by
  have hkind := kind?_of_placed hl.types hplaced
  by_cases hstruct : t.kind? a = some .struct
  · cases hplaced with
    | struct htype => cases hplaced' with
      | struct htype' => exact Or.inl ⟨_, htype, htype'⟩
    | _ =>
      rw [hstruct] at hkind
      cases hkind
  · exact Or.inr ⟨hpair, hstruct⟩

variable (hv : Variants x program program') (hl : Laid t program G hs)
  (hl' : Laid t' program' G' hs') (hm : Matching t t' G G' hs hs' pairs)
include hl hl' hm

theorem Matching.kind?_eq (hpair : (a, b) ∈ pairs) :
    ∃ kind, t.kind? a = some kind ∧ t'.kind? b = some kind := by
  obtain ⟨node, outer, outer', htwin⟩ := hm.twin a b hpair
  exact ⟨_, kind?_of_placed hl.types htwin.placed, kind?_of_placed hl'.types htwin.placed'⟩

omit hl' in
theorem Matching.of_mem (hpair : (a, b) ∈ pairs) : Matches t G G' pairs a b := by
  obtain ⟨node, outer, outer', htwin⟩ := hm.twin a b hpair
  exact matches_of_placed hl hpair htwin.placed htwin.placed'

include hv

theorem Matching.pairing : Pairing (Matches t G G' pairs) where
  left := by
    rintro a b c (hab | ⟨hab, hkind⟩) (hac | ⟨hac, hkind'⟩)
    · exact sameType_left hl hl' hv.keeps hv.keeps' hab hac
    · obtain ⟨key, ha, -⟩ := hab
      exact absurd (kind?_of_types (v := ⟨t, G, []⟩) hl.types ha) hkind'
    · obtain ⟨key, ha, -⟩ := hac
      exact absurd (kind?_of_types (v := ⟨t, G, []⟩) hl.types ha) hkind
    · exact (hm.eq_iff a b a c hab hac hkind hkind').mp rfl
  right := by
    have hstruct {a b c : Handle} (hac : SameType G G' a c) (hbc : (b, c) ∈ pairs) :
        t.kind? b = some .struct := by
      obtain ⟨key, -, hc⟩ := hac
      obtain ⟨kind, hb, hc'⟩ := hm.kind?_eq hl hl' hbc
      rw [kind?_of_types (v := ⟨t', G', []⟩) hl'.types hc] at hc'
      exact hb.trans hc'.symm
    rintro a b c (hac | ⟨hac, hkind⟩) (hbc | ⟨hbc, hkind'⟩)
    · exact sameType_left hl' hl hv.keeps' hv.keeps hac.symm hbc.symm
    · exact absurd (hstruct hac hbc) hkind'
    · exact absurd (hstruct hbc hac) hkind
    · exact (hm.eq_iff a c b c hac hbc hkind hkind').mpr rfl
  isSome := by
    have hsome {t : Tree} {h : Handle} {kind : Kind} (hk : t.kind? h = some kind) :
        h.isSome = true := by
      cases h with
      | none => cases hk
      | some i => rfl
    rintro a b (⟨key, ha, hb⟩ | ⟨hab, -⟩)
    · exact ⟨hsome (kind?_of_types (v := ⟨t, G, []⟩) hl.types ha),
        hsome (kind?_of_types (v := ⟨t', G', []⟩) hl'.types hb)⟩
    · obtain ⟨kind, ha, hb⟩ := hm.kind?_eq hl hl' hab
      exact ⟨hsome ha, hsome hb⟩

theorem Matching.sameNode
    (htwin : Twin (Matches t G G' pairs) ⟨t, G, outer⟩ ⟨t', G', outer'⟩ hs hs' node a b) :
    SameNode (Matches t G G' pairs) t t' a b := by
  have hR : ∀ a b, SameType G G' a b → Matches t G G' pairs a b := fun _ _ => Or.inl
  obtain ⟨hroot, hplaced, hplaced', houter, houter', huses⟩ := htwin
  cases hplaced with
  | struct htype => cases hplaced' with
    | struct htype' => exact sameNode_of_sameType hv hl hl' hR ⟨_, htype, htype'⟩
  | member hmember => cases hplaced' with
    | member hmember' => exact .member (sameMember_of_isMember hR hmember hmember')
  | function hnode htype hbody => cases hplaced' with
    | function hnode' htype' hbody' =>
      have hstatements := (hroot.resolve_left nofun).2.2.2.2
      refine .function hnode hnode' (hR _ _ ⟨_, htype, htype'⟩)
        (fun s texts texts' hrun hrun' => ?_) ?_
      · rw [exprTexts_of_representsAll s hl.types hl.direct hstatements hbody hrun,
          exprTexts_of_representsAll s hl'.types hl'.direct hstatements hbody' hrun']
      · exact both_dependencies_of_function (hm.pairing hv hl hl') (settled_of_laid hl houter)
          (settled_of_laid hl' houter') hnode hnode' htype htype' hbody hbody' huses
  | binding hnode hresource => cases hplaced' with
    | binding hnode' hresource' =>
      obtain ⟨rfl, rfl, hmembers⟩ := sameMembers_of_isResource hR hresource hresource'
      exact .binding hnode hnode' hmembers
  | pushConstant hnode hmembers => cases hplaced' with
    | pushConstant hnode' hmembers' =>
      exact .pushConstant hnode hnode' (sameMembers_of_isMember hR hmembers hmembers')
  | specialization hnode htype => cases hplaced' with
    | specialization hnode' htype' =>
      exact .specialization hnode hnode' (hR _ _ ⟨_, htype, htype'⟩)

/-- Both trees give the same shader. -/
theorem Matching.both_generate (options : Options)
    (hentry : Both (fun a b => (a, b) ∈ pairs) (findEntry t options.completed.entryPoint)
      (findEntry t' options.completed.entryPoint)) :
    Both (· = ·) (generate (some t) options) (generate (some t') options) := by
  have hsame : SameTrees (Matches t G G' pairs) t t' := by
    refine ⟨hm.pairing hv hl hl', ?_⟩
    rintro a b (hab | ⟨hab, -⟩)
    · exact sameNode_of_sameType hv hl hl' (fun _ _ => Or.inl) hab
    · obtain ⟨node, outer, outer', htwin⟩ := hm.twin a b hab
      exact hm.sameNode hv hl hl' htwin
  refine Glsl.both_generate hsame options fun a b ha hb => ?_
  exact hm.of_mem hl (hentry a b ha hb)

end Matching

end Shader.Glsl
