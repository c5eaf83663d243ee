import Mathlib.Data.List.Basic
import Shader.Proofs.Resolution.Types
import Shader.Resolution.Expressions

/-!
# Resolution of expressions is sound

The names and fields that expressions refer to are declared nodes, and what takes the place of a
call of an intrinsic is built from nodes of the tree and from the arguments of the call.
-/

namespace Shader.Program

mutual

/-- Whether the tree holds no piece of code. -/
def Node.CodeFree : Node → Prop
  | .scope _ children => AllCodeFree children
  | .function _ _ _ statements _ => AllCodeFree statements
  | .fragment _ => False
  | .intrinsic _ _ body _ => AllCodeFree body
  | .sequence elements => AllCodeFree elements
  | .access left right => left.CodeFree ∧ right.CodeFree
  | .call _ args => AllCodeFree args
  | .binary _ left right => left.CodeFree ∧ right.CodeFree
  | .ret (some value) => value.CodeFree
  | _ => True

/-- Whether all trees hold no piece of code. -/
def AllCodeFree : List Node → Prop
  | [] => True
  | node :: rest => node.CodeFree ∧ AllCodeFree rest

end

end Shader.Program

namespace Shader.Arena.Node

variable {node : Node} {copies : List Handle}

def copiedParts : Node → List Handle
  | .sequence elements => elements
  | .access left _ => [left]
  | .call _ _ args => args
  | .binary _ left right => [left, right]
  | .ret (some value) => [some value]
  | _ => []

def keptParts : Node → List Handle
  | .access _ right => [right]
  | .intrinsicCall _ elements => elements
  | _ => []

def parts (node : Node) : List Handle := node.copiedParts ++ node.keptParts

def withCopied : Node → List Handle → Node
  | .sequence _, elements => .sequence elements
  | .access _ right, [left] => .access left right
  | .call callee target _, args => .call callee target args
  | .binary op _ _, [left, right] => .binary op left right
  | .ret (some _), [value] => .ret value
  | node, _ => node

theorem withCopied_copiedParts (node : Node) : node.withCopied node.copiedParts = node := by
  cases node with
  | ret value => cases value <;> rfl
  | _ => rfl

theorem mem_parts {part : Handle} :
    part ∈ node.parts ↔ part ∈ node.copiedParts ∨ part ∈ node.keptParts := List.mem_append

theorem mem_parts_withCopied {i : Nat} (hlength : copies.length = node.copiedParts.length) :
    some i ∈ (node.withCopied copies).parts ↔ some i ∈ copies ∨ some i ∈ node.keptParts := by
  rw [← List.mem_append]
  cases node with
  | access left right =>
    obtain ⟨left', rfl⟩ := List.length_eq_one_iff.mp hlength
    rfl
  | binary op left right =>
    obtain ⟨left', right', rfl⟩ := List.length_eq_two.mp hlength
    rfl
  | sequence | call => rfl
  | ret value =>
    cases value with
    | none =>
      rw [List.length_eq_zero_iff.mp hlength]
      rfl
    | some value =>
      obtain ⟨value', rfl⟩ := List.length_eq_one_iff.mp hlength
      -- no value is left out of the parts, and is not asked for
      cases value' with
      | none => simp [withCopied, parts, copiedParts, keptParts]
      | some => rfl
  | _ =>
    rw [List.length_eq_zero_iff.mp hlength]
    rfl

theorem withCopied_eq_ident {name : String} {source : Handle}
    (h : node.withCopied copies = .ident name source) : node = .ident name source := by
  unfold withCopied at h
  split at h <;> first | exact h | cases h

theorem kind_withCopied (node : Node) (copies : List Handle) :
    (node.withCopied copies).kind = node.kind := by
  unfold withCopied
  split <;> rfl

theorem parts_of_kind {part : Handle} (h : part ∈ node.parts) : node.kind = .expression := by
  cases node <;> first | rfl | cases h

theorem WellFormed.part {t : Tree} {i : Nat} (h : node.WellFormed t i)
    {part : Handle} (hpart : part ∈ node.parts) : t.Below i .expression part := by
  cases node with
  | sequence elements => exact h part (by simpa [parts, copiedParts, keptParts] using hpart)
  | access left right =>
    rcases List.mem_pair.mp hpart with rfl | rfl
    · exact h.1
    · exact h.2
  | call callee target args =>
    exact h.1 part (by simpa [parts, copiedParts, keptParts] using hpart)
  | intrinsicCall callee elements => exact h.2 part hpart
  | binary op left right =>
    rcases List.mem_pair.mp hpart with rfl | rfl
    · exact h.1
    · exact h.2
  | ret value =>
    cases value with
    | none => cases hpart
    | some value =>
      cases List.mem_singleton.mp hpart
      rcases h with hnone | hvalue
      · cases hnone
      · exact hvalue
  | _ => cases hpart

end Shader.Arena.Node

namespace Shader.Arena

/-- The second expression is a part of the first. -/
def IsPart (t : Tree) (h e : Handle) : Prop := ∃ node, t.node? h = some node ∧ e ∈ node.parts

/-- The expression stands in the body of the function. -/
def StandsIn (t : Tree) (decl : Function) (e : Handle) : Prop :=
  ∃ statement ∈ decl.statements, Relation.ReflTransGen (IsPart t) statement e

end Shader.Arena

namespace Shader.Resolution

open Arena

variable {name : String} {h : Handle} {t : Tree} {args : List (Handle × Handle)}

variable {code : Prop} {s : State}
variable {table : Program.TypeTable}

/-! ## Names and blocks -/

theorem forall_entry_cons {P : String × Handle → Prop} {entry : String × Handle} {block : Block}
    {outer : List Block} (hold : ∀ b ∈ block :: outer, ∀ e ∈ b, P e) (hentry : P entry) :
    ∀ b ∈ (entry :: block) :: outer, ∀ e ∈ b, P e := by
  obtain ⟨hblock, houter⟩ := List.forall_mem_cons.mp hold
  exact List.forall_mem_cons.mpr ⟨List.forall_mem_cons.mpr ⟨hentry, hblock⟩, houter⟩

theorem declare_yields (hs : s.Sound code) (hh : Bears s.tree name h) :
    Yields code s (declare name h) fun _ _ => True := by
  unfold declare
  refine yields_modify ?_ ?_
  · split
    · exact hs
    · split
      · rename_i block outer hblocks
        have hold := hs.blocks
        rw [hblocks] at hold
        exact ⟨hs.tree, hs.registry, forall_entry_cons hold hh, hs.nodes⟩
      · exact hs
  · repeat' split
    all_goals exact .refl _

theorem declareOutside_yields (hs : s.Sound code) (hh : Bears s.tree name h) :
    Yields code s (declareOutside name h) fun _ _ => True := by
  unfold declareOutside
  refine yields_modify ?_ ?_
  · split
    · rename_i inner block outer hblocks
      have hold := hs.blocks
      rw [hblocks] at hold
      obtain ⟨hinner, hold⟩ := List.forall_mem_cons.mp hold
      exact ⟨hs.tree, hs.registry, List.forall_mem_cons.mpr ⟨hinner, forall_entry_cons hold hh⟩,
        hs.nodes⟩
    · exact hs
  · split <;> exact .refl _

theorem openBlock_yields (hs : s.Sound code) : Yields code s openBlock fun _ _ => True := by
  refine yields_modify ⟨hs.tree, hs.registry, ?_, hs.nodes⟩ (.refl _)
  exact List.forall_mem_cons.mpr ⟨List.forall_mem_nil _, hs.blocks⟩

theorem closeBlock_yields (hs : s.Sound code) : Yields code s closeBlock fun _ _ => True := by
  refine yields_modify ⟨hs.tree, hs.registry, ?_, hs.nodes⟩ (.refl _)
  intro b hb
  exact hs.blocks b (List.mem_of_mem_tail hb)

theorem State.Sound.lookup_bears (hs : s.Sound code) (hl : s.lookup? name = some h) :
    Bears s.tree name h := by
  obtain ⟨block, hblock, hfind⟩ := List.exists_of_findSome?_eq_some hl
  obtain ⟨entry, hentry, rfl⟩ := Option.map_eq_some_iff.mp hfind
  obtain rfl : entry.1 = name := by simpa using List.find?_some hentry
  exact hs.blocks block hblock entry (List.mem_of_find?_eq_some hentry)

/-! ## Fields -/

theorem membersOf_ofKind (ht : t.WellFormed) (container : Handle) :
    AllOfKind .member t (membersOf t container) := by
  intro m hm
  unfold membersOf at hm
  cases container with
  | none => cases hm
  | some i =>
    split at hm
    · rename_i decl hnode
      exact ((ht.node hnode).2.1 m hm).1
    · rename_i members hnode
      exact (ht.node hnode m hm).1
    · rename_i decl hnode
      exact ((ht.node hnode).1 m hm).1
    · cases hm

theorem fieldOf_ofKind {container : Handle} {j : Nat} (ht : t.WellFormed)
    (h : fieldOf t container name = some j) : OfKind .member t (some j) := by
  unfold fieldOf at h
  cases hfind : (membersOf t container).find? fun m => t.name m = name with
  | none =>
    rw [hfind] at h
    cases h
  | some m =>
    rw [hfind] at h
    cases h
    exact membersOf_ofKind ht container _ (List.mem_of_find?_eq_some hfind)

/-- A name refers to a declared node or to none. -/
theorem State.Sound.source_bears (hs : s.Sound code) (container : Handle) (name : String) :
    s.source container name = none ∨ Bears s.tree name (s.source container name) := by
  unfold State.source
  cases hfield : fieldOf s.tree container name with
  | some j => exact Or.inr ((fieldOf_ofKind hs.tree hfield).bears (by decide) name)
  | none =>
    rw [Option.none_or]
    cases hl : s.lookup? name with
    | none => exact Or.inl rfl
    | some h => exact Or.inr (hs.lookup_bears hl)

/-! ## Intrinsics -/

/-- The nodes put in the place of parameters are expressions. -/
def ArgumentsOk (t : Tree) (args : List (Handle × Handle)) : Prop :=
  ∀ p ∈ args, OfKind .expression t p.2

theorem ArgumentsOk.extend {t' : Tree} {args : List (Handle × Handle)} (he : Extends t t')
    (ha : ArgumentsOk t args) : ArgumentsOk t' args := fun p hp => (ha p hp).extend he

theorem argumentFor_ofKind {source : Handle}
    (ha : ArgumentsOk t args) (hh : OfKind .expression t h) :
    OfKind .expression t ((argumentFor args source).getD h) := by
  unfold argumentFor
  cases hfind : args.find? (·.1 = source) with
  | none => exact hh
  | some p => exact ha p (List.mem_of_find?_eq_some hfind)

theorem substituteAll_yields {depth : Nat}
    (hone : ∀ s h, State.Sound code s → ArgumentsOk s.tree args → OfKind .expression s.tree h →
      Yields code s (substitute args depth h) (OfKind .expression))
    (hs : s.Sound code) (ha : ArgumentsOk s.tree args) {hs' : List Handle}
    (hh : AllOfKind .expression s.tree hs') :
    Yields code s (substituteAll args depth hs') fun t out =>
      AllOfKind .expression t out ∧ out.length = hs'.length := by
  induction hs' generalizing s with
  | nil =>
    rw [substituteAll]
    exact yields_pure hs ⟨.nil, rfl⟩
  | cons h rest ih =>
    rw [substituteAll]
    have hrest : AllOfKind .expression s.tree rest := fun g hg => hh g (.tail _ hg)
    refine (hone s h hs ha (hh h (.head _))).bind fun h' s₁ hs₁ he₁ hh' => ?_
    refine (ih hs₁ (ha.extend he₁) (hrest.extend he₁)).bind fun rest' s₂ hs₂ he₂ hrest' => ?_
    exact yields_pure hs₂ ⟨.cons (hh'.extend he₂) hrest'.1, congrArg Nat.succ hrest'.2⟩

theorem Node.WellFormed.withCopied {t' : Tree} {node : Node} {copies : List Handle} {i : Nat}
    (he : Extends t t') (h : node.WellFormed t i) (hsuits : Suits code t node)
    (hcopies : AllOfKind .expression t' copies ∧ copies.length = node.copiedParts.length)
    (hne : copies ≠ node.copiedParts) :
    (node.withCopied copies).WellFormed t' t'.size ∧ Suits code t' (node.withCopied copies) := by
  obtain ⟨hkinds, hlength⟩ := hcopies
  have hbelow := hkinds.below
  cases node with
  | access left right =>
    obtain ⟨left', rfl⟩ := List.length_eq_one_iff.mp hlength
    exact ⟨⟨hbelow left' (by simp), OfKind.below (h.2.extend he).1⟩, trivial⟩
  | binary op left right =>
    obtain ⟨left', right', rfl⟩ := List.length_eq_two.mp hlength
    exact ⟨⟨hbelow left' (by simp), hbelow right' (by simp)⟩, trivial⟩
  | sequence => exact ⟨hbelow, trivial⟩
  | call callee target args =>
    obtain ⟨-, htarget, hcount⟩ := Node.WellFormed.extend he h
    refine ⟨⟨hbelow, htarget.imp_right ?_, fun decl hdecl => ?_⟩, hsuits.extend he⟩
    · exact Or.imp (fun hf => OfKind.below hf.1) (fun hf => OfKind.below hf.1)
    · exact hlength.trans (hcount decl hdecl)
  | ret value =>
    cases value with
    | none => exact absurd (List.length_eq_zero_iff.mp hlength) hne
    | some value =>
      obtain ⟨value', rfl⟩ := List.length_eq_one_iff.mp hlength
      exact ⟨Or.inr (hbelow value' (by simp)), trivial⟩
  | _ => exact absurd (List.length_eq_zero_iff.mp hlength) hne

/-- A step of a substitution: the parts are copied, and the node is shared if they stay the same. -/
theorem substitute_of_node (depth : Nat) (hnode : s.tree.node? h = some node)
    (hname : ∀ name source, node ≠ .ident name source) :
    substitute args (depth + 1) h s = (do
      let copies ← substituteAll args depth node.copiedParts
      if copies = node.copiedParts then pure h else addNode (node.withCopied copies)) s := by
  rw [substitute, run_get, hnode]
  cases node with
  | ident name source => exact absurd rfl (hname name source)
  | access | binary => simp [substituteAll, Node.copiedParts, Node.withCopied]
  | ret value => cases value <;> simp [substituteAll, Node.copiedParts, Node.withCopied]
  | sequence | call => rfl
  | _ => simp [substituteAll, Node.copiedParts]

/-- A copy of an expression is an expression. -/
theorem substitute_yields (depth : Nat) (hs : s.Sound code) (ha : ArgumentsOk s.tree args)
    (hh : OfKind .expression s.tree h) :
    Yields code s (substitute args depth h) (OfKind .expression) := by
  induction depth generalizing s h with
  | zero =>
    rw [substitute]
    exact yields_pure hs hh
  | succ depth ih =>
    obtain ⟨i, -, rfl⟩ := hh.below.2
    obtain ⟨node, hnode, hkind⟩ := Option.map_eq_some_iff.mp hh
    by_cases hident : ∃ name source, node = .ident name source
    · obtain ⟨name, source, rfl⟩ := hident
      rw [substitute]
      refine yields_get ?_
      rw [hnode]
      exact yields_pure hs (argumentFor_ofKind ha hh)
    · have hparts : AllOfKind .expression s.tree node.copiedParts :=
        fun p hp => ((hs.tree.node hnode).part (Node.mem_parts.mpr (Or.inl hp))).1
      refine Ends.of_eq (substitute_of_node depth hnode fun name source heq =>
        hident ⟨name, source, heq⟩) ?_
      refine Yields.bind (substituteAll_yields (fun _ _ hs ha hh => ih hs ha hh) hs ha hparts)
        fun copies s₁ hs₁ he₁ hcopies => ?_
      -- the old node is shared unless one of its parts was replaced
      split
      · exact yields_pure hs₁ (hh.extend he₁)
      · rename_i hne
        obtain ⟨hcopy, hsuits⟩ :=
          Node.WellFormed.withCopied he₁ (hs.tree.node hnode) (hs.nodes hnode) hcopies hne
        exact addNode_ofKind hs₁ hcopy ((Node.kind_withCopied ..).trans hkind) hsuits

/-! ## Calls -/

theorem resolveStruct_yields {decl : Program.Struct}
    (hs : s.Sound code) : Yields code s (resolveStruct table decl) fun t => IsStruct t decl.name :=
  fun _ _ hrun => (yields_isTypeInduction table).struct _ decl hrun hs

theorem resolveType_yields (hs : s.Sound code) :
    Yields code s (resolveType table name) (OfKind .struct) :=
  fun _ _ hrun => (yields_isTypeInduction table).type _ name hrun hs

theorem calleeHandle_yields {callee : String} (hs : s.Sound code) :
    Yields code s (calleeHandle table callee) fun t h => h = none ∨ Bears t callee h := by
  unfold calleeHandle
  refine yields_get ?_
  cases hl : s.lookup? callee with
  | some h => exact yields_pure hs (Or.inr (hs.lookup_bears hl))
  | none =>
    dsimp only
    cases hvisible : visibleStruct? table s callee with
    | none => exact yields_pure hs (Or.inl rfl)
    | some decl =>
      refine (resolveStruct_yields hs).imp fun t h _ hh => Or.inr ?_
      rcases (visibleStruct?_spec hvisible).2 with rfl | rfl
      · exact hh.bears
      · exact hh.star.bears

theorem resolveCall_yields {callee : String} {args : List Handle}
    (hs : s.Sound code) (hargs : AllOfKind .expression s.tree args) :
    Yields code s (resolveCall table callee args) (OfKind .expression) := by
  unfold resolveCall
  refine (calleeHandle_yields hs).bind fun target s₁ hs₁ he₁ htarget => ?_
  refine yields_get ?_
  dsimp only
  have hargs₁ := hargs.extend he₁
  split
  · rename_i decl hnode
    split
    · rename_i hlength
      have hcall : (Node.call callee target args).WellFormed s₁.tree s₁.tree.size := by
        refine ⟨hargs₁.below, Or.inr (Or.inl (OfKind.below (Tree.kind?_of_node? hnode))), ?_⟩
        intro decl' hdecl'
        rw [hnode] at hdecl'
        cases hdecl'
        exact hlength.symm
      exact addNode_ofKind hs₁ hcall rfl htarget
    · exact ends_throw _
  · rename_i decl hnode
    split
    · have hbody : AllOfKind .expression s₁.tree decl.body := by
        cases target with
        | none => cases hnode
        | some i => exact fun e he => ((hs₁.tree.node hnode).2.2 e he).1
      have hpairs : ArgumentsOk s₁.tree (decl.params.zip args) :=
        fun p hp => hargs₁ p.2 (List.of_mem_zip hp).2
      refine (substituteAll_yields (fun _ _ hs ha hh => substitute_yields _ hs ha hh) hs₁ hpairs
        hbody).bind fun elements s₂ hs₂ he₂ helements => ?_
      have hcall : (Node.intrinsicCall target elements).WellFormed s₂.tree s₂.tree.size :=
        ⟨OfKind.below (he₂.kind? (Tree.kind?_of_node? hnode)), helements.1.below⟩
      exact addNode_ofKind hs₂ hcall rfl trivial
    · exact ends_throw _
  · rename_i decl hnode
    have hcall : (Node.call callee target args).WellFormed s₁.tree s₁.tree.size := by
      refine ⟨hargs₁.below, Or.inr (Or.inr (OfKind.below (Tree.kind?_of_node? hnode))), ?_⟩
      intro decl' hdecl'
      rw [hnode] at hdecl'
      cases hdecl'
    exact addNode_ofKind hs₁ hcall rfl htarget
  · have hcall : (Node.call callee none args).WellFormed s₁.tree s₁.tree.size :=
      ⟨hargs₁.below, Or.inl rfl, by simp [Tree.node?]⟩
    exact addNode_ofKind hs₁ hcall rfl (Or.inl rfl)

/-! ## Expressions -/

theorem declareAll_yields {names : List String} (hs : s.Sound code)
    (hh : ∀ name, Bears s.tree name h) :
    Yields code s (names.forM (declare · h)) fun _ _ => True := by
  induction names generalizing s with
  | nil => exact yields_pure hs trivial
  | cons name names ih =>
    exact (declare_yields hs (hh name)).bind
      fun _ s₁ hs₁ he₁ _ => ih hs₁ fun name => (hh name).extend he₁

theorem resolveFragment_yields {decl : Program.Fragment} (hs : s.Sound code) (hcode : code) :
    Yields code s (resolveFragment decl) (OfKind .expression) := by
  unfold resolveFragment
  have hnode : (Node.fragment decl).WellFormed s.tree s.tree.size := trivial
  refine (addNode_yields hs hnode hcode).bind fun h s₁ hs₁ _ hh => ?_
  have hkind : OfKind .expression s₁.tree h := Tree.kind?_of_node? hh.1
  have hbears (name : String) : Bears s₁.tree name h :=
    bears_of_node? hh.1 (by simp [Node.kind]) trivial
  refine (declareAll_yields hs₁ hbears).bind fun _ s₂ hs₂ he₂ _ => ?_
  exact yields_pure hs₂ (hkind.extend he₂)

theorem addDeclared_yields {node : Node} {kind : Kind} (hs : s.Sound code)
    (hnode : node.WellFormed s.tree s.tree.size) (hkind : node.kind = kind) (hscope : kind ≠ .scope)
    (hsuits : Suits code s.tree node) (hnamed : Named name node) :
    Yields code s (do let h ← addNode node; declare name h; return h) (OfKind kind) := by
  refine (addNode_yields hs hnode hsuits).bind fun h s₁ hs₁ _ hh => ?_
  have hk : OfKind kind s₁.tree h := hkind ▸ Tree.kind?_of_node? hh.1
  refine (declare_yields hs₁ (bears_of_node? hh.1 (hkind ▸ hscope) hnamed)).bind
    fun _ s₂ hs₂ he₂ _ => ?_
  exact yields_pure hs₂ (hk.extend he₂)

theorem resolveLiteral_yields {body : String} (hs : s.Sound code) :
    Yields code s (resolveLiteral name body) (OfKind .expression) := by
  exact addDeclared_yields hs trivial rfl (by decide) trivial rfl

mutual

theorem resolveExpr_yields {s : State} (table : Program.TypeTable) (container : Handle)
    (node : Program.Node) (hs : s.Sound code) (hcode : code ∨ node.CodeFree) :
    Yields code s (resolveExpr table container node) (OfKind .expression) := by
  unfold resolveExpr
  cases node with
  | ident name =>
    refine yields_get ?_
    have hident : (Node.ident name (s.source container name)).WellFormed s.tree s.tree.size := by
      refine (hs.source_bears container name).imp_right ?_
      rintro ⟨⟨kind, hkind, hk⟩, -⟩
      exact ⟨kind, hkind, hk.below⟩
    exact addNode_ofKind hs hident rfl (hs.source_bears container name)
  | constant | marker | placeholder => exact addNode_ofKind hs trivial rfl trivial
  | access left right =>
    refine (resolveExpr_yields table container left hs (hcode.imp_right And.left)).bind
      fun left' s₁ hs₁ _ hleft => ?_
    refine yields_get ?_
    refine (resolveExpr_yields table _ right hs₁ (hcode.imp_right And.right)).bind
      fun right' s₂ hs₂ he₂ hright => ?_
    have haccess : (Node.access left' right').WellFormed s₂.tree s₂.tree.size :=
      ⟨(hleft.extend he₂).below, hright.below⟩
    exact addNode_ofKind hs₂ haccess rfl trivial
  | call callee args =>
    refine (resolveExprs_yields table args hs hcode).within.bind fun args' s₁ hs₁ _ hargs => ?_
    exact resolveCall_yields hs₁ hargs
  | binary symbol left right =>
    dsimp only
    split
    · rename_i op _
      refine (resolveExpr_yields table none left hs (hcode.imp_right And.left)).bind
        fun left' s₁ hs₁ _ hleft => ?_
      refine (resolveExpr_yields table none right hs₁ (hcode.imp_right And.right)).bind
        fun right' s₂ hs₂ he₂ hright => ?_
      have hbinary : (Node.binary op left' right').WellFormed s₂.tree s₂.tree.size :=
        ⟨(hleft.extend he₂).below, hright.below⟩
      exact addNode_ofKind hs₂ hbinary rfl trivial
    · exact ends_throw _
  | localVar name type =>
    refine (resolveType_yields hs).within.bind fun type' s₁ hs₁ _ htype => ?_
    exact addDeclared_yields hs₁ htype.below rfl (by decide) trivial trivial
  | sequence elements =>
    refine (resolveExprs_yields table elements hs hcode).bind fun elements' s₁ hs₁ _ helements => ?_
    exact addNode_ofKind hs₁ helements.below rfl trivial
  | ret value =>
    cases value with
    | none => exact addNode_ofKind hs (Or.inl rfl) rfl trivial
    | some value =>
      refine (resolveExpr_yields table none value hs hcode).bind fun value' s₁ hs₁ _ hvalue => ?_
      exact addNode_ofKind hs₁ (Or.inr hvalue.below) rfl trivial
  | fragment decl => exact resolveFragment_yields hs (hcode.elim id False.elim)
  | literal name body => exact resolveLiteral_yields hs
  | _ => exact ends_throw _
termination_by structural node

theorem resolveExprs_yields {s : State} (table : Program.TypeTable) (nodes : List Program.Node)
    (hs : s.Sound code) (hcode : code ∨ Program.AllCodeFree nodes) :
    Yields code s (resolveExprs table nodes) (AllOfKind .expression) := by
  match nodes with
  | [] =>
    rw [resolveExprs]
    exact yields_pure hs .nil
  | node :: rest =>
    rw [resolveExprs]
    refine (resolveExpr_yields table none node hs (hcode.imp_right And.left)).bind
      fun h s₁ hs₁ _ hh => ?_
    refine (resolveExprs_yields table rest hs₁ (hcode.imp_right And.right)).bind
      fun more s₂ hs₂ he₂ hmore => ?_
    exact yields_pure hs₂ (.cons (hh.extend he₂) hmore)
termination_by structural nodes

end

end Shader.Resolution
