import Shader.Proofs.Glsl.Alignment
import Shader.Proofs.Glsl.Text
import Shader.Proofs.Grammar.RoundTrip

/-!
# Declarations that can be added or moved

A declaration whose name nothing mentions does not change the shader of a program, and a resource
can be declared at any place among the declarations of a program.
-/

namespace Shader.Program

open Text

variable {word : String} {tokens : List String}

/-! ## The names in a program -/

theorem mem_of_mem_normalizeFrom (hword : isIdentifier word = true) {place : Place}
    (h : word ∈ normalizeFrom place tokens) : word ∈ tokens := by
  have hlength {token : String} (heq : word = decimalLength token) : word = token := by
    unfold decimalLength at heq
    split at heq
    · rename_i count hcount
      have hread := readLength?_repr (readLength?_ne_zero hcount)
      rw [← heq, readLength?_of_isIdentifier hword] at hread
      cases hread
    · exact heq
  induction tokens generalizing place with
  | nil => cases h
  | cons token rest ih =>
    rw [normalizeFrom] at h
    split at h
    · exact .tail _ (ih h)
    split at h
    · exact .tail _ (ih h)
    rcases List.mem_cons.mp h with heq | h
    · split at heq
      · rw [hlength heq]
        exact .head _
      · rw [heq]
        exact .head _
    · exact .tail _ (ih h)

theorem mem_of_mem_normalize (hword : isIdentifier word = true) (h : word ∈ normalize tokens) :
    word ∈ tokens :=
  mem_of_mem_normalizeFrom hword h

theorem name_mem_declarationTokens {node : Node} (h : node.IsDeclaration) :
    isIdentifier node.name = true ∧ node.name ∈ node.declarationTokens := by
  unfold Node.declarationTokens
  cases node with
  | struct decl => exact ⟨h.1, List.mem_append_right _ (.head _)⟩
  | function name params returns statements annotations =>
    exact ⟨h.1, List.mem_append_right _ (.head _)⟩
  | member decl => exact ⟨h.1, List.mem_append_right _ (.head _)⟩
  | _ => cases h

/-! ## One more declaration -/

section Insertion

variable {before after : List Node} {decl : Node}
  (hnames : ∀ node ∈ before ++ after, node.name ≠ decl.name)

include hnames in
theorem filter_insert :
    (before ++ decl :: after).filter (·.name ≠ decl.name) = before ++ after := by
  have hself {nodes : List Node} (h : ∀ node ∈ nodes, node.name ≠ decl.name) :
      nodes.filter (·.name ≠ decl.name) = nodes := List.filter_eq_self.mpr (by simpa using h)
  obtain ⟨hbefore, hafter⟩ := List.forall_mem_append.mp hnames
  rw [List.filter_append, List.filter_cons_of_neg (by simp), hself hbefore, hself hafter]

theorem forall_insert {α : Type} {front back : List α} {a : α} {p : α → Prop}
    (h : ∀ x ∈ front ++ back, p x) (ha : p a) : ∀ x ∈ front ++ a :: back, p x := by
  obtain ⟨hfront, hback⟩ := List.forall_mem_append.mp h
  exact List.forall_mem_append.mpr ⟨hfront, List.forall_mem_cons.mpr ⟨ha, hback⟩⟩

theorem keepsIntrinsics_insert (hkeeps : KeepsIntrinsics (before ++ after)) (hdecl : decl.IsRoot)
    (hintrinsic : isIntrinsicType decl.name = false) :
    KeepsIntrinsics (before ++ decl :: after) := by
  have hstructs : ∀ other ∈ decl.structs, isIntrinsicType other.name = false := by
    intro other hother
    cases decl with
    | struct =>
      rw [List.mem_singleton.mp hother]
      exact hintrinsic
    | scope => exact absurd (hdecl.resolve_left nofun) id
    | _ => cases hother
  unfold KeepsIntrinsics at hkeeps ⊢
  rw [structsOfAll_append, List.forall_mem_append] at hkeeps
  rw [structsOfAll_append, structsOfAll, List.forall_mem_append, List.forall_mem_append]
  exact ⟨hkeeps.1, hstructs, hkeeps.2⟩

theorem structsOfAll_insert (hresource : decl.isResource = true) :
    structsOfAll (before ++ decl :: after) = structsOfAll (before ++ after) := by
  have hnone : decl.structs = [] := by
    cases decl with
    | struct | scope => cases hresource
    | _ => rfl
  rw [structsOfAll_append, structsOfAll_append, structsOfAll, hnone, List.nil_append]

end Insertion

end Shader.Program

namespace Shader.Glsl

open Arena Program Resolution

variable {use : Use} {decl node : Program.Node} {a b d d' h y y' : Handle} {outer outer' : Block}
  {tokens : List String} {t : Tree} {G : String → Handle → Prop} {after before : List Program.Node}
  {hs : List Handle}
variable {name : String}

/-- The use is of a type, or of a name among the tokens. -/
def Use.IsAmong (use : Use) (tokens : List String) : Prop :=
  (∃ name, use = .type name) ∨ (isIdentifier use.word = true ∧ use.word ∈ tokens)

theorem Use.IsAmong.mono {more : List String} (h : use.IsAmong tokens) (hsub : tokens ⊆ more) :
    use.IsAmong more :=
  h.imp_right fun hword => ⟨hword.1, hsub hword.2⟩

theorem exists_of_mem_usesOfAll {locals : List String} {nodes : List Program.Node}
    (h : use ∈ usesOfAll locals nodes) : ∃ node ∈ nodes, ∃ locals, use ∈ uses locals node := by
  induction nodes generalizing locals with
  | nil => cases h
  | cons node nodes ih =>
    rw [usesOfAll] at h
    rcases List.mem_append.mp h with h | h
    · exact ⟨node, .head _, _, h⟩
    · obtain ⟨other, hmem, hother⟩ := ih h
      exact ⟨other, .tail _ hmem, hother⟩

mutual

theorem isAmong_of_isValue {node : Program.Node} {locals : List String} {use : Use} :
    IsValue node → use ∈ uses locals node → use.IsAmong node.tokens
  | .ident hname, h => by
    rw [uses] at h
    split at h
    · cases h
    · rw [List.mem_singleton.mp h, Node.tokens]
      exact Or.inr ⟨hname.1, List.mem_singleton_self _⟩
  | .constant _, h => by simp [uses] at h
  | .localVar _ _, h => by
    rw [uses] at h
    rw [List.mem_singleton.mp h]
    exact Or.inl ⟨_, rfl⟩
  | @IsValue.call callee _ hcallee hargs, h => by
    rw [uses, calleeUses] at h
    rw [Node.tokens]
    rcases List.mem_append.mp h with h | h
    · refine Or.inr ?_
      have hword : use.word = callee := by
        split at h
        · cases h
        split at h
        · rw [List.mem_singleton.mp h, Use.word]
        · rw [List.mem_singleton.mp h, Use.word]
      rw [hword]
      exact ⟨hcallee.1, .head _⟩
    · obtain ⟨arg, hmem, locals, harg⟩ := exists_of_mem_usesOfAll h
      refine (isAmong_of_isExpression (hargs arg hmem) harg).mono fun token htoken => ?_
      exact .tail _ (.tail _ (tokens_subset_argumentTokens hmem htoken))
  | .access hleft hright _, h => by
    rw [uses] at h
    rw [Node.tokens]
    rcases List.mem_append.mp h with h | h
    · exact (isAmong_of_isValue hleft h).mono (List.subset_append_left _ _)
    · split at h
      · cases h
      · refine (isAmong_of_isValue hright h).mono fun token htoken => ?_
        exact List.mem_append_right _ (.tail _ htoken)
  | .binary _ _ hleft hright _, h => by
    rw [uses] at h
    rw [Node.tokens]
    rcases List.mem_append.mp h with h | h
    · exact (isAmong_of_isValue hleft h).mono (List.subset_append_left _ _)
    · refine (isAmong_of_isValue hright h).mono fun token htoken => ?_
      exact List.mem_append_right _ (.tail _ htoken)

theorem isAmong_of_isExpression {node : Program.Node} {locals : List String} {use : Use} :
    IsExpression node → use ∈ uses locals node → use.IsAmong node.tokens
  | .value hnode, h => isAmong_of_isValue hnode h
  | .leave, h => by simp [uses] at h
  | .leaveWith hvalue, h => by
    rw [uses] at h
    rw [Node.tokens]
    exact (isAmong_of_isValue hvalue h).mono (List.subset_cons_self _ _)

end

theorem isAmong_of_isRoot (hroot : node.IsRoot) (h : use ∈ declaredUses node) :
    use.IsAmong node.declarationTokens := by
  cases node with
  | function name params returns statements annotations =>
    have hstatements := (hroot.resolve_left nofun).2.2.2.2
    rcases List.mem_cons.mp h with rfl | h
    · exact Or.inl ⟨_, rfl⟩
    · obtain ⟨statement, hmem, locals, huse⟩ := exists_of_mem_usesOfAll h
      have hamong := isAmong_of_isExpression (hstatements statement hmem) huse
      refine hamong.mono fun token htoken => List.mem_append_right _ ?_
      have hbody := tokens_subset_bodyTokens hmem htoken
      simp only [Node.headTokens, List.mem_cons, List.mem_append]
      tauto
  | _ => cases h

/-! ## Where uses lead -/

section Uses

variable {x : String} {t t' : Tree} {G G' : String → Handle → Prop} {hs hs' : List Handle}
  {pairs : List (Handle × Handle)} {outer outer' : Block} {R : Handle → Handle → Prop}

theorem firstNamed_ofTree (hname : name ≠ "") :
    firstNamed (.ofTree t) name = (t.declarations.find? fun h => t.name h = name).getD none := by
  unfold firstNamed Catalog.byName?
  rw [if_neg hname]
  rfl

theorem Linked.refers {o o' : Option Handle} (hlinked : Linked pairs o o')
    (hpairs : ∀ a b, (a, b) ∈ pairs → R a b) (h : Refers R y y') :
    Refers R (o.getD y) (o'.getD y') := by
  rcases hlinked with ⟨rfl, rfl⟩ | ⟨a, b, rfl, rfl, hab⟩
  · exact h
  · exact Or.inr (hpairs a b hab)

theorem Beside.refers (hb : Beside t t' x hs hs' pairs outer outer')
    (hpairs : ∀ a b, (a, b) ∈ pairs → R a b ∧ t.kind? a = t'.kind? b)
    (htypes : ∀ a b, SameType G G' a b → R a b) (hx : use.word ≠ x)
    (hfirst : Refers R (firstNamed (.ofTree t) use.word) (firstNamed (.ofTree t') use.word))
    (hy : Finds ⟨t, G, outer⟩ (.ofTree t) use y)
    (hy' : Finds ⟨t', G', outer'⟩ (.ofTree t') use y') : Refers R y y' := by
  cases use with
  | type name => exact Or.inr (htypes _ _ ⟨name, hy, hy'⟩)
  | value name =>
    rw [show y = _ from hy, show y' = _ from hy']
    exact (hb.linked name hx).refers (fun a b hab => (hpairs a b hab).1) hfirst
  | hidden name =>
    rw [show y = _ from hy, show y' = _ from hy']
    exact hfirst
  | callee name =>
    rcases hb.linked name hx with ⟨hnone, hnone'⟩ | ⟨a, b, ha, hb, hab⟩
    · by_cases hintrinsic : isIntrinsicType name = true
      · exact Or.inr (htypes _ _
          ⟨name, hy.intrinsic hnone hintrinsic, hy'.intrinsic hnone' hintrinsic⟩)
      · have hfalse : isIntrinsicType name = false := by simpa using hintrinsic
        rw [hy.unknown hnone hfalse, hy'.unknown hnone' hfalse]
        exact hfirst
    · obtain ⟨hR, hkind⟩ := hpairs a b hab
      have hcallable : View.isCallable ⟨t, G, outer⟩ a = View.isCallable ⟨t', G', outer'⟩ b := by
        rw [isCallable_eq, isCallable_eq, hkind]
      cases hc : View.isCallable ⟨t, G, outer⟩ a with
      | true =>
        rw [hy.callable a ha hc, hy'.callable b hb (hcallable ▸ hc)]
        exact Or.inr hR
      | false =>
        rw [hy.other a ha hc, hy'.other b hb (hcallable ▸ hc)]
        exact hfirst

/-- The handle is that of the only declaration of its name, and it cannot be called. -/
structure IsSole (t : Tree) (hs : List Handle) (x : String) (d : Handle) : Prop where
  mem : d ∈ hs
  name : t.name d = x
  sole : ∀ h ∈ hs, t.name h = x → h = d
  function : t.kind? d ≠ some .function
  struct : t.kind? d ≠ some .struct

theorem IsSole.firstNamed (hd : IsSole t hs x d) (ht : t.declarations = hs)
    (hx : x ≠ "") : firstNamed (.ofTree t) x = d := by
  rw [firstNamed_ofTree hx, ht]
  cases hfind : hs.find? fun h => t.name h = x with
  | none => exact absurd (by simpa using hd.name) (List.find?_eq_none.mp hfind d hd.mem)
  | some h =>
    have hname : t.name h = x := by simpa using List.find?_some hfind
    exact hd.sole h (List.mem_of_find?_eq_some hfind) hname

/-- Wherever it stands, a declaration that is the only one of its name is what uses of the name
lead to. -/
theorem IsSole.eq_of_finds (hd : IsSole t hs x d) (ht : t.declarations = hs) (hx : x ≠ "")
    (hintrinsic : isIntrinsicType x = false)
    (houter : ∀ name h, outer.latest? name = some h → h ∈ hs ∧ t.name h = name)
    (hword : use.word = x) (htype : ∀ name, use ≠ .type name)
    (hy : Finds ⟨t, G, outer⟩ (.ofTree t) use y) : y = d := by
  have hlatest {g : Handle} (hg : outer.latest? x = some g) : g = d := by
    obtain ⟨hmem, hname⟩ := houter x g hg
    exact hd.sole g hmem hname
  have hfirst := hd.firstNamed ht hx
  cases use with
  | type name => exact absurd rfl (htype name)
  | hidden name =>
    cases hword
    exact (show y = _ from hy).trans hfirst
  | value name =>
    cases hword
    rw [show y = _ from hy]
    cases ho : outer.latest? name with
    | none => exact hfirst
    | some g => exact hlatest ho
  | callee name =>
    cases hword
    cases ho : outer.latest? name with
    | none => exact (hy.unknown ho hintrinsic).trans hfirst
    | some g =>
      have hcallable : View.isCallable ⟨t, G, outer⟩ g = false := by
        rw [isCallable_eq, hlatest ho]
        simp [hd.function, hd.struct]
      exact (hy.other g ho hcallable).trans hfirst

theorem IsSole.refers (hd : IsSole t hs x d) (hd' : IsSole t' hs' x d')
    (ht : t.declarations = hs) (ht' : t'.declarations = hs')
    (hintrinsic : isIntrinsicType x = false) (hb : Beside t t' x hs hs' pairs outer outer')
    (huse : use.IsAmong tokens) (hword : use.word = x) (hR : R d d')
    (htypes : ∀ a b, SameType G G' a b → R a b)
    (hy : Finds ⟨t, G, outer⟩ (.ofTree t) use y)
    (hy' : Finds ⟨t', G', outer'⟩ (.ofTree t') use y') : Refers R y y' := by
  by_cases htype : ∃ name, use = .type name
  · obtain ⟨name, rfl⟩ := htype
    exact Or.inr (htypes _ _ ⟨name, hy, hy'⟩)
  · have hx : x ≠ "" := hword ▸ ne_of_isIdentifier (huse.resolve_left htype).1 rfl
    rw [hd.eq_of_finds ht hx hintrinsic hb.left hword (not_exists.mp htype) hy,
      hd'.eq_of_finds ht' hx hintrinsic hb.right hword (not_exists.mp htype) hy']
    exact Or.inr hR

end Uses

/-! ## Two programs -/

section Programs

variable {x : String} {program program' : List Program.Node} {t t' : Tree}
  {G G' : String → Handle → Prop} {hs hs' : List Handle} {pairs known : List (Handle × Handle)}

theorem isStruct_of_kind? (hl : Laid t program G hs) (hplaced : Placed ⟨t, G, outer⟩ node h)
    (hkind : t.kind? h ≠ some .struct) : node.isStruct = false := by
  cases node with
  | struct decl => exact absurd (kind?_of_placed hl.types hplaced) hkind
  | _ => rfl

theorem placed_of_isResource (hresource : node.isResource = true)
    (hplaced : Placed ⟨t, G, outer⟩ node h) : Placed ⟨t, G, outer'⟩ node h := by
  have hmove {resource : Option Program.Resource} {kind : BindingKind} {members : List Handle}
      {format : String} (hr : IsResource ⟨t, G, outer⟩ resource kind members format) :
      IsResource ⟨t, G, outer'⟩ resource kind members format := by
    cases hr with
    | buffer hmembers => exact .buffer hmembers
    | image format => exact .image format
    | sampler format => exact .sampler format
  cases hplaced with
  | struct | function => cases hresource
  | member hmember => exact .member hmember
  | pushConstant hnode hmembers => exact .pushConstant hnode hmembers
  | specialization hnode htype => exact .specialization hnode htype
  | binding hnode hr => exact .binding hnode (hmove hr)

variable (hv : Variants x program program') (hl : Laid t program G hs)
  (hl' : Laid t' program' G' hs')

include hv hl hl' in
theorem exists_aligned_of_variants :
    ∃ pairs, Aligned t G t' G' program x 1 1 [] [] hs hs' pairs :=
  exists_aligned hl.layout hl'.layout
    (fun hmem hplaced => name_of_placed hl.types (hv.root _ hmem) hplaced)
    (fun hmem hplaced => name_of_placed hl'.types (hv.root' _ hmem) hplaced) hv.others
    fun _ hmem => hmem

variable (ha : Aligned t G t' G' program x 1 1 [] [] hs hs' pairs)
include ha

theorem Aligned.exists_placed (hsub : ∀ pair ∈ pairs, pair ∈ known) (hpair : (a, b) ∈ pairs) :
    ∃ node ∈ program, node.name ≠ x ∧ t.name a = node.name ∧ t'.name b = node.name ∧
      ∃ outer outer', Placed ⟨t, G, outer⟩ node a ∧ Placed ⟨t', G', outer'⟩ node b ∧
        Beside t t' x hs hs' known outer outer' :=
  ha.placed .nil (fun _ h => h) (fun _ h => h) hsub hpair

include hl hl'

theorem Aligned.kind?_eq (hpair : (a, b) ∈ pairs) : t.kind? a = t'.kind? b := by
  obtain ⟨node, -, -, -, -, outer, outer', hplaced, hplaced', -⟩ :=
    ha.exists_placed (fun _ h => h) hpair
  rw [kind?_of_placed hl.types hplaced, kind?_of_placed hl'.types hplaced']

theorem Aligned.findEntry (hx : ∀ a ∈ hs, t.name a = x → isFunctionNamed t name a = false)
    (hx' : ∀ b ∈ hs', t'.name b = x → isFunctionNamed t' name b = false) :
    Both (fun a b => (a, b) ∈ pairs) (findEntry t name) (findEntry t' name) := by
  have hlinked := ha.find? (fun a b hab => ?_) hx hx'
  · unfold Glsl.findEntry
    rw [hl.declarations, hl'.declarations]
    rcases hlinked with ⟨hnone, -⟩ | ⟨a, b, ha, hb, hab⟩
    · rw [hnone]
      exact both_error
    · rw [ha, hb]
      exact both_ok hab
  · obtain ⟨node, -, -, hname, hname', -⟩ := ha.exists_placed (fun _ h => h) hab
    rw [isFunctionNamed_eq, isFunctionNamed_eq, ha.kind?_eq hl hl' hab, hname, hname']

theorem Aligned.firstNamed {R : Handle → Handle → Prop} (hR : ∀ a b, (a, b) ∈ pairs → R a b)
    (hx : name ≠ x) :
    Refers R (firstNamed (.ofTree t) name) (firstNamed (.ofTree t') name) := by
  by_cases hempty : name = ""
  · subst hempty
    exact Or.inl ⟨rfl, rfl⟩
  have hsame : ∀ a b, (a, b) ∈ pairs → decide (t.name a = name) = decide (t'.name b = name) := by
    intro a b hab
    obtain ⟨node, -, -, hname, hname', -⟩ := ha.exists_placed (fun _ h => h) hab
    rw [hname, hname']
  have hne {other : String} (hother : other = x) : decide (other = name) = false := by
    rw [hother]
    exact decide_eq_false hx.symm
  have hlinked := ha.find? hsame (fun _ _ => hne) fun _ _ => hne
  rw [firstNamed_ofTree hempty, firstNamed_ofTree hempty, hl.declarations, hl'.declarations]
  exact hlinked.refers hR (Or.inl ⟨rfl, rfl⟩)

include hv

theorem Aligned.twin (hsub : ∀ pair ∈ pairs, pair ∈ known)
    (hknown : ∀ a b, (a, b) ∈ known → Matches t G G' known a b ∧ t.kind? a = t'.kind? b)
    (hx : ∀ node ∈ program, ∀ use ∈ declaredUses node, use.word = x →
      ∀ {outer outer'}, Beside t t' x hs hs' known outer outer' →
      ∀ y y', Finds ⟨t, G, outer⟩ (.ofTree t) use y → Finds ⟨t', G', outer'⟩ (.ofTree t') use y' →
      Refers (Matches t G G' known) y y') (hpair : (a, b) ∈ pairs) :
    ∃ node outer outer',
      Twin (Matches t G G' known) ⟨t, G, outer⟩ ⟨t', G', outer'⟩ hs hs' node a b := by
  obtain ⟨node, hmem, -, -, -, outer, outer', hplaced, hplaced', hb⟩ := ha.exists_placed hsub hpair
  refine ⟨node, outer, outer', hv.root node hmem, hplaced, hplaced',
    fun name h hg => (hb.left name h hg).1, fun name h hg => (hb.right name h hg).1, ?_⟩
  intro use huse y y' hy hy'
  by_cases hword : use.word = x
  · exact hx node hmem use huse hword hb y y' hy hy'
  · have hfirst := ha.firstNamed hl hl' (fun a b hab => (hknown a b (hsub _ hab)).1) hword
    exact hb.refers hknown (fun _ _ => Or.inl) hword hfirst hy hy'

omit ha

theorem both_generate_of_unused (hnames : ∀ node ∈ program, node.name ≠ x)
    (hwords : ∀ node ∈ program, ∀ use ∈ declaredUses node, use.word = x → ∃ name, use = .type name)
    (options : Options) :
    Both (· = ·) (generate (some t) options) (generate (some t') options) := by
  obtain ⟨pairs, ha⟩ := exists_aligned_of_variants hv hl hl'
  have hknown : ∀ a b, (a, b) ∈ pairs → Matches t G G' pairs a b ∧ t.kind? a = t'.kind? b := by
    intro a b hab
    obtain ⟨node, -, -, -, -, outer, outer', hplaced, hplaced', -⟩ :=
      ha.exists_placed (fun _ h => h) hab
    exact ⟨matches_of_placed hl hab hplaced hplaced', ha.kind?_eq hl hl' hab⟩
  have hm : Matching t t' G G' hs hs' pairs := by
    refine ⟨fun a b hab => ha.twin hv hl hl' (fun _ h => h) hknown ?_ hab,
      fun a b c d hab hcd => ?_⟩
    · intro node hmem use huse hword outer outer' _ y y' hy hy'
      obtain ⟨name, rfl⟩ := hwords node hmem use huse hword
      exact Or.inr (Or.inl ⟨name, hy, hy'⟩)
    · exact ha.eq_iff (isStruct_of_kind? hl) hab hcd
  refine hm.both_generate hv hl hl' options fun a b hfa hfb => ?_
  -- The entry function of the first program is not named `x`.
  have hnamed : ∀ h ∈ hs, t.name h ≠ x := by
    intro h hmem
    obtain ⟨node, hnode, outer, hplaced⟩ := exists_placed_of_mem hl.layout hmem
    rw [show t.name h = node.name from name_of_placed hl.types (hv.root node hnode) hplaced]
    exact hnames node hnode
  have hentry : options.completed.entryPoint ≠ x := by
    obtain ⟨hmem, hfun⟩ := mem_of_findEntry hfa
    rw [hl.declarations] at hmem
    rw [isFunctionNamed_eq, decide_eq_true_eq] at hfun
    rw [← hfun.2]
    exact hnamed a hmem
  refine ha.findEntry hl hl' (fun h hmem hname => absurd hname (hnamed h hmem)) ?_ a b hfa hfb
  intro h _ hname
  rw [isFunctionNamed_eq, hname]
  exact decide_eq_false fun hfun => hentry hfun.2.symm

theorem both_generate_of_sole (hd : IsSole t hs x d) (hd' : IsSole t' hs' x d')
    (hresource : node.isResource = true) (hplaced : Placed ⟨t, G, outer⟩ node d)
    (hplaced' : Placed ⟨t', G', outer'⟩ node d') (options : Options) :
    Both (· = ·) (generate (some t) options) (generate (some t') options) := by
  obtain ⟨pairs, ha⟩ := exists_aligned_of_variants hv hl hl'
  have hsub : ∀ pair ∈ pairs, pair ∈ (d, d') :: pairs := fun _ h => .tail _ h
  have hknown : ∀ a b, (a, b) ∈ (d, d') :: pairs →
      Matches t G G' ((d, d') :: pairs) a b ∧ t.kind? a = t'.kind? b := by
    intro a b hab
    rcases List.mem_cons.mp hab with heq | hmem
    · cases heq
      refine ⟨matches_of_placed hl hab hplaced hplaced', ?_⟩
      rw [kind?_of_placed hl.types hplaced, kind?_of_placed hl'.types hplaced']
    · obtain ⟨node, -, -, -, -, outer, outer', hplaced, hplaced', -⟩ := ha.exists_placed hsub hmem
      exact ⟨matches_of_placed hl hab hplaced hplaced', ha.kind?_eq hl hl' hmem⟩
  have hapart {a b : Handle} (hab : (a, b) ∈ pairs) : d ≠ a ∧ d' ≠ b := by
    obtain ⟨node, -, hx, hname, hname', -⟩ := ha.exists_placed hsub hab
    constructor
    · rintro rfl
      exact hx (hname.symm.trans hd.name)
    · rintro rfl
      exact hx (hname'.symm.trans hd'.name)
  have hm : Matching t t' G G' hs hs' ((d, d') :: pairs) := by
    constructor
    · intro a b hab
      rcases List.mem_cons.mp hab with heq | hmem
      · cases heq
        refine ⟨node, [], [], Or.inl hresource, placed_of_isResource hresource hplaced,
          placed_of_isResource hresource hplaced', nofun, nofun, ?_⟩
        intro use huse
        cases node with
        | function => cases hresource
        | _ => cases huse
      · refine ha.twin hv hl hl' hsub hknown ?_ hmem
        intro node hnode use huse hword outer outer' hb y y' hy hy'
        exact hd.refers hd' hl.declarations hl'.declarations hv.intrinsic hb
          (isAmong_of_isRoot (hv.root node hnode) huse) hword
          (hknown d d' (.head _)).1 (fun _ _ => Or.inl) hy hy'
    · intro a b c e hab hce hkind hkind'
      rcases List.mem_cons.mp hab with heq | hab <;> rcases List.mem_cons.mp hce with heq' | hce
      · cases heq
        cases heq'
        exact ⟨fun _ => rfl, fun _ => rfl⟩
      · cases heq
        exact ⟨fun h => absurd h (hapart hce).1, fun h => absurd h (hapart hce).2⟩
      · cases heq'
        exact ⟨fun h => absurd h.symm (hapart hab).1, fun h => absurd h.symm (hapart hab).2⟩
      · exact ha.eq_iff (isStruct_of_kind? hl) hab hce hkind hkind'
  refine hm.both_generate hv hl hl' options fun a b hfa hfb => hsub _ ?_
  refine ha.findEntry hl hl' (fun h hmem hname => ?_) (fun h hmem hname => ?_) a b hfa hfb
  · rw [isFunctionNamed_eq, hd.sole h hmem hname]
    exact decide_eq_false fun hfun => hd.function hfun.1
  · rw [isFunctionNamed_eq, hd'.sole h hmem hname]
    exact decide_eq_false fun hfun => hd'.function hfun.1

end Programs

/-! ## Declarations that nothing mentions -/

/-- A declaration whose name is neither a token of the program nor an intrinsic type can be added
at any place: where both programs give a shader, it is the same. -/
theorem generate_insert_unused (tokens more : List String) (scope other : Program.Scope)
    (before after : List Program.Node) (decl : Program.Node) (options : Options) (t t' : Tree)
    (out out' : Output) (hparse : parse tokens = .ok scope)
    (hkeeps : KeepsIntrinsics scope.children) (hsplit : scope.children = before ++ after)
    (hmore : parse more = .ok other) (hdecl : decl ∈ other.children)
    (hunused : decl.name ∉ tokens) (hintrinsic : isIntrinsicType decl.name = false)
    (ht : resolve (some scope) scope.table = .ok t)
    (ht' : resolve (some (.root (before ++ decl :: after)))
      (Scope.root (before ++ decl :: after)).table = .ok t')
    (hout : generate (some t) options = .ok out) (hout' : generate (some t') options = .ok out') :
    out = out' := by
  obtain ⟨⟨-, hscope⟩, hnormal⟩ := normal_of_parse hparse
  have hdeclaration := (normal_of_parse hmore).1.2 decl hdecl
  have hmention {node : Program.Node} {word : String} (hnode : node ∈ scope.children)
      (hword : isIdentifier word = true) (hmem : word ∈ node.declarationTokens) :
      word ≠ decl.name := by
    rintro rfl
    refine hunused (mem_of_mem_normalize hword ?_)
    rw [← hnormal]
    exact List.mem_flatMap.mpr ⟨node, hnode, hmem⟩
  have hnames : ∀ node ∈ scope.children, node.name ≠ decl.name := by
    intro node hnode
    obtain ⟨hid, hmem⟩ := name_mem_declarationTokens (hscope node hnode)
    exact hmention hnode hid hmem
  have hroot : ∀ node ∈ scope.children, node.IsRoot := fun node hnode => Or.inr (hscope node hnode)
  have hv : Variants decl.name scope.children (before ++ decl :: after) := by
    refine ⟨?_, hroot, ?_, hkeeps, ?_, hintrinsic, fun other hother => ?_⟩
    · rw [List.filter_eq_self.mpr (by simpa using hnames), hsplit, filter_insert (hsplit ▸ hnames)]
    · exact forall_insert (hsplit ▸ hroot) (Or.inr hdeclaration)
    · exact keepsIntrinsics_insert (hsplit ▸ hkeeps) (Or.inr hdeclaration) hintrinsic
    · exact hnames _ ((mem_structsOfAll hroot).mp hother)
  obtain ⟨G, hs, hl⟩ := resolve_laid hv.root ht
  obtain ⟨G', hs', hl'⟩ := resolve_laid hv.root' ht'
  refine both_generate_of_unused hv hl hl' hnames ?_ options out out' hout hout'
  intro node hnode use huse hword
  refine (isAmong_of_isRoot (hv.root node hnode) huse).resolve_right fun ⟨hid, hmem⟩ => ?_
  exact hmention hnode hid hmem hword

/-- A function in front of the entry function moves all handles and leaves the shader as it is. -/
theorem generate_insert_unused_sample :
    let main : Program.Node := .function "main" [] "void" [.ret none] []
    let helper : Program.Node := .function "helper" [] "void" [.call "main" []] []
    let t : Tree := ⟨#[.scope "root" [some 3], .struct ⟨"void", none, [], []⟩, .ret none,
      .function ⟨"main", [], some 1, [some 2], []⟩]⟩
    let t' : Tree := ⟨#[.scope "root" [some 3, some 5], .struct ⟨"void", none, [], []⟩,
      .call "main" none [], .function ⟨"helper", [], some 1, [some 2], []⟩, .ret none,
      .function ⟨"main", [], some 1, [some 4], []⟩]⟩
    parse (Scope.root [main]).tokens = .ok (.root [main]) ∧
      resolve (some (.root [main])) .empty = .ok t ∧
      resolve (some (.root [helper, main])) .empty = .ok t' ∧
      ∃ out, generate (some t) .default = .ok out ∧ generate (some t') .default = .ok out := by
  intro main helper t t'
  have hmain : (Scope.root [main]).IsProgram :=
    isProgram_function (by decide) (by decide) (List.forall_mem_singleton.mpr .leave)
  have hhelper : (Scope.root [helper]).IsProgram :=
    isProgram_function (by decide) (by decide)
      (List.forall_mem_singleton.mpr (.value (.call ⟨by decide, by decide⟩ (by simp))))
  have ht : resolve (some (.root [main])) .empty = .ok t :=
    resolve_of_evaluate 9 (by decide +kernel)
  have ht' : resolve (some (.root [helper, main])) .empty = .ok t' :=
    resolve_of_evaluate 9 (by decide +kernel)
  obtain ⟨out, hout⟩ : Succeeds (generate (some t) .default) :=
    succeeds_of_isSome (by decide +kernel)
  obtain ⟨out', hout'⟩ : Succeeds (generate (some t') .default) :=
    succeeds_of_isSome (by decide +kernel)
  have heq := generate_insert_unused _ _ _ _ [] [main] helper .default t t' out out'
    (parse_tokens hmain) (List.forall_mem_nil _) rfl
    (parse_tokens hhelper) (List.mem_singleton_self _) (by decide) (by decide) ht ht' hout hout'
  exact ⟨parse_tokens hmain, ht, ht', out, hout, heq ▸ hout'⟩

/-! ## Resources -/

theorem exists_split_of_layout {n : Nat} (hl : Layout t G n outer (before ++ decl :: after) hs) :
    ∃ front d back, hs = front ++ d :: back ∧ (∃ outer, Placed ⟨t, G, outer⟩ decl d) ∧
      ∀ h ∈ front ++ back, ∃ node ∈ before ++ after, ∃ outer, Placed ⟨t, G, outer⟩ node h := by
  induction before generalizing n outer hs with
  | nil =>
    cases hl with
    | cons hplaced _ _ hrest =>
      exact ⟨[], _, _, rfl, ⟨_, hplaced⟩, fun h hmem => exists_placed_of_mem hrest hmem⟩
  | cons first before ih =>
    cases hl with
    | cons hplaced _ _ hrest =>
      obtain ⟨front, d, back, rfl, hd, hothers⟩ := ih hrest
      refine ⟨_ :: front, d, back, rfl, hd, List.forall_mem_cons.mpr ⟨?_, fun h hmem => ?_⟩⟩
      · exact ⟨first, .head _, _, hplaced⟩
      · obtain ⟨node, hnode, hplaced⟩ := hothers h hmem
        exact ⟨node, .tail _ hnode, hplaced⟩

theorem declaredKind_of_isResource (hresource : node.isResource = true) :
    declaredKind node = .member ∨ declaredKind node = .resource := by
  cases node with
  | member => exact Or.inl rfl
  | binding | pushConstant | specialization => exact Or.inr rfl
  | _ => cases hresource

theorem exists_isSole (hl : Laid t (before ++ decl :: after) G hs)
    (hroot : ∀ node ∈ before ++ after, node.IsRoot) (hresource : decl.isResource = true)
    (hnames : ∀ node ∈ before ++ after, node.name ≠ decl.name) :
    ∃ d outer, IsSole t hs decl.name d ∧ Placed ⟨t, G, outer⟩ decl d := by
  obtain ⟨front, d, back, rfl, ⟨outer, hplaced⟩, hothers⟩ := exists_split_of_layout hl.layout
  have hkind := kind?_of_placed hl.types hplaced
  refine ⟨d, outer, ⟨List.mem_append_right _ (.head _), ?_, ?_, ?_, ?_⟩, hplaced⟩
  · exact name_of_placed hl.types (Or.inl hresource) hplaced
  · refine forall_insert (fun h hmem hname => ?_) fun _ => rfl
    obtain ⟨node, hnode, outer, hplaced⟩ := hothers h hmem
    have hnode' : t.name h = node.name := name_of_placed hl.types (hroot node hnode) hplaced
    exact absurd (hnode'.symm.trans hname) (hnames node hnode)
  · rw [show t.kind? d = _ from hkind]
    rcases declaredKind_of_isResource hresource with heq | heq <;> simp [heq]
  · rw [show t.kind? d = _ from hkind]
    rcases declaredKind_of_isResource hresource with heq | heq <;> simp [heq]

/-- A resource whose name is neither that of another declaration nor an intrinsic type can be
declared at any place: where two places give a shader, it is the same. -/
theorem generate_move_resource (tokens : List String) (scope : Program.Scope)
    (before after before' after' : List Program.Node) (resource : Program.Node)
    (options : Options) (t t' : Tree) (out out' : Output) (hparse : parse tokens = .ok scope)
    (hkeeps : KeepsIntrinsics scope.children) (hresource : resource.isResource = true)
    (hintrinsic : isIntrinsicType resource.name = false)
    (hnames : ∀ node ∈ scope.children, node.name ≠ resource.name)
    (hsplit : scope.children = before ++ after) (hsplit' : scope.children = before' ++ after')
    (ht : resolve (some (.root (before ++ resource :: after))) scope.table = .ok t)
    (ht' : resolve (some (.root (before' ++ resource :: after'))) scope.table = .ok t')
    (hout : generate (some t) options = .ok out) (hout' : generate (some t') options = .ok out') :
    out = out' := by
  obtain ⟨⟨-, hscope⟩, -⟩ := normal_of_parse hparse
  have hroot : ∀ node ∈ scope.children, node.IsRoot := fun node hnode => Or.inr (hscope node hnode)
  have hv : Variants resource.name (before ++ resource :: after)
      (before' ++ resource :: after') := by
    refine ⟨?_, ?_, ?_, ?_, ?_, hintrinsic, ?_⟩
    · rw [filter_insert (hsplit ▸ hnames), filter_insert (hsplit' ▸ hnames), ← hsplit, hsplit']
    · exact forall_insert (hsplit ▸ hroot) (Or.inl hresource)
    · exact forall_insert (hsplit' ▸ hroot) (Or.inl hresource)
    · exact keepsIntrinsics_insert (hsplit ▸ hkeeps) (Or.inl hresource) hintrinsic
    · exact keepsIntrinsics_insert (hsplit' ▸ hkeeps) (Or.inl hresource) hintrinsic
    · rw [structsOfAll_insert hresource, ← hsplit]
      exact fun other hother => hnames _ ((mem_structsOfAll hroot).mp hother)
  have htable : (Scope.root (before ++ resource :: after)).table = scope.table := by
    rw [Scope.table, Scope.table, hsplit, Scope.root, structsOfAll_insert hresource]
  have htable' : (Scope.root (before' ++ resource :: after')).table = scope.table := by
    rw [Scope.table, Scope.table, hsplit', Scope.root, structsOfAll_insert hresource]
  rw [← htable] at ht
  rw [← htable'] at ht'
  obtain ⟨G, hs, hl⟩ := resolve_laid hv.root ht
  obtain ⟨G', hs', hl'⟩ := resolve_laid hv.root' ht'
  obtain ⟨d, outer, hd, hplaced⟩ := exists_isSole hl (hsplit ▸ hroot) hresource (hsplit ▸ hnames)
  obtain ⟨d', outer', hd', hplaced'⟩ :=
    exists_isSole hl' (hsplit' ▸ hroot) hresource (hsplit' ▸ hnames)
  exact both_generate_of_sole hv hl hl' hd hd' hresource hplaced hplaced' options out out' hout
    hout'

/-- An image that is declared behind the function that reads it is found by its name. -/
theorem generate_move_resource_sample :
    let main : Program.Node := .function "main" [] "void" [.ident "color"] []
    let image : Program.Node := .binding ⟨"color", some (.image "rgba8"), 0, 0, true, true, 0⟩
    let t : Tree := ⟨#[.scope "root" [some 1, some 4],
      .binding ⟨"color", .image, [], "rgba8", 0, 0, true, true, 0⟩,
      .struct ⟨"void", none, [], []⟩, .ident "color" (some 1),
      .function ⟨"main", [], some 2, [some 3], []⟩]⟩
    let t' : Tree := ⟨#[.scope "root" [some 3, some 4], .struct ⟨"void", none, [], []⟩,
      .ident "color" none, .function ⟨"main", [], some 1, [some 2], []⟩,
      .binding ⟨"color", .image, [], "rgba8", 0, 0, true, true, 0⟩]⟩
    parse (Scope.root [main]).tokens = .ok (.root [main]) ∧
      resolve (some (.root [image, main])) .empty = .ok t ∧
      resolve (some (.root [main, image])) .empty = .ok t' ∧
      ∃ out, generate (some t) .default = .ok out ∧ generate (some t') .default = .ok out := by
  intro main image t t'
  have hmain : (Scope.root [main]).IsProgram :=
    isProgram_function (by decide) (by decide)
      (List.forall_mem_singleton.mpr (.value (.ident ⟨by decide, by decide⟩)))
  have ht : resolve (some (.root [image, main])) .empty = .ok t :=
    resolve_of_evaluate 9 (by decide +kernel)
  have ht' : resolve (some (.root [main, image])) .empty = .ok t' :=
    resolve_of_evaluate 9 (by decide +kernel)
  obtain ⟨out, hout⟩ : Succeeds (generate (some t) .default) :=
    succeeds_of_isSome (by decide +kernel)
  obtain ⟨out', hout'⟩ : Succeeds (generate (some t') .default) :=
    succeeds_of_isSome (by decide +kernel)
  have heq := generate_move_resource _ _ [] [main] [main] [] image .default t t' out out'
    (parse_tokens hmain) (List.forall_mem_nil _) rfl (by decide)
    (List.forall_mem_singleton.mpr (by decide)) rfl rfl ht ht' hout hout'
  exact ⟨parse_tokens hmain, ht, ht', out, hout, heq ▸ hout'⟩

end Shader.Glsl
