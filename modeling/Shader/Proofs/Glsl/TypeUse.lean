import Shader.Proofs.Glsl.Markup
import Shader.Proofs.Glsl.Text

/-!
# Types that a declaration names

The writer follows the arguments of generic types on its own, apart from the dependencies. What it
arrives at is a dependency all the same: the types that the text of a declaration names are among
its dependencies, and an instance depends on its arguments.
-/

namespace Shader.Glsl

open Arena Relation
open Program (bind_eq_ok)

variable {d h : Handle} {name : String} {decl : Struct} {r r' : References} {pieces : List Piece}
  {p : Handle → Prop} {members : List Handle} {rows : List Row} {n : Numbering} {depth : Nat}
  {field m : Member} {result : List Row × Numbering}
variable {parts : List (List Piece)}

/-! ## Names of types -/

/-- The type at the first handle is written by the name of the one at the second. -/
inductive Denotes (t : Tree) : Handle → Handle → Prop
  | self (h : Handle) : Denotes t h h
  | argument {h a e : Handle} {decl : Struct} (hstruct : t.struct? h = some decl)
    (hinstance : decl.isInstance = true) (htypes : decl.types = [a]) (hdenotes : Denotes t a e) :
    Denotes t h e

/-- The name is the written pointee of an instance: a node that stands for `T` in `Outer<T*>`. -/
def NamesPointee (t : Tree) (h : Handle) (name : String) : Prop :=
  ∃ e decl, Denotes t h e ∧ t.struct? e = some decl ∧ decl.isInstance = true ∧
    (∀ a, decl.types ≠ [a]) ∧ name = Program.TypeName.withoutStar decl.name

variable {t : Tree} {s : Spacing}

theorem typeTextFrom_denotes {steps : Nat} (hrun : typeTextFrom t steps h = .ok name) :
    (∃ e decl, Denotes t h e ∧ t.struct? e = some decl ∧ decl.isInstance = false ∧
      name = spelling decl.name) ∨ NamesPointee t h name := by
  induction steps generalizing h with
  | zero => cases hrun
  | succ steps ih =>
    rw [typeTextFrom] at hrun
    cases hstruct : t.struct? h with
    | none =>
      rw [hstruct] at hrun
      cases hrun
    | some decl =>
      rw [hstruct] at hrun
      dsimp only at hrun
      split at hrun
      · rename_i hinstance
        split at hrun
        · rename_i a htypes
          refine (ih hrun).imp ?_ ?_
          · rintro ⟨e, decl', hdenotes, hrest⟩
            exact ⟨e, decl', .argument hstruct hinstance htypes hdenotes, hrest⟩
          · rintro ⟨e, decl', hdenotes, hrest⟩
            exact ⟨e, decl', .argument hstruct hinstance htypes hdenotes, hrest⟩
        · rename_i hmany
          cases hrun
          exact Or.inr ⟨h, decl, .self h, hstruct, hinstance, hmany, rfl⟩
      · rename_i hplain
        cases hrun
        exact Or.inl ⟨h, decl, .self h, hstruct, Bool.eq_false_iff.mpr hplain, rfl⟩

theorem spelling_cases (name : String) :
    (∃ type, (type, spelling name) ∈ typeSpellings) ∨
      spelling name = name ∧ spelling? name = none := by
  unfold spelling
  cases hs : spelling? name with
  | none => exact Or.inr ⟨rfl, rfl⟩
  | some text =>
    obtain ⟨⟨type, text'⟩, hfind, htext⟩ := Option.map_eq_some_iff.mp hs
    cases htext
    exact Or.inl ⟨type, List.mem_of_find?_eq_some hfind⟩

/-! ## Dependencies on types -/

/-- The declaration refers to the struct. -/
def DependsOnType (c : Catalog) (h d : Handle) : Prop :=
  DependsOn c h d ∧ c.tree.kind? d = some .struct

/-- The declaration uses the type, itself or through the types that it uses. -/
def UsesType (c : Catalog) : Handle → Handle → Prop := TransGen (DependsOnType c)

variable {c : Catalog}

theorem isSome_of_struct? (hs : t.struct? h = some decl) : h.isSome := by
  cases h with
  | none => cases hs
  | some i => rfl

theorem exists_struct?_of_typeText (hname : typeText t h = .ok name) :
    ∃ decl, t.struct? h = some decl := by
  unfold typeText at hname
  rw [typeTextFrom] at hname
  cases hstruct : t.struct? h with
  | none =>
    rw [hstruct] at hname
    cases hname
  | some decl => exact ⟨decl, rfl⟩

theorem DependsOn.usesType (hd : DependsOn c h d) (hname : typeText c.tree d = .ok name) :
    UsesType c h d := by
  refine .single ⟨hd, ?_⟩
  obtain ⟨decl, hstruct⟩ := exists_struct?_of_typeText hname
  exact (kind?_of_struct? hstruct).2

section References

variable (r : References)

theorem References.subset_add (h : Handle) : r.found ⊆ (r.add h).found := by
  unfold References.add
  split
  · exact List.Subset.refl _
  · exact List.subset_append_left _ _

theorem References.mem_add (hh : h.isSome) : h ∈ (r.add h).found := by
  unfold References.add
  split
  · rename_i hold
    cases h with
    | none => cases hh
    | some i => simpa using hold
  · simp

theorem References.subset_addTypeOf (h : Handle) : r.found ⊆ (r.addTypeOf t h).found := by
  unfold References.addTypeOf
  split
  · exact r.subset_add _
  · exact r.subset_add _
  · exact List.Subset.refl _

theorem References.subset_addNamed (h : Handle) (name : String) :
    r.found ⊆ (r.addNamed c h name).found := by
  unfold References.addNamed
  split
  · split
    · exact r.subset_add h
    · exact List.Subset.refl _
  · split
    · exact List.Subset.refl _
    · split
      · exact r.subset_add _
      · exact List.Subset.refl _

variable {r}

theorem References.subset_addInputs {inputs : List String} (h : r.addInputs c inputs = .ok r') :
    r.found ⊆ r'.found := by
  induction inputs generalizing r with
  | nil =>
    cases h
    exact List.Subset.refl _
  | cons name rest ih =>
    rw [References.addInputs] at h
    split at h
    · exact List.Subset.trans (r.subset_add _) (ih h)
    · split at h
      · exact ih h
      · cases h

variable {α : Type} {f : References → α → References}

theorem References.subset_foldl (hf : ∀ r a, r.found ⊆ (f r a).found) (xs : List α) :
    r.found ⊆ (xs.foldl f r).found := by
  induction xs generalizing r with
  | nil => exact List.Subset.refl _
  | cons a xs ih => exact List.Subset.trans (hf r a) ih

theorem References.mem_foldl (hf : ∀ r a, r.found ⊆ (f r a).found) {xs : List α} {a : α}
    (ha : a ∈ xs) (hd : ∀ r, d ∈ (f r a).found) : d ∈ (xs.foldl f r).found := by
  induction xs generalizing r with
  | nil => cases ha
  | cons b xs ih =>
    rcases List.mem_cons.mp ha with rfl | ha
    · exact References.subset_foldl hf xs (hd r)
    · exact ih ha

end References

/-! ## Types that pieces name -/

/-- Every type that the pieces name is written by its name and has the property. -/
def TypesFrom (t : Tree) (p : Handle → Prop) (pieces : List Piece) : Prop :=
  ∀ h name, .type h name ∈ pieces → typeText t h = .ok name ∧ p h

namespace TypesFrom

variable {p q : Handle → Prop} {a b : List Piece}

theorem nil : TypesFrom t p [] := by
  intro h name hmem
  cases hmem

theorem text (body : String) (ha : TypesFrom t p a) : TypesFrom t p (.text body :: a) := by
  intro h name hmem
  rcases List.mem_cons.mp hmem with heq | hmem
  · cases heq
  · exact ha h name hmem

theorem definition (struct : String) (ha : TypesFrom t p a) :
    TypesFrom t p (.definition struct :: a) := by
  intro h name hmem
  rcases List.mem_cons.mp hmem with heq | hmem
  · cases heq
  · exact ha h name hmem

theorem append (ha : TypesFrom t p a) (hb : TypesFrom t p b) : TypesFrom t p (a ++ b) := by
  intro h name hmem
  rcases List.mem_append.mp hmem with hmem | hmem
  · exact ha h name hmem
  · exact hb h name hmem

theorem imp (ha : TypesFrom t p a) (hpq : ∀ h, p h → q h) : TypesFrom t q a :=
  fun h name hmem => (ha h name hmem).imp_right (hpq h)

theorem flatten (hparts : ∀ part ∈ parts, TypesFrom t p part) :
    TypesFrom t p parts.flatten := by
  intro h name hmem
  obtain ⟨part, hpart, hmem⟩ := List.mem_flatten.mp hmem
  exact hparts part hpart h name hmem

theorem separated (hparts : ∀ part ∈ parts, TypesFrom t p part) :
    TypesFrom t p (separated s parts) := by
  induction parts with
  | nil => exact nil
  | cons part rest ih =>
    obtain ⟨hpart, hrest⟩ := List.forall_mem_cons.mp hparts
    cases rest with
    | nil => exact hpart
    | cons next rest => exact hpart.append ((ih hrest).text _)

theorem typePiece {piece : Piece} (hrun : typePiece t h = .ok piece)
    (hp : h.isSome → p h) (ha : TypesFrom t p a) : TypesFrom t p (piece :: a) := by
  unfold Glsl.typePiece at hrun
  cases htext : typeText t h with
  | error e =>
    rw [htext] at hrun
    cases hrun
  | ok text =>
    rw [htext] at hrun
    cases hrun
    intro h' name hmem
    rcases List.mem_cons.mp hmem with heq | hmem
    · cases heq
      obtain ⟨decl, hstruct⟩ := exists_struct?_of_typeText htext
      exact ⟨htext, hp (isSome_of_struct? hstruct)⟩
    · exact ha h' name hmem

theorem plain {x : Except GenerateError String}
    (hrun : (x.map fun body => [.text body]) = .ok pieces) : TypesFrom t p pieces := by
  cases x with
  | error e => cases hrun
  | ok body =>
    cases hrun
    exact nil.text body

end TypesFrom

/-! ## Expressions -/

/-- From `r` to `r'` no reference is taken back, and the types of the pieces are among them. -/
def Records (t : Tree) (x : Except GenerateError (List Piece)) (r r' : References) : Prop :=
  r.found ⊆ r'.found ∧ ∀ pieces, x = .ok pieces → TypesFrom t (· ∈ r'.found) pieces

theorem TypesFrom.later (h : TypesFrom t (· ∈ r.found) pieces) (hr : r.found ⊆ r'.found) :
    TypesFrom t (· ∈ r'.found) pieces :=
  h.imp fun _ hmem => hr hmem

theorem foldlM_records {f : Handle → References → Except GenerateError References}
    {g : Handle → Except GenerateError (List Piece)}
    (hfg : ∀ h r r', f h r = .ok r' → Records t (g h) r r') {hs : List Handle}
    (hrun : hs.foldlM (fun r h => f h r) r = .ok r') :
    r.found ⊆ r'.found ∧ ∀ parts, hs.mapM g = .ok parts →
      ∀ part ∈ parts, TypesFrom t (· ∈ r'.found) part := by
  induction hs generalizing r with
  | nil =>
    cases hrun
    refine ⟨List.Subset.refl _, fun parts hparts => ?_⟩
    cases hparts
    exact List.forall_mem_nil _
  | cons h hs ih =>
    rw [List.foldlM_cons] at hrun
    obtain ⟨r₁, hstep, hrun⟩ := bind_eq_ok hrun
    obtain ⟨hkeep, htypes⟩ := hfg h r r₁ hstep
    obtain ⟨hkeeps, hrest⟩ := ih hrun
    refine ⟨List.Subset.trans hkeep hkeeps, fun parts hparts => ?_⟩
    rw [List.mapM_cons] at hparts
    obtain ⟨part, hpart, hparts⟩ := bind_eq_ok hparts
    obtain ⟨more, hmore, hparts⟩ := bind_eq_ok hparts
    cases hparts
    exact List.forall_mem_cons.mpr ⟨(htypes part hpart).later hkeeps, hrest more hmore⟩

theorem typesFrom_operandPieces {parent : Operator} {isRight : Bool} (hp : TypesFrom t p pieces) :
    TypesFrom t p (operandPieces t parent isRight h pieces) := by
  unfold operandPieces
  split
  · split
    · exact (hp.append (TypesFrom.nil.text _)).text _
    · exact hp
  · exact hp

theorem typesFrom_operationPieces {op : Operator} {left right : List Piece}
    (hl : TypesFrom t p left) (hr : TypesFrom t p right) :
    TypesFrom t p (operationPieces s op left right) := by
  unfold operationPieces
  split
  · exact hl.append (hr.text _)
  · exact hl.append (hr.text _)

theorem typesFrom_of_isName (hname : isName t h = true)
    (hrun : exprPieces t s depth h = .ok pieces) : TypesFrom t p pieces := by
  unfold isName at hname
  split at hname
  · rename_i hnode
    cases depth with
    | zero => cases hrun
    | succ depth =>
      rw [exprPieces, hnode] at hrun
      exact .plain hrun
  · cases hname

/-- What is read of an expression includes the types that its text names. -/
theorem readExpr_records (hread : readExpr c depth h r = .ok r') :
    Records c.tree (exprPieces c.tree s depth h) r r' := by
  induction depth generalizing h r r' with
  | zero => cases hread
  | succ depth ih =>
    have hall {hs : List Handle} {r r' : References}
        (hrun : hs.foldlM (fun r h => readExpr c depth h r) r = .ok r') :=
      foldlM_records (g := exprPieces c.tree s depth) (fun _ _ _ hstep => ih hstep) hrun
    rw [readExpr] at hread
    unfold Records
    rw [exprPieces]
    cases hnode : c.tree.node? h with
    | none =>
      rw [hnode] at hread
      cases hread
    | some node =>
      rw [hnode] at hread
      cases node with
      | ident name source =>
        cases hread
        exact ⟨r.subset_addNamed source name, fun pieces hp => .plain hp⟩
      | access left right =>
        obtain ⟨r₁, hleft, hread⟩ := bind_eq_ok hread
        obtain ⟨hkeep, hltypes⟩ := ih hleft
        have hright : Records c.tree (exprPieces c.tree s depth right) r₁ r' := by
          split at hread
          · rename_i hname
            cases hread
            exact ⟨List.Subset.refl _, fun pieces hp => typesFrom_of_isName hname hp⟩
          · exact ih hread
        refine ⟨List.Subset.trans hkeep hright.1, fun pieces hp => ?_⟩
        obtain ⟨l, hl, hp⟩ := bind_eq_ok hp
        obtain ⟨m, hm, hp⟩ := bind_eq_ok hp
        cases hp
        exact ((hltypes l hl).later hright.1).append ((hright.2 m hm).text _)
      | call callee target args =>
        dsimp only at hread
        obtain ⟨hkeep, hargs⟩ := hall hread
        refine ⟨List.Subset.trans ?_ hkeep, fun pieces hp => ?_⟩
        · split
          · exact r.subset_add target
          · exact r.subset_addNamed target callee
        · obtain ⟨parts, hparts, hp⟩ := bind_eq_ok hp
          cases hp
          exact ((TypesFrom.separated (hargs parts hparts)).append (TypesFrom.nil.text _)).text _
      | intrinsicCall callee elements =>
        obtain ⟨hkeep, hparts⟩ := hall hread
        refine ⟨hkeep, fun pieces hp => ?_⟩
        obtain ⟨parts, hrun, hp⟩ := bind_eq_ok hp
        cases hp
        exact TypesFrom.flatten (hparts parts hrun)
      | binary op left right =>
        obtain ⟨r₁, hleft, hread⟩ := bind_eq_ok hread
        obtain ⟨hkeep, hltypes⟩ := ih hleft
        obtain ⟨hkeep', hrtypes⟩ := ih hread
        refine ⟨List.Subset.trans hkeep hkeep', fun pieces hp => ?_⟩
        obtain ⟨l, hl, hp⟩ := bind_eq_ok hp
        obtain ⟨m, hm, hp⟩ := bind_eq_ok hp
        cases hp
        exact typesFrom_operationPieces (typesFrom_operandPieces ((hltypes l hl).later hkeep'))
          (typesFrom_operandPieces (hrtypes m hm))
      | localVar name type =>
        cases hread
        refine ⟨r.subset_add type, fun pieces hp => ?_⟩
        obtain ⟨piece, hpiece, hp⟩ := bind_eq_ok hp
        cases hp
        exact .typePiece hpiece (fun hsome => r.mem_add hsome) (TypesFrom.nil.text _)
      | sequence elements =>
        obtain ⟨hkeep, hparts⟩ := hall hread
        refine ⟨hkeep, fun pieces hp => ?_⟩
        obtain ⟨parts, hrun, hp⟩ := bind_eq_ok hp
        cases hp
        exact TypesFrom.flatten (hparts parts hrun)
      | ret value =>
        cases value with
        | none =>
          cases hread
          exact ⟨List.Subset.refl _, fun pieces hp => .plain hp⟩
        | some value =>
          obtain ⟨hkeep, htypes⟩ := ih hread
          refine ⟨hkeep, fun pieces hp => ?_⟩
          obtain ⟨v, hv, hp⟩ := bind_eq_ok hp
          cases hp
          exact (htypes v hv).text _
      | fragment decl => exact ⟨References.subset_addInputs hread, fun pieces hp => .plain hp⟩
      | constant | marker | literal | placeholder =>
        cases hread
        exact ⟨List.Subset.refl _, fun pieces hp => .plain hp⟩
      | _ => cases hread

/-! ## Declarations -/

/-- Every type that the rows name is written by its name and has the property. -/
def RowsFrom (t : Tree) (p : Handle → Prop) (rows : List Row) : Prop :=
  ∀ row ∈ rows, TypesFrom t p row.pieces

namespace RowsFrom

variable {p q : Handle → Prop} {a b : List Row}

theorem nil : RowsFrom t p [] := by
  intro row hrow
  cases hrow

theorem cons {row : Row} (hrow : TypesFrom t p row.pieces) (ha : RowsFrom t p a) :
    RowsFrom t p (row :: a) := List.forall_mem_cons.mpr ⟨hrow, ha⟩

theorem append (ha : RowsFrom t p a) (hb : RowsFrom t p b) : RowsFrom t p (a ++ b) :=
  List.forall_mem_append.mpr ⟨ha, hb⟩

theorem row (line : Line) : RowsFrom t p [line.row] := nil.cons (TypesFrom.nil.text _)

theorem foot (body : String) : RowsFrom t p [⟨0, [.text body]⟩, blankLine.row] :=
  (row blankLine).cons (TypesFrom.nil.text _)

end RowsFrom

theorem mapM_forall {α β : Type} {f : α → Except GenerateError β} {q : β → Prop} {xs : List α}
    {ys : List β} (hf : ∀ x ∈ xs, ∀ y, f x = .ok y → q y) (h : xs.mapM f = .ok ys) :
    ∀ y ∈ ys, q y := by
  induction xs generalizing ys with
  | nil =>
    cases h
    exact List.forall_mem_nil _
  | cons x xs ih =>
    rw [List.mapM_cons] at h
    obtain ⟨y, hy, h⟩ := bind_eq_ok h
    obtain ⟨rest, hrest, h⟩ := bind_eq_ok h
    cases h
    obtain ⟨hx, hxs⟩ := List.forall_mem_cons.mp hf
    exact List.forall_mem_cons.mpr ⟨hx y hy, ih hxs hrest⟩

theorem memberRows_from {place : String}
    (hp : ∀ h ∈ members, ∀ m, t.node? h = some (.member m) → m.type.isSome → p m.type)
    (hrun : within place (members.mapM (memberRow t)) = .ok rows) : RowsFrom t p rows := by
  refine mapM_forall (fun h hh row hrow => ?_) (eq_ok_of_within hrun)
  unfold memberRow at hrow
  split at hrow
  · rename_i m hnode
    obtain ⟨pieces, hpieces, hrow⟩ := bind_eq_ok hrow
    cases hrow
    obtain ⟨piece, hpiece, hpieces⟩ := bind_eq_ok hpieces
    cases hpieces
    exact .typePiece hpiece (hp h hh m hnode) ((TypesFrom.nil.text _).text _)
  · cases hrow

theorem mem_typesOf (hh : h ∈ members) (hnode : t.node? h = some (.member m))
    (hsome : m.type.isSome) : m.type ∈ (members.foldl (fun r m => r.addTypeOf t m) r).found := by
  refine References.mem_foldl (fun r a => r.subset_addTypeOf a) hh fun r => ?_
  rw [References.addTypeOf, hnode]
  exact r.mem_add hsome

theorem parameterPieces_from {function : String}
    (hp : ∀ name type, t.node? h = some (.parameter name type) → type.isSome → p type)
    (hrun : parameterPieces t function h = .ok pieces) : TypesFrom t p pieces := by
  unfold parameterPieces at hrun
  split at hrun
  · rename_i name type hnode
    obtain ⟨piece, hpiece, hrun⟩ := bind_eq_ok hrun
    cases hrun
    exact .text _ (.typePiece (eq_ok_of_within hpiece) (hp name type hnode) (TypesFrom.nil.text _))
  · cases hrun

theorem statementRows_from {statements : List (List Piece)}
    (h : ∀ pieces ∈ statements, TypesFrom t p pieces) :
    RowsFrom t p (statementRows statements) := by
  intro row hrow
  obtain ⟨pieces, hpieces, rfl⟩ := List.mem_map.mp hrow
  have hp := h pieces (List.mem_of_mem_filter hpieces)
  show TypesFrom t p (terminatedPieces pieces)
  unfold terminatedPieces
  split
  · exact hp
  · exact hp.append (TypesFrom.nil.text _)

theorem functionRows_from {f : Function} (hread : readFunction c f = .ok r)
    (hrun : functionRows c.tree s f = .ok rows) : RowsFrom c.tree (· ∈ r.found) rows := by
  obtain ⟨returns, hreturns, hrun⟩ := bind_eq_ok hrun
  obtain ⟨params, hparams, hrun⟩ := bind_eq_ok hrun
  obtain ⟨statements, hstatements, hrun⟩ := bind_eq_ok hrun
  cases hrun
  obtain ⟨hkeep, hbody⟩ :=
    foldlM_records (fun _ _ _ hstep => readExpr_records (s := s) hstep) hread
  have hgrow (r : References) (h : Handle) :
      r.found ⊆ ((r.addTypeOf c.tree h).addLocal (c.tree.name h)).found := r.subset_addTypeOf h
  refine .append (.cons ?_ (statementRows_from (hbody statements (eq_ok_of_within hstatements))))
    (.foot _)
  refine .typePiece (eq_ok_of_within hreturns) (fun hsome => hkeep (References.mem_add _ hsome))
    (.text _ (.append (.separated (mapM_forall ?_ hparams)) (TypesFrom.nil.text _)))
  intro h hh pieces hpieces
  refine parameterPieces_from (fun name type hnode hsome => hkeep (References.subset_add _ _ ?_))
    hpieces
  refine References.mem_foldl hgrow hh fun r => ?_
  show type ∈ (r.addTypeOf c.tree h).found
  rw [References.addTypeOf, hnode]
  exact r.mem_add hsome

theorem fieldRows_from {owner : String} {number : UInt32} {fields : List Handle}
    {result : List Row × List String × UInt32}
    (hp : ∀ h ∈ fields, ∀ m, t.node? h = some (.member m) → m.type.isSome → p m.type)
    (hrun : fieldRows t s owner number fields = .ok result) : RowsFrom t p result.1 := by
  induction fields generalizing number result with
  | nil =>
    cases hrun
    exact .nil
  | cons h fields ih =>
    obtain ⟨hfirst, hrest⟩ := List.forall_mem_cons.mp hp
    rw [fieldRows] at hrun
    split at hrun
    · rename_i field hnode
      obtain ⟨piece, hpiece, hrun⟩ := bind_eq_ok hrun
      obtain ⟨more, hmore, hrun⟩ := bind_eq_ok hrun
      cases hrun
      refine .cons (.text _ (.typePiece hpiece (hfirst field hnode) (TypesFrom.nil.text _))) ?_
      exact ih hrest hmore
    · cases hrun

theorem dependencies_struct (hnode : c.tree.node? h = some (.struct decl)) :
    dependencies c h = .ok (decl.types.foldl References.add
      (decl.fields.foldl (fun r m => r.addTypeOf c.tree m) References.none)).found := by
  rw [dependencies, hnode]

theorem dependsOn_field {m : Handle} (hnode : c.tree.node? h = some (.struct decl))
    (hm : m ∈ decl.fields) (hfield : c.tree.node? m = some (.member field))
    (hsome : field.type.isSome) : DependsOn c h field.type :=
  ⟨_, dependencies_struct hnode, References.subset_foldl References.subset_add _
    (mem_typesOf hm hfield hsome)⟩

theorem dependsOn_argument {a : Handle} (hnode : c.tree.node? h = some (.struct decl))
    (ha : a ∈ decl.types) (hsome : a.isSome) : DependsOn c h a :=
  ⟨_, dependencies_struct hnode, References.mem_foldl References.subset_add ha fun r =>
    r.mem_add hsome⟩

theorem UsesType.denotes {e : Handle} (hd : UsesType c d h) (hdenotes : Denotes c.tree h e)
    (hstruct : c.tree.struct? e = some decl) : UsesType c d e := by
  induction hdenotes with
  | self h => exact hd
  | @argument h a e decl' hinstruct hinstance htypes hargument ih =>
    have hkind : ∃ decl, c.tree.struct? a = some decl := by
      cases hargument with
      | self => exact ⟨decl, hstruct⟩
      | argument ha => exact ⟨_, ha⟩
    obtain ⟨_, ha⟩ := hkind
    refine ih (hd.tail ⟨?_, (kind?_of_struct? ha).2⟩) hstruct
    refine dependsOn_argument (kind?_of_struct? hinstruct).1 ?_ (isSome_of_struct? ha)
    rw [htypes]
    exact List.mem_singleton_self a

theorem RowsFrom.usesType (hrows : RowsFrom c.tree (DependsOn c h) rows) :
    RowsFrom c.tree (UsesType c h) rows := by
  intro row hrow h' name hmem
  obtain ⟨hname, hdepends⟩ := hrows row hrow h' name hmem
  exact ⟨hname, hdepends.usesType hname⟩

theorem specializationRows_from {type : Handle} (htype : type.isSome → DependsOn c h type)
    (hrun : specializationRows c.tree s n name type = .ok result) :
    RowsFrom c.tree (UsesType c h) result.1 := by
  unfold specializationRows at hrun
  split at hrun
  · cases hrun
  · rename_i decl hstruct
    obtain ⟨hnode, hkind⟩ := kind?_of_struct? hstruct
    have huses : UsesType c h type := .single ⟨htype (isSome_of_struct? hstruct), hkind⟩
    obtain ⟨piece, hpiece, hrun⟩ := bind_eq_ok hrun
    have hrow {a : List Piece} (ha : TypesFrom c.tree (UsesType c h) a) :
        TypesFrom c.tree (UsesType c h) (piece :: a) := .typePiece hpiece (fun _ => huses) ha
    split at hrun
    · cases hrun
      exact .cons (.text _ (hrow (TypesFrom.nil.text _))) (.row _)
    · obtain ⟨⟨rows, names, next⟩, hfields, hrun⟩ := bind_eq_ok hrun
      cases hrun
      have hfieldRows : RowsFrom c.tree (DependsOn c type) rows :=
        fieldRows_from (fun m hm field hfield hsome => dependsOn_field hnode hm hfield hsome)
          hfields
      refine .append ?_ (.cons ?_ (.row _))
      · intro row hmem h' name' hpieces
        obtain ⟨hname, hlater⟩ := hfieldRows.usesType row hmem h' name' hpieces
        exact ⟨hname, huses.trans hlater⟩
      · exact .text _ (hrow (.text _ (hrow (TypesFrom.nil.text _))))

theorem dependsOn_member {m : Handle}
    (hdeps : dependencies c h =
      .ok (members.foldl (fun r m => r.addTypeOf c.tree m) References.none).found)
    (hm : m ∈ members) (hfield : c.tree.node? m = some (.member field))
    (hsome : field.type.isSome) : DependsOn c h field.type :=
  ⟨_, hdeps, mem_typesOf hm hfield hsome⟩

theorem bindingRows_from {b : Binding}
    (hp : ∀ h ∈ b.members, ∀ m, t.node? h = some (.member m) → m.type.isSome → p m.type)
    (hrun : bindingRows t s b = .ok rows) : RowsFrom t p rows := by
  unfold bindingRows at hrun
  split at hrun
  · obtain ⟨fields, hfields, hrun⟩ := bind_eq_ok hrun
    cases hrun
    exact .append (.cons (TypesFrom.nil.text _) (memberRows_from hp hfields)) (.foot _)
  · obtain ⟨lines, -, rfl⟩ := eq_ok_of_map hrun
    intro row hrow
    obtain ⟨line, -, rfl⟩ := List.mem_map.mp hrow
    exact TypesFrom.nil.text _

theorem interfaceRows_from {d : Direction} (hp : m.type.isSome → p m.type)
    (hrun : interfaceRows t n d m = .ok result) : RowsFrom t p result.1 := by
  obtain ⟨pieces, hpieces, hrun⟩ := bind_eq_ok hrun
  obtain ⟨piece, hpiece, hpieces⟩ := bind_eq_ok hpieces
  cases hpieces
  have hrow (a b c : String) : TypesFrom t p (.text a :: [piece, .text b] ++ [.text c]) :=
    .text _ (.typePiece hpiece hp ((TypesFrom.nil.text _).text _))
  cases d with
  | input | output =>
    cases hrun
    exact .cons (hrow _ _ _) (.row _)

/-- Every type that a declaration names is one that it uses. -/
theorem declarationRows_from {n' : Numbering} {deps : List Handle}
    (hdeps : dependencies c h = .ok deps)
    (hrun : declarationRows c.tree s n h = .ok (some rows, n')) :
    RowsFrom c.tree (UsesType c h) rows := by
  unfold declarationRows at hrun
  cases hnode : c.tree.node? h with
  | none =>
    rw [hnode] at hrun
    cases hrun
  | some node =>
    rw [hnode] at hrun
    cases node with
    | function decl =>
      obtain ⟨_, hrows, heq⟩ := eq_ok_of_map hrun
      cases heq
      have hread := hdeps
      rw [dependencies, hnode] at hread
      obtain ⟨r, hr, rfl⟩ := eq_ok_of_map hread
      refine RowsFrom.usesType fun row hrow => ?_
      exact (functionRows_from hr hrows row hrow).imp fun d hd => ⟨r.found, hdeps, hd⟩
    | struct decl =>
      dsimp only at hrun
      split at hrun
      · cases hrun
      · obtain ⟨_, hrows, heq⟩ := eq_ok_of_map hrun
        cases heq
        obtain ⟨fields, hfields, hrows⟩ := bind_eq_ok hrows
        cases hrows
        have hmembers := memberRows_from (fun m hm field hfield hsome =>
          dependsOn_field hnode hm hfield hsome) hfields
        refine .append (.cons (.text _ ?_) hmembers.usesType) (.foot _)
        exact .definition _ (TypesFrom.nil.text _)
    | binding decl =>
      obtain ⟨_, hrows, heq⟩ := eq_ok_of_map hrun
      cases heq
      exact RowsFrom.usesType (bindingRows_from (fun m hm field hfield hsome =>
        dependsOn_member (by rw [dependencies, hnode]) hm hfield hsome) hrows)
    | pushConstant members =>
      obtain ⟨_, hrows, heq⟩ := eq_ok_of_map hrun
      cases heq
      obtain ⟨fields, hfields, hrows⟩ := bind_eq_ok hrows
      cases hrows
      have hmembers := memberRows_from (fun m hm field hfield hsome =>
        dependsOn_member (c := c) (h := h) (by rw [dependencies, hnode]) hm hfield hsome) hfields
      exact .append (.cons (TypesFrom.nil.text _) hmembers.usesType) (.foot _)
    | specialization name type =>
      obtain ⟨⟨rows', n''⟩, hrows, heq⟩ := eq_ok_of_map hrun
      cases heq
      refine specializationRows_from (fun hsome => ⟨_, by rw [dependencies, hnode], ?_⟩) hrows
      exact References.mem_add _ hsome
    | member decl =>
      dsimp only at hrun
      split at hrun
      · obtain ⟨⟨rows', n''⟩, hrows, heq⟩ := eq_ok_of_map hrun
        cases heq
        refine RowsFrom.usesType (interfaceRows_from (fun hsome =>
          ⟨_, by rw [dependencies, hnode], ?_⟩) hrows)
        exact References.mem_add _ hsome
      · cases hrun
    | _ => cases hrun

end Shader.Glsl
