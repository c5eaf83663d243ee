import Shader.Proofs.Grammar.RoundTrip
import Shader.Proofs.Resolution.Evaluation
import Shader.Proofs.Resolution.Layout

/-!
# Lexical scope

In a resolved program a name in a function refers to a variable that the function declares before
the name, or to a declaration before the function; behind a point it can refer to a field. Neither a
field nor a declaration is a variable, so that no other function refers to the variables of a
function.
-/

namespace Shader.Program

theorem Node.IsDeclaration.name_ne_empty {node : Node} (h : node.IsDeclaration) :
    node.name ≠ "" := by
  cases node with
  | struct | function | member => exact ne_of_isIdentifier h.1 rfl
  | _ => exact absurd h id

end Shader.Program

namespace Shader.Resolution

open Arena Program

variable {t : Tree} {h : Handle} {name : String} {outer : Block} {node : Program.Node}

/-! ## Bodies -/

/-- Every name refers to what is in scope, and every variable that a name refers to is declared
before the name. -/
def IsLexical (t : Tree) (outer : Block) (ms : List Mention) : Prop :=
  ∀ earlier name source left later, ms = earlier ++ .used name source left :: later →
    source = referent t (localsOf earlier) outer name left ∧
      ∀ var type, t.node? source = some (.localVar var type) → .declared name source ∈ earlier

/-- What holds of the body of a function, where `outer` has the declarations before it. -/
def HasBody (t : Tree) (outer : Block) : Program.Node → Handle → Prop
  | .function _ _ _ statements _, h =>
    ∃ decl ms, t.node? h = some (.function decl) ∧ MentionsAll t statements decl.statements ms ∧
      IsLexical t outer ms
  | _, _ => True

/-- What holds of the bodies of declarations. Each declaration sees those before it, the latest
first. -/
inductive Bodies (t : Tree) : Block → List Program.Node → List Handle → Prop
  | nil {outer : Block} : Bodies t outer [] []
  | cons {outer node nodes h hs} (hbody : HasBody t outer node h)
      (hrest : Bodies t ((node.name, h) :: outer) nodes hs) :
      Bodies t outer (node :: nodes) (h :: hs)

theorem mem_localsOf {ms : List Mention} {x : Handle} :
    (name, x) ∈ localsOf ms ↔ .declared name x ∈ ms := by
  rw [localsOf, List.mem_reverse, List.mem_filterMap]
  refine ⟨?_, fun hx => ⟨_, hx, rfl⟩⟩
  rintro ⟨mention, hmention, hentry⟩
  cases mention with
  | declared => cases hentry; exact hmention
  | used => cases hentry

/-- A name that refers to an expression refers to a variable, where no declaration is an
expression. -/
theorem mem_of_referent {locals : Block} {left : Option Handle}
    (houter : ∀ entry ∈ outer, ¬ OfKind .expression t entry.2)
    (hsource : OfKind .expression t (referent t locals outer name left)) :
    (name, referent t locals outer name left) ∈ locals := by
  unfold referent at hsource ⊢
  dsimp only at hsource ⊢
  cases hfield : left.bind fun left => firstField t name (fieldsAt t (denoted t left)) with
  | some j =>
    rw [hfield, Option.some_or] at hsource
    obtain ⟨left, -, hfield⟩ := Option.bind_eq_some_iff.mp hfield
    cases (firstField_ofKind hfield).symm.trans hsource
  | none =>
    rw [hfield, Option.none_or] at hsource
    rw [Option.none_or]
    cases hlocal : locals.latest? name with
    | some x => exact Block.mem_of_latest? hlocal
    | none =>
      rw [hlocal, Option.none_or] at hsource
      cases hlatest : outer.latest? name with
      | some x =>
        rw [hlatest] at hsource
        exact absurd hsource (houter _ (Block.mem_of_latest? hlatest))
      | none =>
        rw [hlatest] at hsource
        cases hsource

theorem Placed.hasBody {G : String → Handle → Prop}
    (houter : ∀ entry ∈ outer, ¬ OfKind .expression t entry.2)
    (hp : Placed ⟨t, G, outer⟩ node h) : HasBody t outer node h := by
  cases hp with
  | function hnode _ _ hmentions hscoped =>
    refine ⟨_, _, hnode, hmentions, fun earlier name source left later hms => ?_⟩
    have hsource := hscoped hms (.refl t)
    rw [List.append_nil] at hsource
    refine ⟨hsource, fun var type hvar => mem_localsOf.mp ?_⟩
    rw [hsource] at hvar ⊢
    exact mem_of_referent houter (Tree.kind?_of_node? hvar)
  | _ => trivial

theorem Layout.bodies {G : String → Handle → Prop} {n : Nat} {nodes : List Program.Node}
    {hs : List Handle} (hl : Layout t G n outer nodes hs)
    (hnames : ∀ node ∈ nodes, node.name ≠ "")
    (hplaced : ∀ {outer node h}, Placed ⟨t, G, outer⟩ node h → ¬ OfKind .expression t h)
    (houter : ∀ entry ∈ outer, ¬ OfKind .expression t entry.2) : Bodies t outer nodes hs := by
  induction hl with
  | nil => exact .nil
  | cons hp _ _ _ ih =>
    obtain ⟨hname, hnames⟩ := List.forall_mem_cons.mp hnames
    rw [Block.declare, if_neg hname] at ih
    exact .cons (hp.hasBody houter)
      (ih hnames (List.forall_mem_cons.mpr ⟨hplaced hp, houter⟩))

/-! ## Resolved programs -/

/-- In a program that is read and resolved, every name in a function refers to the latest variable
of that name before it in the function, else to the latest declaration of that name before the
function, and else to nothing. Behind a point the first field of that name of what stands before the
point comes first. A name that refers to a variable refers to one of its own function. -/
theorem resolve_lexical {tokens : List String} {scope : Program.Scope}
    (hparse : parse tokens = .ok scope) (h : resolve (some scope) scope.table = .ok t) :
    Bodies t [] scope.children t.declarations := by
  have hscope := (normal_of_parse hparse).1.2
  obtain ⟨G, hs, hl⟩ := resolve_laid (fun node hnode => Or.inr (hscope node hnode)) h
  rw [hl.declarations]
  have hplaced {outer : Block} {node : Program.Node} {x : Handle}
      (hp : Placed ⟨t, G, outer⟩ node x) : ¬ OfKind .expression t x := by
    obtain ⟨kind, -, hkind, hx⟩ := hp.ofKind hl.types
    intro hexpression
    exact hkind (Option.some.inj (hx.symm.trans hexpression))
  exact hl.layout.bodies (fun node hnode => (hscope node hnode).name_ne_empty) hplaced
    (List.forall_mem_nil _)

/-- A field behind a variable, a field behind a member whose type is an instance, a name that only
another function declares, and a function. -/
theorem resolve_lexical_sample :
    let scope : Program.Scope := .root [.struct ⟨"S", [⟨"x", "f32", 0, []⟩], []⟩,
      .member ⟨"m", "In<S>", 0, []⟩,
      .function "f" [] "f32" [.localVar "v" "S", .access (.ident "v") (.ident "x")] [],
      .function "g" [] "f32" [.access (.ident "m") (.ident "x"), .ident "v", .ident "f"] []]
    let t : Tree := ⟨#[.scope "root" [some 3, some 6, some 11, some 17],
      .struct ⟨"f32", none, [], []⟩, .member ⟨"x", some 1, 0, []⟩,
      .struct ⟨"S", none, [some 2], []⟩, .struct ⟨"In", none, [], []⟩,
      .struct ⟨"In<S>", some 4, [], [some 3]⟩, .member ⟨"m", some 5, 0, []⟩,
      .localVar "v" (some 3), .ident "v" (some 7), .ident "x" (some 2), .access (some 8) (some 9),
      .function ⟨"f", [], some 1, [some 7, some 10], []⟩, .ident "m" (some 6),
      .ident "x" (some 2), .access (some 12) (some 13), .ident "v" none, .ident "f" (some 11),
      .function ⟨"g", [], some 1, [some 14, some 15, some 16], []⟩]⟩
    parse scope.tokens = .ok scope ∧ resolve (some scope) scope.table = .ok t ∧
      Bodies t [] scope.children t.declarations := by
  intro scope t
  have hstruct : (Program.Node.struct ⟨"S", [⟨"x", "f32", 0, []⟩], []⟩).IsDeclaration :=
    ⟨by decide, List.forall_mem_nil _,
      List.forall_mem_singleton.mpr ⟨by decide, .plain (by decide), rfl⟩⟩
  have hmember : (Program.Node.member ⟨"m", "In<S>", 0, []⟩).IsDeclaration :=
    ⟨by decide, List.forall_mem_nil _, @IsTypeName.generic "In" "S" (by decide) (by decide),
      by decide⟩
  have haccess {left : String} (hleft : IsName left) :
      IsExpression (.access (.ident left) (.ident "x")) :=
    .value (.access (.ident hleft) (.ident ⟨by decide, by decide⟩)
      (show Groups "." (.ident "x") (.ident "x") by unfold Groups; decide))
  have hfirst : (Program.Node.function "f" [] "f32"
      [.localVar "v" "S", .access (.ident "v") (.ident "x")] []).IsDeclaration :=
    ⟨by decide, List.forall_mem_nil _, rfl, .plain (by decide), List.forall_mem_cons.mpr
      ⟨.value (.localVar (by decide) (.plain (by decide))),
        List.forall_mem_singleton.mpr (haccess ⟨by decide, by decide⟩)⟩⟩
  have hsecond : (Program.Node.function "g" [] "f32"
      [.access (.ident "m") (.ident "x"), .ident "v", .ident "f"] []).IsDeclaration :=
    ⟨by decide, List.forall_mem_nil _, rfl, .plain (by decide), List.forall_mem_cons.mpr
      ⟨haccess ⟨by decide, by decide⟩, List.forall_mem_cons.mpr
        ⟨.value (.ident ⟨by decide, by decide⟩),
          List.forall_mem_singleton.mpr (.value (.ident ⟨by decide, by decide⟩))⟩⟩⟩
  have hparse : parse scope.tokens = .ok scope := parse_tokens ⟨rfl, List.forall_mem_cons.mpr
    ⟨hstruct, List.forall_mem_cons.mpr ⟨hmember, List.forall_mem_cons.mpr
      ⟨hfirst, List.forall_mem_singleton.mpr hsecond⟩⟩⟩⟩
  have hresolve : resolve (some scope) scope.table = .ok t :=
    resolve_of_evaluate 9 (by decide +kernel)
  exact ⟨hparse, hresolve, resolve_lexical hparse hresolve⟩

end Shader.Resolution
