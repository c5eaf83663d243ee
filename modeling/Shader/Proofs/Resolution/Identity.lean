import Mathlib.Data.List.Nodup
import Shader.Proofs.Grammar.RoundTrip
import Shader.Proofs.Resolution.Declarations
import Shader.Proofs.Resolution.Layout
import Shader.Proofs.Resolution.Twins

/-!
# Types and their names

In a program of the grammar that keeps the intrinsic types, a type is known by its name: wherever
the name is written the same struct is meant, and that struct has the name. A struct that repeats
the name of an earlier one is not resolved again, so what is written in its fields stands nowhere.
Where a program replaces an intrinsic type, an instance made before keeps the replaced struct.
-/

namespace Shader.Program

variable {nodes : List Node} {structs : List Struct}

mutual

def Node.letTypes : Node → List String
  | .localVar _ type => [type]
  | .access left right => left.letTypes ++ right.letTypes
  | .binary _ left right => left.letTypes ++ right.letTypes
  | .call _ args => letTypesOfAll args
  | .ret (some value) => value.letTypes
  | _ => []

def letTypesOfAll : List Node → List String
  | [] => []
  | node :: rest => node.letTypes ++ letTypesOfAll rest

end

/-- The types that a declaration of the grammar writes: that of a member, those of the fields of a
struct, or the one that a function returns and those of its variables. -/
def Node.writtenTypes : Node → List String
  | .member decl => [decl.type]
  | .struct decl => decl.fields.map (·.type)
  | .function _ _ returns statements _ => returns :: letTypesOfAll statements
  | _ => []

def Node.settled (structs : List Struct) : Node → Node
  | .struct decl => .struct (decl.origin structs)
  | node => node

/-! ## Written types -/

theorem forall_letTypesOfAll {P : String → Prop}
    (h : ∀ node ∈ nodes, ∀ type ∈ node.letTypes, P type) :
    ∀ type ∈ letTypesOfAll nodes, P type := by
  induction nodes with
  | nil => exact List.forall_mem_nil _
  | cons node rest ih =>
    obtain ⟨hnode, hrest⟩ := List.forall_mem_cons.mp h
    rw [letTypesOfAll]
    exact List.forall_mem_append.mpr ⟨hnode, ih hrest⟩

mutual

theorem IsValue.letTypes {node : Node} : IsValue node → ∀ type ∈ node.letTypes, IsTypeName type
  | .ident _ => List.forall_mem_nil _
  | .constant _ => List.forall_mem_nil _
  | .localVar _ htype => List.forall_mem_singleton.mpr htype
  | .call _ hargs => forall_letTypesOfAll fun arg h => (hargs arg h).letTypes
  | .access hleft hright _ => List.forall_mem_append.mpr ⟨hleft.letTypes, hright.letTypes⟩
  | .binary _ _ hleft hright _ => List.forall_mem_append.mpr ⟨hleft.letTypes, hright.letTypes⟩

theorem IsExpression.letTypes {node : Node} :
    IsExpression node → ∀ type ∈ node.letTypes, IsTypeName type
  | .value hnode => hnode.letTypes
  | .leave => List.forall_mem_nil _
  | .leaveWith hvalue => hvalue.letTypes

end

theorem Node.IsDeclaration.writtenTypes {node : Node} (h : node.IsDeclaration) :
    ∀ type ∈ node.writtenTypes, IsTypeName type := by
  cases node with
  | member decl => exact List.forall_mem_singleton.mpr h.2.2.1
  | struct decl => exact List.forall_mem_map.mpr fun m hm => (h.2.2 m hm).2.1
  | function name params returns statements annotations =>
    obtain ⟨-, -, -, hreturns, hstatements⟩ := h
    exact List.forall_mem_cons.mpr
      ⟨hreturns, forall_letTypesOfAll fun node hnode => (hstatements node hnode).letTypes⟩
  | _ => exact h.elim

theorem Struct.origin_mem {decl : Struct} (hmem : decl ∈ structs) :
    decl.origin structs ∈ structs := by
  unfold Struct.origin
  split
  · exact hmem
  · cases hfirst : structs.find? (·.name = decl.name) with
    | none => exact hmem
    | some first => exact List.mem_of_find?_eq_some hfirst

theorem Struct.origin_of_nodup {decl : Struct} (hmem : decl ∈ structs)
    (hnodup : (structs.map (·.name)).Nodup) : decl.origin structs = decl := by
  unfold Struct.origin
  split
  · rfl
  · cases hfirst : structs.find? (·.name = decl.name) with
    | none => rfl
    | some first =>
      have hname : first.name = decl.name := by simpa using List.find?_some hfirst
      exact List.inj_on_of_nodup_map hnodup (List.mem_of_find?_eq_some hfirst) hmem hname

theorem Node.settled_mem {node : Node} (hroot : ∀ node ∈ nodes, node.IsRoot)
    (hmem : node ∈ nodes) : node.settled (structsOfAll nodes) ∈ nodes := by
  cases node with
  | struct decl =>
    exact (mem_structsOfAll hroot).mp (Struct.origin_mem ((mem_structsOfAll hroot).mpr hmem))
  | _ => exact hmem

theorem settled_of_nodup (hroot : ∀ node ∈ nodes, node.IsRoot)
    (hnodup : ((structsOfAll nodes).map (·.name)).Nodup) :
    nodes.map (Node.settled (structsOfAll nodes)) = nodes := by
  refine (List.map_congr_left fun node hnode => ?_).trans (List.map_id nodes)
  cases node with
  | struct decl =>
    rw [Node.settled, Struct.origin_of_nodup ((mem_structsOfAll hroot).mpr hnode) hnodup]
    rfl
  | _ => rfl

end Shader.Program

namespace Shader.Resolution

open Arena Program Program.TypeName

variable {t : Tree} {h : Handle} {G : String → Handle → Prop} {node : Program.Node}
variable {nodes : List Program.Node}

/-! ## Received types -/

def memberType? (t : Tree) (h : Handle) : Option Handle :=
  match t.node? h with
  | some (.member decl) => some decl.type
  | _ => none

mutual

/-- What the types of the variables of an expression have become, where `h` stands for it. -/
def letHandles (t : Tree) : Program.Node → Handle → List Handle
  | .localVar .., h =>
    match t.node? h with
    | some (.localVar _ type) => [type]
    | _ => []
  | .access left right, h =>
    match t.node? h with
    | some (.access l r) => letHandles t left l ++ letHandles t right r
    | _ => []
  | .binary _ left right, h =>
    match t.node? h with
    | some (.binary _ l r) => letHandles t left l ++ letHandles t right r
    | _ => []
  | .call _ args, h =>
    match t.node? h with
    | some (.call _ _ hs) => letHandlesOfAll t args hs
    | _ => []
  | .ret (some value), h =>
    match t.node? h with
    | some (.ret x) => letHandles t value x
    | _ => []
  | _, _ => []

def letHandlesOfAll (t : Tree) : List Program.Node → List Handle → List Handle
  | node :: rest, h :: hs => letHandles t node h ++ letHandlesOfAll t rest hs
  | _, _ => []

end

/-- What the types that a declaration writes have become, where `h` stands for it. -/
def receivedTypes (t : Tree) : Program.Node → Handle → List Handle
  | .member _, h => (memberType? t h).toList
  | .struct _, h =>
    match t.node? h with
    | some (.struct decl) => decl.fields.filterMap (memberType? t)
    | _ => []
  | .function _ _ _ statements _, h =>
    match t.node? h with
    | some (.function decl) => decl.returns :: letHandlesOfAll t statements decl.statements
    | _ => []
  | _, _ => []

def places (t : Tree) (nodes : List Program.Node) (hs : List Handle) : List (String × Handle) :=
  (nodes.zip hs).flatMap fun p => p.1.writtenTypes.zip (receivedTypes t p.1 p.2)

mutual

theorem Represents.letHandles {v : View} {locals : List String} {node : Program.Node}
    {h : Handle} : Represents v locals node h →
    List.Forall₂ v.types node.letTypes (letHandles v.tree node h)
  | .ident _ _ | .constant _ | .leave _ => .nil
  | .localVar hnode htype => by
    simpa [Node.letTypes, Resolution.letHandles, hnode] using htype
  | .access hnode hleft hright => by
    simpa [Node.letTypes, Resolution.letHandles, hnode] using
      List.rel_append hleft.letHandles hright.letHandles
  | .call hnode hargs _ => by
    simpa [Node.letTypes, Resolution.letHandles, hnode] using hargs.letHandles
  | .binary _ hnode hleft hright => by
    simpa [Node.letTypes, Resolution.letHandles, hnode] using
      List.rel_append hleft.letHandles hright.letHandles
  | .leaveWith hnode hvalue => by
    simpa [Node.letTypes, Resolution.letHandles, hnode] using hvalue.letHandles

theorem RepresentsField.letHandles {v : View} {locals : List String} {node : Program.Node}
    {h : Handle} : RepresentsField v locals node h →
    List.Forall₂ v.types node.letTypes (letHandles v.tree node h)
  | .name _ => .nil
  | .value _ hnode => hnode.letHandles

theorem RepresentsAll.letHandles {v : View} {locals : List String} {nodes : List Program.Node}
    {hs : List Handle} : RepresentsAll v locals nodes hs →
    List.Forall₂ v.types (letTypesOfAll nodes) (letHandlesOfAll v.tree nodes hs)
  | .nil => .nil
  | .cons hnode hrest => List.rel_append hnode.letHandles hrest.letHandles

end

theorem IsMember.memberType? {m : Program.Member} (hm : IsMember G t m h) :
    ∃ type, memberType? t h = some type ∧ G m.type type := by
  obtain ⟨type, hnode, htype⟩ := hm
  exact ⟨type, by rw [Resolution.memberType?, hnode], htype⟩

theorem forall₂_memberTypes {members : List Program.Member} {hs : List Handle}
    (hall : List.Forall₂ (IsMember G t) members hs) :
    List.Forall₂ G (members.map (·.type)) (hs.filterMap (memberType? t)) := by
  induction hall with
  | nil => exact .nil
  | cons hm _ ih =>
    obtain ⟨type, htype, hG⟩ := hm.memberType?
    rw [List.map_cons, List.filterMap_cons_some htype]
    exact .cons hG ih

/-! ## Declarations -/

section Programs

variable {scope : Program.Scope} {hs : List Handle}

theorem Laid.origin {decl : Program.Struct} (hl : Laid t scope.children G hs)
    (hkeeps : KeepsIntrinsics scope.children) (hmem : decl ∈ structsOfAll scope.children)
    (hplain : PlainName decl.name) (hh : G decl.name h) :
    ∃ fields, t.node? h = some (.struct ⟨decl.name, none, fields, []⟩) ∧
      List.Forall₂ (IsMember G t) (decl.origin (structsOfAll scope.children)).fields fields := by
  obtain ⟨first, fields, hadmits, hname, hnode, hfields⟩ := (hl.types _ _ hh).of_plainName hplain
  have hfirst := hadmits.canonical hkeeps
  have hintrinsic := hkeeps decl hmem
  have hnone : intrinsicTypes.find? (·.name = decl.name) = none := by
    simpa [isIntrinsicType, intrinsicType?] using hintrinsic
  rw [Canonical, hname, List.find?_append, hnone, Option.none_or] at hfirst
  have horigin : decl.origin (structsOfAll scope.children) = first := by
    rw [Struct.origin, if_neg (by simp [hintrinsic]), hfirst, Option.getD_some]
  exact ⟨fields, hnode, horigin ▸ hfields⟩

/-- What the types that a declaration writes have become. -/
theorem Placed.receivedTypes {outer : Block} (hl : Laid t scope.children G hs)
    (hscope : ∀ node ∈ scope.children, node.IsDeclaration)
    (hkeeps : KeepsIntrinsics scope.children) (hnode : node ∈ scope.children)
    (hplaced : Placed ⟨t, G, outer⟩ node h) :
    List.Forall₂ G (node.settled (structsOfAll scope.children)).writtenTypes
      (receivedTypes t (node.settled (structsOfAll scope.children)) h) := by
  cases hplaced with
  | @struct decl _ htype =>
    have hroot : ∀ node ∈ scope.children, node.IsRoot :=
      fun node hnode => Or.inr (hscope node hnode)
    have hplain := plainName_of_isIdentifier (hscope _ hnode).1
    obtain ⟨fields, hstruct, hfields⟩ :=
      hl.origin hkeeps ((mem_structsOfAll hroot).mpr hnode) hplain htype
    simp only [Node.settled, Node.writtenTypes, Resolution.receivedTypes, hstruct]
    exact forall₂_memberTypes hfields
  | member hmember =>
    obtain ⟨type, htype, hG⟩ := hmember.memberType?
    simpa [Node.settled, Node.writtenTypes, Resolution.receivedTypes, htype] using hG
  | function hfunction htype hbody =>
    have hfunction : t.node? h = _ := hfunction
    simp only [Node.settled, Node.writtenTypes, Resolution.receivedTypes, hfunction]
    exact .cons htype hbody.letHandles
  | _ => exact .nil

theorem places_spec
    (hall : List.Forall₂ (fun node h => List.Forall₂ G node.writtenTypes (receivedTypes t node h))
      nodes hs) :
    (places t nodes hs).map (·.1) = nodes.flatMap Node.writtenTypes ∧
      ∀ p ∈ places t nodes hs, G p.1 p.2 := by
  induction hall with
  | nil => exact ⟨rfl, List.forall_mem_nil _⟩
  | @cons node h nodes hs hfirst _ ih =>
    have hplaces : places t (node :: nodes) (h :: hs) =
        node.writtenTypes.zip (receivedTypes t node h) ++ places t nodes hs := by
      simp [places]
    rw [hplaces]
    refine ⟨?_, List.forall_mem_append.mpr ⟨fun p hp => ?_, ih.2⟩⟩
    · rw [List.map_append, ih.1, List.map_fst_zip (Nat.le_of_eq hfirst.length_eq),
        List.flatMap_cons]
    · exact (List.forall₂_iff_zip.mp hfirst).2 hp

theorem Layout.forall₂ {n : Nat} {outer : Block}
    {P : Program.Node → Handle → Prop} (hl : Layout t G n outer nodes hs)
    (hP : ∀ node ∈ nodes, ∀ outer h, Placed ⟨t, G, outer⟩ node h → P node h) :
    List.Forall₂ P nodes hs := by
  induction hl with
  | nil => exact .nil
  | cons hplaced _ _ _ ih =>
    exact .cons (hP _ (.head _) _ _ hplaced)
      (ih fun node hnode => hP node (.tail _ hnode))

theorem exists_struct_of_isTypeName {Ok : Program.Struct → Prop} {type : String}
    (htype : IsTypeName type) (ht : IsType Ok G t type h) :
    ∃ decl, t.node? h = some (.struct decl) ∧ decl.name = type := by
  rcases isTypeName_cases htype with hname | ⟨outer, inner, hsplit, -⟩
  · obtain ⟨decl, fields, -, -, hnode, -⟩ := ht.of_plainName (plainName_of_isIdentifier hname)
    exact ⟨_, hnode, rfl⟩
  · obtain ⟨template, argument, -, -, hnode⟩ := ht.of_splitInstance hsplit
    exact ⟨_, hnode, rfl⟩

end Programs

/-- In a program of the grammar that keeps the intrinsic types and can be resolved, every place
where a type is written has received a struct of the written name, and two places the same struct
exactly if they write the same name. Of the structs of one name only the first counts; in a program
whose structs have different names, that is all of them. -/
theorem resolve_types_by_name {tokens : List String} {scope : Program.Scope} {t : Tree}
    (hparse : parse tokens = .ok scope) (hkeeps : KeepsIntrinsics scope.children)
    (h : resolve (some scope) scope.table = .ok t) :
    let nodes := scope.children.map (Node.settled (structsOfAll scope.children))
    (places t nodes t.declarations).map (·.1) = nodes.flatMap Node.writtenTypes ∧
      (∀ p ∈ places t nodes t.declarations,
        ∃ decl, t.node? p.2 = some (.struct decl) ∧ decl.name = p.1) ∧
      (∀ p ∈ places t nodes t.declarations, ∀ q ∈ places t nodes t.declarations,
        p.2 = q.2 ↔ p.1 = q.1) ∧
      (((structsOfAll scope.children).map (·.name)).Nodup → nodes = scope.children) := by
  intro nodes
  have hscope := (normal_of_parse hparse).1.2
  have hroot : ∀ node ∈ scope.children, node.IsRoot := fun node hnode => Or.inr (hscope node hnode)
  obtain ⟨G, hs, hl⟩ := resolve_laid hroot h
  have hall : List.Forall₂ (fun node h => List.Forall₂ G node.writtenTypes (receivedTypes t node h))
      nodes t.declarations := by
    rw [hl.declarations, List.forall₂_map_left_iff]
    exact hl.layout.forall₂ fun node hnode _ _ hplaced =>
      hplaced.receivedTypes hl hscope hkeeps hnode
  obtain ⟨hnames, hG⟩ := places_spec hall
  have hstruct : ∀ p ∈ places t nodes t.declarations,
      ∃ decl, t.node? p.2 = some (.struct decl) ∧ decl.name = p.1 := by
    intro p hp
    have hwritten : p.1 ∈ nodes.flatMap Node.writtenTypes := hnames ▸ List.mem_map_of_mem hp
    obtain ⟨node, hnode, htype⟩ := List.mem_flatMap.mp hwritten
    obtain ⟨declared, hdeclared, rfl⟩ := List.mem_map.mp hnode
    have hdecl := hscope _ (Node.settled_mem hroot hdeclared)
    exact exists_struct_of_isTypeName (hdecl.writtenTypes _ htype) (hl.types _ _ (hG p hp))
  refine ⟨hnames, hstruct, fun p hp q hq => ⟨fun heq => ?_, fun heq => ?_⟩,
    settled_of_nodup hroot⟩
  · obtain ⟨decl, hnode, hname⟩ := hstruct p hp
    obtain ⟨decl', hnode', hname'⟩ := hstruct q hq
    rw [heq, hnode'] at hnode
    cases hnode
    exact hname.symm.trans hname'
  · exact hl.single hkeeps _ _ _ (hG p hp) (heq ▸ hG q hq)

/-- A struct in a member and a variable, and an intrinsic type in a field and a result. -/
theorem resolve_types_by_name_sample :
    let scope : Program.Scope := .root [.struct ⟨"A", [⟨"x", "f32", 0, []⟩], []⟩,
      .member ⟨"a", "A", 0, []⟩, .function "f" [] "f32" [.localVar "y" "A"] []]
    let t : Tree := ⟨#[.scope "root" [some 3, some 4, some 6], .struct ⟨"f32", none, [], []⟩,
      .member ⟨"x", some 1, 0, []⟩, .struct ⟨"A", none, [some 2], []⟩,
      .member ⟨"a", some 3, 0, []⟩, .localVar "y" (some 3),
      .function ⟨"f", [], some 1, [some 5], []⟩]⟩
    parse scope.tokens = .ok scope ∧ KeepsIntrinsics scope.children ∧
      resolve (some scope) scope.table = .ok t ∧
      places t scope.children t.declarations =
        [("f32", some 1), ("A", some 3), ("f32", some 1), ("A", some 3)] ∧
      ∀ p ∈ places t scope.children t.declarations,
        ∀ q ∈ places t scope.children t.declarations, p.2 = q.2 ↔ p.1 = q.1 := by
  intro scope t
  have hstruct : (Program.Node.struct ⟨"A", [⟨"x", "f32", 0, []⟩], []⟩).IsDeclaration :=
    ⟨by decide, List.forall_mem_nil _,
      List.forall_mem_singleton.mpr ⟨by decide, .plain (by decide), rfl⟩⟩
  have hmember : (Program.Node.member ⟨"a", "A", 0, []⟩).IsDeclaration :=
    ⟨by decide, List.forall_mem_nil _, .plain (by decide), by decide⟩
  have hfunction : (Program.Node.function "f" [] "f32" [.localVar "y" "A"] []).IsDeclaration :=
    ⟨by decide, List.forall_mem_nil _, rfl, .plain (by decide),
      List.forall_mem_singleton.mpr (.value (.localVar (by decide) (.plain (by decide))))⟩
  have hparse : parse scope.tokens = .ok scope := parse_tokens ⟨rfl, List.forall_mem_cons.mpr
    ⟨hstruct, List.forall_mem_cons.mpr ⟨hmember, List.forall_mem_singleton.mpr hfunction⟩⟩⟩
  have hkeeps : KeepsIntrinsics scope.children := by
    unfold KeepsIntrinsics
    decide
  have hresolve : resolve (some scope) scope.table = .ok t :=
    resolve_of_evaluate 9 (by decide +kernel)
  obtain ⟨-, -, hiff, hdistinct⟩ := resolve_types_by_name hparse hkeeps hresolve
  have hsettled : scope.children.map (Node.settled (structsOfAll scope.children)) =
      scope.children := hdistinct (by decide)
  rw [hsettled] at hiff
  exact ⟨hparse, hkeeps, hresolve, rfl, hiff⟩

/-- Two fields of different types receive the same struct, because the second struct of the name is
resolved as the first. -/
theorem resolve_confuses_repeated_fields :
    let scope : Program.Scope := .root [.struct ⟨"A", [⟨"x", "f32", 0, []⟩], []⟩,
      .struct ⟨"A", [⟨"x", "u32", 0, []⟩], []⟩]
    let t : Tree := ⟨#[.scope "root" [some 3, some 3], .struct ⟨"f32", none, [], []⟩,
      .member ⟨"x", some 1, 0, []⟩, .struct ⟨"A", none, [some 2], []⟩]⟩
    parse scope.tokens = .ok scope ∧ KeepsIntrinsics scope.children ∧
      resolve (some scope) scope.table = .ok t ∧
      places t scope.children t.declarations = [("f32", some 1), ("u32", some 1)] := by
  intro scope t
  have hA : isIdentifier "A" = true := by decide
  have hx : isIdentifier "x" = true := by decide
  have hstruct {type : String} (htype : isIdentifier type = true) :
      (Program.Node.struct ⟨"A", [⟨"x", type, 0, []⟩], []⟩).IsDeclaration :=
    ⟨hA, List.forall_mem_nil _, List.forall_mem_singleton.mpr ⟨hx, .plain htype, rfl⟩⟩
  have hparse : parse scope.tokens = .ok scope := parse_tokens ⟨rfl, List.forall_mem_cons.mpr
    ⟨hstruct (by decide), List.forall_mem_singleton.mpr (hstruct (by decide))⟩⟩
  have hkeeps : KeepsIntrinsics scope.children := by
    unfold KeepsIntrinsics
    decide
  exact ⟨hparse, hkeeps, resolve_of_evaluate 9 (by decide +kernel), rfl⟩

/-- An instance that was made before its argument is replaced keeps the old argument: `In<vec3f>`
stands for the same struct as before, and `vec3f` for the one of the program. -/
theorem resolve_keeps_stale_argument :
    let scope : Program.Scope := .root [.member ⟨"a", "In<vec3f>", 0, []⟩,
      .struct ⟨"vec3f", [⟨"r", "f32", 0, []⟩], []⟩, .member ⟨"b", "In<vec3f>", 0, []⟩]
    let s : State := ⟨⟨#[.scope "root" [some 8, some 10], .struct ⟨"In", none, [], []⟩,
        .struct ⟨"f32", none, [], []⟩, .member ⟨"x", some 2, 0, []⟩, .member ⟨"y", some 2, 0, []⟩,
        .member ⟨"z", some 2, 0, []⟩, .struct ⟨"vec3f", none, [some 3, some 4, some 5], []⟩,
        .struct ⟨"In<vec3f>", some 1, [], [some 6]⟩, .member ⟨"a", some 7, 0, []⟩,
        .member ⟨"r", some 2, 0, []⟩, .struct ⟨"vec3f", none, [some 9], []⟩]⟩,
      ⟨[("vec3f*", some 10), ("vec3f", some 10), ("In<vec3f>", some 7), ("f32*", some 2),
        ("f32", some 2), ("In*", some 1), ("In", some 1)]⟩, [],
      [[("vec3f", some 10), ("a", some 8)]]⟩
    resolveChildren scope.table id Tree.root (scope.children.take 2)
        (State.initial scope.children) = .ok ((), s) ∧
      resolveType scope.table "In<vec3f>" s = .ok (some 7, s) ∧
      s.tree.node? (some 7) = some (.struct ⟨"In<vec3f>", some 1, [], [some 6]⟩) ∧
      resolveType scope.table "vec3f" s = .ok (some 10, s) := by
  intro scope s
  have hbefore : resolveChildren scope.table id Tree.root (scope.children.take 2)
      (State.initial scope.children) = .ok ((), s) :=
    @mimics_children 9 _ id (fun _ _ => id) _ _ _ _ (by decide +kernel)
  have hknown {name : String} {h : Handle} (hl : s.registry.lookup? name = some h) :
      resolveType scope.table name s = .ok (h, s) := by
    rw [resolveType, typeHandle, run_get, hl]
    rfl
  exact ⟨hbefore, hknown rfl, rfl, hknown rfl⟩

end Shader.Resolution
