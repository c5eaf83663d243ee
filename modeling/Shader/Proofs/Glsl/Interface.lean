import Mathlib.Data.List.Forall2
import Shader.Proofs.Description.Rendering
import Shader.Proofs.Glsl.Order
import Shader.Proofs.Glsl.TypeUse
import Shader.Proofs.Resolution.Evaluation

/-!
# Locations of stage inputs and outputs

The writer gives every stage input and output the next number of its direction, whatever its type.
A matrix, a struct or an array takes several locations from its number on, so the next declaration
of the direction falls into them; and the outputs in the header of a mesh shader have numbers that
the writer gives again.
-/

namespace Shader.Glsl

open Arena
open Program (bind_eq_ok)

variable {t : Tree} {d : Direction} {m : Member} {lines : List Line} {r : Option (List Line)}
  {h : Handle} {handles : List Handle} {part text : String} {options : Options} {out : Output}

/-! ## Sizes -/

def elements (count : UInt32) : Nat := max 1 count.toNat

/-- The locations that a value of the type at a handle takes, looking at most `depth` types deep:
one for each column of a matrix, those of its fields for a struct, and one for any other type. -/
def typeSlots (t : Tree) : Nat → Handle → Nat
  | 0, _ => 1
  | depth + 1, h =>
    match t.struct? h with
    | none => 1
    | some decl =>
      if decl.isInstance then
        match decl.types with
        | [argument] => typeSlots t depth argument
        | _ => 1
      else match spelling? decl.name with
        | some "mat2" => 2
        | some "mat3" => 3
        | some "mat4" => 4
        | some _ => 1
        | none =>
          if decl.fields.isEmpty then 1
          else (decl.fields.map fun f =>
            match t.node? f with
            | some (.member m) => typeSlots t depth m.type * elements m.count
            | _ => 1).sum

def memberSlots (t : Tree) (m : Member) : Nat := typeSlots t (t.size + 1) m.type * elements m.count

theorem elements_pos (count : UInt32) : 1 ≤ elements count := Nat.le_max_left 1 _

theorem typeSlots_pos (t : Tree) (depth : Nat) (h : Handle) : 1 ≤ typeSlots t depth h := by
  induction depth generalizing h with
  | zero => exact Nat.le_refl 1
  | succ depth ih =>
    rw [typeSlots]
    split
    · exact Nat.le_refl 1
    · next decl _ =>
      split
      · split
        · exact ih _
        · exact Nat.le_refl 1
      · split
        · omega
        · omega
        · omega
        · omega
        · split
          · exact Nat.le_refl 1
          · next hfields =>
            -- the first field takes a location already
            obtain ⟨f, fields, heq⟩ : ∃ f fields, decl.fields = f :: fields := by
              cases hf : decl.fields with
              | nil =>
                rw [hf] at hfields
                exact absurd rfl hfields
              | cons f fields => exact ⟨f, fields, rfl⟩
            rw [heq, List.map_cons, List.sum_cons]
            refine Nat.le_trans ?_ (Nat.le_add_right _ _)
            split
            · exact Nat.mul_pos (ih _) (elements_pos _)
            · exact Nat.le_refl 1

theorem memberSlots_pos (t : Tree) (m : Member) : 1 ≤ memberSlots t m :=
  Nat.mul_pos (typeSlots_pos t _ _) (elements_pos _)

/-! ## Ranges -/

/-- A range of locations. -/
structure Placement where
  direction : Direction
  location : Nat
  slots : Nat
  deriving Repr, DecidableEq

/-- The ranges do not overlap. -/
def Placement.Apart (p q : Placement) : Prop :=
  p.location + p.slots ≤ q.location ∨ q.location + q.slots ≤ p.location

instance : DecidableRel Placement.Apart := fun _ _ => inferInstanceAs (Decidable (_ ∨ _))

/-- Ranges that start at consecutive locations are apart exactly if all but the last take one. -/
theorem pairwise_apart_iff {ranges : List Placement} {first : Nat}
    (hlocations : ranges.map (·.location) = List.range' first ranges.length)
    (hslots : ∀ p ∈ ranges, 1 ≤ p.slots) :
    ranges.Pairwise Placement.Apart ↔ ∀ p ∈ ranges.dropLast, p.slots = 1 := by
  induction ranges generalizing first with
  | nil => simp
  | cons p rest ih =>
    rw [List.map_cons, List.length_cons, List.range'_succ, List.cons.injEq] at hlocations
    obtain ⟨hp, hrest⟩ := hlocations
    have hlater : ∀ q ∈ rest, first + 1 ≤ q.location := by
      intro q hq
      have hmem : q.location ∈ rest.map (·.location) := List.mem_map_of_mem hq
      rw [hrest] at hmem
      exact (List.mem_range'_1.mp hmem).1
    rw [List.pairwise_cons, ih hrest fun q hq => hslots q (.tail _ hq)]
    have hpos := hslots p (.head _)
    cases rest with
    | nil => simp
    | cons q rest =>
      have hq : q.location = first + 1 := by
        rw [List.map_cons, List.length_cons, List.range'_succ, List.cons.injEq] at hrest
        exact hrest.1
      rw [List.dropLast_cons_cons]
      refine Iff.trans (and_congr_left fun _ => ?_) List.forall_mem_cons.symm
      constructor
      · intro happart
        have hslot := hslots q (.tail _ (.head _))
        rcases happart q (.head _) with h | h
        · omega
        · omega
      · intro hone r hr
        have hr := hlater r hr
        left
        omega

/-- The outputs that the header of a shader declares: one value for each primitive of a mesh. -/
def headerPlacements : Stage → Direction → List Placement
  | .mesh, .output => [⟨.output, 0, 1⟩, ⟨.output, 1, 1⟩]
  | _, _ => []

theorem pairwise_header_iff {stage : Stage} {d : Direction} {ranges : List Placement}
    (hlocations : ranges.map (·.location) = List.range' 0 ranges.length)
    (hslots : ∀ p ∈ ranges, 1 ≤ p.slots) :
    (headerPlacements stage d ++ ranges).Pairwise Placement.Apart ↔
      (∀ p ∈ ranges.dropLast, p.slots = 1) ∧ (stage = .mesh → d = .output → ranges = []) := by
  have hranges := pairwise_apart_iff hlocations hslots
  by_cases hmesh : stage = .mesh ∧ d = .output
  · obtain ⟨rfl, rfl⟩ := hmesh
    cases ranges with
    | nil =>
      refine iff_of_true ?_ ⟨by simp, fun _ _ => rfl⟩
      rw [List.append_nil, headerPlacements, List.pairwise_pair]
      exact Or.inl (Nat.le_refl _)
    | cons p rest =>
      refine iff_of_false (fun hpairs => ?_) fun ⟨_, hnone⟩ => ?_
      · rw [List.map_cons, List.length_cons, List.range'_succ, List.cons.injEq] at hlocations
        have hp := hslots p (.head _)
        rcases (List.pairwise_append.mp hpairs).2.2 ⟨.output, 0, 1⟩ (.head _) p
          (.head _) with h | h
        · change 0 + 1 ≤ p.location at h
          omega
        · change p.location + p.slots ≤ 0 at h
          omega
      · cases hnone rfl rfl
  · have hempty : headerPlacements stage d = [] := by
      cases stage with
      | mesh =>
        cases d with
        | input => rfl
        | output => exact absurd ⟨rfl, rfl⟩ hmesh
      | _ => rfl
    rw [hempty, List.nil_append, hranges]
    refine ⟨fun h => ⟨h, fun hs hd => absurd ⟨hs, hd⟩ hmesh⟩, And.left⟩

/-! ## Numbers -/

def interface? (t : Tree) (h : Handle) : Option (Member × Direction) :=
  match t.node? h with
  | some (.member m) => (direction? t m).map (m, ·)
  | _ => none

def bump (next : Direction → Nat) (d : Direction) : Direction → Nat :=
  fun e => if e = d then next e + 1 else next e

/-- The ranges of the stage inputs and outputs among declarations, where `next` are the next
numbers. -/
def placements (t : Tree) (next : Direction → Nat) : List Handle → List (Member × Placement)
  | [] => []
  | h :: rest =>
    match interface? t h with
    | some (m, d) => (m, ⟨d, next d, memberSlots t m⟩) :: placements t (bump next d) rest
    | none => placements t next rest

def placementsOf (t : Tree) (handles : List Handle) (d : Direction) : List Placement :=
  ((placements t (fun _ => 0) handles).map (·.2)).filter (·.direction = d)

section Placements

variable {t : Tree} {handles : List Handle}

theorem members_placements (next : Direction → Nat) :
    (placements t next handles).map (fun p => (p.1, p.2.direction)) =
      handles.filterMap (interface? t) := by
  induction handles generalizing next with
  | nil => rfl
  | cons h handles ih =>
    rw [placements]
    split
    · next m d hinterface => rw [List.map_cons, ih, List.filterMap_cons_some hinterface]
    · next hinterface => rw [ih, List.filterMap_cons_none hinterface]

theorem locations_placements (next : Direction → Nat) (d : Direction) :
    let ranges := ((placements t next handles).map (·.2)).filter (·.direction = d)
    ranges.map (·.location) = List.range' (next d) ranges.length := by
  induction handles generalizing next with
  | nil => rfl
  | cons h handles ih =>
    rw [placements]
    split
    · next m e _ =>
      have hrest := ih (bump next e)
      by_cases he : e = d
      · subst he
        have hbump : bump next e e = next e + 1 := if_pos rfl
        rw [hbump] at hrest
        rw [List.map_cons, List.filter_cons_of_pos (by simp)]
        intro ranges
        rw [List.map_cons, List.length_cons, List.range'_succ, hrest]
      · have hbump : bump next e d = next d := if_neg (Ne.symm he)
        rw [hbump] at hrest
        rw [List.map_cons, List.filter_cons_of_neg (by simpa using he)]
        exact hrest
    · exact ih next

theorem slots_placements (next : Direction → Nat) :
    ∀ p ∈ placements t next handles, 1 ≤ p.2.slots := by
  induction handles generalizing next with
  | nil => exact List.forall_mem_nil _
  | cons h handles ih =>
    rw [placements]
    split
    · exact List.forall_mem_cons.mpr ⟨memberSlots_pos t _, ih _⟩
    · exact ih next

end Placements

/-! ## Texts -/

def Direction.storage : Direction → String
  | .input => "in"
  | .output => "out"

def interfaceLine (m : Member) (d : Direction) (location : Nat) (text : String) : Line :=
  ⟨0, "layout(location=" ++ location.repr ++ ") " ++ interpolation m.annotations ++ d.storage ++
    " " ++ text ++ ";"⟩

/-- The name and text of a member at its location. -/
def IsShown (t : Tree) (s : Spacing) (p : Member × Placement) (written : String × String) : Prop :=
  ∃ text, memberText t p.1 = .ok text ∧ written = (p.1.name,
    renderLines s [interfaceLine p.1 p.2.direction p.2.location text, blankLine])

def Numbering.location (n : Numbering) : Direction → UInt32
  | .input => n.input
  | .output => n.output

section Texts

variable {t : Tree} {s : Spacing} {n n' : Numbering}

theorem interfaceLines_eq_ok (h : interfaceLines t n d m = .ok (lines, n')) :
    ∃ text, memberText t m = .ok text ∧
      lines = [interfaceLine m d (n.location d).toNat text, blankLine] ∧
      n'.location = fun e => if e = d then n.location e + 1 else n.location e := by
  obtain ⟨text, htext, h⟩ := bind_eq_ok h
  refine ⟨text, htext, ?_⟩
  cases d with
  | input | output =>
    cases h
    refine ⟨rfl, funext fun e => ?_⟩
    cases e <;> rfl

theorem location_specializationLines {name : String} {type : Handle}
    (h : specializationLines t s n name type = .ok (lines, n')) : n'.location = n.location := by
  unfold specializationLines at h
  split at h
  · cases h
  · obtain ⟨text, -, h⟩ := bind_eq_ok h
    split at h
    · cases h
      exact funext fun e => by cases e <;> rfl
    · obtain ⟨_, -, h⟩ := bind_eq_ok h
      cases h
      exact funext fun e => by cases e <;> rfl

theorem eq_of_unnumbered {lines : Except GenerateError (List Line)}
    (h : unnumbered n lines = .ok (r, n')) : n' = n := by
  cases lines with
  | error e => cases h
  | ok lines =>
    cases h
    rfl

theorem eq_of_numbered {lines : Except GenerateError (List Line × Numbering)}
    (h : numbered lines = .ok (r, n')) : ∃ shown, r = some shown ∧ lines = .ok (shown, n') := by
  cases lines with
  | error e => cases h
  | ok p =>
    cases h
    exact ⟨p.1, rfl, rfl⟩

theorem location_of_interface_none {lines : Option (List Line)}
    (hrun : declarationLines t s n h = .ok (lines, n')) (hnone : interface? t h = none) :
    n'.location = n.location := by
  unfold declarationLines at hrun
  unfold interface? at hnone
  cases hnode : t.node? h with
  | none =>
    rw [hnode] at hrun
    cases hrun
    rfl
  | some node =>
    rw [hnode] at hrun hnone
    cases node with
    | function decl => rw [eq_of_unnumbered hrun]
    | struct decl =>
      dsimp only at hrun
      split at hrun
      · cases hrun
        rfl
      · rw [eq_of_unnumbered hrun]
    | binding | pushConstant => rw [eq_of_unnumbered hrun]
    | specialization name type =>
      obtain ⟨shown, -, hlines⟩ := eq_of_numbered hrun
      exact location_specializationLines hlines
    | member decl =>
      dsimp only at hrun hnone
      rw [Option.map_eq_none_iff.mp hnone] at hrun
      cases hrun
      rfl
    | _ =>
      cases hrun
      rfl

theorem declarationLines_interface {lines : Option (List Line)}
    (hrun : declarationLines t s n h = .ok (lines, n')) (hsome : interface? t h = some (m, d)) :
    t.name h = m.name ∧ ∃ shown, lines = some shown ∧ interfaceLines t n d m = .ok (shown, n') := by
  unfold interface? at hsome
  split at hsome
  · next m' hnode =>
    obtain ⟨d', hd, heq⟩ := Option.map_eq_some_iff.mp hsome
    cases heq
    unfold declarationLines at hrun
    rw [hnode] at hrun
    dsimp only at hrun
    rw [hd] at hrun
    refine ⟨?_, eq_of_numbered hrun⟩
    rw [Tree.name, hnode]
    rfl
  · cases hsome

/-- The text of a shader shows the ranges in their order, as long as there are numbers for them. -/
theorem isShown_placements {written : List (String × String)} {next : Direction → Nat}
    (hrun : writeDeclarations t s n handles = .ok written)
    (hnext : ∀ d, n.location d = UInt32.ofNat (next d))
    (hbound : ∀ p ∈ placements t next handles, p.2.location < UInt32.size) :
    ∃ shown, List.Forall₂ (IsShown t s) (placements t next handles) shown ∧
      shown.Sublist written := by
  induction handles generalizing n next written with
  | nil =>
    cases hrun
    exact ⟨[], .nil, .slnil⟩
  | cons h handles ih =>
    rw [writeDeclarations] at hrun
    obtain ⟨⟨lines, n'⟩, hlines, hrun⟩ := bind_eq_ok hrun
    obtain ⟨more, hmore, hrun⟩ := bind_eq_ok hrun
    rw [placements] at hbound ⊢
    cases hinterface : interface? t h with
    | none =>
      rw [hinterface] at hbound
      have hlocation := location_of_interface_none hlines hinterface
      obtain ⟨shown, hall, hsub⟩ := ih hmore (fun d => by rw [hlocation, hnext]) hbound
      refine ⟨shown, hall, ?_⟩
      cases lines with
      | none =>
        cases hrun
        exact hsub
      | some lines =>
        cases hrun
        exact hsub.cons _
    | some p =>
      obtain ⟨m, d⟩ := p
      rw [hinterface] at hbound
      obtain ⟨hname, printed, rfl, hprinted⟩ := declarationLines_interface hlines hinterface
      obtain ⟨text, htext, rfl, hlocation⟩ := interfaceLines_eq_ok hprinted
      have hnext' (e : Direction) : n'.location e = UInt32.ofNat (bump next d e) := by
        rw [hlocation]
        unfold bump
        dsimp only
        split
        · rw [hnext, UInt32.ofNat_add]
          rfl
        · exact hnext e
      obtain ⟨hfirst, hrest⟩ := List.forall_mem_cons.mp hbound
      obtain ⟨shown, hall, hsub⟩ := ih hmore hnext' hrest
      cases hrun
      refine ⟨_ :: shown, .cons ⟨text, htext, ?_⟩ hall, hsub.cons_cons _⟩
      have hvalue : (n.location d).toNat = next d := by
        rw [hnext]
        exact UInt32.toNat_ofNat_of_lt' hfirst
      rw [hname, hvalue]

end Texts

/-! ## Bounds -/

section Bounds

variable {t : Tree} {handles : List Handle}

theorem isWritten_of_interface (hsome : (interface? t h).isSome = true) : isWritten t h = true := by
  unfold interface? at hsome
  unfold isWritten
  split at hsome
  · next m hnode =>
    rw [hnode]
    rw [Option.isSome_map] at hsome
    exact hsome
  · cases hsome

theorem length_placements_le (next : Direction → Nat) :
    (placements t next handles).length ≤ (handles.filter (isWritten t)).length := by
  have hmembers := congrArg List.length (@members_placements t handles next)
  rw [List.length_map, List.length_filterMap_eq_countP] at hmembers
  rw [hmembers, ← List.countP_eq_length_filter]
  exact List.countP_mono_left fun h _ hsome => isWritten_of_interface hsome

theorem location_lt {p : Member × Placement} (hp : p ∈ placements t (fun _ => 0) handles) :
    p.2.location < (placements t (fun _ => 0) handles).length := by
  have hlocations := @locations_placements t handles (fun _ => 0) p.2.direction
  have hmem : p.2 ∈ ((placements t (fun _ => 0) handles).map (·.2)).filter
      (·.direction = p.2.direction) :=
    List.mem_filter.mpr ⟨List.mem_map_of_mem hp, by simp⟩
  have hlocation := List.mem_map_of_mem (f := fun q : Placement => q.location) hmem
  rw [hlocations] at hlocation
  have hlt := (List.mem_range'_1.mp hlocation).2
  have hle := List.length_filter_le (fun q : Placement => decide (q.direction = p.2.direction))
    ((placements t (fun _ => 0) handles).map (·.2))
  rw [List.length_map] at hle
  omega

end Bounds

/-! ## Headers -/

/-- The text has the given part. -/
def HasPart (text part : String) : Prop := ∃ before after, text = before ++ part ++ after

theorem HasPart.left (h : HasPart text part) (more : String) : HasPart (text ++ more) part := by
  obtain ⟨before, after, rfl⟩ := h
  exact ⟨before, after ++ more, String.append_assoc⟩

theorem HasPart.right (h : HasPart text part) (more : String) : HasPart (more ++ text) part := by
  obtain ⟨before, after, rfl⟩ := h
  refine ⟨more ++ before, after, ?_⟩
  rw [← String.append_assoc, ← String.append_assoc]

theorem hasPart_append (part after : String) : HasPart (part ++ after) part :=
  ⟨"", after, by rw [String.empty_append]⟩

theorem header_placements {o : Options} {stage : Stage} {p : Placement}
    (hp : p ∈ headerPlacements stage d) :
    HasPart (header o stage)
      ("layout(location=" ++ p.location.repr ++ ") perprimitiveEXT out ") := by
  unfold headerPlacements at hp
  split at hp
  · have hzero : "layout(location=0) perprimitiveEXT out uint out_instance_index[" =
        "layout(location=" ++ (0 : Nat).repr ++ ") perprimitiveEXT out " ++
          "uint out_instance_index[" := by decide
    have hone : "layout(location=1) perprimitiveEXT out uint out_primitive_index[" =
        "layout(location=" ++ (1 : Nat).repr ++ ") perprimitiveEXT out " ++
          "uint out_primitive_index[" := by decide
    have hmesh : HasPart (meshLines o)
        ("layout(location=" ++ p.location.repr ++ ") perprimitiveEXT out ") := by
      unfold meshLines
      rw [hzero, hone]
      rcases List.mem_pair.mp hp with rfl | rfl
      · iterate 10 apply HasPart.left
        exact hasPart_append _ _
      · iterate 7 apply HasPart.left
        apply HasPart.right
        exact hasPart_append _ _
    unfold header stageLines
    iterate 7 apply HasPart.left
    apply HasPart.right
    exact hmesh.left _
  · cases hp

/-! ## Shaders -/

/-- What a shader is written from: the declarations in their order, with the text of the header
before them and a text for every range among theirs. -/
structure Written (t : Tree) (options : Options) (out : Output) (handles : List Handle) : Prop where
  order : ∃ entry, findEntry t options.completed.entryPoint = .ok entry ∧
    order (Catalog.ofTree t) entry = .ok handles
  members : (placements t (fun _ => 0) handles).map (fun p => (p.1, p.2.direction)) =
    handles.filterMap (interface? t)
  text : ∃ written shown,
    out.text = header options.completed out.info.stage ++ String.join (written.map (·.2)) ∧
    List.Forall₂ (IsShown t ⟨options.completed.minify⟩) (placements t (fun _ => 0) handles) shown ∧
    shown.Sublist written
  header : ∀ d, ∀ p ∈ headerPlacements out.info.stage d,
    HasPart (header options.completed out.info.stage)
      ("layout(location=" ++ p.location.repr ++ ") perprimitiveEXT out ")

theorem written_of_generate (h : generate (some t) options = .ok out)
    (hcount : out.info.declarations.length ≤ UInt32.size) :
    ∃ handles, Written t options out handles := by
  obtain ⟨entry, hentry, h⟩ := bind_eq_ok h
  obtain ⟨handles, horder, h⟩ := bind_eq_ok h
  obtain ⟨written, hwritten, h⟩ := bind_eq_ok h
  obtain rfl := Except.ok.inj h
  have hnames := names_writeDeclarations hwritten
  have hbound : ∀ p ∈ placements t (fun _ => 0) handles, p.2.location < UInt32.size := by
    intro p hp
    have hlocation := location_lt hp
    have hlength := @length_placements_le t handles fun _ => 0
    have hdeclared := congrArg List.length hnames
    rw [List.length_map (f := t.name)] at hdeclared
    have hsize : (written.map (·.1)).length ≤ UInt32.size := hcount
    omega
  obtain ⟨shown, hall, hsub⟩ := isShown_placements hwritten (fun d => by cases d <;> rfl) hbound
  exact ⟨handles, ⟨entry, hentry, horder⟩, members_placements _,
    ⟨written, shown, rfl, hall, hsub⟩, fun d p hp => header_placements hp⟩

/-- In every shader the stage inputs and outputs have the numbers from zero on as locations, each
direction for itself. So no two of one direction overlap exactly if each but the last takes one
location, and if a mesh shader, whose header has two outputs at these numbers, has no other. -/
theorem generate_locations {t : Tree} {options : Options} {out : Output}
    (h : generate (some t) options = .ok out)
    (hcount : out.info.declarations.length ≤ UInt32.size) :
    ∃ handles, Written t options out handles ∧
      (∀ d, (placementsOf t handles d).map (·.location) =
        List.range (placementsOf t handles d).length) ∧
      ((∀ d, (headerPlacements out.info.stage d ++ placementsOf t handles d).Pairwise
          Placement.Apart) ↔
        (∀ d, ∀ p ∈ (placementsOf t handles d).dropLast, p.slots = 1) ∧
          (out.info.stage = .mesh → placementsOf t handles .output = [])) := by
  obtain ⟨handles, hwritten⟩ := written_of_generate h hcount
  have hlocations (d : Direction) := @locations_placements t handles (fun _ => 0) d
  have hslots (d : Direction) : ∀ p ∈ placementsOf t handles d, 1 ≤ p.slots := by
    intro p hp
    obtain ⟨q, hq, rfl⟩ := List.mem_map.mp (List.mem_of_mem_filter hp)
    exact slots_placements _ q hq
  refine ⟨handles, hwritten, fun d => ?_, ?_⟩
  · rw [List.range_eq_range']
    exact hlocations d
  · have hpairs (d : Direction) :=
      @pairwise_header_iff out.info.stage d (placementsOf t handles d) (hlocations d) (hslots d)
    simp only [hpairs]
    constructor
    · intro hall
      exact ⟨fun d => (hall d).1, fun hmesh => (hall .output).2 hmesh rfl⟩
    · rintro ⟨hnarrow, hmesh⟩ d
      refine ⟨hnarrow d, fun hstage hd => ?_⟩
      rw [hd]
      exact hmesh hstage

/-! ## An array among the inputs -/

section Lanes

open Program Resolution

def laneCode (names : List String) : Fragment := ⟨"x(m, n, o);", names, []⟩

/-- Two inputs, the first an array, an output, and a function of a stage that reads them. -/
def laneScope (names : List String) (stage : String) : Scope := .root
  [.member ⟨"m", "In<f32>", 4, []⟩, .member ⟨"n", "In<f32>", 0, []⟩,
    .member ⟨"o", "Out<f32>", 0, []⟩,
    .function "main" [] "void" [.fragment (laneCode names)] [stage]]

def laneTree (names : List String) (stage : String) : Tree :=
  ⟨#[.scope "root" [some 4, some 5, some 8, some 11], .struct ⟨"In", none, [], []⟩,
    .struct ⟨"f32", none, [], []⟩, .struct ⟨"In<f32>", some 1, [], [some 2]⟩,
    .member ⟨"m", some 3, 4, []⟩, .member ⟨"n", some 3, 0, []⟩, .struct ⟨"Out", none, [], []⟩,
    .struct ⟨"Out<f32>", some 6, [], [some 2]⟩, .member ⟨"o", some 7, 0, []⟩,
    .struct ⟨"void", none, [], []⟩, .fragment (laneCode names),
    .function ⟨"main", [], some 9, [some 10], [stage]⟩]⟩

theorem describe_lane {names : List String} {stage : String} (hstage : stage ≠ "") :
    ∃ text, describe text = .ok (laneScope names stage) := by
  have hdescribed : AllDescribed (laneScope names stage).children := by
    refine ⟨⟨by decide, "", rfl⟩, ⟨by decide, "", rfl⟩, ⟨by decide, "", rfl⟩, ?_, trivial⟩
    refine ⟨rfl, ⟨stage, ?_⟩, Or.inr ⟨laneCode names, rfl, ?_⟩⟩
    · rw [if_neg hstage]
    · change "x(m, n, o);" ≠ ""
      decide
  exact exists_describe hdescribed

theorem generate_lane {names : List String} {tag : String} {stage : Stage}
    (h : (generate (some (laneTree names tag)) .default).toOption.map
      (fun out => (out.info.stage, out.info.declarations.length)) = some (stage, 4)) :
    ∃ out, generate (some (laneTree names tag)) .default = .ok out ∧ out.info.stage = stage ∧
      out.info.declarations.length ≤ UInt32.size := by
  obtain ⟨out, hout, hinfo⟩ := exists_of_toOption_map h
  obtain ⟨hstage, hcount⟩ := Prod.mk.inj hinfo
  exact ⟨out, hout, hstage, hcount.trans_le (by decide)⟩

theorem Written.eq_handles {handles' : List Handle} {entry : Handle}
    (h : Written t options out handles)
    (hentry : findEntry t options.completed.entryPoint = .ok entry)
    (horder : Glsl.order (Catalog.ofTree t) entry = .ok handles') : handles = handles' := by
  obtain ⟨entry', hentry', horder'⟩ := h.order
  cases hentry.symm.trans hentry'
  cases horder.symm.trans horder'
  rfl

/-- An input of several locations overlaps with none if it is the last one. -/
theorem generate_locations_sample :
    let t := laneTree ["n", "m", "o"] "vertex"
    (∃ text, describe text = .ok (laneScope ["n", "m", "o"] "vertex")) ∧
      resolve (some (laneScope ["n", "m", "o"] "vertex"))
        (laneScope ["n", "m", "o"] "vertex").table = .ok t ∧
      ∃ out handles, generate (some t) .default = .ok out ∧ Written t .default out handles ∧
        placementsOf t handles .input = [⟨.input, 0, 1⟩, ⟨.input, 1, 4⟩] ∧
        ∀ d, (headerPlacements out.info.stage d ++ placementsOf t handles d).Pairwise
          Placement.Apart := by
  intro t
  obtain ⟨out, hout, hstage, hcount⟩ :=
    @generate_lane ["n", "m", "o"] "vertex" .vertex (by decide +kernel)
  obtain ⟨handles, hwritten, -, hiff⟩ := generate_locations hout hcount
  have hentry : findEntry t Options.default.completed.entryPoint = .ok (some 11) := by
    decide +kernel
  have horder : order (Catalog.ofTree t) (some 11) =
      .ok [some 9, some 2, some 3, some 5, some 4, some 7, some 8, some 11] := by
    decide +kernel
  cases hwritten.eq_handles hentry horder
  refine ⟨describe_lane (by decide), resolve_of_evaluate 9 (by decide +kernel), out, _, hout,
    hwritten, by decide +kernel, ?_⟩
  refine hiff.mpr ⟨fun d => ?_, fun hmesh => ?_⟩
  · cases d with
    | input => decide +kernel
    | output => decide +kernel
  · rw [hstage] at hmesh
    cases hmesh

/-- Where an array comes first, the next input falls into it, and the output of a mesh shader falls
on an output of the header. -/
theorem generate_overlaps :
    let t := laneTree ["m", "n", "o"] "mesh"
    (∃ text, describe text = .ok (laneScope ["m", "n", "o"] "mesh")) ∧
      resolve (some (laneScope ["m", "n", "o"] "mesh"))
        (laneScope ["m", "n", "o"] "mesh").table = .ok t ∧
      ∃ out handles, generate (some t) .default = .ok out ∧ Written t .default out handles ∧
        placementsOf t handles .input = [⟨.input, 0, 4⟩, ⟨.input, 1, 1⟩] ∧
        ¬ (placementsOf t handles .input).Pairwise Placement.Apart ∧
        ¬ (headerPlacements out.info.stage .output ++ placementsOf t handles .output).Pairwise
          Placement.Apart := by
  intro t
  obtain ⟨out, hout, hstage, hcount⟩ :=
    @generate_lane ["m", "n", "o"] "mesh" .mesh (by decide +kernel)
  obtain ⟨handles, hwritten⟩ := written_of_generate hout hcount
  have hentry : findEntry t Options.default.completed.entryPoint = .ok (some 11) := by
    decide +kernel
  have horder : order (Catalog.ofTree t) (some 11) =
      .ok [some 9, some 2, some 3, some 4, some 5, some 7, some 8, some 11] := by
    decide +kernel
  cases hwritten.eq_handles hentry horder
  refine ⟨describe_lane (by decide), resolve_of_evaluate 9 (by decide +kernel), out, _, hout,
    hwritten, by decide +kernel, by decide +kernel, ?_⟩
  rw [hstage]
  decide +kernel

end Lanes

end Shader.Glsl
