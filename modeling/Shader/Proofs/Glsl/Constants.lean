import Shader.Proofs.Glsl.Interface

/-!
# Numbers of specialization constants

A specialization is written as one constant, or as one constant for each field of its type and a
constant that is put together from them. Main statements: the constants of a shader have the numbers
from zero on in the order in which they are written, as the stage inputs and outputs have; and the
type of a constant is that of the specialization or of its field, which need not be a scalar.
-/

namespace Shader.Glsl

open Arena
open Program (bind_eq_ok)

variable {t : Tree} {s : Spacing} {h type : Handle} {name : String} {fields handles : List Handle}
  {lines : List Line} {next : Nat} {n n' : Numbering} {options : Options} {out : Output}
variable {written : List (String × String)}

/-! ## Constants -/

structure Constant where
  number : Nat
  type : Handle
  name : String

/-- The constants of a specialization, and whether they are those of the fields of its type. -/
structure Specialized where
  name : String
  type : Handle
  composite : Bool
  constants : List Constant

def fieldType (t : Tree) (h : Handle) : Handle :=
  match t.node? h with
  | some (.member m) => m.type
  | _ => none

/-- One constant for each field, with the numbers from `next` on. -/
def constantsOf (t : Tree) (owner : String) (next : Nat) : List Handle → List Constant
  | [] => []
  | f :: rest =>
    ⟨next, fieldType t f, owner ++ "_" ++ t.name f⟩ :: constantsOf t owner (next + 1) rest

def specialize (t : Tree) (next : Nat) (name : String) (type : Handle) : Specialized :=
  let fields := (t.struct? type).elim [] (·.fields)
  if fields.isEmpty then ⟨name, type, false, [⟨next, type, name⟩]⟩
  else ⟨name, type, true, constantsOf t name next fields⟩

/-- The specializations among declarations, where `next` is the next number. -/
def specializations (t : Tree) (next : Nat) : List Handle → List Specialized
  | [] => []
  | h :: rest =>
    match t.node? h with
    | some (.specialization name type) =>
      let own := specialize t next name type
      own :: specializations t (next + own.constants.length) rest
    | _ => specializations t next rest

def constants (t : Tree) (handles : List Handle) : List Constant :=
  (specializations t 0 handles).flatMap (·.constants)

theorem numbers_constantsOf (owner : String) (next : Nat) :
    (constantsOf t owner next fields).map (·.number) = List.range' next fields.length := by
  induction fields generalizing next with
  | nil => rfl
  | cons f fields ih => rw [constantsOf, List.map_cons, ih, List.length_cons, List.range'_succ]

theorem length_constantsOf (owner : String) (next : Nat) :
    (constantsOf t owner next fields).length = fields.length := by
  have hlength := congrArg List.length (@numbers_constantsOf t fields owner next)
  rwa [List.length_map, List.length_range'] at hlength

theorem numbers_specialize (next : Nat) (name : String) (type : Handle) :
    (specialize t next name type).constants.map (·.number) =
      List.range' next (specialize t next name type).constants.length := by
  unfold specialize
  dsimp only
  split
  · rfl
  · dsimp only
    rw [numbers_constantsOf, length_constantsOf]

theorem numbers_specializations (next : Nat) :
    ((specializations t next handles).flatMap (·.constants)).map (·.number) =
      List.range' next ((specializations t next handles).flatMap (·.constants)).length := by
  induction handles generalizing next with
  | nil => rfl
  | cons h handles ih =>
    rw [specializations]
    split
    · rename_i name type _
      have hrest := ih (next + (specialize t next name type).constants.length)
      rw [List.flatMap_cons, List.map_append, numbers_specialize, hrest, List.length_append,
        List.range'_append_1]
    · exact ih next

/-! ## Lines -/

/-- The line of a constant, with the text of its type. -/
def IsConstantLine (t : Tree) (s : Spacing) (c : Constant) (line : Line) : Prop :=
  ∃ text, typeText t c.type = .ok text ∧
    line = ⟨0, "layout(constant_id=" ++ c.number.repr ++ ")" ++ s.gap ++ "const " ++ text ++ " " ++
      c.name ++ s.gap ++ "=" ++ s.gap ++ specializationDefault (t.name c.type) ++ ";"⟩

/-- The line of a value that is put together from constants. -/
def compositeLine (s : Spacing) (text name : String) (parts : List Constant) : Line :=
  ⟨0, "const " ++ text ++ " " ++ name ++ s.gap ++ "=" ++ s.gap ++ text ++ "(" ++
    ("," ++ s.gap).intercalate (parts.map (·.name)) ++ ");"⟩

/-- The lines of a specialization: those of its constants in their order, and for a composite one
the line that puts exactly these together. -/
def IsSpecialized (t : Tree) (s : Spacing) (x : Specialized) (lines : List Line) : Prop :=
  ∃ own text, List.Forall₂ (IsConstantLine t s) x.constants own ∧
    typeText t x.type = .ok text ∧
    lines = own ++ (if x.composite then [compositeLine s text x.name x.constants] else []) ++
      [blankLine]

theorem name_of_struct? {decl : Struct} (h : t.struct? type = some decl) :
    t.name type = decl.name := by
  unfold Tree.struct? at h
  unfold Tree.name
  split at h
  · rename_i hnode
    cases h
    rw [hnode]
    rfl
  · cases h

theorem isConstantLine {c : Constant} {text : String} (htext : typeText t c.type = .ok text)
    (hbound : c.number < UInt32.size) : IsConstantLine t s c (constantLine s
      (UInt32.ofNat c.number) text c.name (specializationDefault (t.name c.type))) := by
  refine ⟨text, htext, ?_⟩
  rw [constantLine, UInt32.toNat_ofNat_of_lt' hbound]

theorem fieldConstants_eq_ok {owner : String} {names : List String} {number number' : UInt32}
    (hrun : fieldConstants t s owner number fields = .ok (lines, names, number'))
    (hnumber : number = UInt32.ofNat next)
    (hbound : ∀ c ∈ constantsOf t owner next fields, c.number < UInt32.size) :
    List.Forall₂ (IsConstantLine t s) (constantsOf t owner next fields) lines ∧
      names = (constantsOf t owner next fields).map (·.name) ∧
      number' = UInt32.ofNat (next + fields.length) := by
  induction fields generalizing next number lines names with
  | nil =>
    cases hrun
    exact ⟨.nil, rfl, hnumber⟩
  | cons f fields ih =>
    rw [fieldConstants] at hrun
    split at hrun
    · rename_i m hnode
      obtain ⟨text, htext, hrun⟩ := bind_eq_ok hrun
      obtain ⟨⟨more, others, last⟩, hmore, hrun⟩ := bind_eq_ok hrun
      cases hrun
      have htype : fieldType t f = m.type := by rw [fieldType, hnode]
      have hname : t.name f = m.name := by rw [Tree.name, hnode]; rfl
      obtain ⟨hfirst, hrest⟩ := List.forall_mem_cons.mp hbound
      have hnext : number + 1 = UInt32.ofNat (next + 1) := by
        rw [hnumber, UInt32.ofNat_add]
        rfl
      obtain ⟨hlines, hnames, hlast⟩ := ih hmore hnext hrest
      rw [constantsOf]
      refine ⟨.cons ?_ hlines, ?_, ?_⟩
      · rw [← htype] at htext
        rw [hnumber, ← htype, ← hname]
        exact isConstantLine htext hfirst
      · rw [List.map_cons, ← hnames, hname]
      · rw [hlast, List.length_cons]
        congr 1
        omega
    · cases hrun

theorem specializationLines_eq_ok (hrun : specializationLines t s n name type = .ok (lines, n'))
    (hnext : n.constant = UInt32.ofNat next)
    (hbound : ∀ c ∈ (specialize t next name type).constants, c.number < UInt32.size) :
    IsSpecialized t s (specialize t next name type) lines ∧
      n'.constant = UInt32.ofNat (next + (specialize t next name type).constants.length) := by
  unfold specializationLines at hrun
  split at hrun
  · cases hrun
  · rename_i decl hdecl
    have hfields : (t.struct? type).elim [] (·.fields) = decl.fields := by rw [hdecl]; rfl
    obtain ⟨text, htext, hrun⟩ := bind_eq_ok hrun
    unfold specialize at hbound ⊢
    rw [hfields] at hbound ⊢
    dsimp only at hbound ⊢
    split at hrun
    · rename_i hempty
      cases hrun
      rw [if_pos hempty] at hbound ⊢
      refine ⟨⟨_, text, .cons ?_ .nil, htext, rfl⟩, ?_⟩
      · rw [hnext, ← name_of_struct? hdecl]
        exact @isConstantLine t s ⟨next, type, name⟩ text htext (hbound _ (.head _))
      · change n.constant + 1 = _
        rw [hnext, UInt32.ofNat_add]
        rfl
    · rename_i hsome
      obtain ⟨⟨own, names, last⟩, hown, hrun⟩ := bind_eq_ok hrun
      cases hrun
      rw [if_neg hsome] at hbound ⊢
      obtain ⟨hlines, rfl, hlast⟩ := fieldConstants_eq_ok hown hnext hbound
      refine ⟨⟨own, text, hlines, htext, ?_⟩, ?_⟩
      · rw [if_pos rfl, List.append_assoc]
        rfl
      · rw [length_constantsOf]
        exact hlast

theorem constant_interfaceLines {d : Direction} {m : Member}
    (hrun : interfaceLines t n d m = .ok (lines, n')) : n'.constant = n.constant := by
  obtain ⟨text, -, hrun⟩ := bind_eq_ok hrun
  cases d with
  | input | output =>
    cases hrun
    rfl

theorem constant_declarationLines {r : Option (List Line)}
    (hrun : declarationLines t s n h = .ok (r, n'))
    (hother : ∀ name type, t.node? h ≠ some (.specialization name type)) :
    n'.constant = n.constant := by
  unfold declarationLines at hrun
  cases hnode : t.node? h with
  | none =>
    rw [hnode] at hrun
    cases hrun
    rfl
  | some node =>
    rw [hnode] at hrun
    cases node with
    | function | binding | pushConstant => rw [eq_of_unnumbered hrun]
    | struct decl =>
      dsimp only at hrun
      split at hrun
      · cases hrun
        rfl
      · rw [eq_of_unnumbered hrun]
    | specialization name type => exact absurd hnode (hother name type)
    | member decl =>
      dsimp only at hrun
      split at hrun
      · obtain ⟨shown, -, hlines⟩ := eq_of_numbered hrun
        exact constant_interfaceLines hlines
      · cases hrun
        rfl
    | _ =>
      cases hrun
      rfl

/-! ## Shaders -/

/-- The name and text of a specialization. -/
def ShowsSpecialized (t : Tree) (s : Spacing) (x : Specialized) (written : String × String) :
    Prop :=
  ∃ lines, IsSpecialized t s x lines ∧ written = (x.name, renderLines s lines)

/-- The text of a shader shows the specializations in their order, as long as there are numbers for
their constants. -/
theorem shows_specializations
    (hrun : writeDeclarations t s n handles = .ok written) (hnext : n.constant = UInt32.ofNat next)
    (hbound : ∀ c ∈ (specializations t next handles).flatMap (·.constants),
      c.number < UInt32.size) :
    ∃ shown, List.Forall₂ (ShowsSpecialized t s) (specializations t next handles) shown ∧
      shown.Sublist written := by
  induction handles generalizing n next written with
  | nil =>
    cases hrun
    exact ⟨[], .nil, .slnil⟩
  | cons h handles ih =>
    rw [writeDeclarations] at hrun
    obtain ⟨⟨r, n'⟩, hlines, hrun⟩ := bind_eq_ok hrun
    obtain ⟨more, hmore, hrun⟩ := bind_eq_ok hrun
    rw [specializations] at hbound ⊢
    split at hbound
    · rename_i name type hnode
      rw [List.flatMap_cons] at hbound
      obtain ⟨hown, hrest⟩ := List.forall_mem_append.mp hbound
      unfold declarationLines at hlines
      rw [hnode] at hlines
      obtain ⟨own, rfl, hown'⟩ := eq_of_numbered hlines
      obtain ⟨hspecialized, hnumber⟩ := specializationLines_eq_ok hown' hnext hown
      obtain ⟨shown, hall, hsub⟩ := ih hmore hnumber hrest
      cases hrun
      refine ⟨_ :: shown, .cons ⟨own, hspecialized, ?_⟩ hall, hsub.cons_cons _⟩
      have hname : t.name h = (specialize t next name type).name := by
        rw [Tree.name, hnode]
        unfold specialize
        dsimp only
        split <;> rfl
      rw [hname]
    · rename_i hother
      have hconstant := constant_declarationLines hlines hother
      obtain ⟨shown, hall, hsub⟩ := ih hmore (hconstant.trans hnext) hbound
      refine ⟨shown, hall, ?_⟩
      cases r with
      | none =>
        cases hrun
        exact hsub
      | some lines =>
        cases hrun
        exact hsub.cons _

/-- The declarations of a shader in the order in which they are written. -/
def declarationOrder (t : Tree) (options : Options) : Except GenerateError (List Handle) :=
  findEntry t options.completed.entryPoint >>= order (Catalog.ofTree t)

/-- There are numbers enough for the constants, and for the stage inputs and outputs. -/
def Countable (t : Tree) (handles : List Handle) : Prop :=
  (constants t handles).length ≤ UInt32.size ∧
    ∀ d, (placementsOf t handles d).length ≤ UInt32.size

/-- The texts of declarations in their order, with those of the specializations and of the stage
inputs and outputs among them. -/
structure Shows (t : Tree) (s : Spacing) (handles : List Handle)
    (written : List (String × String)) : Prop where
  run : writeDeclarations t s .start handles = .ok written
  specializations : ∃ shown,
    List.Forall₂ (ShowsSpecialized t s) (specializations t 0 handles) shown ∧ shown.Sublist written
  interfaces : ∃ shown,
    List.Forall₂ (IsShown t s) (placements t (fun _ => 0) handles) shown ∧ shown.Sublist written

theorem numbers_constants :
    (constants t handles).map (·.number) = List.range (constants t handles).length := by
  rw [List.range_eq_range']
  exact numbers_specializations 0

theorem locations_placementsOf (d : Direction) :
    (placementsOf t handles d).map (·.location) = List.range (placementsOf t handles d).length := by
  rw [List.range_eq_range']
  exact locations_placements (fun _ => 0) d

theorem shows_of_countable
    (hrun : writeDeclarations t s .start handles = .ok written) (hcount : Countable t handles) :
    Shows t s handles written := by
  have hconstants : ∀ c ∈ constants t handles, c.number < UInt32.size := by
    intro c hc
    have hmem := List.mem_map_of_mem (f := fun c : Constant => c.number) hc
    rw [numbers_constants] at hmem
    exact (List.mem_range.mp hmem).trans_le hcount.1
  have hplaces : ∀ p ∈ placements t (fun _ => 0) handles, p.2.location < UInt32.size := by
    intro p hp
    have hown : p.2 ∈ placementsOf t handles p.2.direction :=
      List.mem_filter.mpr ⟨List.mem_map_of_mem hp, by simp⟩
    have hmem := List.mem_map_of_mem (f := fun q : Placement => q.location) hown
    rw [locations_placementsOf] at hmem
    exact (List.mem_range.mp hmem).trans_le (hcount.2 _)
  exact ⟨hrun, shows_specializations hrun rfl hconstants,
    isShown_placements hrun (fun d => by cases d <;> rfl) hplaces⟩

theorem shows_of_generate (h : generate (some t) options = .ok out) :
    ∃ handles written, declarationOrder t options = .ok handles ∧
      out.text = header options.completed out.info.stage ++ String.join (written.map (·.2)) ∧
      (Countable t handles → Shows t ⟨options.completed.minify⟩ handles written) := by
  obtain ⟨entry, hentry, h⟩ := bind_eq_ok h
  obtain ⟨handles, horder, h⟩ := bind_eq_ok h
  obtain ⟨written, hwritten, h⟩ := bind_eq_ok h
  obtain rfl := Except.ok.inj h
  have hhandles : declarationOrder t options = .ok handles := by
    rw [declarationOrder, hentry]
    exact horder
  exact ⟨handles, written, hhandles, rfl, shows_of_countable hwritten⟩

/-- In every shader the specialization constants have the numbers from zero on, over all
specializations in the order in which they are written. A composite one is put together from exactly
the constants of its fields. The stage inputs have the numbers from zero on as locations, and so
have the stage outputs. -/
theorem generate_numbers_densely {t : Tree} {options : Options} {out : Output}
    (h : generate (some t) options = .ok out)
    (hcount : ∀ handles, declarationOrder t options = .ok handles → Countable t handles) :
    ∃ handles written, declarationOrder t options = .ok handles ∧
      out.text = header options.completed out.info.stage ++ String.join (written.map (·.2)) ∧
      Shows t ⟨options.completed.minify⟩ handles written ∧
      (constants t handles).map (·.number) = List.range (constants t handles).length ∧
      ∀ d, (placementsOf t handles d).map (·.location) =
        List.range (placementsOf t handles d).length := by
  obtain ⟨handles, written, horder, htext, hshows⟩ := shows_of_generate h
  exact ⟨handles, written, horder, htext, hshows (hcount handles horder), numbers_constants,
    locations_placementsOf⟩

section Tints

open Program Resolution

def tintCode : Fragment := ⟨"x(tint, count, m);", ["count", "tint", "m"], []⟩

/-- A vector and a number that are specialized, an input, and a function that reads them. -/
def tintScope : Scope := .root
  [.specialization "tint" "vec2f", .specialization "count" "u32", .member ⟨"m", "In<f32>", 0, []⟩,
    .function "main" [] "void" [.fragment tintCode] []]

def tintTree : Tree :=
  ⟨#[.scope "root" [some 5, some 7, some 10, some 13], .struct ⟨"f32", none, [], []⟩,
    .member ⟨"x", some 1, 0, []⟩, .member ⟨"y", some 1, 0, []⟩,
    .struct ⟨"vec2f", none, [some 2, some 3], []⟩, .specialization "tint" (some 4),
    .struct ⟨"u32", none, [], []⟩, .specialization "count" (some 6), .struct ⟨"In", none, [], []⟩,
    .struct ⟨"In<f32>", some 8, [], [some 1]⟩, .member ⟨"m", some 9, 0, []⟩,
    .struct ⟨"void", none, [], []⟩, .fragment tintCode,
    .function ⟨"main", [], some 11, [some 12], []⟩]⟩

def tintOrder : List Handle :=
  [some 11, some 6, some 7, some 1, some 4, some 5, some 9, some 10, some 13]

theorem resolve_tint : resolve (some tintScope) tintScope.table = .ok tintTree :=
  resolve_of_evaluate 9 (by decide +kernel)

theorem declarationOrder_tint : declarationOrder tintTree .default = .ok tintOrder := by
  have hentry : findEntry tintTree Options.default.completed.entryPoint = .ok (some 13) := by
    decide +kernel
  have horder : order (Catalog.ofTree tintTree) (some 13) = .ok tintOrder := by decide +kernel
  rw [declarationOrder, hentry]
  exact horder

theorem countable_tint
    (h : declarationOrder tintTree .default = .ok handles) : Countable tintTree handles := by
  cases declarationOrder_tint.symm.trans h
  have hconstants : (constants tintTree tintOrder).length = 3 := by decide +kernel
  have hplaces (d : Direction) : (placementsOf tintTree tintOrder d).length ≤ 1 := by
    cases d <;> decide +kernel
  exact ⟨hconstants.trans_le (by decide), fun d => (hplaces d).trans (by decide)⟩

theorem generate_tint : ∃ out, generate (some tintTree) .default = .ok out := by
  have hnames : (generate (some tintTree) .default).toOption.map (·.info.declarations) =
      some ["count", "tint", "m", "main"] := by decide +kernel
  obtain ⟨out, hout, -⟩ := exists_of_toOption_map hnames
  exact ⟨out, hout⟩

theorem generate_numbers_densely_sample :
    resolve (some tintScope) tintScope.table = .ok tintTree ∧
      ∃ out written, generate (some tintTree) .default = .ok out ∧
        out.text = header Options.default.completed out.info.stage ++
          String.join (written.map (·.2)) ∧
        Shows tintTree ⟨false⟩ tintOrder written ∧
        (constants tintTree tintOrder).map (fun c => (c.number, c.name)) =
          [(0, "count"), (1, "tint_x"), (2, "tint_y")] := by
  obtain ⟨out, hout⟩ := generate_tint
  obtain ⟨handles, written, horder, htext, hshows, -⟩ :=
    generate_numbers_densely hout fun _ => countable_tint
  cases declarationOrder_tint.symm.trans horder
  exact ⟨resolve_tint, out, written, hout, htext, hshows, by decide +kernel⟩

end Tints

/-! ## Scalars -/

def scalarTexts : List String := ["bool", "float", "uint8_t", "uint16_t", "uint32_t", "int32_t"]

def IsScalar (t : Tree) (h : Handle) : Prop := ∃ text ∈ scalarTexts, typeText t h = .ok text

/-- The type is a scalar without fields, or all its fields are scalars. -/
def IsFlat (t : Tree) (type : Handle) : Prop :=
  let fields := (t.struct? type).elim [] (·.fields)
  if fields.isEmpty then IsScalar t type else ∀ f ∈ fields, IsScalar t (fieldType t f)

theorem types_constantsOf (owner : String) (next : Nat) :
    (constantsOf t owner next fields).map (·.type) = fields.map (fieldType t) := by
  induction fields generalizing next with
  | nil => rfl
  | cons f fields ih => rw [constantsOf, List.map_cons, ih, List.map_cons]

theorem isScalar_specialize_iff :
    (∀ c ∈ (specialize t next name type).constants, IsScalar t c.type) ↔ IsFlat t type := by
  unfold specialize IsFlat
  dsimp only
  split
  · exact List.forall_mem_singleton
  · rw [← List.forall_mem_map (P := IsScalar t), types_constantsOf]
    exact List.forall_mem_map

theorem isScalar_specializations_iff :
    (∀ c ∈ (specializations t next handles).flatMap (·.constants), IsScalar t c.type) ↔
      ∀ h ∈ handles, ∀ name type, t.node? h = some (.specialization name type) →
        IsFlat t type := by
  induction handles generalizing next with
  | nil => simp [specializations]
  | cons h handles ih =>
    rw [specializations, List.forall_mem_cons]
    split
    · rename_i name type hnode
      rw [List.flatMap_cons, List.forall_mem_append, isScalar_specialize_iff, ih, hnode]
      refine and_congr_left fun _ => ⟨fun hflat _ _ heq => ?_, fun hall => hall _ _ rfl⟩
      cases heq
      exact hflat
    · rename_i hother
      rw [ih]
      exact ⟨fun hall => ⟨fun name type hnode => absurd hnode (hother name type), hall⟩,
        fun hall => hall.2⟩

/-- The specialization constants of a shader are all scalar exactly if each specialization that is
written has a scalar type, or a type all of whose fields are scalars: a field that is a vector or a
struct is not taken apart again. The text shows these constants with their numbers if there are not
more of them than numbers. -/
theorem generate_scalar_iff {t : Tree} {options : Options} {out : Output}
    (h : generate (some t) options = .ok out) :
    ∃ handles written, declarationOrder t options = .ok handles ∧
      out.text = header options.completed out.info.stage ++ String.join (written.map (·.2)) ∧
      (Countable t handles → Shows t ⟨options.completed.minify⟩ handles written) ∧
      ((∀ c ∈ constants t handles, IsScalar t c.type) ↔
        ∀ h ∈ handles, ∀ name type, t.node? h = some (.specialization name type) →
          IsFlat t type) := by
  obtain ⟨handles, written, horder, htext, hshows⟩ := shows_of_generate h
  exact ⟨handles, written, horder, htext, hshows, isScalar_specializations_iff⟩

section Turns

open Program Resolution

theorem generate_scalar_iff_sample :
    ∃ out written, generate (some tintTree) .default = .ok out ∧
      Shows tintTree ⟨false⟩ tintOrder written ∧
      ∀ c ∈ constants tintTree tintOrder, IsScalar tintTree c.type := by
  obtain ⟨out, hout⟩ := generate_tint
  obtain ⟨handles, written, horder, -, hshows, hiff⟩ := generate_scalar_iff hout
  cases declarationOrder_tint.symm.trans horder
  have hfloat : IsScalar tintTree (some 1) := ⟨"float", by decide, by decide +kernel⟩
  have hcount : IsScalar tintTree (some 6) := ⟨"uint32_t", by decide, by decide +kernel⟩
  refine ⟨out, written, hout, hshows (countable_tint horder),
    hiff.mpr fun h hmem name type hnode => ?_⟩
  simp only [tintOrder, List.mem_cons, List.not_mem_nil, or_false] at hmem
  rcases hmem with rfl | rfl | rfl | rfl | rfl | rfl | rfl | rfl | rfl <;> cases hnode
  · exact hcount
  · exact List.forall_mem_cons.mpr ⟨hfloat, List.forall_mem_singleton.mpr hfloat⟩

/-- The constants of a matrix are vectors. -/
theorem generate_vector_constants :
    let code : Fragment := ⟨"x(turn);", ["turn"], []⟩
    let scope : Scope := .root [.specialization "turn" "mat2f",
      .function "main" [] "void" [.fragment code] []]
    let t : Tree := ⟨#[.scope "root" [some 8, some 11], .struct ⟨"f32", none, [], []⟩,
      .member ⟨"x", some 1, 0, []⟩, .member ⟨"y", some 1, 0, []⟩,
      .struct ⟨"vec2f", none, [some 2, some 3], []⟩, .member ⟨"x", some 4, 0, []⟩,
      .member ⟨"y", some 4, 0, []⟩, .struct ⟨"mat2f", none, [some 5, some 6], []⟩,
      .specialization "turn" (some 7), .struct ⟨"void", none, [], []⟩, .fragment code,
      .function ⟨"main", [], some 9, [some 10], []⟩]⟩
    resolve (some scope) scope.table = .ok t ∧
      (generate (some t) .default).toOption.map (·.text) =
        some (header Options.default.completed .vertex ++
          "layout(constant_id=0) const vec2 turn_x = 1.0f;\n" ++
          "layout(constant_id=1) const vec2 turn_y = 1.0f;\n" ++
          "const mat2 turn = mat2(turn_x, turn_y);\n\nvoid main() \x7b\n    x(turn);\n\x7d\n\n") :=
  ⟨resolve_of_evaluate 9 (by decide +kernel), by decide +kernel⟩

end Turns

end Shader.Glsl
