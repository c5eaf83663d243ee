import Shader.Proofs.Glsl.Minify
import Shader.Proofs.Glsl.Order

/-!
# Marked-up output

The output of the writer, with marks where a type is named and where a struct is defined. The
functions follow those of the writer, and without the marks their results are the lines of the
writer.
-/

namespace Shader.Glsl

open Arena

/-- A part of the output. -/
inductive Piece where
  | text (text : String)
  /-- The name of the type at a handle, where it is used. -/
  | type (h : Handle) (name : String)
  /-- The name of a struct, where it is defined. -/
  | definition (name : String)
  deriving Repr, DecidableEq

def Piece.plain : Piece → String
  | .text body => body
  | .type _ name => name
  | .definition name => name

def plainText (pieces : List Piece) : String := String.join (pieces.map Piece.plain)

@[simp]
theorem plainText_nil : plainText [] = "" := rfl

@[simp]
theorem plainText_cons (p : Piece) (pieces : List Piece) :
    plainText (p :: pieces) = p.plain ++ plainText pieces := by
  rw [plainText, List.map_cons, String.join_cons, plainText]

@[simp]
theorem plainText_append (a b : List Piece) : plainText (a ++ b) = plainText a ++ plainText b := by
  induction a with
  | nil => simp
  | cons p a ih => rw [List.cons_append, plainText_cons, ih, plainText_cons, String.append_assoc]

/-- A line of the output. -/
structure Row where
  level : Nat
  pieces : List Piece
  deriving Repr, DecidableEq

def Row.line (row : Row) : Line := ⟨row.level, plainText row.pieces⟩

def Line.row (line : Line) : Row := ⟨line.level, [.text line.text]⟩

/-! ## Writing with marks -/

variable (t : Tree) (s : Spacing)

def typePiece (h : Handle) : Except GenerateError Piece := (typeText t h).map (.type h)

def separated : List (List Piece) → List Piece
  | [] => []
  | [part] => part
  | part :: rest => part ++ .text ("," ++ s.gap) :: separated rest

def operandPieces (parent : Operator) (isRight : Bool) (h : Handle) (pieces : List Piece) :
    List Piece :=
  match t.node? h with
  | some (.binary child _ _) =>
    if needsBrackets child parent isRight then .text "(" :: pieces ++ [.text ")"] else pieces
  | _ => pieces

def operationPieces (op : Operator) (left right : List Piece) : List Piece :=
  if s.minify && joins op.symbol (plainText right) then left ++ .text (op.symbol ++ " ") :: right
  else left ++ .text (s.gap ++ op.symbol ++ s.gap) :: right

/-- An expression, at most `depth` deep. The only type that an expression names is that of a
variable it declares. -/
def exprPieces : Nat → Handle → Except GenerateError (List Piece)
  | 0, _ => .error (.malformed .cyclic)
  | depth + 1, h =>
    match t.node? h with
    | some (.access left right) => do
      let left ← exprPieces depth left
      let right ← exprPieces depth right
      return left ++ .text "." :: right
    | some (.call callee _ args) => do
      let args ← args.mapM (exprPieces depth)
      return .text (spelling callee ++ "(") :: separated s args ++ [.text ")"]
    | some (.intrinsicCall _ elements) => do
      let parts ← elements.mapM (exprPieces depth)
      return parts.flatten
    | some (.binary op left right) => do
      let leftPieces ← exprPieces depth left
      let rightPieces ← exprPieces depth right
      return operationPieces s op (operandPieces t op false left leftPieces)
        (operandPieces t op true right rightPieces)
    | some (.localVar name type) => do
      let type ← typePiece t type
      return [type, .text (" " ++ name)]
    | some (.sequence elements) => do
      let parts ← elements.mapM (exprPieces depth)
      return parts.flatten
    | some (.ret (some value)) => do
      let value ← exprPieces depth (some value)
      return .text "return " :: value
    | _ => (exprTextFrom t s (depth + 1) h).map fun text => [.text text]

def memberPieces (m : Member) : Except GenerateError (List Piece) := do
  let type ← typePiece t m.type
  return [type, .text (" " ++ m.name ++ arraySuffix m.count)]

def memberRow (h : Handle) : Except GenerateError Row :=
  match t.node? h with
  | some (.member m) => do
    let pieces ← memberPieces t m
    return ⟨1, pieces ++ [.text ";"]⟩
  | _ => .error (.malformed (.notMember h))

def parameterPieces (function : String) (h : Handle) : Except GenerateError (List Piece) :=
  match t.node? h with
  | some (.parameter name type) => do
    let type ← within ("function " ++ function) (typePiece t type)
    return .text (if isSampler type.plain then "in " else "") :: type :: [.text (" " ++ name)]
  | _ => .error (.malformed (.notParameter function h))

def terminatedPieces (pieces : List Piece) : List Piece :=
  if isClosed (plainText pieces) then pieces else pieces ++ [.text ";"]

def statementRows (statements : List (List Piece)) : List Row :=
  (statements.filter (plainText · ≠ "")).map fun pieces => ⟨1, terminatedPieces pieces⟩

def functionRows (f : Function) : Except GenerateError (List Row) := do
  let place := "function " ++ f.name
  let returns ← within place (typePiece t f.returns)
  let params ← f.params.mapM (parameterPieces t f.name)
  let statements ← within place (f.statements.mapM (exprPieces t s (t.size + 1)))
  let head := returns :: .text (" " ++ f.name ++ "(") :: separated s params ++
    [.text (")" ++ s.gap ++ "\x7b")]
  return ⟨0, head⟩ :: statementRows statements ++ [⟨0, [.text "\x7d"]⟩, blankLine.row]

def structRows (decl : Struct) : Except GenerateError (List Row) := do
  let fields ← within ("struct " ++ decl.name) (decl.fields.mapM (memberRow t))
  let head := [.text "struct ", .definition decl.name, .text (s.gap ++ "\x7b")]
  return ⟨0, head⟩ :: fields ++ [⟨0, [.text "\x7d;"]⟩, blankLine.row]

def pushConstantRows (members : List Handle) : Except GenerateError (List Row) := do
  let fields ← within "push constant" (members.mapM (memberRow t))
  let head := "layout(push_constant)" ++ s.gap ++ "uniform PushConstant" ++ s.gap ++ "\x7b"
  let foot := "\x7d" ++ s.gap ++ Program.pushConstantName ++ ";"
  return ⟨0, [.text head]⟩ :: fields ++ [⟨0, [.text foot]⟩, blankLine.row]

def constantRow (number : UInt32) (type : Piece) (name value : String) : Row :=
  ⟨0, [.text ("layout(constant_id=" ++ number.toNat.repr ++ ")" ++ s.gap ++ "const "), type,
    .text (" " ++ name ++ s.gap ++ "=" ++ s.gap ++ value ++ ";")]⟩

/-- The constants of the fields of a specialization: their lines, their names and the next free
number. -/
def fieldRows (owner : String) (number : UInt32) :
    List Handle → Except GenerateError (List Row × List String × UInt32)
  | [] => .ok ([], [], number)
  | h :: rest =>
    match t.node? h with
    | some (.member field) => do
      let type ← typePiece t field.type
      let name := owner ++ "_" ++ field.name
      let row := constantRow s number type name (specializationDefault (t.name field.type))
      let (rows, names, next) ← fieldRows owner (number + 1) rest
      return (row :: rows, name :: names, next)
    | _ => .error (.malformed (.specializationField owner h))

def specializationRows (n : Numbering) (name : String) (type : Handle) :
    Except GenerateError (List Row × Numbering) :=
  match t.struct? type with
  | none => .error (.malformed (.specializationType name type))
  | some decl => do
    let piece ← typePiece t type
    if decl.fields.isEmpty then
      let row := constantRow s n.constant piece name (specializationDefault decl.name)
      return ([row, blankLine.row], { n with constant := n.constant + 1 })
    else
      let (rows, names, next) ← fieldRows t s name n.constant decl.fields
      let whole := [.text "const ", piece, .text (" " ++ name ++ s.gap ++ "=" ++ s.gap), piece,
        .text ("(" ++ ("," ++ s.gap).intercalate names ++ ");")]
      return (rows ++ [⟨0, whole⟩, blankLine.row], { n with constant := next })

def bindingRows (b : Binding) : Except GenerateError (List Row) :=
  match b.kind with
  | .buffer => do
    let fields ← within ("binding " ++ b.name) (b.members.mapM (memberRow t))
    let head := bindingLayout b ++ bindingAccess b ++ "buffer _" ++ b.name ++ s.gap ++ "\x7b"
    let foot := "\x7d" ++ s.gap ++ b.name ++ arraySuffix b.count ++ ";"
    return ⟨0, [.text head]⟩ :: fields ++ [⟨0, [.text foot]⟩, blankLine.row]
  | _ => (bindingLines t s b).map (List.map Line.row)

def interfaceRows (n : Numbering) (d : Direction) (m : Member) :
    Except GenerateError (List Row × Numbering) := do
  let pieces ← memberPieces t m
  let row (location : UInt32) (storage : String) : Row :=
    ⟨0, .text ("layout(location=" ++ location.toNat.repr ++ ") " ++ interpolation m.annotations ++
      storage ++ " ") :: pieces ++ [.text ";"]⟩
  match d with
  | .input => return ([row n.input "in", blankLine.row], { n with input := n.input + 1 })
  | .output => return ([row n.output "out", blankLine.row], { n with output := n.output + 1 })

/-- The lines of the declaration at a handle, or none if it is not written. -/
def declarationRows (n : Numbering) (h : Handle) :
    Except GenerateError (Option (List Row) × Numbering) :=
  match t.node? h with
  | some (.function decl) => (functionRows t s decl).map fun rows => (some rows, n)
  | some (.struct decl) =>
    if decl.isInstance || isReserved decl.name then .ok (none, n)
    else (structRows t s decl).map fun rows => (some rows, n)
  | some (.binding decl) => (bindingRows t s decl).map fun rows => (some rows, n)
  | some (.pushConstant members) => (pushConstantRows t s members).map fun rows => (some rows, n)
  | some (.specialization name type) =>
    (specializationRows t s n name type).map fun (rows, n) => (some rows, n)
  | some (.member decl) =>
    match direction? t decl with
    | some d => (interfaceRows t n d decl).map fun (rows, n) => (some rows, n)
    | none => .ok (none, n)
  | _ => .ok (none, n)

def writeRows (n : Numbering) : List Handle → Except GenerateError (List (List Row))
  | [] => .ok []
  | h :: rest => do
    let (rows, n) ← declarationRows t s n h
    let more ← writeRows n rest
    match rows with
    | some rows => return rows :: more
    | none => return more

/-- A shader with marks: the header, and the lines of each declaration. -/
structure MarkedShader where
  head : String
  parts : List (List Row)
  deriving Repr, DecidableEq

def MarkedShader.text (s : Spacing) (shader : MarkedShader) : String :=
  shader.head ++ String.join (shader.parts.map fun rows => renderLines s (rows.map Row.line))

def markedShader (t : Tree) (options : Options) : Except GenerateError MarkedShader := do
  let o := options.completed
  let entry ← findEntry t o.entryPoint
  let handles ← order (Catalog.ofTree t) entry
  let parts ← writeRows t ⟨o.minify⟩ .start handles
  return ⟨header o (entryStage t o.stage entry), parts⟩

/-! ## Marks change nothing -/

variable {t s}

@[simp]
theorem Piece.plain_text (body : String) : (Piece.text body).plain = body := rfl

@[simp]
theorem Piece.plain_type (h : Handle) (name : String) : (Piece.type h name).plain = name := rfl

@[simp]
theorem Piece.plain_definition (name : String) : (Piece.definition name).plain = name := rfl

@[simp]
theorem Line.line_row (line : Line) : line.row.line = line := by
  simp [Line.row, Row.line]

theorem plainText_flatten (parts : List (List Piece)) :
    plainText parts.flatten = String.join (parts.map plainText) := by
  induction parts with
  | nil => rfl
  | cons part parts ih => simp [ih]

theorem plainText_separated (parts : List (List Piece)) :
    plainText (separated s parts) = ("," ++ s.gap).intercalate (parts.map plainText) := by
  induction parts with
  | nil => rfl
  | cons part rest ih =>
    cases rest with
    | nil => simp [separated]
    | cons next rest =>
      have htail : plainText (separated s (part :: next :: rest)) =
          plainText part ++ (("," ++ s.gap) ++ plainText (separated s (next :: rest))) := by
        rw [separated, plainText_append, plainText_cons, Piece.plain_text]
        exact List.cons_ne_nil _ _
      rw [htail, ih]
      simp [String.intercalate_cons_cons, String.append_assoc]

/-- The pieces make up the text. -/
def Marks (pieces : List Piece) (text : String) : Prop := plainText pieces = text

/-- The row is the line with marks. -/
def MarksLine (row : Row) (line : Line) : Prop := row.line = line

/-- The rows are the lines with marks. -/
def MarksLines (rows : List Row) (lines : List Line) : Prop := rows.map Row.line = lines

theorem map_of_forall₂ {α β : Type} {f : α → β} {as : List α} {bs : List β}
    (h : List.Forall₂ (fun a b => f a = b) as bs) : as.map f = bs := by
  rw [← List.forall₂_eq_eq_eq, List.forall₂_map_left_iff]
  exact h

theorem agree_typePiece (h : Handle) :
    Agree (fun p text => p = .type h text) (typePiece t h) (typeText t h) := by
  unfold typePiece
  cases typeText t h with
  | ok name => exact .ok rfl
  | error e => exact .error e

theorem marks_operandPieces {parent : Operator} {isRight : Bool} {h : Handle} {pieces : List Piece}
    {text : String} (hp : Marks pieces text) :
    Marks (operandPieces t parent isRight h pieces) (operandText t parent isRight h text) := by
  cases hp
  unfold operandPieces operandText
  cases t.node? h with
  | none => rfl
  | some node =>
    cases node with
    | binary child left right =>
      dsimp only
      split
      · simp [Marks, String.append_assoc]
      · rfl
    | _ => rfl

theorem marks_operationPieces {op : Operator} {left right : List Piece}
    {leftText rightText : String}
    (hl : Marks left leftText) (hr : Marks right rightText) :
    Marks (operationPieces s op left right) (operation s op leftText rightText) := by
  cases hl
  cases hr
  unfold operationPieces operation
  split
  · simp [Marks, String.append_assoc]
  · simp [Marks, String.append_assoc]

theorem agree_exprPieces (depth : Nat) (h : Handle) :
    Agree Marks (exprPieces t s depth h) (exprTextFrom t s depth h) := by
  induction depth generalizing h with
  | zero => exact .error _
  | succ depth ih =>
    have hall (hs : List Handle) : Agree (List.Forall₂ Marks)
        (hs.mapM (exprPieces t s depth)) (hs.mapM (exprTextFrom t s depth)) := Agree.mapM ih hs
    have hplain : Agree Marks ((exprTextFrom t s (depth + 1) h).map fun text => [.text text])
        (exprTextFrom t s (depth + 1) h) := by
      cases exprTextFrom t s (depth + 1) h with
      | ok text => exact .ok (by simp [Marks])
      | error e => exact .error e
    rw [exprPieces]
    split
    · rename_i left right hnode
      rw [exprTextFrom, hnode]
      refine (ih left).bind fun l l' hl => ?_
      refine (ih right).bind fun r r' hr => ?_
      cases hl
      cases hr
      exact .ok (by simp [Marks, String.append_assoc])
    · rename_i callee target args hnode
      rw [exprTextFrom, hnode]
      refine (hall args).bind fun as as' has => .ok ?_
      rw [← map_of_forall₂ has, Marks, ← plainText_separated]
      simp [String.append_assoc]
    · rename_i callee elements hnode
      rw [exprTextFrom, hnode]
      refine (hall elements).bind fun es es' hes => .ok ?_
      rw [← map_of_forall₂ hes, Marks, plainText_flatten]
    · rename_i op left right hnode
      rw [exprTextFrom, hnode]
      refine (ih left).bind fun l l' hl => ?_
      refine (ih right).bind fun r r' hr => ?_
      exact .ok (marks_operationPieces (marks_operandPieces hl) (marks_operandPieces hr))
    · rename_i name type hnode
      rw [exprTextFrom, hnode]
      refine (agree_typePiece type).bind fun p text hp => ?_
      subst hp
      exact .ok (by simp [Marks, String.append_assoc])
    · rename_i elements hnode
      rw [exprTextFrom, hnode]
      refine (hall elements).bind fun es es' hes => .ok ?_
      rw [← map_of_forall₂ hes, Marks, plainText_flatten]
    · rename_i value hnode
      rw [exprTextFrom, hnode]
      refine (ih (some value)).bind fun v v' hv => ?_
      cases hv
      exact .ok (by simp [Marks])
    · exact hplain

theorem agree_memberPieces (m : Member) : Agree Marks (memberPieces t m) (memberText t m) := by
  refine (agree_typePiece m.type).bind fun p text hp => ?_
  subst hp
  exact .ok (by simp [Marks, String.append_assoc])

theorem agree_memberRow (h : Handle) : Agree MarksLine (memberRow t h) (memberLine t h) := by
  unfold memberRow memberLine
  cases t.node? h with
  | none => exact .error _
  | some node =>
    cases node with
    | member m =>
      refine (agree_memberPieces m).bind fun pieces text hp => ?_
      cases hp
      exact .ok (by simp [MarksLine, Row.line])
    | _ => exact .error _

theorem agree_parameterPieces (function : String) (h : Handle) :
    Agree Marks (parameterPieces t function h) (parameterText t function h) := by
  unfold parameterPieces parameterText
  cases t.node? h with
  | none => exact .error _
  | some node =>
    cases node with
    | parameter name type =>
      refine (agree_typePiece type).within.bind fun p text hp => ?_
      subst hp
      refine .ok ?_
      simp only [Marks, plainText_cons, Piece.plain_text, Piece.plain_type, plainText_nil]
      by_cases hsampler : isSampler text = true
      · simp [hsampler, String.append_assoc]
      · simp [hsampler, String.append_assoc]
    | _ => exact .error _

/-! ## Declarations without marks -/

theorem marksLines_statementRows (statements : List (List Piece)) :
    MarksLines (statementRows statements) (statementLines (statements.map plainText)) := by
  unfold statementRows statementLines MarksLines
  rw [List.filter_map, List.map_map, List.map_map]
  refine List.map_congr_left fun pieces _ => ?_
  simp only [Function.comp_apply, Row.line, terminatedPieces, terminated_eq]
  split
  · rfl
  · simp

theorem MarksLines.cons {row : Row} {line : Line} {rows : List Row} {lines : List Line}
    (h : row.line = line) (hs : MarksLines rows lines) :
    MarksLines (row :: rows) (line :: lines) := by
  rw [MarksLines, List.map_cons, h, hs]

theorem MarksLines.append {rows rows' : List Row} {lines lines' : List Line}
    (h : MarksLines rows lines) (h' : MarksLines rows' lines') :
    MarksLines (rows ++ rows') (lines ++ lines') := by
  rw [MarksLines, List.map_append, h, h']

theorem marksLines_single {row : Row} {line : Line} (h : row.line = line) :
    MarksLines [row, blankLine.row] [line, blankLine] :=
  .cons h (by simp [MarksLines])

theorem marksLines_foot (text : String) :
    MarksLines [⟨0, [.text text]⟩, blankLine.row] [⟨0, text⟩, blankLine] :=
  marksLines_single (by simp [Row.line])

theorem agree_functionRows (f : Function) :
    Agree MarksLines (functionRows t s f) (functionLines t s f) := by
  unfold functionRows functionLines
  refine (agree_typePiece f.returns).within.bind fun p returns hp => ?_
  subst hp
  refine (Agree.mapM (agree_parameterPieces f.name) f.params).bind fun parts params hparams => ?_
  have hbody := Agree.mapM (agree_exprPieces (t := t) (s := s) (t.size + 1)) f.statements
  refine hbody.within.bind fun statements texts htexts => .ok ?_
  rw [← map_of_forall₂ htexts, ← map_of_forall₂ hparams, ← plainText_separated]
  refine .append (.cons ?_ (marksLines_statementRows statements)) (marksLines_foot _)
  simp [Row.line, String.append_assoc]

theorem agree_memberRows (place : String) (members : List Handle) :
    Agree MarksLines (within place (members.mapM (memberRow t)))
      (within place (members.mapM (memberLine t))) := by
  have hrows : Agree (List.Forall₂ MarksLine) (within place (members.mapM (memberRow t)))
      (within place (members.mapM (memberLine t))) := (Agree.mapM agree_memberRow members).within
  generalize within place (members.mapM (memberRow t)) = x at hrows ⊢
  generalize within place (members.mapM (memberLine t)) = y at hrows ⊢
  cases hrows with
  | ok h => exact .ok (map_of_forall₂ h)
  | error e => exact .error e

theorem agree_structRows (decl : Struct) :
    Agree MarksLines (structRows t s decl) (structLines t s decl) := by
  refine (agree_memberRows _ decl.fields).bind fun rows fields hrows => .ok ?_
  refine .append (.cons ?_ hrows) (marksLines_foot _)
  simp [Row.line, String.append_assoc]

theorem agree_pushConstantRows (members : List Handle) :
    Agree MarksLines (pushConstantRows t s members) (pushConstantLines t s members) := by
  refine (agree_memberRows _ members).bind fun rows fields hrows => .ok ?_
  refine .append (.cons ?_ hrows) (marksLines_foot _)
  simp [Row.line]

theorem agree_bindingRows (b : Binding) :
    Agree MarksLines (bindingRows t s b) (bindingLines t s b) := by
  unfold bindingRows
  split
  · rename_i hkind
    unfold bindingLines
    rw [hkind]
    refine (agree_memberRows _ b.members).bind fun rows fields hrows => .ok ?_
    refine .append (.cons ?_ hrows) (marksLines_foot _)
    simp [Row.line]
  · cases bindingLines t s b with
    | ok lines => exact .ok (by simp [MarksLines, Function.comp_def])
    | error e => exact .error e

theorem line_constantRow (number : UInt32) (h : Handle) (type name value : String) :
    (constantRow s number (.type h type) name value).line =
      constantLine s number type name value := by
  simp [constantRow, constantLine, Row.line, String.append_assoc]

theorem agree_fieldRows (owner : String) (number : UInt32) (fields : List Handle) :
    Agree (fun a b => MarksLines a.1 b.1 ∧ a.2 = b.2) (fieldRows t s owner number fields)
      (fieldConstants t s owner number fields) := by
  induction fields generalizing number with
  | nil => exact .ok ⟨rfl, rfl⟩
  | cons h fields ih =>
    rw [fieldRows, fieldConstants]
    cases t.node? h with
    | none => exact .error _
    | some node =>
      cases node with
      | member field =>
        refine (agree_typePiece field.type).bind fun p text hp => ?_
        subst hp
        refine (ih (number + 1)).bind fun a b hab => ?_
        obtain ⟨rows, rest⟩ := a
        obtain ⟨lines, rest'⟩ := b
        obtain ⟨hrows, heq⟩ := hab
        change rest = rest' at heq
        subst heq
        exact .ok ⟨.cons (line_constantRow ..) hrows, rfl⟩
      | _ => exact .error _

/-- The rows are the lines with marks, and the numbering after them is the same. -/
def MarksNumbered (a : List Row × Numbering) (b : List Line × Numbering) : Prop :=
  MarksLines a.1 b.1 ∧ a.2 = b.2

theorem agree_specializationRows (n : Numbering) (name : String) (type : Handle) :
    Agree MarksNumbered (specializationRows t s n name type)
      (specializationLines t s n name type) := by
  unfold specializationRows specializationLines
  cases t.struct? type with
  | none => exact .error _
  | some decl =>
    refine (agree_typePiece type).bind fun p text hp => ?_
    subst hp
    dsimp only
    split
    · exact .ok ⟨marksLines_single (line_constantRow ..), rfl⟩
    · refine (agree_fieldRows name n.constant decl.fields).bind fun a b hab => ?_
      obtain ⟨rows, names, next⟩ := a
      obtain ⟨lines, names', next'⟩ := b
      obtain ⟨hrows, heq⟩ := hab
      cases heq
      refine .ok ⟨hrows.append (marksLines_single ?_), rfl⟩
      simp [Row.line, String.append_assoc]

theorem agree_interfaceRows (n : Numbering) (d : Direction) (m : Member) :
    Agree MarksNumbered (interfaceRows t n d m) (interfaceLines t n d m) := by
  unfold interfaceRows interfaceLines
  refine (agree_memberPieces m).bind fun pieces text hp => ?_
  cases hp
  cases d with
  | input | output => exact .ok ⟨marksLines_single (by simp [Row.line, String.append_assoc]), rfl⟩

/-- The rows of a declaration are its lines with marks; both or neither are there. -/
def MarksWritten (a : Option (List Row) × Numbering) (b : Option (List Line) × Numbering) : Prop :=
  a.1.map (List.map Row.line) = b.1 ∧ a.2 = b.2

theorem marks_unnumbered {n : Numbering} {x : Except GenerateError (List Row)}
    {y : Except GenerateError (List Line)} (h : Agree MarksLines x y) :
    Agree MarksWritten (x.map fun rows => (some rows, n)) (unnumbered n y) :=
  h.map fun _ _ hab => ⟨congrArg some hab, rfl⟩

theorem marks_numbered {x : Except GenerateError (List Row × Numbering)}
    {y : Except GenerateError (List Line × Numbering)} (h : Agree MarksNumbered x y) :
    Agree MarksWritten (x.map fun a => (some a.1, a.2)) (numbered y) :=
  h.map fun _ _ hab => ⟨congrArg some hab.1, hab.2⟩

theorem agree_declarationRows (n : Numbering) (h : Handle) :
    Agree MarksWritten (declarationRows t s n h) (declarationLines t s n h) := by
  have hnothing : Agree MarksWritten (.ok (none, n)) (.ok (none, n)) := .ok ⟨rfl, rfl⟩
  unfold declarationRows declarationLines
  cases t.node? h with
  | none => exact hnothing
  | some node =>
    cases node with
    | function decl => exact marks_unnumbered (agree_functionRows decl)
    | struct decl =>
      dsimp only
      split
      · exact hnothing
      · exact marks_unnumbered (agree_structRows decl)
    | binding decl => exact marks_unnumbered (agree_bindingRows decl)
    | pushConstant members => exact marks_unnumbered (agree_pushConstantRows members)
    | specialization name type => exact marks_numbered (agree_specializationRows n name type)
    | member decl =>
      dsimp only
      cases direction? t decl with
      | none => exact hnothing
      | some d => exact marks_numbered (agree_interfaceRows n d decl)
    | _ => exact hnothing

theorem agree_writeRows (n : Numbering) (handles : List Handle) :
    Agree (fun parts written => (parts.map fun rows => renderLines s (rows.map Row.line)) =
        written.map (·.2))
      (writeRows t s n handles) (writeDeclarations t s n handles) := by
  induction handles generalizing n with
  | nil => exact .ok rfl
  | cons h rest ih =>
    refine (agree_declarationRows n h).bind fun a b hab => ?_
    obtain ⟨rows, n'⟩ := a
    obtain ⟨lines, n''⟩ := b
    obtain ⟨hrows, hn⟩ := hab
    cases hn
    cases hrows
    refine (ih n').bind fun parts written hparts => ?_
    cases rows with
    | none => exact .ok hparts
    | some rows => exact .ok (by simp [hparts])

theorem agree_markedShader (t : Tree) (options : Options) :
    Agree (fun shader out => out.text = shader.text ⟨options.completed.minify⟩)
      (markedShader t options) (generate (some t) options) := by
  refine (Agree.refl _).bind fun entry _ h => ?_
  subst h
  refine (Agree.refl _).bind fun handles _ h => ?_
  subst h
  refine (agree_writeRows .start handles).bind fun parts written hparts => .ok ?_
  rw [MarkedShader.text, hparts]

end Shader.Glsl
