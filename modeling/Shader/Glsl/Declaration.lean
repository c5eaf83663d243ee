import Shader.Glsl.Expression

/-!
# Texts of declarations

Each declaration is written as a list of lines. A line has a level of indentation, which minified
output leaves out together with the end of the line.
-/

namespace Shader.Glsl

open Arena

/-- A line of text with its level of indentation. -/
structure Line where
  level : Nat
  text : String
  deriving Repr, DecidableEq

/-- A line as it is written: without indentation and line end in minified text. -/
def Line.render (s : Spacing) (line : Line) : String :=
  if s.minify then line.text
  else String.join (List.replicate line.level "    ") ++ line.text ++ "\n"

def renderLines (s : Spacing) (lines : List Line) : String :=
  String.join (lines.map (Line.render s))

def blankLine : Line := ⟨0, ""⟩

/-- The next free location of each direction, and the next free constant number. -/
structure Numbering where
  input : UInt32
  output : UInt32
  constant : UInt32
  deriving Repr, DecidableEq

def Numbering.start : Numbering := ⟨0, 0, 0⟩

/-- The length of an array in brackets, and nothing for a single value. -/
def arraySuffix (count : UInt32) : String :=
  if count = 0 then "" else "[" ++ count.toNat.repr ++ "]"

/-- The type and the name of a member, as a declaration has them. -/
def memberText (t : Tree) (m : Member) : Except GenerateError String := do
  let type ← typeText t m.type
  return type ++ " " ++ m.name ++ arraySuffix m.count

/-- The line of a field. Anything but a member cannot be one. -/
def memberLine (t : Tree) (h : Handle) : Except GenerateError Line :=
  match t.node? h with
  | some (.member m) => do
    let text ← memberText t m
    return ⟨1, text ++ ";"⟩
  | _ => .error (.malformed (.notMember h))

/-- A parameter in the head of a function. A sampler is marked as an input. -/
def parameterText (t : Tree) (function : String) (h : Handle) : Except GenerateError String :=
  match t.node? h with
  | some (.parameter name type) => do
    let type ← within ("function " ++ function) (typeText t type)
    return (if isSampler type then "in " ++ type else type) ++ " " ++ name
  | _ => .error (.malformed (.notParameter function h))

/-- A statement with its semicolon, unless the text ends in one or in a closing brace. -/
def terminated (text : String) : String :=
  if text.toList.getLast? = some ';' || text.toList.getLast? = some '\x7d' then text
  else text ++ ";"

/-- The lines of a body. A statement without text has no line. -/
def statementLines (texts : List String) : List Line :=
  (texts.filter (· ≠ "")).map fun text => ⟨1, terminated text⟩

/-- The head, the statements and the closing brace of a function. -/
def functionLines (t : Tree) (s : Spacing) (f : Function) : Except GenerateError (List Line) := do
  let place := "function " ++ f.name
  let returns ← within place (typeText t f.returns)
  let params ← f.params.mapM (parameterText t f.name)
  let texts ← within place (f.statements.mapM (exprText t s))
  let head := returns ++ " " ++ f.name ++ "(" ++ ("," ++ s.gap).intercalate params ++ ")" ++
    s.gap ++ "\x7b"
  return ⟨0, head⟩ :: statementLines texts ++ [⟨0, "\x7d"⟩, blankLine]

/-- The lines of a struct. An error of a field is placed inside the struct. -/
def structLines (t : Tree) (s : Spacing) (decl : Struct) : Except GenerateError (List Line) := do
  let fields ← within ("struct " ++ decl.name) (decl.fields.mapM (memberLine t))
  return ⟨0, "struct " ++ decl.name ++ s.gap ++ "\x7b"⟩ :: fields ++ [⟨0, "\x7d;"⟩, blankLine]

/-- The block of the push constants, under its one name. -/
def pushConstantLines (t : Tree) (s : Spacing) (members : List Handle) :
    Except GenerateError (List Line) := do
  let fields ← within "push constant" (members.mapM (memberLine t))
  let head := "layout(push_constant)" ++ s.gap ++ "uniform PushConstant" ++ s.gap ++ "\x7b"
  let foot := "\x7d" ++ s.gap ++ Program.pushConstantName ++ ";"
  return ⟨0, head⟩ :: fields ++ [⟨0, foot⟩, blankLine]

/-- One specialization constant with its number and its default. -/
def constantLine (s : Spacing) (number : UInt32) (type name value : String) : Line :=
  ⟨0, "layout(constant_id=" ++ number.toNat.repr ++ ")" ++ s.gap ++ "const " ++ type ++ " " ++
    name ++ s.gap ++ "=" ++ s.gap ++ value ++ ";"⟩

/-- The constants of the fields of a specialization, numbered from `number` on: their lines, their
names and the next free number. -/
def fieldConstants (t : Tree) (s : Spacing) (owner : String) (number : UInt32) :
    List Handle → Except GenerateError (List Line × List String × UInt32)
  | [] => .ok ([], [], number)
  | h :: rest =>
    match t.node? h with
    | some (.member field) => do
      let type ← typeText t field.type
      let name := owner ++ "_" ++ field.name
      let line := constantLine s number type name (specializationDefault (t.name field.type))
      let (lines, names, next) ← fieldConstants t s owner (number + 1) rest
      return (line :: lines, name :: names, next)
    | _ => .error (.malformed (.specializationField owner h))

/-- The lines of a specialization. A type without fields has one constant; any other has one for
each field and is put together from them. -/
def specializationLines (t : Tree) (s : Spacing) (n : Numbering) (name : String) (type : Handle) :
    Except GenerateError (List Line × Numbering) :=
  match t.struct? type with
  | none => .error (.malformed (.specializationType name type))
  | some decl => do
    let text ← typeText t type
    if decl.fields.isEmpty then
      let line := constantLine s n.constant text name (specializationDefault decl.name)
      return ([line, blankLine], { n with constant := n.constant + 1 })
    else
      let (lines, names, next) ← fieldConstants t s name n.constant decl.fields
      let whole := "const " ++ text ++ " " ++ name ++ s.gap ++ "=" ++ s.gap ++ text ++ "(" ++
        ("," ++ s.gap).intercalate names ++ ");"
      return (lines ++ [⟨0, whole⟩, blankLine], { n with constant := next })

/-- The set and slot of a binding, with the layout of a buffer or format of an image. -/
def bindingLayout (b : Binding) : String :=
  let detail := match b.kind with
    | .buffer => ",scalar"
    | .image => if b.format = "" then "" else "," ++ b.format
    | _ => ""
  "layout(set=" ++ b.set.toNat.repr ++ ",binding=" ++ b.slot.toNat.repr ++ detail ++ ") "

/-- A resource that is both read and written, or neither, has no qualifier. -/
def bindingAccess (b : Binding) : String :=
  if b.read && !b.write then "readonly "
  else if b.write && !b.read then "writeonly "
  else ""

/-- A buffer is a block with fields, an image or a sampler a single line. -/
def bindingLines (t : Tree) (s : Spacing) (b : Binding) : Except GenerateError (List Line) :=
  match b.kind with
  | .buffer => do
    let fields ← within ("binding " ++ b.name) (b.members.mapM (memberLine t))
    let head := bindingLayout b ++ bindingAccess b ++ "buffer _" ++ b.name ++ s.gap ++ "\x7b"
    let foot := "\x7d" ++ s.gap ++ b.name ++ arraySuffix b.count ++ ";"
    return ⟨0, head⟩ :: fields ++ [⟨0, foot⟩, blankLine]
  | .image =>
    .ok [⟨0, bindingLayout b ++ bindingAccess b ++ "uniform " ++ imageType b.format ++ " " ++
      b.name ++ arraySuffix b.count ++ ";"⟩, blankLine]
  | .combinedImageSampler =>
    let sampler := if b.format = "ArrayTexture2D" then "sampler2DArray" else "sampler2D"
    .ok [⟨0, bindingLayout b ++ "uniform " ++ sampler ++ " " ++ b.name ++ arraySuffix b.count ++
      ";"⟩, blankLine]
  | .unknown _ => .error (.malformed (.unknownBinding b.name b.kind))

/-- Stage inputs and outputs are numbered apart. -/
inductive Direction where
  | input
  | output
  deriving Repr, DecidableEq

/-- The direction of a member: its type is an instance of `In` or `Out`. -/
def direction? (t : Tree) (m : Member) : Option Direction :=
  match t.struct? m.type with
  | some decl =>
    if decl.isInstance then
      match t.name decl.template with
      | "In" => some .input
      | "Out" => some .output
      | _ => none
    else none
  | none => none

/-- The interpolation of a value, from the last annotation that names one. -/
def interpolation (annotations : List String) : String :=
  match annotations.reverse.find? (· ∈ ["flat", "noperspective", "smooth"]) with
  | some a => a ++ " "
  | none => ""

/-- A stage input or output takes the next location of its direction. -/
def interfaceLines (t : Tree) (n : Numbering) (d : Direction) (m : Member) :
    Except GenerateError (List Line × Numbering) := do
  let text ← memberText t m
  let line (location : UInt32) (storage : String) : Line :=
    ⟨0, "layout(location=" ++ location.toNat.repr ++ ") " ++ interpolation m.annotations ++
      storage ++ " " ++ text ++ ";"⟩
  match d with
  | .input => return ([line n.input "in", blankLine], { n with input := n.input + 1 })
  | .output => return ([line n.output "out", blankLine], { n with output := n.output + 1 })

/-- The lines of a declaration that takes no number. -/
def unnumbered (n : Numbering) (lines : Except GenerateError (List Line)) :
    Except GenerateError (Option (List Line) × Numbering) :=
  lines.map fun lines => (some lines, n)

/-- The lines of a declaration that takes numbers. -/
def numbered (lines : Except GenerateError (List Line × Numbering)) :
    Except GenerateError (Option (List Line) × Numbering) :=
  lines.map fun (lines, n) => (some lines, n)

/-- The lines of the declaration at a handle, or none if it is not written at the top of a shader,
and the numbering after it. -/
def declarationLines (t : Tree) (s : Spacing) (n : Numbering) (h : Handle) :
    Except GenerateError (Option (List Line) × Numbering) :=
  match t.node? h with
  | some (.function decl) => unnumbered n (functionLines t s decl)
  | some (.struct decl) =>
    if decl.isInstance || isReserved decl.name then .ok (none, n)
    else unnumbered n (structLines t s decl)
  | some (.binding decl) => unnumbered n (bindingLines t s decl)
  | some (.pushConstant members) => unnumbered n (pushConstantLines t s members)
  | some (.specialization name type) => numbered (specializationLines t s n name type)
  | some (.member decl) =>
    match direction? t decl with
    | some d => numbered (interfaceLines t n d decl)
    | none => .ok (none, n)
  | _ => .ok (none, n)

end Shader.Glsl
