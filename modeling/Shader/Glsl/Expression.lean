import Shader.Glsl.Error
import Shader.Glsl.Names
import Shader.Program.TypeName

/-!
# Texts of types and expressions
-/

namespace Shader.Glsl

open Arena

/-- Whether the blanks around operators and after commas are left out. -/
structure Spacing where
  minify : Bool
  deriving Repr, DecidableEq

def Spacing.gap (s : Spacing) : String := if s.minify then "" else " "

/-- The name of the type at a handle, found in at most `steps` steps. An instance with one argument
is written as its argument, any other instance by its name without the star of a pointer. -/
def typeTextFrom (t : Tree) : Nat → Handle → Except GenerateError String
  | 0, _ => .error (.malformed .cyclic)
  | steps + 1, h =>
    match t.struct? h with
    | none => .error (.malformed (.notType h))
    | some decl =>
      if decl.isInstance then
        match decl.types with
        | [argument] => typeTextFrom t steps argument
        | _ => .ok (Program.TypeName.withoutStar decl.name)
      else .ok (spelling decl.name)

/-- The name by which a type is written. No chain of arguments is longer than the tree. -/
def typeText (t : Tree) (h : Handle) : Except GenerateError String :=
  typeTextFrom t (t.size + 1) h

/-- Whether a sign would run together with the operand behind it. -/
def joins (symbol text : String) : Bool :=
  match symbol.toList.getLast?, text.toList.head? with
  | some sign, some first => (sign = '+' || sign = '-') && first = sign
  | _, _ => false

/-- The text of an operation. Where signs would join, a blank stays even if minified. -/
def operation (s : Spacing) (op : Operator) (left right : String) : String :=
  if s.minify && joins op.symbol right then left ++ op.symbol ++ " " ++ right
  else left ++ s.gap ++ op.symbol ++ s.gap ++ right

/-- Whether an operand with the operator `child` needs brackets below the operator `parent`: it
binds looser, or as tight on the side to which the operator does not group. -/
def needsBrackets (child parent : Operator) (isRight : Bool) : Bool :=
  child.precedence < parent.precedence ||
    (child.precedence = parent.precedence &&
      (if parent.groupsRight then !isRight else isRight))

/-- The text of an operand, in brackets if it needs them. -/
def operandText (t : Tree) (parent : Operator) (isRight : Bool) (h : Handle) (text : String) :
    String :=
  match t.node? h with
  | some (.binary child _ _) =>
    if needsBrackets child parent isRight then "(" ++ text ++ ")" else text
  | _ => text

/-- The text of an expression, at most `depth` deep. -/
def exprTextFrom (t : Tree) (s : Spacing) : Nat → Handle → Except GenerateError String
  | 0, _ => .error (.malformed .cyclic)
  | depth + 1, h =>
    match t.node? h with
    | some (.ident name source) =>
      match t.node? source with
      | some (.literal _ body) => .ok body
      | _ => .ok name
    | some (.constant text) => .ok text
    | some (.access left right) => do
      let left ← exprTextFrom t s depth left
      let right ← exprTextFrom t s depth right
      return left ++ "." ++ right
    | some (.call callee _ args) => do
      let args ← args.mapM (exprTextFrom t s depth)
      return spelling callee ++ "(" ++ ("," ++ s.gap).intercalate args ++ ")"
    | some (.intrinsicCall _ elements) => do
      let parts ← elements.mapM (exprTextFrom t s depth)
      return String.join parts
    | some (.binary op left right) => do
      let leftText ← exprTextFrom t s depth left
      let rightText ← exprTextFrom t s depth right
      return operation s op (operandText t op false left leftText)
        (operandText t op true right rightText)
    | some (.localVar name type) => do
      let type ← typeText t type
      return type ++ " " ++ name
    | some (.sequence elements) => do
      let parts ← elements.mapM (exprTextFrom t s depth)
      return String.join parts
    | some (.ret none) => .ok "return"
    | some (.ret value) => do
      let value ← exprTextFrom t s depth value
      return "return " ++ value
    | some (.fragment decl) => .ok decl.code
    | some (.marker ..) => .ok ""
    | some .placeholder => .ok ""
    | some (.literal ..) => .ok ""
    | none => .error (.malformed (.noExpression h))
    | some node => .error (.malformed (.notExpression h (kindName node)))

/-- The text of an expression. None is deeper than there are nodes. -/
def exprText (t : Tree) (s : Spacing) (h : Handle) : Except GenerateError String :=
  exprTextFrom t s (t.size + 1) h

end Shader.Glsl
