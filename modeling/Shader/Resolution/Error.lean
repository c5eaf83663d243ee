import Shader.Arena.Tree
import Shader.Text.Quoted

/-!
# Faults of resolution

Why a program tree cannot be resolved, with the wording of each cause.
-/

namespace Shader.Resolution

open Text

def kindName : Program.Node → String
  | .scope .. => "*syntax.Scope"
  | .struct _ => "*syntax.Struct"
  | .member _ => "*syntax.Member"
  | .function .. => "*syntax.Function"
  | .parameter _ => "*syntax.Parameter"
  | .binding _ => "*syntax.Binding"
  | .specialization .. => "*syntax.Specialization"
  | .pushConstant _ => "*syntax.PushConstant"
  | .fragment _ => "*syntax.Fragment"
  | .intrinsic .. => "*syntax.Intrinsic"
  | .literal .. => "*syntax.Literal"
  | .placeholder => "*syntax.Null"
  | .sequence _ => "*syntax.Sentence"
  | .access .. => "*syntax.Accessor"
  | .ident _ => "*syntax.MemberExpr"
  | .constant _ => "*syntax.LiteralExpr"
  | .call .. => "*syntax.Call"
  | .binary .. => "*syntax.Operator"
  | .localVar .. => "*syntax.VarDecl"
  | .marker .. => "*syntax.Macro"
  | .ret _ => "*syntax.Return"
  | .missing => "<nil>"

/-- What a parsed program can have that no resolved tree stands for. -/
inductive Meaningless where
  | noRoot
  | noDeclaration
  | notDeclaration (kind : String)
  | noExpression
  | notExpression (kind : String)
  | selfContaining (struct : String)
  | unknownOperator (symbol : String)
  | noResource (binding : String)
  deriving Repr, DecidableEq

def Meaningless.text : Meaningless → String
  | .noRoot => "nil root scope"
  | .noDeclaration => "nil declaration"
  | .notDeclaration kind => kind ++ " is not a declaration"
  | .noExpression => "nil expression"
  | .notExpression kind => kind ++ " is not an expression"
  | .selfContaining struct => "struct " ++ struct ++ " contains itself"
  | .unknownOperator symbol => "unknown operator " ++ quoted symbol
  | .noResource binding => "binding " ++ binding ++ " has no resource type"

/-- Why a program is not resolved. An error inside a node carries its place. -/
inductive ResolveError where
  /-- A type name that stands for no type where it is used. -/
  | noSuchType (name : String)
  | undefined (what : Meaningless)
  | argumentCount (function : String) (want got : Nat)
  | tree (error : Arena.TreeError)
  | inside (place : String) (error : ResolveError)
  deriving Repr, DecidableEq

namespace ResolveError

def message : ResolveError → String
  | .noSuchType name => "no such type " ++ quoted name
  | .undefined what => "undefined: " ++ what.text
  | .argumentCount function want got =>
    "call to " ++ function ++ ": want " ++ want.repr ++ " arguments, got " ++ got.repr
  | .tree error => error.message
  | .inside place error => place ++ ": " ++ error.message

def cause : ResolveError → ResolveError
  | .inside _ error => error.cause
  | error => error

end ResolveError

end Shader.Resolution
