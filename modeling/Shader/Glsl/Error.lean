import Shader.Arena.Tree
import Shader.Text.Quoted

/-!
# Faults of generation

Why no shader can be written for a tree, with the wording of each cause. Apart from a missing entry
function and an undeclared input of a piece of code, the causes are defects of the tree itself.
-/

namespace Shader.Glsl

open Arena Text

def kindName : Node → String
  | .scope .. => "ir.Scope"
  | .struct _ => "ir.Struct"
  | .member _ => "ir.Member"
  | .function _ => "ir.Function"
  | .parameter .. => "ir.Parameter"
  | .binding _ => "ir.Binding"
  | .pushConstant _ => "ir.PushConstant"
  | .specialization .. => "ir.Specialization"
  | .fragment _ => "ir.Fragment"
  | .intrinsic _ => "ir.Intrinsic"
  | .literal .. => "ir.Literal"
  | .placeholder => "ir.Null"
  | .sequence _ => "ir.Sentence"
  | .access .. => "ir.Accessor"
  | .ident .. => "ir.MemberExpr"
  | .constant _ => "ir.LiteralExpr"
  | .call .. => "ir.Call"
  | .intrinsicCall .. => "ir.IntrinsicCall"
  | .binary .. => "ir.OperatorExpr"
  | .localVar .. => "ir.VarDecl"
  | .marker .. => "ir.Macro"
  | .ret _ => "ir.Return"

/-- What makes a tree one that cannot be written. -/
inductive Defect where
  | noTree
  | danglingReference
  | danglingStatement
  | declarationInStatement
  | notType (h : Handle)
  | notMember (h : Handle)
  | notParameter (function : String) (h : Handle)
  | specializationType (name : String) (h : Handle)
  | specializationField (name : String) (h : Handle)
  | unknownBinding (name : String) (kind : BindingKind)
  | noExpression (h : Handle)
  | notExpression (h : Handle) (kind : String)
  | cyclic
  deriving Repr, DecidableEq

def Defect.text : Defect → String
  | .noTree => "nil tree"
  | .danglingReference => "reference to a node that does not exist"
  | .danglingStatement => "statement refers to a node that does not exist"
  | .declarationInStatement => "unexpected declaration in statement position"
  | .notType h => "handle " ++ (Handle.number h).repr ++ " is not a type"
  | .notMember h => "handle " ++ (Handle.number h).repr ++ " is not a member"
  | .notParameter function h =>
    "function " ++ function ++ ": parameter handle " ++ (Handle.number h).repr ++
      " is not a parameter"
  | .specializationType name h =>
    "specialization " ++ name ++ ": type handle " ++ (Handle.number h).repr ++ " is not a struct"
  | .specializationField name h =>
    "specialization " ++ name ++ ": field handle " ++ (Handle.number h).repr ++
      " is not a member"
  | .unknownBinding name kind => "binding " ++ name ++ ": unknown kind " ++ kind.text
  | .noExpression h => "expression handle " ++ (Handle.number h).repr ++ " does not exist"
  | .notExpression h kind =>
    "node " ++ (Handle.number h).repr ++ " (" ++ kind ++ ") is not an expression"
  | .cyclic => "nodes contain each other"

/-- Why no text is written. An error inside a declaration carries its place. -/
inductive GenerateError where
  | missingEntryPoint (name : String)
  | unresolvedSymbol (name : String)
  | malformed (defect : Defect)
  | inside (place : String) (error : GenerateError)
  deriving Repr, DecidableEq

namespace GenerateError

def message : GenerateError → String
  | .missingEntryPoint name => "no function named " ++ quoted name
  | .unresolvedSymbol name => "fragment reads undeclared symbol " ++ quoted name
  | .malformed defect => defect.text
  | .inside place error => place ++ ": " ++ error.message

/-- The error without the places around it. -/
def cause : GenerateError → GenerateError
  | .inside _ error => error.cause
  | error => error

end GenerateError

def within {α : Type} (place : String) : Except GenerateError α → Except GenerateError α
  | .ok a => .ok a
  | .error e => .error (.inside place e)

end Shader.Glsl
