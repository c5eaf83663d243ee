import Shader.Text.Quoted

/-!
# Faults of a program text

A text fails to be a program either at a token (`ParseError.at`) or because it stops too early
(`ParseError.ended`). The causes are listed here with their wording.
-/

namespace Shader.Program

open Text

/-- What a name is expected for. -/
inductive NameRole where
  | field
  | type
  | genericArgument
  | tag
  | variable
  deriving Repr, DecidableEq

def NameRole.text : NameRole → String
  | .field => "field name"
  | .type => "type name"
  | .genericArgument => "generic argument"
  | .tag => "annotation name"
  | .variable => "variable name"

/-- The kind of an atom without its node. -/
inductive AtomShape where
  | operand
  | operator (symbol : String)
  | ret
  deriving Repr, DecidableEq

def AtomShape.text : AtomShape → String
  | .operand => "operand"
  | .operator symbol => "operator " ++ quoted symbol
  | .ret => "return"

/-- What is wrong at a token. -/
inductive Fault where
  | unexpected (want got : String)
  | notName (role : NameRole) (got : String)
  | fieldEnd (struct field : String)
  | arrayLength (text : String)
  | parameters (function : String)
  | noDeclaration (token : String)
  | lateReturn
  | notExpression (token : String)
  | openCall (callee : String)
  | emptyExpression
  | operandAfter (last : AtomShape)
  | operandExpected (got : AtomShape)
  | operatorExpected (got : AtomShape)
  deriving Repr, DecidableEq

def Fault.message : Fault → String
  | .unexpected want got => "expected " ++ quoted want ++ ", got " ++ quoted got
  | .notName role got => "expected " ++ role.text ++ ", got " ++ quoted got
  | .fieldEnd struct field =>
    "expected ',' or '\x7d' after field " ++ struct ++ "." ++ field
  | .arrayLength text => "invalid array length " ++ quoted text
  | .parameters function => "function " ++ function ++ ": parameters are not supported"
  | .noDeclaration token => "no parser could handle the syntax for statement: " ++ token
  | .lateReturn => "return must start a statement"
  | .notExpression token => "unexpected token " ++ quoted token ++ " in expression"
  | .openCall callee => "unterminated call to " ++ callee
  | .emptyExpression => "expected expression"
  | .operandAfter last => "expected operand after " ++ last.text
  | .operandExpected got => "expected operand, got " ++ got.text
  | .operatorExpected got => "missing operator before " ++ got.text

/-- What is being read when the tokens end. -/
inductive Unfinished where
  | token (want : String)
  | nameFor (role : NameRole)
  | struct (name : String)
  | arrayLength
  | function (name : String)
  | member (name : String)
  | expression
  | tag (text : String)
  deriving Repr, DecidableEq

def Unfinished.text : Unfinished → String
  | .token want => "expected " ++ quoted want
  | .nameFor role => "expected " ++ role.text
  | .struct name => "struct " ++ name
  | .arrayLength => "array length"
  | .function name => "function " ++ name
  | .member name => "member " ++ name
  | .expression => "expression"
  | .tag text => "annotation #[" ++ text ++ "] is not followed by a declaration"

/-- A parse fails at a token, or because there are no more tokens. -/
inductive ParseError where
  | at (fault : Fault) (token : String) (index : Nat)
  | ended (part : Unfinished)
  deriving Repr, DecidableEq

def ParseError.message : ParseError → String
  | .at fault token index =>
    if token = "" then fault.message
    else fault.message ++ " (token " ++ index.repr ++ " " ++ quoted token ++ ")"
  | .ended part => part.text ++ ": token stream ended prematurely"

end Shader.Program
