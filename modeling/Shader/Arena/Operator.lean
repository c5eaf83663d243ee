/-!
# Operators

The binary operators of resolved expressions, with their symbols and precedence. A tree built by
another tool may hold codes that are no operator; such a code has no precedence.
-/

namespace Shader.Arena

/-- The operators of resolved expressions. An unknown one keeps its code. -/
inductive Operator where
  | add
  | subtract
  | multiply
  | divide
  | modulo
  | assign
  | equal
  | unknown (code : UInt8)
  deriving Repr, DecidableEq

namespace Operator

def all : List Operator := [.add, .subtract, .multiply, .divide, .modulo, .assign, .equal]

def ofCode (code : UInt8) : Operator := (all[code.toNat]?).getD (.unknown code)

def code : Operator → UInt8
  | .add => 0
  | .subtract => 1
  | .multiply => 2
  | .divide => 3
  | .modulo => 4
  | .assign => 5
  | .equal => 6
  | .unknown code => code

def symbol : Operator → String
  | .add => "+"
  | .subtract => "-"
  | .multiply => "*"
  | .divide => "/"
  | .modulo => "%"
  | .assign => "="
  | .equal => "=="
  | .unknown code => "Operator(" ++ code.toNat.repr ++ ")"

def ofSymbol? (symbol : String) : Option Operator := all.find? (·.symbol = symbol)

def precedence : Operator → Nat
  | .assign => 1
  | .equal => 2
  | .add => 3
  | .subtract => 3
  | .multiply => 4
  | .divide => 4
  | .modulo => 4
  | .unknown _ => 0

/-- Whether the operator groups to the right. Only assignment does. -/
def groupsRight (op : Operator) : Bool := op = .assign

end Operator

end Shader.Arena
