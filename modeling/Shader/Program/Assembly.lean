import Shader.Program.Node
import Shader.Program.ParseError

/-!
# Assembly of expressions

An expression is first read as a flat list of atoms: operands and operators, with an optional
return in front. Assembly checks that operands and operators alternate and groups them by binding
power. The tree of a list is built from left to right: each further operator and its operand are
grafted onto the right edge of the tree built so far, as deep as the binding powers demand.
-/

namespace Shader.Program

/-- What an atom of an expression is: an operand, an operator or `return`. -/
inductive AtomKind where
  | operand (node : Node)
  | operator (symbol : String)
  | ret
  deriving Inhabited

/-- A part of an expression that has no operators of its own, with its first token. -/
structure Atom where
  kind : AtomKind
  token : String
  index : Nat
  deriving Inhabited

namespace Atom

def shape (a : Atom) : AtomShape :=
  match a.kind with
  | .operand _ => .operand
  | .operator symbol => .operator symbol
  | .ret => .ret

def fault (a : Atom) (cause : AtomShape → Fault) : ParseError :=
  .at (cause a.shape) a.token a.index

end Atom

/-- How tightly an operator binds; zero for what is no operator. Access binds tightest and
assignment loosest. -/
def bindingPower (symbol : String) : Nat :=
  match symbol with
  | "=" => 1
  | "==" => 2
  | "+" => 3
  | "-" => 3
  | "*" => 4
  | "/" => 4
  | "%" => 4
  | "." => 5
  | _ => 0

/-- Only assignment groups to the right. -/
def groupsRight (symbol : String) : Bool := symbol = "="

/-- The right side of an operator takes up what binds tighter than this. -/
def rightPower (symbol : String) : Nat :=
  if groupsRight symbol then bindingPower symbol - 1 else bindingPower symbol

/-- Access has a node of its own. -/
def join (symbol : String) (left right : Node) : Node :=
  if symbol = "." then .access left right else .binary symbol left right

/-- The tree extended on its right by an operator and an operand. An operator that binds tighter
than the right side of the root leaves goes into that side, any other takes the whole tree as its
left side. -/
def graft (symbol : String) (operand : Node) : Node → Node
  | .binary above left right =>
    if rightPower above < bindingPower symbol then .binary above left (graft symbol operand right)
    else join symbol (.binary above left right) operand
  | .access left right =>
    if rightPower "." < bindingPower symbol then .access left (graft symbol operand right)
    else join symbol (.access left right) operand
  | tree => join symbol tree operand

mutual

/-- The operand at the front and what follows it. `last` is the atom before. -/
def operandFirst (last : Atom) : List Atom → Except ParseError (Node × List (String × Node))
  | [] => .error (last.fault .operandAfter)
  | a :: rest =>
    match a.kind with
    | .operand node => do
      let tail ← operatorFirst rest
      return (node, tail)
    | _ => .error (a.fault .operandExpected)

/-- The operators of a list of atoms, each with the operand behind it. -/
def operatorFirst : List Atom → Except ParseError (List (String × Node))
  | [] => .ok []
  | a :: rest =>
    match a.kind with
    | .operator symbol => do
      let (node, tail) ← operandFirst a rest
      return (symbol, node) :: tail
    | _ => .error (a.fault .operatorExpected)

end

/-- The tree of a first operand, extended by one operator after the other. -/
def grow (first : Node) (tail : List (String × Node)) : Node :=
  tail.foldl (fun tree (symbol, operand) => graft symbol operand tree) first

/-- The tree of atoms that are not a return. -/
def assembleValue (last : Atom) (atoms : List Atom) : Except ParseError Node := do
  let (first, tail) ← operandFirst last atoms
  return grow first tail

/-- The tree of an expression. A `return` may stand in front. -/
def assemble (token : String) (index : Nat) : List Atom → Except ParseError Node
  | [] => .error (.at .emptyExpression token index)
  | first :: rest =>
    match first.kind with
    | .ret =>
      if rest.isEmpty then .ok (.ret none)
      else do
        let value ← assembleValue first rest
        return .ret (some value)
    | _ => assembleValue first (first :: rest)

end Shader.Program
