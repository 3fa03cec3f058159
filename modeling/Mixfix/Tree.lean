import Mixfix.Decimal.Format
import Mixfix.Operator.Basic

/-!
# Expression trees

The tree of an expression holds number literals, references to variables, calls of functions and operations, each with
its position in the expression. `Tree.nodeCount` counts its nodes and `Tree.describe` writes one line for each, a node
before the nodes below it, which are indented by two more spaces.
-/

namespace Mixfix

/-- The tree of an expression, for operators with actions of type `α`. -/
inductive Tree (α : Type) where
  | number (position : Int) (value : Float)
  | reference (position : Int) (name : Text)
  | call (position : Int) (name : Text) (args : List (Tree α))
  | operation (position : Int) (operator : Operator α) (operands : List (Tree α))
  /-- A node of a kind that has no meaning, named after that kind. -/
  | unknown (position : Int) (kind : Text)

namespace Tree

variable {α : Type}

/-- The position of the root. -/
def position : Tree α → Int
  | number p _ => p
  | reference p _ => p
  | call p _ _ => p
  | operation p _ _ => p
  | unknown p _ => p

mutual

/-- How many nodes a tree has. -/
def nodeCount : Tree α → Nat
  | number _ _ => 1
  | reference _ _ => 1
  | call _ _ args => 1 + nodeCountAll args
  | operation _ _ operands => 1 + nodeCountAll operands
  | unknown _ _ => 1

/-- How many nodes the trees of a list have together. -/
def nodeCountAll : List (Tree α) → Nat
  | [] => 0
  | t :: ts => nodeCount t + nodeCountAll ts

end

/-- What a node is, without the nodes below it. -/
def label : Tree α → Text
  | number _ value => "Number: ".toList ++ formatFloat value
  | reference _ name => "Variable: ".toList ++ name
  | call _ name _ => "FunctionCall: ".toList ++ name
  | operation _ operator _ => "Operation: ".toList ++ operator.describe
  | unknown _ kind => "Unknown: <".toList ++ kind ++ ['>']

mutual

/-- The lines of a tree: a line for the root, then the lines of the nodes below it. -/
def lines (indent : Nat) : Tree α → List Text
  | t@(call _ _ args) => (Text.spaces (2 * indent) ++ t.label) :: linesAll (indent + 1) args
  | t@(operation _ _ operands) => (Text.spaces (2 * indent) ++ t.label) :: linesAll (indent + 1) operands
  | t => [Text.spaces (2 * indent) ++ t.label]

/-- The lines of the trees of a list, one after the other. -/
def linesAll (indent : Nat) : List (Tree α) → List Text
  | [] => []
  | t :: ts => lines indent t ++ linesAll indent ts

end

/-- The lines of a tree as one text. -/
def describe (t : Tree α) (indent : Nat) : Text := List.intercalate ['\n'] (t.lines indent)

end Tree

end Mixfix
