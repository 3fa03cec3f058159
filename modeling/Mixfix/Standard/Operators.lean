import Mixfix.Operator.Basic
import Mixfix.Standard.Arithmetic

/-!
# The standard operators

Two tables of operators, in the order in which they are registered: the arithmetic ones with the conditional
(`Standard.operators`), and those that compare and combine truth values (`Standard.comparisons`). A token that contains
another comes later, so that texts are split by it first.
-/

namespace Mixfix

/-- An action by its number of operands. -/
inductive StandardAction where
  | negate
  | keep
  | squareRoot
  | percent
  | not
  | subtract
  | add
  | divide
  | multiply
  | modulo
  | root
  | power
  | less
  | greater
  | atMost
  | atLeast
  | equal
  | unequal
  | and
  | or
  | choose
  deriving Repr, DecidableEq

namespace StandardAction

open Arithmetic

/-- How many operands the action takes. -/
def arity : StandardAction → Nat
  | negate | keep | squareRoot | percent | not => 1
  | choose => 3
  | _ => 2

/-- The action on its operands; NaN for any other number of operands. -/
def apply : StandardAction → List Float → Float
  | negate, [x] => -x
  | keep, [x] => x
  | squareRoot, [x] => sqrt x
  | percent, [x] => x / 100.0
  | not, [x] => ofBool !isTrue x
  | subtract, [x, y] => x - y
  | add, [x, y] => x + y
  | divide, [x, y] => Arithmetic.divide x y
  | multiply, [x, y] => x * y
  | modulo, [x, y] => Arithmetic.modulo x y
  | root, [x, y] => Arithmetic.root x y
  | power, [x, y] => Arithmetic.power x y
  | less, [x, y] => ofBool (x < y)
  | greater, [x, y] => ofBool (x > y)
  | atMost, [x, y] => ofBool (x ≤ y)
  | atLeast, [x, y] => ofBool (x ≥ y)
  | equal, [x, y] => ofBool (isClose x y)
  | unequal, [x, y] => ofBool !isClose x y
  | and, [x, y] => ofBool (isTrue x && isTrue y)
  | or, [x, y] => ofBool (isTrue x || isTrue y)
  | choose, [x, y, z] => if isTrue x then y else z
  | _, _ => nan

end StandardAction

namespace Standard

/-- A binary operator that groups to the left. -/
def binary (token : String) (priority : Float) (action : StandardAction) : Operator StandardAction :=
  ⟨.infixed .left, [token.toList], priority, action⟩

/-- A binary operator that groups to the right. -/
def binaryRight (token : String) (priority : Float) (action : StandardAction) : Operator StandardAction :=
  ⟨.infixed .right, [token.toList], priority, action⟩

/-- A prefix operator. -/
def before (token : String) (priority : Float) (action : StandardAction) : Operator StandardAction :=
  ⟨.prefixed, [token.toList], priority, action⟩

/-- A postfix operator. -/
def behind (token : String) (priority : Float) (action : StandardAction) : Operator StandardAction :=
  ⟨.postfixed, [token.toList], priority, action⟩

/-- The conditional: the second operand if the first counts as true, or else the third. -/
def conditional : Operator StandardAction := ⟨.infixed .right, [['?'], [':']], -600.0, .choose⟩

/-- The arithmetic operators and the conditional. -/
def operators : List (Operator StandardAction) :=
  [binary "-" 100.0 .subtract,
   binary "+" 100.0 .add,
   binary "/" 200.0 .divide,
   binary "÷" 200.0 .divide,
   binary "*" 200.0 .multiply,
   binary "×" 200.0 .multiply,
   binary "%" 300.0 .modulo,
   before "-" 500.0 .negate,
   before "+" 500.0 .keep,
   binaryRight "√" 600.0 .root,
   before "√" 700.0 .squareRoot,
   binaryRight "^" 800.0 .power,
   behind "%" 900.0 .percent,
   conditional]

/-- The operators that compare and combine truth values, which are one and zero. -/
def comparisons : List (Operator StandardAction) :=
  [before "!" (-100.0) .not,
   binary "<" (-200.0) .less,
   binary ">" (-200.0) .greater,
   binary "=" (-300.0) .equal,
   binary "<=" (-200.0) .atMost,
   binary "≤" (-200.0) .atMost,
   binary ">=" (-200.0) .atLeast,
   binary "≥" (-200.0) .atLeast,
   binary "!=" (-300.0) .unequal,
   binary "≠" (-300.0) .unequal,
   binary "=/=" (-300.0) .unequal,
   binary "&&" (-400.0) .and,
   binary "∧" (-400.0) .and,
   binary "⋀" (-400.0) .and,
   binary "⋏" (-400.0) .and,
   binary "||" (-500.0) .or,
   binary "∨" (-500.0) .or,
   binary "⋁" (-500.0) .or,
   binary "⋎" (-500.0) .or,
   conditional]

end Standard

end Mixfix
