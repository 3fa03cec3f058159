import Mixfix.Token

/-!
# Operators

An operator has one or more tokens, a priority and an action; higher priorities bind more tightly. Its fixity says
where its tokens stand: before its operand, behind it, or between operands, so that an infix operator of `n` tokens
takes `n + 1` operands. What an action is, is left open: the type `α` may hold functions or names of functions.
-/

namespace Mixfix

/-- How repeated infix operators of one priority group. -/
inductive Associativity where
  | left
  | right
  deriving Repr, DecidableEq

/-- Where the tokens of an operator stand. -/
inductive Fixity where
  | prefixed
  | postfixed
  | infixed (associativity : Associativity)
  /-- No place at all; such an operator can be applied but not registered. -/
  | unplaced
  deriving Repr, DecidableEq

/-- An operator with actions of type `α`. -/
structure Operator (α : Type) where
  fixity : Fixity
  tokens : List Text
  priority : Float
  action : α

namespace Operator

variable {α : Type}

/-- The priority of operators that are given none. -/
def defaultPriority : Float := 0.0

/-- The first token, which stands for a prefix or postfix operator. One that has no token is not registered
(`Operator.refusal?`). -/
def token (o : Operator α) : Text := o.tokens.headD []

/-- How many operands the operator takes. -/
def operandCount (o : Operator α) : Nat :=
  match o.fixity with
  | .infixed _ => o.tokens.length + 1
  | _ => 1

/-- The tokens with an `x` in place of each operand. -/
def describe (o : Operator α) : Text :=
  match o.fixity with
  | .prefixed => o.token ++ ['x']
  | .postfixed => 'x' :: o.token
  | .infixed _ => 'x' :: o.tokens.flatMap fun t => ' ' :: t ++ [' ', 'x']
  | .unplaced => List.intercalate [' '] o.tokens

end Operator

/-! ## Operators that are refused -/

/-- Why an operator is not registered. -/
inductive Refusal where
  /-- The operator has no place. -/
  | unplaced
  /-- A prefix or postfix operator has no token. -/
  | tokenless
  deriving Repr, DecidableEq

namespace Refusal

/-- The wording of each error. -/
def message : Refusal → String
  | unplaced => "Unrecognised operator type: Operator"
  | tokenless => "tuple index out of range"

end Refusal

/-- Why an operator is refused, if it is. -/
def Operator.refusal? {α : Type} (o : Operator α) : Option Refusal :=
  match o.fixity, o.tokens with
  | .prefixed, [] | .postfixed, [] => some .tokenless
  | .unplaced, _ => some .unplaced
  | _, _ => none

end Mixfix
