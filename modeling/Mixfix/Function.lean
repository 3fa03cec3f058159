import Mixfix.Error
import Mixfix.Standard.Functions
import Mixfix.Standard.Operators

/-!
# Actions and functions

The action of an operator and the body of a function are either standard or supplied by the caller, who says what the
latter do in a monad of their choice (`Callbacks`). What is standard fails only on a number of operands or arguments
that it does not take. A function may require a number of arguments and may pass on only the first of them
(`Function.call`).
-/

namespace Mixfix

/-- What an operator does: a standard action, or one supplied by the caller. -/
inductive Action (κ : Type) where
  | standard (a : StandardAction)
  | custom (k : κ)

/-- What a function does: a standard function, or one supplied by the caller. -/
inductive Body (κ : Type) where
  | standard (f : StandardFunction)
  | custom (k : κ)

/-- What actions and functions of the caller do to their operands or arguments. -/
abbrev Callbacks (κ : Type) (m : Type → Type) := κ → List Float → m (Except Fault Float)

/-- The outcome of a standard action, which fails on another number of operands than it takes. -/
def StandardAction.run (a : StandardAction) (operands : List Float) : Except Fault Float :=
  if operands.length = a.arity then .ok (a.apply operands)
  else .error (.foreign ⟨"TypeError", s!"{a.arity} operands required, but {operands.length} were given"⟩)

/-- The outcome of a standard function, which fails without arguments. -/
def StandardFunction.run (f : StandardFunction) : List Float → Except Fault Float
  | [] =>
    match f with
    | .min => .error (.foreign ⟨"ValueError", "min() arg is an empty sequence"⟩)
    | .max => .error (.foreign ⟨"ValueError", "max() arg is an empty sequence"⟩)
    | _ => .error (.foreign ⟨"IndexError", "list index out of range"⟩)
  | args => .ok (f.apply args)

section Run

variable {κ : Type} {m : Type → Type} [Monad m] (callbacks : Callbacks κ m)

/-- Applies an action to operands. -/
def Action.run : Action κ → List Float → m (Except Fault Float)
  | standard a, operands => pure (a.run operands)
  | custom k, operands => callbacks k operands

/-- Runs a body on the arguments that are passed on to it. -/
def Body.run : Body κ → List Float → m (Except Fault Float)
  | standard f, args => pure (f.run args)
  | custom k, args => callbacks k args

end Run

/-- The least number of arguments of a function, and the name that its error gives. -/
structure Guard where
  name : Text
  least : Nat
  deriving Repr, DecidableEq

namespace Guard

/-- The guard against fewer than `least` arguments, if that is any. -/
def ofLeast? (name : Text) (least : Option Int) : Option Guard :=
  match least with
  | some n => if 0 < n then some ⟨name, n.toNat⟩ else none
  | none => none

/-- The text that shows a guarded function. -/
def summary (g : Guard) : Text :=
  "MinArgsFunction('".toList ++ g.name ++ "', min_args=".toList ++ Text.natDigits g.least ++ [')']

end Guard

/-- A function of expressions. -/
structure Function (κ : Type) where
  /-- The least number of arguments, if there is one. -/
  guard : Option Guard
  /-- How many of the arguments are passed on, if not all. -/
  passes : Option Nat
  body : Body κ

namespace Function

variable {κ : Type}

/-- A function of all of its arguments. -/
def variadic (name : Text) (body : Body κ) (least : Option Int) : Function κ := ⟨Guard.ofLeast? name least, none, body⟩

/-- A function of its first `n` arguments, all of which it requires. -/
def ofArity (n : Nat) (name : Text) (body : Body κ) : Function κ := ⟨some ⟨name, n⟩, some n, body⟩

/-- A function of one argument. -/
def mono (name : Text) (body : Body κ) : Function κ := ofArity 1 name body

/-- A function of two arguments. -/
def bi (name : Text) (body : Body κ) : Function κ := ofArity 2 name body

/-- A standard function under a name. -/
def ofStandard (name : Text) (f : StandardFunction) : Function κ :=
  if f.isVariadic then variadic name (.standard f) (some 1) else mono name (.standard f)

/-- The standard functions by name. -/
def standard : List (Text × Function κ) := Standard.functions.map fun f => (f.1, ofStandard f.1 f.2)

/-- The arguments that are passed on. -/
def accepted (f : Function κ) (args : List Float) : List Float :=
  match f.passes with
  | some n => args.take n
  | none => args

variable {m : Type → Type} [Monad m]

/-- The error of calling a function with too few arguments. -/
def shortage? (f : Function κ) (provided : Nat) : Option ExprError :=
  match f.guard with
  | some g => if provided < g.least then some { cause := .missingArguments g.name g.least provided } else none
  | none => none

/-- Calls a function. Too few arguments are an error, and the function does not run. -/
def call (callbacks : Callbacks κ m) (f : Function κ) (args : List Float) : m (Except Fault Float) :=
  match f.shortage? args.length with
  | some e => pure (.error (.error e))
  | none => f.body.run callbacks (f.accepted args)

end Function

end Mixfix
