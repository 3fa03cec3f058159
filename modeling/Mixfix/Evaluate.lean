import Mixfix.Function
import Mixfix.Table
import Mixfix.Tree

/-!
# Evaluating trees

A tree is evaluated in an environment of variables and functions (`Environment.evaluate`): the nodes below a node from
left to right, then the node itself. The first fault ends the evaluation. An error of a call that has no position yet is
given that of the call; no other error is changed. `Environment.report` tells the outcome as data.
-/

namespace Mixfix

/-- The variables and functions that a tree is evaluated in, and the expression that its errors name. -/
structure Environment (κ : Type) where
  vars : Table Text Float := {}
  functions : Table Text (Function κ) := {}
  source : Option Text := none

/-- The outcome of an evaluation as data. -/
structure Report where
  value : Option Float
  failure : Option (String × ErrorCode)

namespace Report

/-- The report of an outcome. -/
def ofOutcome : Except Fault Float → Report
  | .ok x => ⟨some x, none⟩
  | .error f => ⟨none, some (f.message, f.code)⟩

/-- Whether there is a value. -/
def isSuccess (r : Report) : Bool := r.failure.isNone

end Report

namespace Fault

/-- The fault at the given place, unless it is no error of expressions or its position is known. -/
def locate (position : Int) (expression : Option Text) : Fault → Fault
  | error e => .error (e.locate position expression)
  | foreign f => .foreign f

end Fault

namespace Environment

variable {κ : Type} {m : Type → Type} [Monad m] (callbacks : Callbacks κ m) (env : Environment κ)

/-- Calls the function of a name. -/
def callFunction (name : Text) (args : List Float) : m (Except Fault Float) :=
  match env.functions.get? name with
  | some f => f.call callbacks args
  | none => pure (.error (.error { cause := .missingFunction name }))

mutual

/-- Evaluates a tree. -/
def evaluate : Tree (Action κ) → ExceptT Fault m Float
  | .number _ value => return value
  | .reference position name =>
    match env.vars.get? name with
    | some value => return value
    | none =>
      throw (.error { cause := .missingVariable name, position := some position, expression := env.source })
  | .call position name args => do
    let values ← evaluateAll args
    let outcome ← ExceptT.lift (env.callFunction callbacks name values)
    match outcome with
    | .ok value => return value
    | .error fault => throw (fault.locate position env.source)
  | .operation _ operator operands => do
    let values ← evaluateAll operands
    ExceptT.mk (operator.action.run callbacks values)
  | .unknown position kind =>
    throw (.error
      { cause := .general ("Unknown AST node type: " ++ kind.toString)
        position := some position
        expression := env.source })

/-- Evaluates the trees of a list, from left to right. -/
def evaluateAll : List (Tree (Action κ)) → ExceptT Fault m (List Float)
  | [] => return []
  | t :: ts => do
    let value ← evaluate t
    let values ← evaluateAll ts
    return value :: values

end

/-- Evaluates a tree and reports the outcome, whatever it is. -/
def report (t : Tree (Action κ)) : m Report := Report.ofOutcome <$> (env.evaluate callbacks t).run

end Environment

end Mixfix
