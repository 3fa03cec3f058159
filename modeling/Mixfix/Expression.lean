import Mixfix.Evaluate
import Mixfix.Text.Quoted

/-!
# Built expressions

An expression holds a tree, and the variables and functions that were registered when it was built. Their values may be
replaced, but no name can be added (`Expression.setVariable?`, `Expression.redefineFunction?`).
-/

namespace Mixfix

/-- A parsed expression, ready to be evaluated. -/
structure Expression (κ : Type) where
  tree : Tree (Action κ)
  vars : Table Text Float
  functions : Table Text (Function κ)
  source : Text

namespace Expression

variable {κ : Type}

/-- The environment that the expression is evaluated in. -/
def environment (e : Expression κ) : Environment κ := ⟨e.vars, e.functions, some e.source⟩

/-- Evaluates the expression. -/
def evaluate {m : Type → Type} [Monad m] (callbacks : Callbacks κ m) (e : Expression κ) : ExceptT Fault m Float :=
  e.environment.evaluate callbacks e.tree

/-- Evaluates the expression and reports the outcome, whatever it is. -/
def report {m : Type → Type} [Monad m] (callbacks : Callbacks κ m) (e : Expression κ) : m Report :=
  e.environment.report callbacks e.tree

/-- The expression with another value for a variable, if it was built with a variable of that name. -/
def setVariable? (e : Expression κ) (name : Text) (value : Float) : Option (Expression κ) :=
  if e.vars.contains name then some { e with vars := e.vars.insert name value } else none

/-- The expression with another function under a name, if it was built with a function of that name. -/
def redefineFunction? (e : Expression κ) (name : Text) (body : Body κ) (least : Option Int) : Option (Expression κ) :=
  if e.functions.contains name then
    some { e with functions := e.functions.insert name (.variadic name body least) }
  else none

/-- The lines of the tree. -/
def describe (e : Expression κ) : Text := e.tree.describe 0

/-- The text that shows the expression, with its source in quotes. -/
def summary (e : Expression κ) : Text := "Expression(".toList ++ e.source.quoted ++ [')']

end Expression

end Mixfix
