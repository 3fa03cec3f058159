import Mixfix.Expression
import Mixfix.Parse
import Mixfix.TokenList.OfText

/-!
# Builders

A builder is a registry of operators, variables and functions, with limits, that builds expressions from texts
(`Builder.build`). A text is split by the registered tokens, those registered last first; its brackets are checked, and
the token list is parsed. The expression takes copies of the variables and functions, so that later registrations do not
reach it.
-/

namespace Mixfix

/-- Why a registration is refused. -/
inductive RegistrationError where
  | emptyToken
  | emptyOperatorToken
  | noTokens
  deriving Repr, DecidableEq

namespace RegistrationError

/-- The wording of each error. -/
def message : RegistrationError → String
  | emptyToken => "Tokens must not be empty"
  | emptyOperatorToken => "Operator tokens must not be empty"
  | noTokens => "Infix operators require at least one token"

end RegistrationError

/-- Why a text does not build. -/
inductive BuildError where
  /-- The text is empty or blank. -/
  | blank
  | error (e : ExprError)
  deriving Repr, DecidableEq

namespace BuildError

/-- The wording of each error. -/
def message : BuildError → String
  | blank => "Expression text must not be empty"
  | error e => e.message

/-- The kind of each error. -/
def code : BuildError → ErrorCode
  | blank => .expressionError
  | error e => e.code

end BuildError

/-- Operators, variables, functions and limits to build expressions with. -/
structure Builder (κ : Type) where
  operators : Registry (Action κ) := {}
  vars : Table Text Float := {}
  functions : Table Text (Function κ) := {}
  limits : Limits := {}

namespace Builder

variable {κ : Type}

/-! ## Registration -/

/-- The builder with other limits. -/
def withLimits (b : Builder κ) (limits : Limits) : Builder κ := { b with limits }

/-- Registers a token to split texts by. -/
def withToken (b : Builder κ) (token : Text) : Except RegistrationError (Builder κ) :=
  if token.isEmpty then .error .emptyToken else .ok { b with operators := b.operators.addToken token }

/-- Registers a variable. -/
def withVariable (b : Builder κ) (name : Text) (value : Float) : Builder κ :=
  { b with vars := b.vars.insert name value }

/-- Registers the standard variables. -/
def withStandardVariables (b : Builder κ) : Builder κ :=
  { b with vars := b.vars.insertAll Standard.vars }

/-- Registers a function under a name. -/
def withFunction (b : Builder κ) (name : Text) (f : Function κ) : Builder κ :=
  { b with functions := b.functions.insert name f }

/-- Registers the standard functions. -/
def withStandardFunctions (b : Builder κ) : Builder κ :=
  { b with functions := b.functions.insertAll Function.standard }

/-- Registers an operator. -/
def addOperator (b : Builder κ) (o : Operator (Action κ)) : Builder κ :=
  { b with operators := (b.operators.add o).2 }

/-- Registers a prefix operator. -/
def withPrefix (b : Builder κ) (token : Text) (action : κ) (priority : Float) :
    Except RegistrationError (Builder κ) :=
  if token.isEmpty then .error .emptyOperatorToken
  else .ok (b.addOperator ⟨.prefixed, [token], priority, .custom action⟩)

/-- Registers a postfix operator. -/
def withPostfix (b : Builder κ) (token : Text) (action : κ) (priority : Float) :
    Except RegistrationError (Builder κ) :=
  if token.isEmpty then .error .emptyOperatorToken
  else .ok (b.addOperator ⟨.postfixed, [token], priority, .custom action⟩)

/-- Registers an infix operator, whose tokens stand between each pair of its operands. -/
def withInfix (b : Builder κ) (tokens : List Text) (action : κ) (priority : Float) (associativity : Associativity) :
    Except RegistrationError (Builder κ) :=
  if tokens.isEmpty then .error .noTokens
  else if tokens.any List.isEmpty then .error .emptyOperatorToken
  else .ok (b.addOperator ⟨.infixed associativity, tokens, priority, .custom action⟩)

/-- A standard operator as one of a builder. -/
def ofStandard (o : Operator StandardAction) : Operator (Action κ) :=
  ⟨o.fixity, o.tokens, o.priority, .standard o.action⟩

/-- Registers the arithmetic operators and the conditional. -/
def withStandardOperators (b : Builder κ) : Builder κ :=
  { b with operators := b.operators.addAll (Standard.operators.map ofStandard) }

/-- Registers the operators that compare and combine truth values, and the conditional. -/
def withComparisons (b : Builder κ) : Builder κ :=
  { b with operators := b.operators.addAll (Standard.comparisons.map ofStandard) }

/-- The builder without operators, variables and functions. -/
def bare (limits : Limits) : Builder κ := { limits }

/-- The builder with everything that is standard, comparisons apart. -/
def standard (limits : Limits) : Builder κ :=
  (bare limits).withStandardOperators.withStandardFunctions.withStandardVariables

/-! ## Building -/

/-- What texts are parsed against. -/
def grammar (b : Builder κ) : Grammar (Action κ) :=
  { operators := b.operators, vars := b.vars.keys, functions := b.functions.keys, limits := b.limits }

/-- The token list of a text. -/
def tokenize (b : Builder κ) (text : Text) : Except ExprError TokenList :=
  TokenList.tokenize b.operators.tokens.reverse b.limits text

/-- The tree of a text. -/
def parse (b : Builder κ) (text : Text) : Except ExprError (Tree (Action κ)) := do
  let tokens ← b.tokenize text
  tokens.checkBrackets text
  b.grammar.parse text tokens

/-- Builds the expression of a text. -/
def build (b : Builder κ) (text : Text) : Except BuildError (Expression κ) :=
  if text.isAllBlank then .error .blank
  else
    match b.parse text with
    | .ok tree => .ok ⟨tree, b.vars, b.functions, text⟩
    | .error e => .error (.error e)

end Builder

end Mixfix
