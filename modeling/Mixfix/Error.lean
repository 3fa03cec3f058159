import Mixfix.Text.Digit

/-!
# Errors of expressions

An error has a cause, and where it is known the expression and the index in it that the error is about (`ExprError`).
The cause fixes the wording (`Cause.message`) and the kind (`Cause.code`); causes that arise while a text is parsed
also name the part of the text they are about (`Cause.part?`). So an error keeps all of these when it is given another
expression and position (`ExprError.locate`).

Beside these there are faults that have nothing to do with expressions and come out of caller-supplied functions
(`Fault`).
-/

namespace Mixfix

/-- The kinds of errors that results report. -/
inductive ErrorCode where
  | expressionError
  | limitExceeded
  | configurationError
  | unparsableExpression
  | bracketMismatch
  | unexpectedCloseBracket
  | unmatchedOpenBracket
  | danglingOperator
  | leadingNonPrefixOperator
  | trailingNonPostfixOperator
  | danglingArgumentSeparator
  | leadingArgumentSeparator
  | trailingArgumentSeparator
  | emptyFunctionArgument
  | unrecognisedFunction
  | evaluationError
  | missingVariable
  | missingFunction
  | missingFunctionArguments
  deriving Repr, DecidableEq

namespace ErrorCode

/-- The tag of each kind. -/
def tag : ErrorCode → String
  | expressionError => "EXPRESSION_ERROR"
  | limitExceeded => "LIMIT_EXCEEDED"
  | configurationError => "CONFIGURATION_ERROR"
  | unparsableExpression => "UNPARSABLE_EXPRESSION"
  | bracketMismatch => "BRACKET_MISMATCH"
  | unexpectedCloseBracket => "UNEXPECTED_CLOSE_BRACKET"
  | unmatchedOpenBracket => "UNMATCHED_OPEN_BRACKET"
  | danglingOperator => "DANGLING_OPERATOR"
  | leadingNonPrefixOperator => "LEADING_NON_PREFIX_OPERATOR"
  | trailingNonPostfixOperator => "TRAILING_NON_POSTFIX_OPERATOR"
  | danglingArgumentSeparator => "DANGLING_ARGUMENT_SEPARATOR"
  | leadingArgumentSeparator => "LEADING_ARGUMENT_SEPARATOR"
  | trailingArgumentSeparator => "TRAILING_ARGUMENT_SEPARATOR"
  | emptyFunctionArgument => "EMPTY_FUNCTION_ARGUMENT"
  | unrecognisedFunction => "UNRECOGNISED_FUNCTION"
  | evaluationError => "EVALUATION_ERROR"
  | missingVariable => "MISSING_VARIABLE"
  | missingFunction => "MISSING_FUNCTION"
  | missingFunctionArguments => "MISSING_FUNCTION_ARGUMENTS"

end ErrorCode

/-- What went wrong. -/
inductive Cause where
  /-- An error of no further kind. -/
  | general (message : String)
  /-- An error of parsing of no further kind, and the part of the text it is about. -/
  | parsing (message : String) (part : Option Text)
  /-- No rule matches a part of an expression. -/
  | unparsable (expression part : Text)
  /-- Brackets of an expression that do not match, in words other than the usual ones if any are given. -/
  | bracketMismatch (expression : Text) (summary : Option String)
  /-- A close bracket of an expression with no open bracket before it. -/
  | unexpectedClose (expression : Text)
  /-- An open bracket of an expression that is never closed. -/
  | unmatchedOpen (expression : Text)
  /-- An operator without an operand, in words other than the usual ones if any are given. -/
  | danglingOperator (token : Text) (summary : Option String)
  /-- A section starts with an operator that is not a prefix operator. -/
  | leadingOperator (token : Text)
  /-- A section ends with an operator that is not a postfix operator. -/
  | trailingOperator (token : Text)
  /-- A separator without an argument, in words other than the usual ones if any are given. -/
  | danglingSeparator (function part : Text) (summary : Option String)
  /-- The arguments of a call start with a separator. -/
  | leadingSeparator (function part : Text)
  /-- The arguments of a call end with a separator. -/
  | trailingSeparator (function part : Text)
  /-- Two separators of a call have nothing between them. -/
  | emptyArgument (function part : Text)
  /-- A call names a function that is not registered. -/
  | unrecognisedFunction (function part : Text)
  /-- An error of evaluation of no further kind. -/
  | evaluation (message : String)
  /-- A variable that the environment does not have. -/
  | missingVariable (name : Text)
  /-- A function that the environment does not have. -/
  | missingFunction (name : Text)
  /-- A call with fewer arguments than the function requires. -/
  | missingArguments (function : Text) (required provided : Nat)
  /-- A count beyond a limit. -/
  | limitExceeded (limit : String) (bound actual : Int)
  /-- A configuration that is no configuration of a builder. -/
  | configuration (message : String)
  deriving Repr, DecidableEq

/-- The given words, or the usual ones if the given ones are missing or empty. -/
def wordsOr (given : Option String) (usual : String) : String :=
  match given with
  | some m => if m.isEmpty then usual else m
  | none => usual

namespace Cause

/-- The kind of each cause. -/
def code : Cause → ErrorCode
  | general _ => .expressionError
  | parsing _ _ => .unparsableExpression
  | unparsable _ _ => .unparsableExpression
  | bracketMismatch _ _ => .bracketMismatch
  | unexpectedClose _ => .unexpectedCloseBracket
  | unmatchedOpen _ => .unmatchedOpenBracket
  | danglingOperator _ _ => .danglingOperator
  | leadingOperator _ => .leadingNonPrefixOperator
  | trailingOperator _ => .trailingNonPostfixOperator
  | danglingSeparator _ _ _ => .danglingArgumentSeparator
  | leadingSeparator _ _ => .leadingArgumentSeparator
  | trailingSeparator _ _ => .trailingArgumentSeparator
  | emptyArgument _ _ => .emptyFunctionArgument
  | unrecognisedFunction _ _ => .unrecognisedFunction
  | evaluation _ => .evaluationError
  | missingVariable _ => .missingVariable
  | missingFunction _ => .missingFunction
  | missingArguments _ _ _ => .missingFunctionArguments
  | limitExceeded _ _ _ => .limitExceeded
  | configuration _ => .configurationError

/-- Whether the cause arises while a text is parsed. -/
def isParsing (c : Cause) : Bool :=
  match c with
  | parsing _ _ | unparsable _ _ | bracketMismatch _ _ | unexpectedClose _ | unmatchedOpen _ | danglingOperator _ _
  | leadingOperator _ | trailingOperator _ | danglingSeparator _ _ _ | leadingSeparator _ _ | trailingSeparator _ _
  | emptyArgument _ _ | unrecognisedFunction _ _ => true
  | _ => false

/-- The wording of each cause. -/
def message : Cause → String
  | general m => m
  | parsing m _ => m
  | unparsable expression part =>
    "Expression was not parsable: " ++ expression.trim.toString ++ "\nSpecifically, this portion: " ++
      part.trim.toString
  | bracketMismatch expression summary =>
    summary.getD "Expression contained a bracket mismatch" ++ ": " ++ expression.trim.toString
  | unexpectedClose expression =>
    "Expression contained a close bracket that didn't correspond to a matching open bracket: " ++
      expression.trim.toString
  | unmatchedOpen expression =>
    "Expression contained an open bracket that didn't correspond to a matching close bracket: " ++
      expression.trim.toString
  | danglingOperator token summary =>
    wordsOr summary ("Expression contained a dangling operator: " ++ token.toString)
  | leadingOperator token =>
    "Expression started with an operator that is not a prefix operator: " ++ token.toString
  | trailingOperator token =>
    "Expression ended with an operator that is not a postfix operator: " ++ token.toString
  | danglingSeparator function _ summary =>
    wordsOr summary ("Call to function " ++ function.toString ++ " contained a dangling argument separator")
  | leadingSeparator function _ =>
    "Call to function " ++ function.toString ++ " began its arguments with a separator"
  | trailingSeparator function _ =>
    "Call to function " ++ function.toString ++ " ended its arguments with a separator"
  | emptyArgument function _ => "Call to function " ++ function.toString ++ " contained an empty argument"
  | unrecognisedFunction function _ => "Expression contained an unrecognised function: " ++ function.toString
  | evaluation m => m
  | missingVariable name => "Variable was unresolved: " ++ name.toString
  | missingFunction name => "Function was missing: " ++ name.toString
  | missingArguments function required provided =>
    "The function \"" ++ function.toString ++ "\" requires at least " ++ (Text.natDigits required).toString ++
      " arguments, but only " ++ (Text.natDigits provided).toString ++ " were provided."
  | limitExceeded limit bound actual =>
    "Limit exceeded: " ++ limit ++ " (limit: " ++ (Text.ofInt bound).toString ++ ", actual: " ++
      (Text.ofInt actual).toString ++ ")"
  | configuration m => m

/-- The part of a text that a cause of parsing is about. -/
def part? : Cause → Option Text
  | parsing _ part => part
  | unparsable _ part => some part
  | bracketMismatch expression _ | unexpectedClose expression | unmatchedOpen expression => some expression
  | danglingOperator token _ | leadingOperator token | trailingOperator token => some token
  | danglingSeparator _ part _ | leadingSeparator _ part | trailingSeparator _ part | emptyArgument _ part
  | unrecognisedFunction _ part => some part
  | _ => none

end Cause

/-- A cause, and where it arose. -/
structure ExprError where
  cause : Cause
  position : Option Int := none
  expression : Option Text := none
  deriving Repr, DecidableEq

namespace ExprError

/-- The kind of the error. -/
def code (e : ExprError) : ErrorCode := e.cause.code

/-- The wording of the error. -/
def message (e : ExprError) : String := e.cause.message

/-- The message, and where the expression and the position are known the expression with a mark under the position. -/
def messageWithContext (e : ExprError) : String :=
  match e.expression, e.position with
  | some expression, some position =>
    e.message ++ "\n  " ++ expression.toString ++ "\n  " ++ (Text.spaces position.toNat ++ ['^']).toString
  | _, _ => e.message

/-- The part of the text that an error of parsing is about. -/
def part? (e : ExprError) : Option Text := e.cause.part?

/-- That part without the blanks around it. -/
def excerpt? (e : ExprError) : Option Text := e.part?.map Text.trim

/-- The error at the given place, unless its position is known. -/
def locate (position : Int) (expression : Option Text) (e : ExprError) : ExprError :=
  match e.position with
  | none => { e with position := some position, expression }
  | some _ => e

end ExprError

/-- A failure that is no error of expressions: its kind and its message. -/
structure ForeignFault where
  kind : String
  message : String
  deriving Repr, DecidableEq

/-- How an evaluation can fail. -/
inductive Fault where
  | error (e : ExprError)
  | foreign (f : ForeignFault)
  deriving Repr, DecidableEq

namespace Fault

/-- The wording of a fault. -/
def message : Fault → String
  | error e => e.message
  | foreign f => f.message

/-- The kind of a fault; one that is no error of expressions counts as an error of evaluation. -/
def code : Fault → ErrorCode
  | error e => e.code
  | foreign _ => .evaluationError

end Fault

end Mixfix
