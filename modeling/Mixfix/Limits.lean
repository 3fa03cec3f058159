import Mixfix.Error

/-!
# Limits

Bounds on the length of an expression, the depth and size of its tree and the number of arguments of a call
(`Limits`). A count may reach a limit but not exceed it (`Limits.check`).
-/

namespace Mixfix

/-- What is bounded. -/
inductive Limit where
  | expressionLength
  | treeDepth
  | treeNodes
  | callArguments
  deriving Repr, DecidableEq

namespace Limit

/-- The name of a limit in error messages. -/
def name : Limit → String
  | expressionLength => "max_expression_length"
  | treeDepth => "max_ast_depth"
  | treeNodes => "max_ast_nodes"
  | callArguments => "max_function_args"

end Limit

/-- The greatest allowed values. -/
structure Limits where
  expressionLength : Int := 65536
  treeDepth : Int := 128
  treeNodes : Int := 100000
  callArguments : Int := 10000
  deriving Repr, DecidableEq

namespace Limits

/-- The value of one of the limits. -/
def bound (l : Limits) : Limit → Int
  | .expressionLength => l.expressionLength
  | .treeDepth => l.treeDepth
  | .treeNodes => l.treeNodes
  | .callArguments => l.callArguments

/-- The error that reports a count beyond a limit. -/
def exceeded (l : Limits) (which : Limit) (actual : Int) (position : Option Int) (expression : Option Text) :
    ExprError :=
  { cause := .limitExceeded which.name (l.bound which) actual, position, expression }

/-- Fails if a count exceeds a limit. -/
def check (l : Limits) (which : Limit) (actual : Int) (position : Option Int) (expression : Option Text) :
    Except ExprError Unit :=
  if l.bound which < actual then .error (l.exceeded which actual position expression) else .ok ()

/-- Fails if a text is too long, and points at the first character past the limit. -/
def checkLength (l : Limits) (text : Text) : Except ExprError Unit :=
  l.check .expressionLength text.length (some l.expressionLength) (some text)

end Limits

end Mixfix
