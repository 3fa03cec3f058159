import Mixfix.Standard.Arithmetic
import Mixfix.Text.Basic

/-!
# The standard functions and variables

The functions and variables that are there from the start (`Standard.functions`, `Standard.vars`). Each function
needs at least one argument; those of one argument ignore the others, and the rest take any number.
-/

namespace Mixfix

/-- A standard function. -/
inductive StandardFunction where
  | cos
  | sin
  | tan
  | sqrt
  | cbrt
  | log
  | log10
  | fib
  | floor
  | ceiling
  | truncate
  | round
  | min
  | max
  | avg
  | median
  deriving Repr, DecidableEq

namespace StandardFunction

open Arithmetic

/-- Whether the function takes all of its arguments, rather than the first alone. -/
def isVariadic : StandardFunction → Bool
  | min | max | avg | median => true
  | _ => false

/-- The value at a first argument and others; NaN without arguments. -/
def apply : StandardFunction → List Float → Float
  | _, [] => nan
  | cos, x :: _ => oscillating Float.cos x
  | sin, x :: _ => oscillating Float.sin x
  | tan, x :: _ => oscillating Float.tan x
  | sqrt, x :: _ => Arithmetic.sqrt x
  | cbrt, x :: _ => Float.cbrt x
  | log, x :: _ => logBy Float.log x
  | log10, x :: _ => logBy Float.log10 x
  | fib, x :: _ => fibonacci x
  | floor, x :: _ => toWhole Float.floor x
  | ceiling, x :: _ => toWhole Float.ceil x
  | truncate, x :: _ => toWhole Arithmetic.truncate x
  | round, x :: _ => toWhole roundHalfUp x
  | min, x :: xs => minimum x xs
  | max, x :: xs => maximum x xs
  | avg, x :: xs => average x xs
  | median, x :: xs => Arithmetic.median x xs

end StandardFunction

namespace Standard

/-- The standard functions by name. -/
def functions : List (Text × StandardFunction) :=
  [("cos".toList, .cos), ("sin".toList, .sin), ("tan".toList, .tan), ("sqrt".toList, .sqrt), ("cbrt".toList, .cbrt),
   ("log".toList, .log), ("log10".toList, .log10), ("fib".toList, .fib), ("floor".toList, .floor),
   ("ceiling".toList, .ceiling), ("ceil".toList, .ceiling), ("truncate".toList, .truncate),
   ("trunc".toList, .truncate), ("round".toList, .round), ("min".toList, .min), ("max".toList, .max),
   ("avg".toList, .avg), ("median".toList, .median)]

/-- The standard variables by name. -/
def vars : List (Text × Float) :=
  [("π".toList, Arithmetic.pi), ("pi".toList, Arithmetic.pi), ("e".toList, Arithmetic.e),
   ("ϕ".toList, Arithmetic.phi), ("φ".toList, Arithmetic.phi), ("phi".toList, Arithmetic.phi),
   ("∞".toList, Arithmetic.infinity), ("inf".toList, Arithmetic.infinity)]

end Standard

end Mixfix
