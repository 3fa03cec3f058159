import Mixfix.Binary

/-!
# Arithmetic on doubles

The operations behind the standard operators and functions. Each gives a double for every argument: arguments outside
of a function's domain give NaN, and results that are too large give an infinity.
-/

namespace Mixfix.Arithmetic

/-- Not a number. -/
def nan : Float := 0.0 / 0.0

/-- Positive infinity. -/
def infinity : Float := 1.0 / 0.0

/-- The golden ratio. -/
def phi : Float := (1.0 + Float.sqrt 5.0) / 2.0

/-- The ratio of a circle's circumference to its diameter. -/
def pi : Float := 3.141592653589793

/-- The base of natural logarithms. -/
def e : Float := 2.718281828459045

/-- A number that is neither NaN nor infinite. -/
def isFinite (x : Float) : Bool := x.isFinite

/-- A finite number without a fraction. -/
def isWhole (x : Float) : Bool := isFinite x && x.floor == x

/-! ## Exact operations -/

/-- A double with the sign of another. -/
def withSignOf (x sign : Float) : Float := if Binary.isNegative sign then -x.abs else x.abs

/-- The remainder of a finite dividend and a divisor other than zero: exact, with the sign of the dividend. -/
def remainder (x y : Float) : Float :=
  if y.isInf then x
  else withSignOf (Binary.floatOfUnits ((Binary.ofFloat x).units % (Binary.ofFloat y).units)) x

/-- The distance from the magnitude of a double to the next greater one, or from the one below if there is none. -/
def ulp (x : Float) : Float :=
  if x.isNaN then x
  else
    let a := x.abs
    if a.isInf then a
    else
      let next := Float.ofBits (a.toBits + 1)
      if next.isInf then a - Float.ofBits (a.toBits - 1) else next - a

/-! ## Operators -/

/-- Division; a zero divisor gives an infinity, or NaN for zero and NaN. -/
def divide (x y : Float) : Float := x / y

/-- The remainder of a division, with the sign of the dividend. -/
def modulo (x y : Float) : Float :=
  if y == 0.0 || x.isInf || x.isNaN || y.isNaN then nan else remainder x y

/-- A power. Zero has infinite negative powers, and a negative base has only powers with whole or infinite exponents. -/
def power (base exponent : Float) : Float :=
  if base == 0.0 && exponent < 0.0 then infinity
  else if base < 0.0 && isFinite exponent && !isWhole exponent then nan
  else Float.pow base exponent

/-- The root of a number to a degree. -/
def root (degree x : Float) : Float := power x (divide 1.0 degree)

/-- Numbers from one half on count as true. -/
def isTrue (x : Float) : Bool := x ≥ 0.5

/-- The number of a truth value. -/
def ofBool (b : Bool) : Float := if b then 1.0 else 0.0

/-- Equality to within two units in the last place of the left operand. -/
def isClose (x y : Float) : Bool :=
  let delta := ulp x * 2.0
  x - delta < y && y < x + delta

/-! ## Functions -/

/-- The square root. -/
def sqrt (x : Float) : Float := if x < 0.0 then nan else Float.sqrt x

/-- A logarithm: minus infinity at zero, and nothing below. -/
def logBy (log : Float → Float) (x : Float) : Float :=
  if x == 0.0 then -infinity else if x < 0.0 || x.isNaN then nan else log x

/-- A function that oscillates has no value at infinity. -/
def oscillating (f : Float → Float) (x : Float) : Float := if x.isInf then nan else f x

/-- A function to whole numbers, applied to finite numbers alone. A whole number has no negative zero. -/
def toWhole (f : Float → Float) (x : Float) : Float := if isFinite x then f x + 0.0 else x

/-- The whole number toward zero. -/
def truncate (x : Float) : Float := if x < 0.0 then x.ceil else x.floor

/-- The nearest whole number; a half goes up. -/
def roundHalfUp (x : Float) : Float := (x + 0.5).floor

/-- The Fibonacci number of an index by its closed form, rounded for whole indices. -/
def fibonacci (n : Float) : Float :=
  let result := (power phi n - power (-phi) (-n)) / Float.sqrt 5.0
  if isWhole n && isFinite result then toWhole roundHalfUp result else result

/-- The least of a number and others; the first of equal ones. -/
def minimum (x : Float) (others : List Float) : Float := others.foldl (fun m y => if y < m then y else m) x

/-- The greatest of a number and others; the first of equal ones. -/
def maximum (x : Float) (others : List Float) : Float := others.foldl (fun m y => if m < y then y else m) x

/-- The mean of `count` numbers, of mean `mean`, and further numbers, as a running mean. -/
def runningMean (mean : Float) (count : Nat) : List Float → Float
  | [] => mean
  | x :: xs => runningMean (mean + (x - mean) / Float.ofNat (count + 1)) (count + 1) xs

/-- The mean of a number and others. -/
def average (x : Float) (others : List Float) : Float := runningMean x 1 others

/-- The middle of a number and others in ascending order, or the mean of the two in the middle. -/
def median (x : Float) (others : List Float) : Float :=
  let sorted := (x :: others).mergeSort fun a b => !(b < a)
  let middle := sorted.length / 2
  if sorted.length % 2 = 0 then (sorted.getD middle nan + sorted.getD (middle - 1) nan) / 2.0
  else sorted.getD middle nan

end Mixfix.Arithmetic
