import Mixfix.Text.Digit

/-!
# Decimal numbers

A decimal number is a whole number of units of a power of ten, with a sign. `Decimal.toFloat` rounds it to the nearest
double; a number far outside the range of doubles never has its power of ten computed (`Decimal.toFloat` answers at
once with zero or infinity).
-/

namespace Mixfix

/-- The number `digits · 10 ^ exponent`, negated if `negative`. -/
structure Decimal where
  negative : Bool
  digits : Nat
  exponent : Int
  deriving Repr, DecidableEq

namespace Decimal

/-- The exponent of ten of a number's leading digit, or at most one less. -/
def leadingExponent (n : Nat) : Int := n.log2 * 30103 / 100000

/-- Numbers whose leading digit has a greater exponent are above every double. -/
def ceilingExponent : Int := 310

/-- Numbers whose leading digit has a smaller exponent are below half the least positive double. -/
def floorExponent : Int := -327

/-- The double nearest to the number without its sign. -/
def magnitude (d : Decimal) : Float :=
  if d.digits = 0 then 0.0
  else
    let leading := leadingExponent d.digits + d.exponent
    if ceilingExponent < leading then 1.0 / 0.0
    else if leading < floorExponent then 0.0
    else if d.exponent < 0 then Float.ofScientific d.digits true d.exponent.natAbs
    else Float.ofScientific d.digits false d.exponent.natAbs

/-- The double nearest to the number. -/
def toFloat (d : Decimal) : Float := if d.negative then -d.magnitude else d.magnitude

end Decimal

end Mixfix
