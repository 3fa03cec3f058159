import Mixfix.Binary
import Mixfix.Decimal.Basic

/-!
# The shortest decimal that reads back

A positive double is a binary number. The reals that round to it form an interval, whose ends belong to it exactly when
the mantissa is even (`Binary.covers`). On the grid of multiples of a power of ten the points to try are the two
neighbours of the double (`Binary.onGrid?`): if any point of the grid lies in the interval, one of them does. The
coarsest grid with such a point gives the fewest digits (`Binary.shortest`), and of two points the nearer is taken.
-/

namespace Mixfix

namespace Binary

/-- Four times the mantissa: the double in quarters of its last place. -/
def quarters (b : Binary) : Nat := 4 * b.mantissa

/-- The lower end of the interval of reals that round to the double, in quarters of its last place. The doubles below a
power of two are half as far apart. -/
def lowerQuarters (b : Binary) : Nat :=
  if b.mantissa = leadingMantissa ∧ leastExponent < b.exponent then b.quarters - 1 else b.quarters - 2

/-- The upper end of the interval of reals that round to the double, in quarters of its last place. -/
def upperQuarters (b : Binary) : Nat := b.quarters + 2

/-- Numerator and denominator of a quarter of the last place, in multiples of `10 ^ grid`. -/
def quarterOnGrid (b : Binary) (grid : Int) : Nat × Nat :=
  let power := b.exponent - 2
  (Nat.pow 2 power.toNat * Nat.pow 10 (-grid).toNat, Nat.pow 2 (-power).toNat * Nat.pow 10 grid.toNat)

/-- Whether the point `n` of a grid rounds to the double, for a quarter of the last place given as a fraction. -/
def covers (b : Binary) (num den n : Nat) : Bool :=
  if b.mantissa % 2 = 0 then b.lowerQuarters * num ≤ n * den && n * den ≤ b.upperQuarters * num
  else b.lowerQuarters * num < n * den && n * den < b.upperQuarters * num

/-- The point of the grid `10 ^ grid` that reads back as the double and is nearest to it, if there is any. -/
def onGrid? (b : Binary) (grid : Int) : Option Nat :=
  let (num, den) := b.quarterOnGrid grid
  let below := b.quarters * num / den
  let beyond := b.quarters * num - below * den
  match b.covers num den below, b.covers num den (below + 1) with
  | true, false => some below
  | false, true => some (below + 1)
  | false, false => none
  | true, true =>
    if 2 * beyond < den then some below
    else if den < 2 * beyond then some (below + 1)
    else some (if below % 2 = 0 then below else below + 1)

/-- A power of ten that is at least the double. -/
def coarsest (b : Binary) : Int := (b.exponent + b.mantissa.log2 + 1) * 30103 / 100000 + 1

/-- How many grids suffice below the coarsest: seventeen digits always read back. -/
def gridCount : Nat := 22

/-- The decimal with the fewest digits that reads back as the double, and of those the nearest. -/
def shortest (b : Binary) : Decimal :=
  ((List.range gridCount).findSome? fun (i : Nat) =>
    let grid := b.coarsest - (i : Int)
    (b.onGrid? grid).map fun n => ⟨false, n, grid⟩).getD ⟨false, 0, 0⟩

end Binary

end Mixfix
