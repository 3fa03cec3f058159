/-!
# Doubles as binary numbers

The bits of a double are a sign (`Binary.isNegative`) and a magnitude, which for a finite double is a number
`mantissa · 2 ^ exponent` (`Binary.ofFloat`). Every magnitude is a whole number of units, the least positive double
(`Binary.units`).
-/

namespace Mixfix

/-- The number `mantissa · 2 ^ exponent`. -/
structure Binary where
  mantissa : Nat
  exponent : Int
  deriving Repr, DecidableEq

namespace Binary

/-- The least exponent of a double. -/
def leastExponent : Int := -1074

/-- The least mantissa of a double that is not subnormal: the fifty-second power of two. -/
def leadingMantissa : Nat := 0x10000000000000

/-- The bit of the sign: the sixty-third power of two. -/
def signBit : Nat := 0x8000000000000000

/-- Whether the sign of a double is minus. -/
def isNegative (x : Float) : Bool := signBit ≤ x.toBits.toNat

/-- The magnitude that bits without the sign hold. -/
def ofBits (bits : Nat) : Binary :=
  let fraction := bits % leadingMantissa
  let field := bits / leadingMantissa
  if field = 0 then ⟨fraction, leastExponent⟩ else ⟨leadingMantissa + fraction, leastExponent + (field - 1)⟩

/-- The magnitude of a finite double. -/
def ofFloat (x : Float) : Binary := ofBits (x.toBits.toNat % signBit)

/-- The number in units of the least positive double. -/
def units (b : Binary) : Nat := b.mantissa * Nat.pow 2 (b.exponent - leastExponent).toNat

/-- The double of a number of units, if it is one. -/
def floatOfUnits (n : Nat) : Float :=
  let shift := n.log2 - 52
  Float.ofBits (if shift = 0 then n else n / Nat.pow 2 shift + shift * leadingMantissa).toUInt64

end Binary

end Mixfix
