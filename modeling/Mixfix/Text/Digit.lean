import Mixfix.Text.Basic

/-!
# Decimal digits

The characters of Unicode's category Nd stand in blocks of ten, from a zero to a nine (`zeros`), so a character is a
digit exactly when it lies in such a block, and its value is its distance from the zero (`digit?`).

Formats that know ASCII alone read digits of any base with `asciiDigit?`, where letters go on from ten.
-/

namespace Mixfix.Text

/-- The code points of the zeros, one for each block of ten decimal digits. -/
def zeros : List Nat :=
  [0x30, 0x660, 0x6F0, 0x7C0, 0x966, 0x9E6, 0xA66, 0xAE6, 0xB66, 0xBE6, 0xC66, 0xCE6, 0xD66, 0xDE6, 0xE50, 0xED0,
   0xF20, 0x1040, 0x1090, 0x17E0, 0x1810, 0x1946, 0x19D0, 0x1A80, 0x1A90, 0x1B50, 0x1BB0, 0x1C40, 0x1C50, 0xA620,
   0xA8D0, 0xA900, 0xA9D0, 0xA9F0, 0xAA50, 0xABF0, 0xFF10, 0x104A0, 0x10D30, 0x11066, 0x110F0, 0x11136, 0x111D0,
   0x112F0, 0x11450, 0x114D0, 0x11650, 0x116C0, 0x11730, 0x118E0, 0x11950, 0x11C50, 0x11D50, 0x11DA0, 0x16A60,
   0x16AC0, 0x16B50, 0x1D7CE, 0x1D7D8, 0x1D7E2, 0x1D7EC, 0x1D7F6, 0x1E140, 0x1E2F0, 0x1E950, 0x1FBF0]

/-- The value of a decimal digit of any script. -/
def digit? (c : Char) : Option Nat :=
  let n := c.toNat
  zeros.findSome? fun z => if z ≤ n && n < z + 10 then some (n - z) else none

/-- A decimal digit of any script. -/
def isDigit (c : Char) : Bool := (digit? c).isSome

/-- The digits at the start of a text, by value, and the text behind them. -/
def spanDigits : Text → List Nat × Text
  | [] => ([], [])
  | c :: rest =>
    match digit? c with
    | some d => (d :: (spanDigits rest).1, (spanDigits rest).2)
    | none => ([], c :: rest)

/-- The number that digits write in a base, most significant digit first. -/
def ofDigits (base : Nat) (ds : List Nat) : Nat := ds.foldl (fun n d => n * base + d) 0

/-! ## ASCII digits -/

/-- The value of an ASCII digit of a base; letters of either case go on from ten. -/
def asciiDigit? (base : Nat) (c : Char) : Option Nat :=
  let n :=
    if c.isDigit then c.toNat - '0'.toNat
    else if c.isLower then c.toNat - 'a'.toNat + 10
    else if c.isUpper then c.toNat - 'A'.toNat + 10
    else base
  if n < base then some n else none

/-- The number that ASCII digits write in a base, if each of them is a digit of it. -/
def ofAscii? (base : Nat) (t : Text) : Option Nat := (t.mapM (asciiDigit? base)).map (ofDigits base)

/-- The number that ASCII decimal digits write. -/
def ofAscii (t : Text) : Nat := ofDigits 10 (t.map fun c => c.toNat - '0'.toNat)

/-! ## Writing numbers -/

/-- The decimal digits of a number, most significant digit first. -/
def natDigits (n : Nat) : Text := Nat.toDigits 10 n

/-- A whole number in decimal digits, with a minus sign when it is negative. -/
def ofInt (n : Int) : Text := if n < 0 then '-' :: natDigits n.natAbs else natDigits n.natAbs

end Mixfix.Text
