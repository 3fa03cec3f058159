import Mixfix.Decimal.Shortest

/-!
# Decimal text of a double

A double is written with the fewest digits that read back: positionally, with at least one digit on each side of the
point, while the exponent of its leading digit is at least -4 and below 16; otherwise with an exponent of at least two
digits and a sign (`Decimal.positional`, `Decimal.scientific`). The special values are `inf`, `-inf` and `nan`, and
the negative zero keeps its sign (`formatFloat`).
-/

namespace Mixfix

namespace Decimal

/-- Leading digits with an exponent in this range are written positionally. -/
def isPositional (leading : Int) : Bool := -4 ≤ leading && leading < 16

/-- Digits with the point behind the first `point` of them; zeros fill what is missing. -/
def positional (ds : Text) (point : Int) : Text :=
  if point ≤ 0 then '0' :: '.' :: (List.replicate point.natAbs '0' ++ ds)
  else if ds.length ≤ point.toNat then ds ++ List.replicate (point.toNat - ds.length) '0' ++ ['.', '0']
  else ds.take point.toNat ++ '.' :: ds.drop point.toNat

/-- An exponent with its sign and at least two digits. -/
def exponentText (e : Int) : Text :=
  let ds := Text.natDigits e.natAbs
  (if e < 0 then '-' else '+') :: (if ds.length < 2 then '0' :: ds else ds)

/-- The first digit, a point before further digits, and the exponent of the first digit. -/
def scientific (ds : Text) (leading : Int) : Text :=
  match ds with
  | [] => []
  | [d] => d :: 'e' :: exponentText leading
  | d :: more => d :: '.' :: more ++ 'e' :: exponentText leading

/-- The text of a positive decimal number. -/
def format (d : Decimal) : Text :=
  let ds := Text.natDigits d.digits
  let point := ds.length + d.exponent
  if isPositional (point - 1) then positional ds point else scientific ds (point - 1)

end Decimal

/-- The text of a double. -/
def formatFloat (x : Float) : Text :=
  let sign : Text := if Binary.isNegative x then ['-'] else []
  if x.isNaN then "nan".toList
  else if x.isInf then sign ++ "inf".toList
  else if x == 0.0 then sign ++ "0.0".toList
  else sign ++ (Binary.ofFloat x).shortest.format

end Mixfix
