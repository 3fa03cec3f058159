import Mixfix.Decimal.Basic

/-!
# Number literals

A literal is an optional sign before `NaN`, `Infinity` or a decimal: digits with an optional point, or a point with
digits behind it, then an optional exponent. Digits of any script count (`Text.digit?`). `Literal.parse?` reads exactly
these, `Literal.value` is the nearest double, and `readNumber?` ignores blanks around the literal.
-/

namespace Mixfix

/-- What a number literal says, apart from its spelling. -/
inductive Literal where
  | nan
  | infinity (negative : Bool)
  | decimal (value : Decimal)
  deriving Repr, DecidableEq

namespace Literal

/-- A sign, if there is one, and the text behind it. -/
def spanSign : Text → Bool × Text
  | '-' :: rest => (true, rest)
  | '+' :: rest => (false, rest)
  | rest => (false, rest)

/-- The exponent that a whole text writes: nothing, or `e`, a sign that may be missing, and digits. -/
def exponent? : Text → Option Int
  | [] => some 0
  | c :: rest =>
    if c = 'e' ∨ c = 'E' then
      let (negative, digits) := spanSign rest
      match Text.spanDigits digits with
      | (d :: ds, []) =>
        let n : Int := Text.ofDigits 10 (d :: ds)
        some (if negative then -n else n)
      | _ => none
    else none

/-- The decimal of the digits before and after the point and the text of the exponent. -/
def assemble (negative : Bool) (whole fraction : List Nat) (tail : Text) : Option Literal :=
  (exponent? tail).map fun e =>
    .decimal ⟨negative, Text.ofDigits 10 (whole ++ fraction), e - fraction.length⟩

/-- A decimal without its sign: at least one digit, and at most one point. -/
def decimal? (negative : Bool) (t : Text) : Option Literal :=
  match Text.spanDigits t with
  | ([], '.' :: rest) =>
    match Text.spanDigits rest with
    | ([], _) => none
    | (fraction, tail) => assemble negative [] fraction tail
  | ([], _) => none
  | (whole, '.' :: rest) =>
    let (fraction, tail) := Text.spanDigits rest
    assemble negative whole fraction tail
  | (whole, tail) => assemble negative whole [] tail

/-- Reads a literal that is the whole text. -/
def parse? (t : Text) : Option Literal :=
  let (negative, body) := spanSign t
  if body = ['N', 'a', 'N'] then some .nan
  else if body = ['I', 'n', 'f', 'i', 'n', 'i', 't', 'y'] then some (.infinity negative)
  else decimal? negative body

/-- The double that a literal stands for. -/
def value : Literal → Float
  | .nan => 0.0 / 0.0
  | .infinity negative => if negative then -1.0 / 0.0 else 1.0 / 0.0
  | .decimal d => d.toFloat

end Literal

/-- The value of a number literal with blanks around it, or nothing if the text is no such literal. -/
def readNumber? (t : Text) : Option Float := (Literal.parse? t.trim).map Literal.value

end Mixfix
