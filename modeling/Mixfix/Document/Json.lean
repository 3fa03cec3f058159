import Mixfix.Document.Basic
import Mixfix.Number

/-!
# Reading JSON

`Json.read?` reads a document that is a single JSON value. Besides the standard it allows the numbers `NaN`, `Infinity`
and `-Infinity`. Strings hold no control characters, a whole number is told apart from one with a point or an exponent,
and a string with an escaped surrogate that lacks its partner is no text.

Every step of the reader takes at least one character, so the length of the text bounds its depth.
-/

namespace Mixfix.Json

/-- Skips the white space between values. -/
def skip (t : Text) : Text := t.dropWhile fun c => c == ' ' || c == '\t' || c == '\n' || c == '\r'

/-! ## Numbers -/

/-- The ASCII digits at the start of a text. -/
def spanDigits (t : Text) : Text × Text := t.span Char.isDigit

/-- A fraction: a point and at least one digit. Without it, nothing is taken. -/
def spanFraction : Text → Text × Text
  | '.' :: rest =>
    match spanDigits rest with
    | ([], _) => ([], '.' :: rest)
    | (ds, tail) => (ds, tail)
  | t => ([], t)

/-- An exponent: `e`, a sign that may be missing, and at least one digit. Without it, nothing is taken. -/
def spanExponent : Text → Option Int × Text
  | c :: rest =>
    if c = 'e' ∨ c = 'E' then
      let (negative, body) := Literal.spanSign rest
      match spanDigits body with
      | ([], _) => (none, c :: rest)
      | (ds, tail) =>
        let n : Int := Text.ofAscii ds
        (some (if negative then -n else n), tail)
    else (none, c :: rest)
  | [] => (none, [])

/-- The whole part of a number: a zero, or digits that do not start with one. -/
def spanWhole : Text → Text × Text
  | '0' :: rest => (['0'], rest)
  | t => spanDigits t

/-- A number without its sign. -/
def number? (negative : Bool) (t : Text) : Option (Document × Text) :=
  match spanWhole t with
  | ([], _) => none
  | (whole, rest) =>
    let (fraction, rest') := spanFraction rest
    let (exponent, tail) := spanExponent rest'
    if fraction.isEmpty && exponent.isNone then
      if Document.maxIntDigits < whole.length then none
      else
        let n : Int := Text.ofAscii whole
        some (.int (if negative then -n else n), tail)
    else
      let d : Decimal := ⟨negative, Text.ofAscii (whole ++ fraction), exponent.getD 0 - fraction.length⟩
      some (.float d.toFloat, tail)

/-! ## Strings -/

/-- The value of four digits in base 16. -/
def hexUnit? (t : Text) : Option (Nat × Text) :=
  let unit := t.take 4
  if unit.length < 4 then none else (Text.ofAscii? 16 unit).map fun n => (n, t.drop 4)

/-- The character of a code unit, and of the one behind it if the two are a pair of surrogates; none for half a pair. -/
def unitChar (unit : Nat) (rest : Text) : Option Char × Text :=
  if 0xD800 ≤ unit && unit < 0xDC00 then
    match rest with
    | '\\' :: 'u' :: more =>
      match hexUnit? more with
      | some (low, tail) =>
        if 0xDC00 ≤ low && low < 0xE000 then
          (some (Char.ofNat (0x10000 + (unit - 0xD800) * 0x400 + (low - 0xDC00))), tail)
        else (none, rest)
      | none => (none, rest)
    | _ => (none, rest)
  else if 0xDC00 ≤ unit && unit < 0xE000 then (none, rest)
  else (some (Char.ofNat unit), rest)

/-- What the one-letter escapes stand for. -/
def escapes : List (Char × Nat) :=
  [('"', 34), ('\\', 92), ('/', 47), ('b', 8), ('f', 12), ('n', 10), ('r', 13), ('t', 9)]

/-- The character of an escape, behind its backslash. -/
def escape? : Text → Option (Option Char × Text)
  | 'u' :: rest => (hexUnit? rest).map fun u => unitChar u.1 u.2
  | c :: rest => (escapes.lookup c).map fun n => (some (Char.ofNat n), rest)
  | [] => none

/-- The characters of a string behind its opening quote, and the text behind its end. -/
def string? : (fuel : Nat) → Text → Option (List (Option Char) × Text)
  | 0, _ => none
  | _ + 1, [] => none
  | _ + 1, '"' :: rest => some ([], rest)
  | fuel + 1, '\\' :: rest => do
    let (c, tail) ← escape? rest
    let (t, tail) ← string? fuel tail
    return (c :: t, tail)
  | fuel + 1, c :: rest =>
    if c.toNat < 32 then none
    else (string? fuel rest).map fun r => (some c :: r.1, r.2)

/-! ## Values -/

/-- The text behind a literal that it starts with. -/
def after? (literal : String) (t : Text) : Option Text :=
  if literal.toList.isPrefixOf t then some (t.drop literal.length) else none

/-- A value that is one of the literals or a number. -/
def scalar? (t : Text) : Option (Document × Text) :=
  match t with
  | 'n' :: _ => (after? "null" t).map fun r => (.null, r)
  | 't' :: _ => (after? "true" t).map fun r => (.bool true, r)
  | 'f' :: _ => (after? "false" t).map fun r => (.bool false, r)
  | 'N' :: _ => (after? "NaN" t).map fun r => (.float (0.0 / 0.0), r)
  | 'I' :: _ => (after? "Infinity" t).map fun r => (.float (1.0 / 0.0), r)
  | '-' :: 'I' :: _ => (after? "-Infinity" t).map fun r => (.float (-1.0 / 0.0), r)
  | '-' :: rest => number? true rest
  | _ => number? false t

mutual

/-- A value at the start of a text. -/
def value? : (fuel : Nat) → Text → Option (Document × Text)
  | 0, _ => none
  | _ + 1, '"' :: rest => (string? (rest.length + 1) rest).map fun r => (.ofChars r.1, r.2)
  | fuel + 1, '[' :: rest =>
    match skip rest with
    | ']' :: tail => some (.list [], tail)
    | items => (items? fuel items).map fun r => (.list r.1, r.2)
  | fuel + 1, '\x7b' :: rest =>
    match skip rest with
    | '\x7d' :: tail => some (.mapping [], tail)
    | members => (members? fuel [] members).map fun r => (.mapping r.1, r.2)
  | _ + 1, t => scalar? t

/-- The items of a list, up to its close. -/
def items? : (fuel : Nat) → Text → Option (List Document × Text)
  | 0, _ => none
  | fuel + 1, t => do
    let (item, rest) ← value? fuel t
    match skip rest with
    | ',' :: more =>
      let (items, tail) ← items? fuel (skip more)
      return (item :: items, tail)
    | ']' :: tail => return ([item], tail)
    | _ => none

/-- The members of a mapping behind those read before, up to its close. -/
def members? : (fuel : Nat) → List (Document × Document) → Text → Option (List (Document × Document) × Text)
  | 0, _, _ => none
  | fuel + 1, before, t => do
    match t with
    | '"' :: rest =>
      let (key, rest) ← string? (rest.length + 1) rest
      match skip rest with
      | ':' :: rest =>
        let (value, rest) ← value? fuel (skip rest)
        let entries := Document.bind (.ofChars key) value before
        match skip rest with
        | ',' :: more => members? fuel entries (skip more)
        | '\x7d' :: tail => return (entries, tail)
        | _ => none
      | _ => none
    | _ => none

end

/-- Reads a document that is a single value. -/
def read? (t : Text) : Option Document := do
  let (value, rest) ← value? (2 * t.length + 2) (skip t)
  if (skip rest).isEmpty then return value else none

end Mixfix.Json
