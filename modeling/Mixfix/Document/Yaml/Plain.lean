import Mixfix.Document.Basic
import Mixfix.Document.Yaml.Cursor
import Mixfix.Number
import Mixfix.Text.Occurrence

/-!
# Plain scalars of YAML

What a plain scalar stands for follows from its spelling alone (`Plain.kind`): a truth value, a null, a whole number in
base 2, 8, 10, 16 or 60, a number with a point, a time, one of two signs with a meaning of their own, or else text.
Underscores in numbers mean nothing.
-/

namespace Mixfix.Yaml.Plain

/-- What plain scalars stand for. -/
inductive Kind where
  | bool
  | float
  | int
  /-- The key `<<`, whose value's entries belong to the mapping around it. -/
  | merge
  | null
  | time
  /-- The key `=`. -/
  | default
  | text
  deriving DecidableEq

/-! ## Spelling -/

/-- The text behind a sign, if there is one. -/
def unsigned : Text → Text
  | '-' :: rest => rest
  | '+' :: rest => rest
  | t => t

/-- An ASCII digit or an underscore. -/
def isDigitOrLine (c : Char) : Bool := c.isDigit || c == '_'

/-- Whether a text is not empty and holds only characters of a class. -/
def isRun (p : Char → Bool) (t : Text) : Bool := !t.isEmpty && t.all p

/-- An exponent with its sign, or nothing. -/
def isExponent : Text → Bool
  | [] => true
  | [_] => false
  | c :: s :: rest => (c == 'e' || c == 'E') && (s == '-' || s == '+') && isRun Char.isDigit rest

/-- Whether a text is one or two digits, the first of two below 6. -/
def isSixtieth : Text → Bool
  | [d] => d.isDigit
  | [t, d] => '0' ≤ t && t ≤ '5' && d.isDigit
  | _ => false

/-- The parts of a text between colons. -/
def colonParts (t : Text) : List Text := Text.pieces [':'] t

/-- Whether a text is a number in base 60 of at least two places, the first of which satisfies a test. -/
def isBase60 (first : Text → Bool) (t : Text) : Bool :=
  match colonParts t with
  | p :: q :: ps => first p && (q :: ps).all isSixtieth
  | _ => false

/-- A digit, and digits and underscores behind it. -/
def isDigits (t : Text) : Bool := startsWith Char.isDigit t && t.all isDigitOrLine

/-- A number with a point and perhaps an exponent, an infinity, or not a number. -/
def isFloat (t : Text) : Bool :=
  let body := unsigned t
  let whole := body.takeWhile (· != '.')
  let fraction := body.dropWhile (· != '.')
  let named := body == ".inf".toList || body == ".Inf".toList || body == ".INF".toList
  let nan := t == ".nan".toList || t == ".NaN".toList || t == ".NAN".toList
  match fraction with
  | [] => false
  | _ :: tail =>
    let rest := tail.dropWhile isDigitOrLine
    named || nan || (isDigits whole && isExponent rest) || (isBase60 isDigits whole && rest.isEmpty) ||
      (whole.isEmpty && startsWith (· == '.') t && startsWith Char.isDigit tail && isExponent rest)

/-- A character of a number in base 16. -/
def isHex (c : Char) : Bool := c.isDigit || ('a' ≤ c && c ≤ 'f') || ('A' ≤ c && c ≤ 'F') || c == '_'

/-- A digit from 1 on, and digits and underscores behind it. -/
def isDecimal (t : Text) : Bool := startsWith (fun c => '1' ≤ c && c ≤ '9') t && t.all isDigitOrLine

/-- A whole number. -/
def isInt (t : Text) : Bool :=
  match unsigned t with
  | ['0'] => true
  | '0' :: 'b' :: rest => isRun (fun c => c == '0' || c == '1' || c == '_') rest
  | '0' :: 'x' :: rest => isRun isHex rest
  | '0' :: rest => isRun (fun c => ('0' ≤ c && c ≤ '7') || c == '_') rest
  | body => isDecimal body || isBase60 isDecimal body

/-- The words of the truth values, with what they mean. -/
def words : List (Text × Bool) :=
  [("yes", true), ("Yes", true), ("YES", true), ("no", false), ("No", false), ("NO", false), ("true", true),
   ("True", true), ("TRUE", true), ("false", false), ("False", false), ("FALSE", false), ("on", true), ("On", true),
   ("ON", true), ("off", false), ("Off", false), ("OFF", false)].map fun w => (w.1.toList, w.2)

/-- The spellings of null. -/
def nulls : List Text := ["~", "null", "Null", "NULL", ""].map String.toList

/-! ## Times -/

/-- From `least` to `most` digits at the start of a text: their number, and the text behind them. -/
def spanNumber (least most : Nat) (t : Text) : Option (Nat × Text) :=
  let ds := (t.take most).takeWhile Char.isDigit
  if ds.length < least then none
  else some (Text.ofAscii ds, t.drop ds.length)

/-- The text behind a character that it starts with. -/
def after? (c : Char) : Text → Option Text
  | [] => none
  | d :: rest => if d == c then some rest else none

/-- The time zone at the end of a time; nothing if there is none. -/
def isZone (t : Text) : Bool :=
  match t.dropWhile fun c => c == ' ' || c == '\t' with
  | [] => true
  | ['Z'] => true
  | c :: rest =>
    (c == '-' || c == '+') &&
      match spanNumber 1 2 rest with
      | none => false
      | some (_, []) => true
      | some (_, tail) => ((after? ':' tail).bind (spanNumber 2 2)).any fun r => r.2.isEmpty

/-- The time of day behind a date. -/
def timeOfDay? (t : Text) : Option (Nat × Nat × Nat) := do
  let body ←
    match t with
    | 'T' :: rest => some rest
    | 't' :: rest => some rest
    | c :: _ => if c == ' ' || c == '\t' then some (t.dropWhile fun d => d == ' ' || d == '\t') else none
    | [] => none
  let (hour, rest) ← spanNumber 1 2 body
  let (minute, rest) ← spanNumber 2 2 (← after? ':' rest)
  let (second, rest) ← spanNumber 2 2 (← after? ':' rest)
  let rest := if startsWith (· == '.') rest then rest.tail.dropWhile Char.isDigit else rest
  if isZone rest then return (hour, minute, second) else none

/-- The year, month, day and time of day that a text writes, whether or not there is such a day. -/
def time? (t : Text) : Option ((Nat × Nat × Nat) × (Nat × Nat × Nat)) := do
  let (year, rest) ← spanNumber 4 4 t
  let (month, rest) ← spanNumber 1 2 (← after? '-' rest)
  let (day, rest) ← spanNumber 1 2 (← after? '-' rest)
  if rest.isEmpty then
    if t.length = 10 then return ((year, month, day), (0, 0, 0)) else none
  else return ((year, month, day), ← timeOfDay? rest)

/-- How many days a month has. -/
def daysIn (year month : Nat) : Nat :=
  if month = 2 then (if year % 4 = 0 && (year % 100 != 0 || year % 400 = 0) then 29 else 28)
  else if [4, 6, 9, 11].contains month then 30
  else 31

/-- Whether a text writes a time that there is. -/
def isRealTime (t : Text) : Bool :=
  match time? t with
  | none => false
  | some ((year, month, day), (hour, minute, second)) =>
    0 < year && 1 ≤ month && month ≤ 12 && 1 ≤ day && day ≤ daysIn year month && hour < 24 && minute < 60 && second < 60

/-- What a plain scalar stands for. -/
def kind (t : Text) : Kind :=
  if (words.lookup t).isSome then .bool
  else if isFloat t then .float
  else if isInt t then .int
  else if t == ['<', '<'] then .merge
  else if nulls.contains t then .null
  else if (time? t).isSome then .time
  else if t == ['='] then .default
  else .text

/-! ## Values -/

/-- A text without underscores. -/
def dropLines (t : Text) : Text := t.filter (· != '_')

/-- The number that digits write in a base, if there are any and they are not too many. -/
def inBase? (base : Nat) (t : Text) : Option Nat :=
  if t.isEmpty || (base = 10 && Document.maxIntDigits < t.length) then none else Text.ofAscii? base t

/-- A whole number without sign and underscores. -/
def natural? (t : Text) : Option Nat :=
  match t with
  | ['0'] => some 0
  | '0' :: 'b' :: rest => inBase? 2 rest
  | '0' :: 'x' :: rest => inBase? 16 rest
  | '0' :: _ => inBase? 8 t
  | _ => ((colonParts t).mapM (inBase? 10)).map (Text.ofDigits 60)

/-- The value of a whole number. -/
def int? (t : Text) : Option Int :=
  let body := dropLines t
  (natural? (unsigned body)).map fun n => if startsWith (· == '-') body then -(n : Int) else n

/-- The value of places in base 60, least place first. -/
def ofPlaces (base : Float) (sum : Float) : List Float → Float
  | [] => sum
  | x :: xs => ofPlaces (base * 60.0) (sum + x * base) xs

/-- The value of a number with a point. -/
def float? (t : Text) : Option Float :=
  let body := dropLines t
  let sign : Float := if startsWith (· == '-') body then -1.0 else 1.0
  let magnitude := (unsigned body).map Char.toLower
  if magnitude == ".inf".toList then some (sign * (1.0 / 0.0))
  else if magnitude == ".nan".toList then some (0.0 / 0.0)
  else if magnitude.contains ':' then
    ((colonParts magnitude).mapM readNumber?).map fun xs => sign * ofPlaces 1.0 0.0 xs.reverse
  else (readNumber? magnitude).map (sign * ·)

/-- The value of a text as one of a kind, if there is one. -/
def value? (t : Text) : Kind → Option Document
  | .bool => (words.lookup t).map .bool
  | .float => (float? t).map .float
  | .int => (int? t).map .int
  | .null => some .null
  | .time => if isRealTime t then some .other else none
  | .text => some (.text t)
  | .merge => none
  | .default => none

end Mixfix.Yaml.Plain
