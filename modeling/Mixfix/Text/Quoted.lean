import Mixfix.Text.Digit

/-!
# Quoted text

A text is quoted by single quotes, or by double quotes if it holds a single quote and no double one (`Text.quote`). The
quote, backslashes and characters that cannot be seen are escaped (`Text.escape`).
-/

namespace Mixfix.Text

/-- The digits of a number in base 16, at least `width` of them. -/
def hexDigits (width n : Nat) : Text :=
  let ds := Nat.toDigits 16 n
  List.replicate (width - ds.length) '0' ++ ds

/-- Characters without a visible form: controls, format characters, separators other than the space, and code points
for private use. -/
def isInvisible (c : Char) : Bool :=
  let n := c.toNat
  n < 32 || (0x7F ≤ n && n ≤ 0xA0) || n == 0xAD || (0x600 ≤ n && n ≤ 0x605) || n == 0x61C || n == 0x6DD ||
    n == 0x70F || n == 0x1680 || n == 0x180E || (0x2000 ≤ n && n ≤ 0x200F) || (0x2028 ≤ n && n ≤ 0x202F) ||
    (0x205F ≤ n && n ≤ 0x206F) || n == 0x3000 || (0xE000 ≤ n && n ≤ 0xF8FF) || n == 0xFEFF ||
    (0xFFF0 ≤ n && n ≤ 0xFFFB) || (0xFFFE ≤ n && n ≤ 0xFFFF) || 0xE0000 ≤ n

/-- The number of an invisible character, in as many digits as its size needs. -/
def escapeNumber (c : Char) : Text :=
  let n := c.toNat
  if n < 0x100 then '\\' :: 'x' :: hexDigits 2 n
  else if n < 0x10000 then '\\' :: 'u' :: hexDigits 4 n
  else '\\' :: 'U' :: hexDigits 8 n

/-- A character inside quotes. -/
def escape (quote c : Char) : Text :=
  if c = quote ∨ c = '\\' then ['\\', c]
  else if c = '\n' then ['\\', 'n']
  else if c = '\r' then ['\\', 'r']
  else if c = '\t' then ['\\', 't']
  else if isInvisible c then escapeNumber c
  else [c]

/-- The quotes that fit a text. -/
def quoteFor (t : Text) : Char := if t.contains '\'' && !t.contains '"' then '"' else '\''

/-- The text in quotes. -/
def quoted (t : Text) : Text :=
  let quote := quoteFor t
  quote :: t.flatMap (escape quote) ++ [quote]

end Mixfix.Text
