/-!
# Text

Text is the list of its code points, so every length and every position counts code points.

* `Text.isBlank`: the Unicode white space that is ignored around names and literals.
* `Text.trimBy`: text without the characters of a class at both ends; `Text.trim` drops blanks, `Text.trimSpaces` only
  the space U+0020.
* `Text.leadingSpaces`, `Text.trailingSpaces`: how many spaces stand at each end.
-/

namespace Mixfix

/-- Text as the list of its code points. -/
abbrev Text := List Char

namespace Text

/-- The text of a string. -/
def ofString (s : String) : Text := s.toList

/-- The string of a text. -/
def toString (t : Text) : String := String.ofList t

/-! ## Character classes -/

/-- White space: the property of that name, and the four information separators U+001C to U+001F. -/
def isBlank (c : Char) : Bool :=
  let n := c.toNat
  (9 ≤ n && n ≤ 13) || (28 ≤ n && n ≤ 32) || n == 0x85 || n == 0xA0 || n == 0x1680 || (0x2000 ≤ n && n ≤ 0x200A) ||
    n == 0x2028 || n == 0x2029 || n == 0x202F || n == 0x205F || n == 0x3000

/-- The space U+0020, the only character that separates tokens. -/
def isSpace (c : Char) : Bool := c == ' '

/-! ## Trimming -/

/-- The text without the characters of a class at its start. -/
def trimStartBy (p : Char → Bool) (t : Text) : Text := t.dropWhile p

/-- The text without the characters of a class at its end. -/
def trimEndBy (p : Char → Bool) (t : Text) : Text := (t.reverse.dropWhile p).reverse

/-- The text without the characters of a class at either end. -/
def trimBy (p : Char → Bool) (t : Text) : Text := trimEndBy p (trimStartBy p t)

/-- The text without the blanks around it. -/
def trim (t : Text) : Text := trimBy isBlank t

/-- The text without the spaces around it. -/
def trimSpaces (t : Text) : Text := trimBy isSpace t

/-- Text of blanks alone, or of nothing. -/
def isAllBlank (t : Text) : Bool := t.all isBlank

/-- How many spaces the text starts with. -/
def leadingSpaces (t : Text) : Nat := (t.takeWhile isSpace).length

/-- How many spaces the text ends with. -/
def trailingSpaces (t : Text) : Nat := (t.reverse.takeWhile isSpace).length

/-- A run of spaces. -/
def spaces (n : Nat) : Text := List.replicate n ' '

end Text

end Mixfix
