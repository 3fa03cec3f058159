import Mixfix.Number
import Mixfix.Text.Pattern
import Mixfix.Text.Quoted

/-!
# Numbers that are recognized before they are converted

A text is recognized as a number by a pattern of literals (`Literal.pattern`), and what is recognized is converted
(`Literal.convert?`). The conversion by itself reads more texts, such as words in other cases of letters and digits with
underscores between them, and could fail (`parseNumber`).
-/

namespace Mixfix

namespace Literal

/-! ## Recognition -/

/-- A sign. -/
def isSign (c : Char) : Bool := c == '+' || c == '-'

/-- The letter of an exponent. -/
def isExponentLetter (c : Char) : Bool := c == 'e' || c == 'E'

/-- Digits with an optional point behind or among them, or a point before digits. -/
def mantissaPattern : Text.Pattern :=
  .either (.seq (.run1 Text.isDigit) (.seq (.optional (.word ['.'])) (.run Text.isDigit)))
    (.seq (.word ['.']) (.run1 Text.isDigit))

/-- An exponent. -/
def exponentPattern : Text.Pattern :=
  .seq (.char isExponentLetter) (.seq (.optional (.char isSign)) (.run1 Text.isDigit))

/-- A number literal. -/
def pattern : Text.Pattern :=
  .seq (.optional (.char isSign))
    (.either (.word ['N', 'a', 'N'])
      (.either (.word ['I', 'n', 'f', 'i', 'n', 'i', 't', 'y'])
        (.seq mantissaPattern (.optional exponentPattern))))

/-! ## Conversion -/

/-- The text without its underscores, if each of them stands between two digits; `afterDigit` tells whether a digit
precedes the text. -/
def joinedFrom (afterDigit : Bool) : Text → Option Text
  | [] => some []
  | c :: t =>
    if c = '_' then
      if afterDigit && t.head?.any Text.isDigit then joinedFrom false t else none
    else (joinedFrom (Text.isDigit c) t).map (c :: ·)

/-- Reads a number that is the whole text: a word in any case of letters, or a decimal whose digits may have single
underscores between them. -/
def convert? (t : Text) : Option Literal :=
  let (negative, body) := spanSign t
  let word := body.map Char.toLower
  if word = ['n', 'a', 'n'] then some .nan
  else if word = ['i', 'n', 'f'] ∨ word = ['i', 'n', 'f', 'i', 'n', 'i', 't', 'y'] then some (.infinity negative)
  else (joinedFrom false body).bind (decimal? negative)

end Literal

/-- A text that is recognized as a number and is not converted. -/
structure Unconverted where
  text : Text
  deriving Repr, DecidableEq

namespace Unconverted

/-- The wording of the error. -/
def message (e : Unconverted) : String := "could not convert string to float: " ++ e.text.quoted.toString

end Unconverted

/-- The value of a number literal with blanks around it, or nothing if the text is no such literal. -/
def parseNumber (t : Text) : Except Unconverted (Option Float) :=
  let literal := t.trim
  if Literal.pattern.fullMatch literal then
    match Literal.convert? literal with
    | some l => .ok (some l.value)
    | none => .error ⟨literal⟩
  else .ok none

end Mixfix
