import Mixfix.Text.Basic

/-!
# Tokens

A token is a fixed text that the tokenizer splits by, raw text that no fixed text splits, or raw text that reads as a
number literal. Tokens are equal when they are of one kind and have equal texts, and for numbers equal values.
-/

namespace Mixfix

inductive Token where
  /-- An operator, a bracket or other registered punctuation. -/
  | fixed (text : Text)
  /-- Text between fixed tokens. -/
  | raw (text : Text)
  /-- Text between fixed tokens that reads as a number. -/
  | number (text : Text) (value : Float)

namespace Token

/-- The text that a token covers. -/
def text : Token → Text
  | fixed t => t
  | raw t => t
  | number t _ => t

/-- Equality of kind, text and value; the values compare as doubles, so NaN differs from NaN. -/
protected def beq : Token → Token → Bool
  | fixed a, fixed b => a == b
  | raw a, raw b => a == b
  | number a x, number b y => a == b && x == y
  | _, _ => false

instance : BEq Token := ⟨Token.beq⟩

/-- The text of a fixed token. -/
def fixed? : Token → Option Text
  | fixed t => some t
  | _ => none

/-- Whether the token is fixed and its text satisfies a test. -/
def isFixed (p : Text → Bool) : Token → Bool
  | fixed t => p t
  | _ => false

/-! ## Tokens that are always split by -/

/-- The text of the open bracket. -/
def openText : Text := ['(']

/-- The text of the close bracket. -/
def closeText : Text := [')']

/-- The text of the separator between the arguments of a call. -/
def separatorText : Text := [',']

/-- The texts that are registered from the start, in order. -/
def builtinTexts : List Text := [openText, closeText, separatorText]

/-- An open bracket. -/
def isOpen (t : Token) : Bool := t.isFixed (· == openText)

/-- A close bracket. -/
def isClose (t : Token) : Bool := t.isFixed (· == closeText)

/-- A separator between arguments. -/
def isSeparator (t : Token) : Bool := t.isFixed (· == separatorText)

end Token

end Mixfix
