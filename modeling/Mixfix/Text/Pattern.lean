import Mixfix.Text.Basic

/-!
# Patterns of texts

A pattern is built from words, classes of characters, sequences, alternatives and runs of characters of a class.
`Pattern.fullMatch` says whether a whole text matches: alternatives are tried in order and a run first takes as many
characters as there are, and where the rest of the text does not match, the next way is tried.
-/

namespace Mixfix.Text

/-- A pattern of texts. -/
inductive Pattern where
  /-- A text itself. -/
  | word (w : Text)
  /-- One character of a class. -/
  | char (p : Char → Bool)
  /-- Any number of characters of a class. -/
  | run (p : Char → Bool)
  /-- A text of the first pattern, and one of the second behind it. -/
  | seq (a b : Pattern)
  /-- A text of either pattern. -/
  | either (a b : Pattern)

namespace Pattern

/-- A text of the pattern, or nothing. -/
def optional (a : Pattern) : Pattern := either a (word [])

/-- One or more characters of a class. -/
def run1 (p : Char → Bool) : Pattern := seq (char p) (run p)

/-- Whether some characters of a class at the start of a text, or none, are followed by a rest that passes a test. -/
def runThen (p : Char → Bool) (rest : Text → Bool) : Text → Bool
  | [] => rest []
  | c :: t => (p c && runThen p rest t) || rest (c :: t)

/-- Whether a text starts with a match that is followed by a rest that passes a test. -/
def matchThen : Pattern → (Text → Bool) → Text → Bool
  | word w, rest, t => w.isPrefixOf t && rest (t.drop w.length)
  | char _, _, [] => false
  | char p, rest, c :: t => p c && rest t
  | run p, rest, t => runThen p rest t
  | seq a b, rest, t => matchThen a (matchThen b rest) t
  | either a b, rest, t => matchThen a rest t || matchThen b rest t

/-- Whether the whole text matches. -/
def fullMatch (a : Pattern) (t : Text) : Bool := a.matchThen List.isEmpty t

end Pattern

end Mixfix.Text
