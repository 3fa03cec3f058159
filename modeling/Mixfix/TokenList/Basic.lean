import Mixfix.Token

/-!
# Token lists

A token list is a row of tokens, each with the number of spaces before it, and the spaces behind the last one
(`Row`), together with the text that it covers and the place of that text in a full expression (`TokenList`). So there
is always one spacing more than there are tokens (`Row.spacings_length`).

A slice keeps the spaces on both sides of its tokens, and the text that it covers is cut out of the text of the list
(`TokenList.slice`).
-/

namespace Mixfix

/-- A token and the number of spaces immediately before it. -/
structure Spaced where
  spaces : Nat
  token : Token

namespace Spaced

/-- How many characters the token takes with the spaces before it. -/
def width (s : Spaced) : Nat := s.spaces + s.token.text.length

/-- How many characters the first `n` of some tokens take, with the spaces before each. -/
def widthOfFirst : (n : Nat) → List Spaced → Nat
  | 0, _ => 0
  | _ + 1, [] => 0
  | n + 1, s :: rest => s.width + widthOfFirst n rest

/-- The spaces and the token as text. -/
def render (s : Spaced) : Text := Text.spaces s.spaces ++ s.token.text

end Spaced

/-! ## Rows of tokens -/

/-- Tokens with the spaces before each, and the spaces behind the last. -/
structure Row where
  items : List Spaced
  trailing : Nat

namespace Row

/-- The tokens of a row, in order. -/
def tokens (r : Row) : List Token := r.items.map Spaced.token

/-- The spaces before each token, then those behind the last. -/
def spacings (r : Row) : List Nat := r.items.map Spaced.spaces ++ [r.trailing]

/-- The text that the tokens and spacings of a row write. -/
def render (r : Row) : Text := r.items.flatMap Spaced.render ++ Text.spaces r.trailing

/-- The row of given tokens and spacings, if there is one spacing more than there are tokens. -/
def ofParts? : List Token → List Nat → Option Row
  | [], [trailing] => some ⟨[], trailing⟩
  | t :: ts, n :: ns => (ofParts? ts ns).map fun r => ⟨⟨n, t⟩ :: r.items, r.trailing⟩
  | _, _ => none

theorem spacings_length (r : Row) : r.spacings.length = r.tokens.length + 1 := by simp [spacings, tokens]

end Row

/-! ## Lists over a text -/

/-- A row of tokens, the text that it covers, and the index of that text in the full expression. -/
structure TokenList extends Row where
  text : Text
  offset : Int

/-- Why a token list has no such part. -/
inductive SliceError where
  | startBelowZero
  | endBeyondSize
  | startBeyondEnd
  | pointOutside
  | noSuchToken
  | emptySequence
  deriving Repr, DecidableEq

namespace SliceError

/-- The wording of each error. -/
def message : SliceError → String
  | startBelowZero => "start < 0"
  | endBeyondSize => "end > size"
  | startBeyondEnd => "start > end"
  | pointOutside => "Split points must be between -1 and the token count"
  | noSuchToken => "tuple index out of range"
  | emptySequence => "list index out of range"

end SliceError

/-- Spacings that do not fit the tokens: how many are needed, and how many there are. -/
structure SpacingMismatch where
  required : Nat
  provided : Nat
  deriving Repr, DecidableEq

namespace SpacingMismatch

/-- The wording of the error. -/
def message (e : SpacingMismatch) : String := s!"Token list requires {e.required} spacings, got {e.provided}"

end SpacingMismatch

namespace TokenList

/-- The list over a text with the given tokens and spacings. -/
def ofParts (text : Text) (tokens : List Token) (spacings : List Nat) (offset : Int) :
    Except SpacingMismatch TokenList :=
  match Row.ofParts? tokens spacings with
  | some row => .ok { row with text, offset }
  | none => .error ⟨tokens.length + 1, spacings.length⟩

/-- The list without tokens at a place in the full expression. -/
def empty (offset : Int) : TokenList := { items := [], trailing := 0, text := [], offset }

/-! ### State -/

/-- How many tokens there are. -/
def size (l : TokenList) : Nat := l.items.length

/-- Whether there are no tokens. -/
def isEmpty (l : TokenList) : Bool := l.items.isEmpty

/-- The covered text without the blanks around it. -/
def trimmedText (l : TokenList) : Text := l.text.trim

/-- The number of characters before the spaces that precede the token at an index. -/
def boundary (l : TokenList) (i : Nat) : Nat := Spaced.widthOfFirst i l.items

/-- The number of spaces before the token at an index, or behind the last token. -/
def spacing (l : TokenList) (i : Nat) : Nat := ((l.items[i]?).map Spaced.spaces).getD l.trailing

/-- The index in the full expression of the first character that is no space. -/
def position (l : TokenList) : Int := l.offset + l.spacing 0

/-- The index in the full expression of the token at an index; the size of the list is allowed. -/
def positionAt (l : TokenList) (i : Nat) : Int := l.offset + l.boundary i + l.spacing i

/-- An index into `count` things, where a negative one counts from the end. -/
def resolveIndex (count : Nat) (i : Int) : Option Nat :=
  if 0 ≤ i then (if i < count then some i.toNat else none)
  else if 0 ≤ count + i then some (count + i).toNat
  else none

/-- The position of the token at an index; a negative index counts from the end of the list. -/
def tokenPosition (l : TokenList) (i : Int) : Except SliceError Int :=
  match resolveIndex (l.size + 1) i with
  | some n => .ok (l.positionAt n)
  | none => .error .noSuchToken

/-- The token at an index; a negative index counts from the end of the list. -/
def get (l : TokenList) (i : Int) : Except SliceError Token :=
  match (resolveIndex l.size i).bind fun n => l.tokens[n]? with
  | some t => .ok t
  | none => .error .noSuchToken

/-- The first token. -/
def first? (l : TokenList) : Option Token := l.tokens.head?

/-- The last token. -/
def last? (l : TokenList) : Option Token := l.tokens.getLast?

/-- Whether the first token satisfies a test. -/
def firstIs (p : Token → Bool) (l : TokenList) : Bool := l.first?.any p

/-- Whether the last token satisfies a test. -/
def lastIs (p : Token → Bool) (l : TokenList) : Bool := l.last?.any p

/-- Whether any of the tokens is among the given ones. -/
def containsAnyOf (l : TokenList) (tokens : List Token) : Bool := l.tokens.any tokens.contains

/-! ### Slices -/

/-- The tokens from `start` up to, not including, `stop`, with the spaces on both sides. -/
def slice (l : TokenList) (start stop : Nat) : TokenList :=
  let textStart := l.boundary start
  let textStop := l.boundary stop + l.spacing stop
  { items := (l.items.drop start).take (stop - start)
    trailing := l.spacing stop
    text := (l.text.drop textStart).take (textStop - textStart)
    offset := l.offset + textStart }

/-- The slice between two indices, which have to be in order and inside the list. -/
def subList (l : TokenList) (start stop : Int) : Except SliceError TokenList :=
  if start < 0 then .error .startBelowZero
  else if l.size < stop then .error .endBeyondSize
  else if stop < start then .error .startBeyondEnd
  else .ok (l.slice start.toNat stop.toNat)

/-- The list without its first token. -/
def withoutFirst (l : TokenList) : TokenList := if l.isEmpty then empty l.offset else l.slice 1 l.size

/-- The list without its last token. -/
def withoutLast (l : TokenList) : TokenList := if l.isEmpty then empty l.offset else l.slice 0 (l.size - 1)

/-- The list without its first and last token. -/
def withoutFirstAndLast (l : TokenList) : TokenList := if l.size ≤ 1 then empty l.offset else l.slice 1 (l.size - 1)

end TokenList

end Mixfix
