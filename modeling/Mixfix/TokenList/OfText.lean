import Mixfix.Limits
import Mixfix.Number
import Mixfix.Text.Occurrence
import Mixfix.TokenList.Basic

/-!
# Token lists of texts

A text is split by fixed texts, one after the other in the order given, so that an earlier one claims its occurrences
first (`Row.ofText`). Between the fixed tokens stand raw texts without spaces at their ends; those that read as number
literals become number tokens (`Row.readNumbers`).
-/

namespace Mixfix

namespace Row

/-- A piece of text between fixed tokens: a raw token between its spaces, or spaces alone. -/
def ofPiece (t : Text) : Row :=
  let inner := t.trimSpaces
  if inner.isEmpty then ⟨[], t.length⟩ else ⟨[⟨t.leadingSpaces, .raw inner⟩], t.trailingSpaces⟩

/-- Two rows with a token between them. -/
def join (left : Row) (t : Token) (right : Row) : Row :=
  ⟨left.items ++ ⟨left.trailing, t⟩ :: right.items, right.trailing⟩

/-- Pieces of text with a fixed token between them. -/
def ofPieces (splitter : Text) : List Text → Row
  | [] => ⟨[], 0⟩
  | [p] => ofPiece p
  | p :: q :: ps => (ofPiece p).join (.fixed splitter) (ofPieces splitter (q :: ps))

/-- The row of a text split by one fixed text. -/
def splitText (splitter t : Text) : Row := ofPieces splitter (Text.pieces splitter t)

/-- The items with other spaces before the first of them. -/
def withSpaces (n : Nat) : List Spaced → List Spaced
  | [] => []
  | s :: rest => { s with spaces := n } :: rest

/-- An item split by a fixed text if it is raw. Raw text has no spaces at its ends, so that the spaces around the item
stay as they are. -/
def splitItem (splitter : Text) (s : Spaced) : List Spaced :=
  match s.token with
  | .raw t => withSpaces s.spaces (splitText splitter t).items
  | _ => [s]

/-- The row with its raw tokens split by a fixed text. -/
def splitBy (r : Row) (splitter : Text) : Row := { r with items := r.items.flatMap (splitItem splitter) }

/-- The row of a text split by fixed texts, one after the other; empty ones are left out. -/
def ofText (splitters : List Text) (t : Text) : Row :=
  (splitters.filter fun s => !s.isEmpty).foldl splitBy (ofPiece t)

/-- A raw token that reads as a number, as a number. -/
def readToken : Token → Token
  | .raw t =>
    match readNumber? t with
    | some x => .number t x
    | none => .raw t
  | t => t

/-- The row with its raw tokens read as numbers where they are numbers. -/
def readNumbers (r : Row) : Row := { r with items := r.items.map fun s => { s with token := readToken s.token } }

end Row

namespace TokenList

/-- The token list that covers a whole text, split by fixed texts in the order given. -/
def ofText (splitters : List Text) (t : Text) : TokenList :=
  { (Row.ofText splitters t).readNumbers with text := t, offset := 0 }

/-- The token list that covers a whole text, unless the text is too long. -/
def tokenize (splitters : List Text) (limits : Limits) (t : Text) : Except ExprError TokenList := do
  limits.checkLength t
  return ofText splitters t

end TokenList

end Mixfix
