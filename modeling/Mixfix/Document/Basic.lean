import Mixfix.Text.Digit

/-!
# Documents

The values that configuration documents hold. Whole numbers and doubles are told apart, keys of mappings may be any
value, and of equal keys the last one counts (`Document.bind`).
-/

namespace Mixfix

/-- The value of a document. -/
inductive Document where
  | null
  | bool (value : Bool)
  | int (value : Int)
  | float (value : Float)
  | text (value : Text)
  | list (items : List Document)
  | mapping (entries : List (Document × Document))
  /-- A value of any other kind, such as a date, or a text with half of a surrogate pair. -/
  | other
  deriving Inhabited

namespace Document

/-- The text of characters, where none stands for half of a surrogate pair, which no text holds. -/
def ofChars (cs : List (Option Char)) : Document :=
  match cs.mapM id with
  | some t => text t
  | none => other

/-- The longest decimal whole number that is read. -/
def maxIntDigits : Nat := 4300

/-- Whether two keys of a mapping are one. Numbers and truth values compare by value; lists and mappings are no keys. -/
def sameKey : Document → Document → Bool
  | null, null => true
  | text a, text b => a == b
  | bool a, bool b => a == b
  | int a, int b => a == b
  | float a, float b => a == b
  | bool a, int b => (if a then 1 else 0) == b
  | int a, bool b => a == (if b then 1 else 0)
  | float a, int b => a == Float.ofInt b
  | int a, float b => Float.ofInt a == b
  | float a, bool b => a == (if b then 1.0 else 0.0)
  | bool a, float b => (if a then 1.0 else 0.0) == b
  | _, _ => false

/-- Whether a value can be a key of a mapping. -/
def isKey : Document → Bool
  | list _ => false
  | mapping _ => false
  | _ => true

/-- The entries of a mapping with a key bound to a value: where it stands if it is bound already, or else last. -/
def bind (key value : Document) : List (Document × Document) → List (Document × Document)
  | [] => [(key, value)]
  | (k, v) :: rest => if sameKey key k then (k, value) :: rest else (k, v) :: bind key value rest

/-- The value of a key that is a text. -/
def field? (name : Text) : List (Document × Document) → Option Document
  | [] => none
  | (.text k, v) :: rest => if k == name then some v else field? name rest
  | _ :: rest => field? name rest

end Document

end Mixfix
