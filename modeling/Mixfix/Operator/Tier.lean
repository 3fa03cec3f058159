import Mixfix.Operator.Group

/-!
# Tiers

A tier keeps the operators of one priority. What a backward scan needs of it, the left-associative operators by their
reversed tokens, is made when it is asked for (`Tier.backward`) and kept until an infix operator is added (`Tier.add`).
With it, the tier is a group (`Tier.group`).
-/

namespace Mixfix

/-- The operators of one priority, as they are kept. -/
structure Tier (α : Type) where
  priority : Float
  prefixOps : Table Text (Operator α) := {}
  postfixOps : Table Text (Operator α) := {}
  left : Trie Text (Operator α) := .empty
  right : Trie Text (Operator α) := .empty
  /-- The left-associative operators by their reversed tokens, if they were asked for since an infix operator was
  added. -/
  kept : Option (Trie Text (Operator α)) := none

namespace Tier

variable {α : Type}

/-- What is asked of a tier. -/
inductive Request (α : Type) where
  | add (o : Operator α)
  /-- The left-associative operators by their reversed tokens. -/
  | backward

/-- The tier without operators. -/
def empty (priority : Float) : Tier α := { priority }

/-- Puts an operator in the place of the one of its fixity and tokens, if there is one. -/
def put (t : Tier α) (o : Operator α) : Tier α :=
  match o.fixity with
  | .prefixed => { t with prefixOps := t.prefixOps.insert o.token o }
  | .postfixed => { t with postfixOps := t.postfixOps.insert o.token o }
  | .infixed .left => { t with left := t.left.insert o.tokens o, kept := none }
  | .infixed .right => { t with right := t.right.insert o.tokens o, kept := none }
  | .unplaced => t

/-- Adds an operator, unless it is refused. -/
def add (t : Tier α) (o : Operator α) : Except Refusal Unit × Tier α :=
  match o.refusal? with
  | some e => (.error e, t)
  | none => (.ok (), t.put o)

/-- The left-associative operators by their reversed tokens, and the tier that keeps them. -/
def backward (t : Tier α) : Trie Text (Operator α) × Tier α :=
  match t.kept with
  | some r => (r, t)
  | none => (t.left.reversed, { t with kept := some t.left.reversed })

/-- The tier as a group. -/
def group (t : Tier α) : Group α :=
  { priority := t.priority, prefixOps := t.prefixOps, postfixOps := t.postfixOps, left := t.left, right := t.right
    leftReversed := t.backward.1 }

/-- The tier after a request. -/
def next (t : Tier α) : Request α → Tier α
  | .add o => (t.add o).2
  | .backward => t.backward.2

/-- The tier of a priority after some requests, from the empty one. -/
def after (priority : Float) (rs : List (Request α)) : Tier α := rs.foldl next (empty priority)

end Tier

end Mixfix
