import Mixfix.Operator.Basic
import Mixfix.Table
import Mixfix.Trie

/-!
# Groups of operators of one priority

A group holds its prefix and postfix operators by token and its infix operators by their tokens in two tries, one for
each associativity. A backward scan meets the tokens of an operator in reverse, so left-associative operators are also
kept by their reversed tokens (`Group.leftReversed`); both tries change together (`Group.add`).
-/

namespace Mixfix

/-- The operators of one priority. -/
structure Group (α : Type) where
  priority : Float
  prefixOps : Table Text (Operator α) := {}
  postfixOps : Table Text (Operator α) := {}
  left : Trie Text (Operator α) := .empty
  leftReversed : Trie Text (Operator α) := .empty
  right : Trie Text (Operator α) := .empty

namespace Group

variable {α : Type}

/-- The group without operators. -/
def empty (priority : Float) : Group α := { priority }

/-- Puts an operator in place of the one of its fixity and tokens, if there is one. -/
def put (g : Group α) (o : Operator α) : Group α :=
  match o.fixity with
  | .prefixed => { g with prefixOps := g.prefixOps.insert o.token o }
  | .postfixed => { g with postfixOps := g.postfixOps.insert o.token o }
  | .infixed .left =>
    { g with left := g.left.insert o.tokens o, leftReversed := g.leftReversed.insert o.tokens.reverse o }
  | .infixed .right => { g with right := g.right.insert o.tokens o }
  | .unplaced => g

/-- Adds an operator, unless it is refused. -/
def add (g : Group α) (o : Operator α) : Except Refusal (Group α) :=
  match o.refusal? with
  | some e => .error e
  | none => .ok (g.put o)

/-- Adds an operator if it is not refused. -/
def addPlaced (g : Group α) (o : Operator α) : Group α :=
  match g.add o with
  | .ok g' => g'
  | .error _ => g

end Group

end Mixfix
