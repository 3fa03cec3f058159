import Mixfix.Operator.Registry
import Mixfix.Proofs.Sections
import Mixfix.Tree

/-!
# Derivations

A derivation says which tokens of a token list the nodes of a tree stand for, when infix operators have one token each:
it is the tree with indices of tokens and with the brackets that the tree leaves out (`Derivation.tree`), and
`Derives` says that the tokens are there.
-/

namespace Mixfix

/-- How a section of a token list is read: the index of its first token, and of the tokens of its operators. -/
inductive Derivation (α : Type) where
  | number (start : Nat) (value : Float)
  | reference (start : Nat) (name : Text)
  | brackets (inner : Derivation α)
  | call (start : Nat) (name : Text) (args : List (Derivation α))
  | prefixed (point : Nat) (operator : Operator α) (operand : Derivation α)
  | postfixed (point : Nat) (operator : Operator α) (operand : Derivation α)
  /-- The section from `start` up to, not including, `stop`. -/
  | infixed (start stop point : Nat) (operator : Operator α) (left right : Derivation α)

namespace Derivation

variable {α : Type}

mutual

/-- The derivation and those below it. -/
def subs : Derivation α → List (Derivation α)
  | .number start value => [.number start value]
  | .reference start name => [.reference start name]
  | .brackets inner => .brackets inner :: inner.subs
  | .call start name args => .call start name args :: subsAll args
  | .prefixed point o operand => .prefixed point o operand :: operand.subs
  | .postfixed point o operand => .postfixed point o operand :: operand.subs
  | .infixed start stop point o left right => .infixed start stop point o left right :: (left.subs ++ right.subs)

/-- The derivations of a list and those below them. -/
def subsAll : List (Derivation α) → List (Derivation α)
  | [] => []
  | d :: ds => d.subs ++ subsAll ds

end

mutual

/-- The tree of a derivation from a token list. -/
def tree (full : TokenList) : Derivation α → Tree α
  | .number start value => .number (full.positionAt start) value
  | .reference start name => .reference (full.positionAt start) name
  | .brackets inner => inner.tree full
  | .call start name args => .call (full.positionAt start) name (trees full args)
  | .prefixed point o operand => .operation (full.positionAt point) o [operand.tree full]
  | .postfixed point o operand => .operation (full.positionAt point) o [operand.tree full]
  | .infixed _ _ point o left right => .operation (full.positionAt point) o [left.tree full, right.tree full]

/-- The trees of derivations from a token list. -/
def trees (full : TokenList) : List (Derivation α) → List (Tree α)
  | [] => []
  | d :: ds => d.tree full :: trees full ds

end

/-- The index of the token of an infix operator, and the operator. -/
def infix? : Derivation α → Option (Nat × Operator α)
  | .infixed _ _ point o _ _ => some (point, o)
  | _ => none

end Derivation

variable {α : Type}

mutual

/-- The tokens from one index up to, not including, another have a derivation. -/
inductive Derives (full : TokenList) (r : Registry α) : Nat → Nat → Derivation α → Prop
  | number {start stop : Nat} {value : Float} : start ≤ stop → Derives full r start stop (.number start value)
  | reference {start stop : Nat} {name : Text} : start ≤ stop → Derives full r start stop (.reference start name)
  | brackets {start stop : Nat} {d : Derivation α} : full.tokens[start]? = some (.fixed Token.openText) →
      Derives full r (start + 1) stop d → full.tokens[stop]? = some (.fixed Token.closeText) →
      Derives full r start (stop + 1) (.brackets d)
  | call {start opening stop : Nat} {name : Text} {ds : List (Derivation α)} : start < opening →
      full.tokens[opening]? = some (.fixed Token.openText) → DerivesAll full r (opening + 1) stop ds →
      full.tokens[stop]? = some (.fixed Token.closeText) → Derives full r start (stop + 1) (.call start name ds)
  | prefixed {start stop : Nat} {t : Text} {o : Operator α} {d : Derivation α} : full.tokens[start]? = some (.fixed t) →
      r.prefixOps.get? t = some o → Derives full r (start + 1) stop d → Derives full r start stop (.prefixed start o d)
  | postfixed {start stop : Nat} {t : Text} {o : Operator α} {d : Derivation α} : Derives full r start stop d →
      full.tokens[stop]? = some (.fixed t) → r.postfixOps.get? t = some o →
      Derives full r start (stop + 1) (.postfixed stop o d)
  | infixed {start stop point : Nat} {t : Text} {o : Operator α} {d d' : Derivation α} : Derives full r start point d →
      full.tokens[point]? = some (.fixed t) → r.infixOps.get? [t] = some o → Derives full r (point + 1) stop d' →
      Derives full r start stop (.infixed start stop point o d d')

/-- The tokens from one index up to, not including, another are derivations with separators between them. -/
inductive DerivesAll (full : TokenList) (r : Registry α) : Nat → Nat → List (Derivation α) → Prop
  | nil {start : Nat} : DerivesAll full r start start []
  | single {start stop : Nat} {d : Derivation α} : Derives full r start stop d → DerivesAll full r start stop [d]
  | cons {start point stop : Nat} {d : Derivation α} {ds : List (Derivation α)} : Derives full r start point d →
      full.tokens[point]? = some (.fixed Token.separatorText) → DerivesAll full r (point + 1) stop ds → ds ≠ [] →
      DerivesAll full r start stop (d :: ds)

end

end Mixfix
