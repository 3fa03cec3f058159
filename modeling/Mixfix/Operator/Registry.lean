import Mixfix.Operator.Group

/-!
# The registry of operators and tokens

A registry holds one operator for each prefix token, postfix token and sequence of infix tokens, the last one that was
registered (`Registry.add`), and the tokens that texts are split by, in the order of their registration
(`Registry.tokens`). Brackets and the argument separator are always among them and are no operator tokens.

The operators fall into groups of equal priority, in ascending order (`Registry.priorityGroups`). The groups are kept
once they have been asked for (`Registry.groups`) and dropped when an operator is registered.
-/

namespace Mixfix

/-- Registered operators and tokens, and the groups if they are up to date. -/
structure Registry (α : Type) where
  /-- The tokens registered beside the built-in ones, in order. -/
  operatorTokens : List Text := []
  prefixOps : Table Text (Operator α) := {}
  postfixOps : Table Text (Operator α) := {}
  infixOps : Table (List Text) (Operator α) := {}
  cached : Option (List (Group α)) := none

namespace Registry

variable {α : Type}

/-- The registry with nothing but the built-in tokens. -/
def empty : Registry α := {}

/-! ## Tokens -/

/-- Every registered token, in the order of registration. -/
def tokens (r : Registry α) : List Text := Token.builtinTexts ++ r.operatorTokens

/-- Registers a token, unless it is registered already. -/
def addToken (r : Registry α) (t : Text) : Registry α :=
  if r.tokens.contains t then r else { r with operatorTokens := r.operatorTokens ++ [t] }

/-- The tokens of the infix operators. -/
def infixTokens (r : Registry α) : List Text := (r.infixOps.keys.flatten).eraseDups

/-- Whether a token is an operator token. -/
def isOperatorToken (r : Registry α) (t : Token) : Bool := t.isFixed r.operatorTokens.contains

/-- Whether a token is that of a prefix operator. -/
def isPrefixToken (r : Registry α) (t : Token) : Bool := t.isFixed r.prefixOps.contains

/-- Whether a token is that of a postfix operator. -/
def isPostfixToken (r : Registry α) (t : Token) : Bool := t.isFixed r.postfixOps.contains

/-- Whether a token is one of an infix operator. -/
def isInfixToken (r : Registry α) (t : Token) : Bool :=
  t.isFixed fun text => r.infixOps.entries.any fun e => e.1.contains text

/-! ## Operators -/

/-- Puts an operator in place of the one that is filed under its tokens, if there is one. -/
def put (r : Registry α) (o : Operator α) : Registry α :=
  match o.fixity with
  | .prefixed => { r with prefixOps := r.prefixOps.insert o.token o }
  | .postfixed => { r with postfixOps := r.postfixOps.insert o.token o }
  | .infixed _ => { r with infixOps := r.infixOps.insert o.tokens o }
  | .unplaced => r

/-- Files an operator under its tokens, unless it is refused. -/
def file (r : Registry α) (o : Operator α) : Except Refusal (Registry α) :=
  match o.refusal? with
  | some e => .error e
  | none => .ok (r.put o)

/-- Drops the groups, so that they are made anew when they are asked for. -/
def dropGroups (r : Registry α) : Registry α := { r with cached := none }

/-- Whether the groups have to be made anew. -/
def isStale (r : Registry α) : Bool := r.cached.isNone

/-- Registers an operator and its tokens. If it is refused, the groups are dropped all the same. -/
def add (r : Registry α) (o : Operator α) : Except Refusal Unit × Registry α :=
  match r.dropGroups.file o with
  | .ok r' => (.ok (), o.tokens.foldl addToken r')
  | .error e => (.error e, r.dropGroups)

/-- Registers operators one after the other; those that are refused are passed over. -/
def addAll (r : Registry α) (os : List (Operator α)) : Registry α := os.foldl (fun r o => (r.add o).2) r

/-- Every operator: prefix, postfix and infix operators, each in the order of registration. -/
def operators (r : Registry α) : List (Operator α) :=
  r.prefixOps.values ++ r.postfixOps.values ++ r.infixOps.values

/-! ## Groups -/

/-- Adds an operator to the group of its priority, which is made if there is none. No priority that is NaN equals
another one, so each operator with such a priority has a group of its own here; where priorities are looked up as
objects, operators that share one NaN object would share a group. -/
def addToGroups (o : Operator α) : List (Group α) → List (Group α)
  | [] => [(Group.empty o.priority).addPlaced o]
  | g :: gs => if g.priority == o.priority then g.addPlaced o :: gs else g :: addToGroups o gs

/-- The groups of the operators, lowest priority first. NaN is neither below nor above any priority, so where a group
with such a priority comes, and what order the groups around it are in, depends on the sort: other sorts that keep
ascending lists as they are may order them otherwise. -/
def priorityGroups (r : Registry α) : List (Group α) :=
  (r.operators.foldl (fun gs o => addToGroups o gs) []).mergeSort fun a b => !(b.priority < a.priority)

/-- The groups, and the registry that keeps them. -/
def groups (r : Registry α) : List (Group α) × Registry α :=
  match r.cached with
  | some gs => (gs, r)
  | none => (r.priorityGroups, { r with cached := some r.priorityGroups })

end Registry

end Mixfix
