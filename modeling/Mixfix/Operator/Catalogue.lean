import Mixfix.Operator.Registry

/-!
# Catalogues

A catalogue keeps a registry together with tables that say again what the registry says: which tokens are known, which
of them were registered beside the built-in ones, and which are tokens of infix operators. Each operation brings all of
them up to date, so that looking up a token takes no search through the operators.

Sets are lists without repeats, which grow by `Catalogue.including`.
-/

namespace Mixfix

/-- The tables that a registry is kept in. -/
structure Catalogue (α : Type) where
  /-- Every registered token, in the order of registration. -/
  tokens : List Text := Token.builtinTexts
  /-- The set of all registered tokens. -/
  known : List Text := Token.builtinTexts
  /-- The set of the tokens registered beside the built-in ones. -/
  operatorTokens : List Text := []
  /-- The set of the tokens of infix operators. -/
  infixTokens : List Text := []
  prefixOps : Table Text (Operator α) := {}
  postfixOps : Table Text (Operator α) := {}
  infixOps : Table (List Text) (Operator α) := {}
  cached : Option (List (Group α)) := none

/-- What is asked of a catalogue. -/
inductive Request (α : Type) where
  | add (o : Operator α)
  | addToken (t : Text)
  | groups

namespace Catalogue

variable {α : Type}

/-- The catalogue with nothing but the built-in tokens. -/
def empty : Catalogue α := {}

/-- The registry that the catalogue keeps. -/
def registry (c : Catalogue α) : Registry α :=
  { operatorTokens := c.tokens.drop Token.builtinTexts.length, prefixOps := c.prefixOps, postfixOps := c.postfixOps
    infixOps := c.infixOps, cached := c.cached }

/-- The set with one more text. -/
def including (ts : List Text) (t : Text) : List Text := if ts.contains t then ts else ts ++ [t]

/-- Registers a token, unless it is known. -/
def addToken (c : Catalogue α) (t : Text) : Catalogue α :=
  if c.known.contains t then c
  else
    { c with
      known := including c.known t, tokens := c.tokens ++ [t], operatorTokens := including c.operatorTokens t }

/-- Puts an operator in place of the one that is filed under its tokens, if there is one. -/
def put (c : Catalogue α) (o : Operator α) : Catalogue α :=
  match o.fixity with
  | .prefixed => { c with prefixOps := c.prefixOps.insert o.token o }
  | .postfixed => { c with postfixOps := c.postfixOps.insert o.token o }
  | .infixed _ =>
    { c with infixOps := c.infixOps.insert o.tokens o, infixTokens := o.tokens.foldl including c.infixTokens }
  | .unplaced => c

/-- Files an operator under its tokens, unless it is refused. -/
def file (c : Catalogue α) (o : Operator α) : Except Refusal (Catalogue α) :=
  match o.refusal? with
  | some e => .error e
  | none => .ok (c.put o)

/-- Drops the groups, so that they are made anew when they are asked for. -/
def dropGroups (c : Catalogue α) : Catalogue α := { c with cached := none }

/-- Whether the groups have to be made anew. -/
def isStale (c : Catalogue α) : Bool := c.cached.isNone

/-- Registers an operator and its tokens. If it is refused, the groups are dropped all the same. -/
def add (c : Catalogue α) (o : Operator α) : Except Refusal Unit × Catalogue α :=
  match c.dropGroups.file o with
  | .ok c' => (.ok (), o.tokens.foldl addToken c')
  | .error e => (.error e, c.dropGroups)

/-- The groups, and the catalogue that keeps them. -/
def groups (c : Catalogue α) : List (Group α) × Catalogue α :=
  match c.cached with
  | some gs => (gs, c)
  | none => (c.registry.priorityGroups, { c with cached := some c.registry.priorityGroups })

/-- The catalogue after a request. -/
def next (c : Catalogue α) : Request α → Catalogue α
  | .add o => (c.add o).2
  | .addToken t => c.addToken t
  | .groups => c.groups.2

/-- The catalogue after some requests, from an empty one. -/
def after (qs : List (Request α)) : Catalogue α := qs.foldl next empty

end Catalogue

/-- The registry after a request. -/
def Registry.next {α : Type} (r : Registry α) : Request α → Registry α
  | .add o => (r.add o).2
  | .addToken t => r.addToken t
  | .groups => r.groups.2

end Mixfix
