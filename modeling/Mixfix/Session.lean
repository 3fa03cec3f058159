import Mixfix.Builder

/-!
# Sessions

In a session a builder builds expressions, and between builds operators and names are registered on the builder, and
values are replaced in the expressions and the expressions evaluated. The builder and each expression hold tables of
variables and of functions, which are changed in place (`Heap`). An expression gets tables of its own when it is built,
filled with what is in those of the builder (`Session.adopt`).

Each command has a reply and leads to another session (`Session.step`). The commands on an expression give its number:
expressions are counted from zero in the order in which they are built.
-/

namespace Mixfix

/-! ## Heaps -/

/-- Tables by address. -/
structure Heap (α : Type) where
  cells : List (Table Text α) := []

namespace Heap

variable {α : Type} (h : Heap α)

/-- The table at an address. -/
def read (a : Nat) : Table Text α := h.cells.getD a {}

/-- The heap with another table at an address. -/
def write (a : Nat) (t : Table Text α) : Heap α := ⟨h.cells.set a t⟩

/-- The address that the next table gets. -/
def next : Nat := h.cells.length

/-- The heap with one more table. -/
def alloc (t : Table Text α) : Heap α := ⟨h.cells ++ [t]⟩

end Heap

/-- Where the tables of a builder or an expression are. -/
structure Places where
  vars : Nat
  functions : Nat
  deriving Repr, DecidableEq

/-! ## Commands -/

variable {κ : Type}

/-- What is registered on a builder. -/
inductive Registration (κ : Type) where
  | limits (limits : Limits)
  | token (token : Text)
  | var (name : Text) (value : Float)
  | standardVars
  | function (name : Text) (f : Function κ)
  | standardFunctions
  | prefixed (token : Text) (action : κ) (priority : Float)
  | postfixed (token : Text) (action : κ) (priority : Float)
  | infixed (tokens : List Text) (action : κ) (priority : Float) (associativity : Associativity)
  | standardOperators
  | comparisons

/-- The builder after a registration. -/
def Builder.register (b : Builder κ) : Registration κ → Except RegistrationError (Builder κ)
  | .limits limits => .ok (b.withLimits limits)
  | .token token => b.withToken token
  | .var name value => .ok (b.withVariable name value)
  | .standardVars => .ok b.withStandardVariables
  | .function name f => .ok (b.withFunction name f)
  | .standardFunctions => .ok b.withStandardFunctions
  | .prefixed token action priority => b.withPrefix token action priority
  | .postfixed token action priority => b.withPostfix token action priority
  | .infixed tokens action priority associativity => b.withInfix tokens action priority associativity
  | .standardOperators => .ok b.withStandardOperators
  | .comparisons => .ok b.withComparisons

/-- What a session is asked to do. -/
inductive Command (κ : Type) where
  | register (r : Registration κ)
  | build (text : Text)
  /-- What is registered on the builder. -/
  | views
  /-- The groups of the operators of the builder. -/
  | groups
  | evaluate (i : Nat)
  | report (i : Nat)
  | setVariable (i : Nat) (name : Text) (value : Float)
  | redefineFunction (i : Nat) (name : Text) (body : Body κ) (least : Option Int)
  /-- What there is to see of an expression. -/
  | inspect (i : Nat)

/-- Whether a command is for the builder, and not for an expression. -/
def Command.isForBuilder : Command κ → Bool
  | .register _ | .build _ | .views | .groups => true
  | .evaluate _ | .report _ | .setVariable .. | .redefineFunction .. | .inspect _ => false

/-- What a session answers. -/
inductive Reply (κ : Type) where
  | done
  | refused (e : RegistrationError)
  | built (e : Expression κ)
  | failed (e : BuildError)
  | views (tokens : List Text) (vars : Table Text Float) (functions : Table Text (Function κ)) (limits : Limits)
  | groups (groups : List (Group (Action κ)))
  | outcome (outcome : Except Fault Float)
  | report (report : Report)
  | changed (changed : Bool)
  | inspected (e : Expression κ)
  /-- No expression has the number. -/
  | absent

/-! ## Sessions -/

/-- An expression in a session. -/
structure Held (κ : Type) where
  tree : Tree (Action κ)
  source : Text
  places : Places

/-- A builder with the expressions that it has built. -/
structure Session (κ : Type) where
  vars : Heap Float
  functions : Heap (Function κ)
  operators : Registry (Action κ)
  limits : Limits
  places : Places
  expressions : List (Held κ) := []

/-- The operators of the builder after a text was given to it: a parser asks for their groups, if one is made. -/
def Builder.consulted (b : Builder κ) (text : Text) : Registry (Action κ) :=
  match b.tokenize text with
  | .ok tokens =>
    if !text.isAllBlank && (tokens.checkBrackets text).isOk then b.operators.groups.2 else b.operators
  | .error _ => b.operators

namespace Session

/-- The session of a builder that has built nothing yet. -/
def ofBuilder (b : Builder κ) : Session κ :=
  { vars := Heap.alloc {} b.vars
    functions := Heap.alloc {} b.functions
    operators := b.operators
    limits := b.limits
    places := ⟨0, 0⟩ }

/-- The session of a builder without operators, variables and functions. -/
def new (limits : Limits) : Session κ := ofBuilder (.bare limits)

variable (s : Session κ)

/-! ### Reading and writing -/

/-- The builder as it is now. -/
def builder : Builder κ :=
  { operators := s.operators, vars := s.vars.read s.places.vars, functions := s.functions.read s.places.functions,
    limits := s.limits }

/-- An expression as it is now. -/
def load (h : Held κ) : Expression κ :=
  ⟨h.tree, s.vars.read h.places.vars, s.functions.read h.places.functions, h.source⟩

/-- The expression with a number, as it is now. -/
def expression? (i : Nat) : Option (Expression κ) := (s.expressions[i]?).map s.load

/-- The session with other tables at some places. -/
def writeTables (p : Places) (vars : Table Text Float) (functions : Table Text (Function κ)) : Session κ :=
  { s with vars := s.vars.write p.vars vars, functions := s.functions.write p.functions functions }

/-- The session with another state of the builder. -/
def storeBuilder (b : Builder κ) : Session κ :=
  { s.writeTables s.places b.vars b.functions with operators := b.operators, limits := b.limits }

/-- The session with other values in the tables of an expression. -/
def storeExpression (i : Nat) (e : Expression κ) : Session κ :=
  match s.expressions[i]? with
  | some h => s.writeTables h.places e.vars e.functions
  | none => s

/-- An expression with the addresses that the next tables get. -/
def hold (e : Expression κ) : Held κ := ⟨e.tree, e.source, s.vars.next, s.functions.next⟩

/-- The session with one more expression, whose tables are new. -/
def adopt (e : Expression κ) : Session κ :=
  { s with
    vars := s.vars.alloc e.vars
    functions := s.functions.alloc e.functions
    expressions := s.expressions ++ [s.hold e] }

/-! ### Steps -/

variable {m : Type → Type} [Monad m] (callbacks : Callbacks κ m)

/-- What is replied for an expression, and the session afterwards. -/
def onExpression (i : Nat) (f : Expression κ → m (Reply κ) × Session κ) : m (Reply κ) × Session κ :=
  match s.expression? i with
  | some e => f e
  | none => (pure .absent, s)

/-- The session with the changed expression, if it was changed. -/
def change (i : Nat) (changed? : Option (Expression κ)) : m (Reply κ) × Session κ :=
  match changed? with
  | some e => (pure (.changed true), s.storeExpression i e)
  | none => (pure (.changed false), s)

/-- What is replied to a command, and the session afterwards. -/
def step : Command κ → m (Reply κ) × Session κ
  | .register r =>
    match s.builder.register r with
    | .ok b => (pure .done, s.storeBuilder b)
    | .error e => (pure (.refused e), s)
  | .build text =>
    let s' := { s with operators := s.builder.consulted text }
    match s.builder.build text with
    | .ok e => (pure (.built e), s'.adopt e)
    | .error e => (pure (.failed e), s')
  | .views => (pure (.views s.builder.operators.tokens s.builder.vars s.builder.functions s.builder.limits), s)
  | .groups =>
    let (groups, operators) := s.operators.groups
    (pure (.groups groups), { s with operators })
  | .evaluate i => s.onExpression i fun e => (.outcome <$> (e.evaluate callbacks).run, s)
  | .report i => s.onExpression i fun e => (.report <$> e.report callbacks, s)
  | .setVariable i name value => s.onExpression i fun e => s.change i (e.setVariable? name value)
  | .redefineFunction i name body least => s.onExpression i fun e => s.change i (e.redefineFunction? name body least)
  | .inspect i => s.onExpression i fun e => (pure (.inspected e), s)

/-- The session after commands. -/
def after (cs : List (Command κ)) : Session κ := cs.foldl (fun s c => (s.step callbacks c).2) s

end Session

end Mixfix
