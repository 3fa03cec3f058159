import Mixfix.Evaluate

/-!
# Watched evaluations

An evaluation is watched by giving it other callbacks: every action and body is handed to the caller, who runs it and
keeps a log of what was invoked, on which operands, and with which outcome (`logging`). Beside its outcome the watched
evaluation ends with this log (`Environment.watch`). Watching changes nothing: without the log it is the evaluation
itself (`Environment.fst_watch`), and the watched report is the report of the watched outcome, with the same log
(`Environment.watchReport_eq`).

What holds of all outcomes of a computation, whatever the monad, is said by `Ensures`.
-/

namespace Mixfix

section Monads

variable {m : Type → Type} [Monad m] {α β σ : Type}

/-! ## What holds of all outcomes -/

/-- Every outcome of the computation has the property: its outcomes can be given together with a proof of it. -/
def Ensures (P : α → Prop) (x : m α) : Prop := ∃ y : m {a // P a}, Subtype.val <$> y = x

/-- From whatever state the first computation starts, it is the second one apart from the state it ends in. -/
def Forgets (x : StateT σ m α) (y : m α) : Prop := ∀ s, Prod.fst <$> x.run s = y

variable [LawfulMonad m] {P : α → Prop} {Q : β → Prop}

namespace Ensures

theorem pure {a : α} (h : P a) : Ensures P (Pure.pure a : m α) := ⟨Pure.pure ⟨a, h⟩, map_pure _ _⟩

theorem of_forall (h : ∀ a, P a) (x : m α) : Ensures P x :=
  ⟨(fun a => ⟨a, h a⟩) <$> x, by rw [← comp_map]; exact id_map x⟩

theorem map {x : m α} {f : α → β} (h : Ensures P x) (hf : ∀ a, P a → Q (f a)) : Ensures Q (f <$> x) := by
  obtain ⟨y, rfl⟩ := h
  exact ⟨(fun a => ⟨f a.1, hf a.1 a.2⟩) <$> y, by rw [← comp_map, ← comp_map]; rfl⟩

theorem bind {x : m α} {f : α → m β} (h : Ensures P x) (hf : ∀ a, P a → Ensures Q (f a)) : Ensures Q (x >>= f) := by
  obtain ⟨y, rfl⟩ := h
  -- the proof that comes with an outcome of the first computation picks a second one with proofs
  have hf' (a : {a // P a}) := hf a.1 a.2
  refine ⟨y >>= fun a => (hf' a).choose, ?_⟩
  rw [map_bind, bind_map_left]
  exact bind_congr fun a => (hf' a).choose_spec

theorem mono {Q : α → Prop} {x : m α} (h : Ensures P x) (hPQ : ∀ a, P a → Q a) : Ensures Q x := by
  rw [← id_map x]
  exact h.map hPQ

/-- Where a computation is its outcome, the outcome has the property. -/
theorem holds {x : Id α} (h : Ensures P x) : P x.run := by
  obtain ⟨y, rfl⟩ := h
  exact y.run.2

end Ensures

namespace Forgets

theorem pure (a : α) : Forgets (Pure.pure a : StateT σ m α) (Pure.pure a) := fun s => by
  rw [StateT.run_pure, map_pure]

theorem bind {x : StateT σ m α} {y : m α} {f : α → StateT σ m β} {g : α → m β} (h : Forgets x y)
    (hf : ∀ a, Forgets (f a) (g a)) : Forgets (x >>= f) (y >>= g) := by
  intro s
  rw [StateT.run_bind, map_bind, ← h s, bind_map_left]
  exact bind_congr fun p => hf p.1 p.2

theorem map {x : StateT σ m α} {y : m α} (h : Forgets x y) (f : α → β) : Forgets (f <$> x) (f <$> y) := by
  rw [map_eq_pure_bind, map_eq_pure_bind]
  exact h.bind fun a => pure (f a)

end Forgets

end Monads

/-! ## Logs -/

/-- What an evaluation invokes: the action of an operator, or the body of a function. -/
inductive Invoked (κ : Type) where
  | action (a : Action κ)
  | body (b : Body κ)

/-- That something was invoked on operands, with an outcome. -/
structure Invocation (κ : Type) where
  subject : Invoked κ
  args : List Float
  outcome : Except Fault Float

variable {κ : Type} {m : Type → Type} [Monad m]

/-- Runs an action or a body. -/
def Invoked.run (callbacks : Callbacks κ m) : Invoked κ → List Float → m (Except Fault Float)
  | action a => a.run callbacks
  | body b => b.run callbacks

/-- Callbacks that run what they are handed and log it with its outcome. -/
def logging (callbacks : Callbacks κ m) : Callbacks (Invoked κ) (StateT (List (Invocation κ)) m) := fun k args => do
  let outcome ← StateT.lift (k.run callbacks args)
  modify (· ++ [⟨k, args, outcome⟩])
  return outcome

/-! ## Handing over what is invoked -/

/-- The function with its body handed to the caller. -/
def Function.watched (f : Function κ) : Function (Invoked κ) := ⟨f.guard, f.passes, .custom (.body f.body)⟩

/-- The operator with its action handed to the caller. -/
def Operator.watched (o : Operator (Action κ)) : Operator (Action (Invoked κ)) :=
  ⟨o.fixity, o.tokens, o.priority, .custom (.action o.action)⟩

namespace Tree

mutual

/-- The tree with its actions handed to the caller. -/
def watched : Tree (Action κ) → Tree (Action (Invoked κ))
  | number position value => number position value
  | reference position name => reference position name
  | call position name args => call position name (watchedAll args)
  | operation position operator operands => operation position operator.watched (watchedAll operands)
  | unknown position kind => unknown position kind

/-- The trees of a list with their actions handed to the caller. -/
def watchedAll : List (Tree (Action κ)) → List (Tree (Action (Invoked κ)))
  | [] => []
  | t :: ts => watched t :: watchedAll ts

end

end Tree

/-- The table with a function of each of its values. -/
def Table.mapValues {ι α β : Type} (f : α → β) (t : Table ι α) : Table ι β := ⟨t.entries.map fun e => (e.1, f e.2)⟩

theorem Table.get?_mapValues {ι α β : Type} [BEq ι] (f : α → β) (t : Table ι α) (k : ι) :
    (t.mapValues f).get? k = (t.get? k).map f := by
  obtain ⟨es⟩ := t
  change (es.map fun e => (e.1, f e.2)).lookup k = (es.lookup k).map f
  induction es with
  | nil => rfl
  | cons e es ih =>
    rw [List.map_cons, List.lookup_cons, List.lookup_cons, ih]
    split <;> rfl

namespace Environment

/-- The environment with the bodies of its functions handed to the caller. -/
def watched (env : Environment κ) : Environment (Invoked κ) :=
  ⟨env.vars, env.functions.mapValues Function.watched, env.source⟩

variable (callbacks : Callbacks κ m) (env : Environment κ)

/-- Evaluates a tree, and tells what was invoked beside the outcome. -/
def watch (t : Tree (Action κ)) : m (Except Fault Float × List (Invocation κ)) :=
  (env.watched.evaluate (logging callbacks) t.watched).run.run []

/-- Reports the outcome of a tree, and tells what was invoked beside it. -/
def watchReport (t : Tree (Action κ)) : m (Report × List (Invocation κ)) :=
  (env.watched.report (logging callbacks) t.watched).run []

/-! ## Evaluation, one node at a time -/

theorem run_evaluate_reference (position : Int) (name : Text) :
    (env.evaluate callbacks (.reference position name)).run = pure (match env.vars.get? name with
      | some value => .ok value
      | none => .error (.error ⟨.missingVariable name, some position, env.source⟩)) := by
  rw [evaluate]
  cases env.vars.get? name <;> rfl

/-- An operation evaluates its operands and applies its action. -/
theorem run_evaluate_operation (position : Int) (operator : Operator (Action κ)) (operands : List (Tree (Action κ))) :
    (env.evaluate callbacks (.operation position operator operands)).run =
      (env.evaluateAll callbacks operands).run >>= fun outcome =>
        match outcome with
        | .ok values => operator.action.run callbacks values
        | .error fault => pure (.error fault) := by
  rw [evaluate, ExceptT.run_bind]
  refine bind_congr fun outcome => ?_
  cases outcome <;> rfl

variable [LawfulMonad m]

/-- A call evaluates its arguments, calls the function, and gives an error of it the position of the call. -/
theorem run_evaluate_call (position : Int) (name : Text) (args : List (Tree (Action κ))) :
    (env.evaluate callbacks (.call position name args)).run = (env.evaluateAll callbacks args).run >>= fun outcome =>
      match outcome with
      | .ok values => (Except.mapError (Fault.locate position env.source)) <$> env.callFunction callbacks name values
      | .error fault => pure (.error fault) := by
  rw [evaluate, ExceptT.run_bind]
  refine bind_congr fun outcome => ?_
  cases outcome with
  | error fault => rfl
  | ok values =>
    dsimp only
    rw [ExceptT.run_bind, ExceptT.run_lift, bind_map_left, map_eq_pure_bind]
    refine bind_congr fun outcome => ?_
    cases outcome <;> rfl

/-- The first tree of a list is evaluated before the others. -/
theorem run_evaluateAll_cons (t : Tree (Action κ)) (ts : List (Tree (Action κ))) :
    (env.evaluateAll callbacks (t :: ts)).run = (env.evaluate callbacks t).run >>= fun outcome =>
      match outcome with
      | .ok value => (Except.map (value :: ·)) <$> (env.evaluateAll callbacks ts).run
      | .error fault => pure (.error fault) := by
  rw [evaluateAll, ExceptT.run_bind]
  refine bind_congr fun outcome => ?_
  cases outcome with
  | error fault => rfl
  | ok value =>
    dsimp only
    rw [ExceptT.run_bind, map_eq_pure_bind]
    refine bind_congr fun outcome => ?_
    cases outcome <;> rfl

/-! ## Watching changes nothing -/

theorem run_logging (k : Invoked κ) (args : List Float) (log : List (Invocation κ)) :
    (logging callbacks k args).run log =
      (fun outcome => (outcome, log ++ [⟨k, args, outcome⟩])) <$> k.run callbacks args := by
  simp [logging]

theorem forgets_logging (k : Invoked κ) (args : List Float) :
    Forgets (logging callbacks k args) (k.run callbacks args) := fun log => by
  rw [run_logging, ← comp_map]
  exact id_map _

theorem forgets_callFunction (name : Text) (args : List Float) :
    Forgets (env.watched.callFunction (logging callbacks) name args) (env.callFunction callbacks name args) := by
  rw [callFunction, callFunction, watched, Table.get?_mapValues]
  cases env.functions.get? name with
  | none => exact .pure _
  | some f =>
    change Forgets (f.watched.call (logging callbacks) args) (f.call callbacks args)
    rw [Function.call, Function.call, show f.watched.shortage? = f.shortage? from rfl]
    cases f.shortage? args.length with
    | some e => exact .pure _
    | none => exact forgets_logging callbacks (.body f.body) (f.accepted args)

mutual

theorem forgets_evaluate (t : Tree (Action κ)) :
    Forgets (env.watched.evaluate (logging callbacks) t.watched).run (env.evaluate callbacks t).run := by
  cases t with
  | number position value | unknown position kind => exact .pure _
  | reference position name =>
    rw [Tree.watched, run_evaluate_reference, run_evaluate_reference]
    exact .pure _
  | call position name args =>
    rw [Tree.watched, run_evaluate_call, run_evaluate_call]
    refine (forgets_evaluateAll args).bind fun outcome => ?_
    cases outcome with
    | error fault => exact .pure _
    | ok values => exact (env.forgets_callFunction callbacks name values).map _
  | operation position operator operands =>
    rw [Tree.watched, run_evaluate_operation, run_evaluate_operation]
    refine (forgets_evaluateAll operands).bind fun outcome => ?_
    cases outcome with
    | error fault => exact .pure _
    | ok values => exact forgets_logging callbacks (.action operator.action) values

theorem forgets_evaluateAll (ts : List (Tree (Action κ))) :
    Forgets (env.watched.evaluateAll (logging callbacks) (Tree.watchedAll ts)).run
      (env.evaluateAll callbacks ts).run := by
  cases ts with
  | nil => exact .pure _
  | cons t ts =>
    rw [Tree.watchedAll, run_evaluateAll_cons, run_evaluateAll_cons]
    refine (forgets_evaluate t).bind fun outcome => ?_
    cases outcome with
    | error fault => exact .pure _
    | ok value => exact (forgets_evaluateAll ts).map _

end

/-- Without its log, a watched evaluation is the evaluation. -/
theorem fst_watch (t : Tree (Action κ)) : Prod.fst <$> env.watch callbacks t = (env.evaluate callbacks t).run :=
  env.forgets_evaluate callbacks t []

/-- A watched report is the report of the watched outcome, with its log. -/
theorem watchReport_eq (t : Tree (Action κ)) :
    env.watchReport callbacks t = Prod.map Report.ofOutcome id <$> env.watch callbacks t := by
  rw [watchReport, report, StateT.run_map]
  rfl

/-- Without its log, a watched report is the report. -/
theorem fst_watchReport (t : Tree (Action κ)) : Prod.fst <$> env.watchReport callbacks t = env.report callbacks t := by
  rw [watchReport_eq, report, ← fst_watch, ← comp_map, ← comp_map]
  rfl

end Environment

end Mixfix
