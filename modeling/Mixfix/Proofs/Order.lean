import Mixfix.Proofs.Watched

/-!
# The order of evaluation

An evaluation goes through the nodes of its tree from left to right, every node after those below it
(`Tree.postorder`). What it does at each of them is said by `Traced`: it passes nodes that invoke nothing, invokes the
subjects of the others, and stops where a node fails. A watched evaluation is such a walk (`ensures_watch`).

So what is invoked are the subjects of the first calls and operations of this order, one after the other; of all of
them if there is a value, and of none after a node that fails (`evaluate_order`). Reports follow the same order.
-/

namespace Mixfix

/-! ## The order of nodes -/

namespace Tree

variable {α : Type}

mutual

/-- The nodes from left to right, every node after those below it. -/
def postorder : Tree α → List (Tree α)
  | t@(call _ _ args) => postorderAll args ++ [t]
  | t@(operation _ _ operands) => postorderAll operands ++ [t]
  | t => [t]

/-- The nodes of the trees of a list, one tree after the other. -/
def postorderAll : List (Tree α) → List (Tree α)
  | [] => []
  | t :: ts => postorder t ++ postorderAll ts

end

mutual

/-- The order has as many nodes as the tree. -/
theorem length_postorder (t : Tree α) : t.postorder.length = t.nodeCount := by
  cases t with
  | number | reference | unknown => rfl
  | call p name args =>
    rw [postorder, List.length_append, length_postorderAll args, List.length_singleton, nodeCount, Nat.add_comm]
  | operation p o operands =>
    rw [postorder, List.length_append, length_postorderAll operands, List.length_singleton, nodeCount, Nat.add_comm]

theorem length_postorderAll (ts : List (Tree α)) : (postorderAll ts).length = nodeCountAll ts := by
  cases ts with
  | nil => rfl
  | cons t ts => rw [postorderAll, List.length_append, length_postorder t, length_postorderAll ts, nodeCountAll]

end

/-- Whether the node invokes something: calls and operations do. -/
def isApplication : Tree α → Bool
  | call _ _ _ | operation _ _ _ => true
  | number _ _ | reference _ _ | unknown _ _ => false

end Tree

/-! ## What a node does -/

namespace Environment

variable {κ : Type} (env : Environment κ)

/-- What a node invokes: a call the body of its function, if there is one, and an operation its action. -/
def subject? : Tree (Action κ) → Option (Invoked κ)
  | .call _ name _ => (env.functions.get? name).map fun f => .body f.body
  | .operation _ operator _ => some (.action operator.action)
  | .number _ _ | .reference _ _ | .unknown _ _ => none

/-- The fault of a node that fails without invoking anything: a missing variable, a missing function, too few arguments,
or a kind of node that has no meaning. -/
def refusal? : Tree (Action κ) → Option Fault
  | .number _ _ | .operation _ _ _ => none
  | .reference position name =>
    match env.vars.get? name with
    | some _ => none
    | none => some (.error ⟨.missingVariable name, some position, env.source⟩)
  | .call position name args =>
    match env.functions.get? name with
    | some f => (f.shortage? args.length).map fun e => .error (e.locate position env.source)
    | none => some (.error ⟨.missingFunction name, some position, env.source⟩)
  | .unknown position kind =>
    some (.error ⟨.general ("Unknown AST node type: " ++ kind.toString), some position, env.source⟩)

/-- What a node makes of a fault of what it invokes: a call gives it its position. -/
def attributed : Tree (Action κ) → Fault → Fault
  | .call position _ _, fault => fault.locate position env.source
  | _, fault => fault

/-- What the calls and operations among some nodes invoke. -/
def subjects (nodes : List (Tree (Action κ))) : List (Option (Invoked κ)) :=
  (nodes.filter Tree.isApplication).map env.subject?

/-- A node fails with a fault: it refuses and invokes nothing, or what it invokes fails, and this is the invocation. -/
inductive FailsWith : Tree (Action κ) → Option (Invocation κ) → Fault → Prop
  | refused {node : Tree (Action κ)} {fault : Fault} (h : env.refusal? node = some fault) : FailsWith node none fault
  | raised {node : Tree (Action κ)} {k : Invoked κ} {args : List Float} {fault : Fault}
      (hk : env.subject? node = some k) (h : env.refusal? node = none) :
      FailsWith node (some ⟨k, args, .error fault⟩) (env.attributed node fault)

/-- A walk over nodes, with the log of what it invokes and the fault that it stops with, if any. -/
inductive Traced : List (Tree (Action κ)) → List (Invocation κ) → Option Fault → Prop
  | done : Traced [] [] none
  | silent {node : Tree (Action κ)} {nodes : List (Tree (Action κ))} {log : List (Invocation κ)} {fault : Option Fault}
      (hnode : node.isApplication = false) (h : env.refusal? node = none) (rest : Traced nodes log fault) :
      Traced (node :: nodes) log fault
  | invoked {node : Tree (Action κ)} {nodes : List (Tree (Action κ))} {log : List (Invocation κ)} {fault : Option Fault}
      {k : Invoked κ} {args : List Float} {value : Float} (hk : env.subject? node = some k)
      (h : env.refusal? node = none) (rest : Traced nodes log fault) :
      Traced (node :: nodes) (⟨k, args, .ok value⟩ :: log) fault
  | failed {node : Tree (Action κ)} {nodes : List (Tree (Action κ))} {last : Option (Invocation κ)} {fault : Fault}
      (h : env.FailsWith node last fault) : Traced (node :: nodes) last.toList (some fault)

/-- All of some nodes are passed: none of them refuses, and what they invoke, each once and in order, gives values. -/
structure Passed (nodes : List (Tree (Action κ))) (log : List (Invocation κ)) : Prop where
  accepts : ∀ node ∈ nodes, env.refusal? node = none
  subjects : log.map (fun i => some i.subject) = env.subjects nodes
  values : ∀ i ∈ log, ∃ value, i.outcome = .ok value

variable {env} {node : Tree (Action κ)} {nodes nodes' : List (Tree (Action κ))} {log log' : List (Invocation κ)}
  {fault : Option Fault} {f : Fault}

/-! ## Walks -/

namespace Traced

/-- After a walk that did not stop the next nodes are walked. -/
theorem append (h : env.Traced nodes log none) (h' : env.Traced nodes' log' fault) :
    env.Traced (nodes ++ nodes') (log ++ log') fault := by
  -- the induction is on the first walk, whose end has to be a variable for it
  generalize hnone : (none : Option Fault) = stop at h
  induction h with
  | done => exact h'
  | silent hnode hr _ ih => exact .silent hnode hr (ih hnone)
  | invoked hk hr _ ih => exact .invoked hk hr (ih hnone)
  | failed => cases hnone

/-- A walk that stopped stays where it is, whatever nodes come next. -/
theorem stop (h : env.Traced nodes log (some f)) (nodes' : List (Tree (Action κ))) :
    env.Traced (nodes ++ nodes') log (some f) := by
  generalize hsome : some f = stop at h
  induction h with
  | done => cases hsome
  | silent hnode hr _ ih => exact .silent hnode hr (ih hsome)
  | invoked hk hr _ ih => exact .invoked hk hr (ih hsome)
  | failed hfails =>
    cases hsome
    exact .failed hfails

end Traced

theorem isApplication_of_subject? {k : Invoked κ} (h : env.subject? node = some k) : node.isApplication = true := by
  cases node with
  | call | operation => rfl
  | number | reference | unknown => cases h

theorem subjects_cons_of_subject? {k : Invoked κ} (h : env.subject? node = some k) :
    env.subjects (node :: nodes) = some k :: env.subjects nodes := by
  rw [subjects, List.filter_cons_of_pos (isApplication_of_subject? h), List.map_cons, h, subjects]

theorem subjects_cons_of_silent (h : node.isApplication = false) :
    env.subjects (node :: nodes) = env.subjects nodes := by
  rw [subjects, List.filter_cons_of_neg (by rw [h]; exact Bool.false_ne_true), subjects]

theorem subjects_append : env.subjects (nodes ++ nodes') = env.subjects nodes ++ env.subjects nodes' := by
  rw [subjects, List.filter_append, List.map_append, subjects, subjects]

namespace Passed

theorem nil : env.Passed [] [] := ⟨by simp, rfl, by simp⟩

theorem silent (hnode : node.isApplication = false) (h : env.refusal? node = none) (rest : env.Passed nodes log) :
    env.Passed (node :: nodes) log :=
  ⟨List.forall_mem_cons.2 ⟨h, rest.accepts⟩, by rw [subjects_cons_of_silent hnode, rest.subjects], rest.values⟩

theorem invoked {k : Invoked κ} {args : List Float} {value : Float} (hk : env.subject? node = some k)
    (h : env.refusal? node = none) (rest : env.Passed nodes log) :
    env.Passed (node :: nodes) (⟨k, args, .ok value⟩ :: log) :=
  ⟨List.forall_mem_cons.2 ⟨h, rest.accepts⟩,
    by rw [subjects_cons_of_subject? hk, List.map_cons, rest.subjects],
    List.forall_mem_cons.2 ⟨⟨value, rfl⟩, rest.values⟩⟩

end Passed

/-- A walk that did not stop has passed all of its nodes. -/
theorem Traced.passed (h : env.Traced nodes log none) : env.Passed nodes log := by
  generalize hnone : (none : Option Fault) = stop at h
  induction h with
  | done => exact .nil
  | silent hnode hr _ ih => exact (ih hnone).silent hnode hr
  | invoked hk hr _ ih => exact (ih hnone).invoked hk hr
  | failed => cases hnone

/-- A walk that stopped has passed the nodes before one that fails, and has not come to those after it. -/
theorem Traced.exists_failsWith (h : env.Traced nodes log (some f)) : ∃ before node after init last,
    nodes = before ++ node :: after ∧ log = init ++ last.toList ∧ env.Passed before init ∧
      env.FailsWith node last f := by
  generalize hsome : some f = stop at h
  induction h with
  | done => cases hsome
  | silent hnode hr _ ih =>
    obtain ⟨before, node', after, init, last, rfl, rfl, hpassed, hfails⟩ := ih hsome
    exact ⟨_ :: before, node', after, init, last, rfl, rfl, hpassed.silent hnode hr, hfails⟩
  | invoked hk hr _ ih =>
    obtain ⟨before, node', after, init, last, rfl, rfl, hpassed, hfails⟩ := ih hsome
    exact ⟨_ :: before, node', after, _ :: init, last, rfl, rfl, hpassed.invoked hk hr, hfails⟩
  | @failed node nodes last _ hfails =>
    cases hsome
    exact ⟨[], node, nodes, [], last, rfl, rfl, .nil, hfails⟩

/-- Whatever a walk comes to, it has invoked the subjects of the first calls and operations. -/
theorem Traced.prefix_subjects (h : env.Traced nodes log fault) :
    log.map (fun i => some i.subject) <+: env.subjects nodes := by
  cases fault with
  | none => exact h.passed.subjects ▸ List.prefix_rfl
  | some f =>
    obtain ⟨before, node, after, init, last, rfl, rfl, hpassed, hfails⟩ := h.exists_failsWith
    rw [List.map_append, hpassed.subjects, subjects_append]
    refine List.prefix_append_right_inj _ |>.2 ?_
    cases hfails with
    | refused => exact List.nil_prefix
    | raised hk =>
      rw [subjects_cons_of_subject? hk]
      exact ⟨_, rfl⟩

/-! ## Evaluations are walks -/

/-- The fault of an outcome. -/
def faultOf {α : Type} : Except Fault α → Option Fault
  | .ok _ => none
  | .error f => some f

/-- From a log on, nodes are walked: the log grows by what is invoked, and the outcome is the fault that stops it. -/
def Walks {α : Type} (env : Environment κ) (nodes : List (Tree (Action κ))) (log : List (Invocation κ))
    (w : Except Fault α × List (Invocation κ)) : Prop :=
  ∃ log', w.2 = log ++ log' ∧ env.Traced nodes log' (faultOf w.1)

theorem Traced.walks {α : Type} {outcome : Except Fault α} (h : env.Traced nodes log' (faultOf outcome)) :
    env.Walks nodes log (outcome, log ++ log') := ⟨log', rfl, h⟩

theorem Traced.walks_nil {α : Type} {outcome : Except Fault α} (h : env.Traced nodes [] (faultOf outcome)) :
    env.Walks nodes log (outcome, log) := ⟨[], (List.append_nil log).symm, h⟩

/-- After a walk that did not stop comes another one. -/
theorem Walks.after {α : Type} {w : Except Fault α × List (Invocation κ)} (hw : env.Walks nodes' (log ++ log') w)
    (h : env.Traced nodes log' none) : env.Walks (nodes ++ nodes') log w := by
  obtain ⟨log'', hlog, htraced⟩ := hw
  exact ⟨log' ++ log'', by rw [hlog, List.append_assoc], h.append htraced⟩

/-- A node that does not refuse invokes its subject, and its outcome is that of the subject. -/
theorem traced_invocation {k : Invoked κ} (hk : env.subject? node = some k) (h : env.refusal? node = none)
    (args : List Float) (outcome : Except Fault Float) :
    env.Traced [node] [⟨k, args, outcome⟩] (faultOf (outcome.mapError (env.attributed node))) := by
  cases outcome with
  | error f => exact .failed (.raised hk h)
  | ok value => exact .invoked hk h .done

/-- An operation leaves a fault of its action as it is. -/
theorem mapError_attributed_operation (position : Int) (operator : Operator (Action κ))
    (operands : List (Tree (Action κ))) :
    Except.mapError (env.attributed (.operation position operator operands)) = (id : Except Fault Float → _) := by
  funext outcome
  cases outcome <;> rfl

section Watch

variable {m : Type → Type} [Monad m] [LawfulMonad m] (callbacks : Callbacks κ m) (env)

/-- What is handed over for a node is run once, and logged. -/
theorem ensures_logging {k : Invoked κ} (hk : env.subject? node = some k) (h : env.refusal? node = none)
    (args : List Float) (log : List (Invocation κ)) :
    Ensures (env.Walks [node] log) ((Except.mapError (env.attributed node) <$> logging callbacks k args).run log) := by
  rw [StateT.run_map, run_logging, ← comp_map]
  exact (Ensures.of_forall (P := fun _ => True) (fun _ => trivial) _).map fun outcome _ =>
    (traced_invocation hk h args outcome).walks

/-- A call does what its function does on as many arguments as the call has. -/
theorem ensures_callFunction (position : Int) (name : Text) (args : List (Tree (Action κ))) {values : List Float}
    (hlength : values.length = args.length) (log : List (Invocation κ)) :
    Ensures (env.Walks [.call position name args] log)
      ((Except.mapError (Fault.locate position env.source) <$>
        env.watched.callFunction (logging callbacks) name values).run log) := by
  have hget : env.watched.functions.get? name = (env.functions.get? name).map Function.watched :=
    Table.get?_mapValues _ _ _
  rw [callFunction, hget]
  cases hf : env.functions.get? name with
  | none =>
    have hrefusal : env.refusal? (.call position name args) =
        some (.error ⟨.missingFunction name, some position, env.source⟩) := by rw [refusal?, hf]
    rw [Option.map_none, map_pure]
    exact .pure (Traced.failed (.refused hrefusal)).walks_nil
  | some f =>
    have hshortage : f.watched.shortage? = f.shortage? := rfl
    rw [Option.map_some]
    dsimp only
    rw [Function.call, hshortage, hlength]
    cases he : f.shortage? args.length with
    | some e =>
      have hrefusal : env.refusal? (.call position name args) = some (.error (e.locate position env.source)) := by
        rw [refusal?, hf]
        dsimp only
        rw [he, Option.map_some]
      dsimp only
      rw [map_pure]
      exact .pure (Traced.failed (.refused hrefusal)).walks_nil
    | none =>
      have hsubject : env.subject? (.call position name args) = some (.body f.body) := by
        rw [subject?, hf, Option.map_some]
      have hrefusal : env.refusal? (.call position name args) = none := by
        rw [refusal?, hf]
        dsimp only
        rw [he, Option.map_none]
      exact env.ensures_logging callbacks hsubject hrefusal (f.accepted values) log

mutual

/-- Evaluating a tree walks the nodes below its root, and then the root. -/
theorem ensures_evaluate (t : Tree (Action κ)) (log : List (Invocation κ)) :
    Ensures (env.Walks t.postorder log) ((env.watched.evaluate (logging callbacks) t.watched).run.run log) := by
  cases t with
  | number position value => exact .pure (Traced.silent rfl rfl .done).walks_nil
  | unknown position kind => exact .pure (Traced.failed (.refused rfl)).walks_nil
  | reference position name =>
    rw [Tree.watched, run_evaluate_reference]
    refine .pure (Traced.walks_nil ?_)
    change env.Traced _ _ (faultOf (match env.vars.get? name with | some value => _ | none => _))
    cases hname : env.vars.get? name with
    | some value => exact .silent rfl (by rw [refusal?, hname]) .done
    | none =>
      have hrefusal : env.refusal? (.reference position name) =
          some (.error ⟨.missingVariable name, some position, env.source⟩) := by rw [refusal?, hname]
      exact .failed (.refused hrefusal)
  | call position name args =>
    rw [Tree.watched, run_evaluate_call, StateT.run_bind, Tree.postorder]
    refine (ensures_evaluateAll args log).bind ?_
    rintro ⟨outcome, _⟩ ⟨⟨log', rfl, htraced⟩, hlength⟩
    cases outcome with
    | error f => exact .pure (htraced.stop _).walks
    | ok values =>
      have hcall := env.ensures_callFunction callbacks position name args (hlength values rfl) (log ++ log')
      exact hcall.mono fun _ hw => hw.after htraced
  | operation position operator operands =>
    rw [Tree.watched, run_evaluate_operation, StateT.run_bind, Tree.postorder]
    refine (ensures_evaluateAll operands log).bind ?_
    rintro ⟨outcome, _⟩ ⟨⟨log', rfl, htraced⟩, -⟩
    cases outcome with
    | error f => exact .pure (htraced.stop _).walks
    | ok values =>
      have hsubject : env.subject? (.operation position operator operands) = some (.action operator.action) := rfl
      have hnode := env.ensures_logging callbacks hsubject rfl values (log ++ log')
      rw [mapError_attributed_operation, id_map] at hnode
      exact hnode.mono fun _ hw => hw.after htraced

/-- The trees of a list are walked one after the other. With values for all of them there are as many values as trees,
which is the number that a function is asked about. -/
theorem ensures_evaluateAll (ts : List (Tree (Action κ))) (log : List (Invocation κ)) :
    Ensures (fun w => env.Walks (Tree.postorderAll ts) log w ∧ ∀ values, w.1 = .ok values → values.length = ts.length)
      ((env.watched.evaluateAll (logging callbacks) (Tree.watchedAll ts)).run.run log) := by
  cases ts with
  | nil =>
    refine .pure ⟨Traced.done.walks_nil, ?_⟩
    rintro values ⟨⟩
    rfl
  | cons t ts =>
    rw [Tree.watchedAll, run_evaluateAll_cons, StateT.run_bind, Tree.postorderAll]
    refine (ensures_evaluate t log).bind ?_
    rintro ⟨outcome, _⟩ ⟨log', rfl, htraced⟩
    cases outcome with
    | error f => exact .pure ⟨(htraced.stop _).walks, nofun⟩
    | ok value =>
      dsimp only
      rw [StateT.run_map]
      refine (ensures_evaluateAll ts (log ++ log')).map ?_
      rintro ⟨outcome, log''⟩ ⟨hwalks, hlength⟩
      -- what becomes of the values does not matter to the walk
      have hwalks' : env.Walks (Tree.postorderAll ts) (log ++ log') (outcome.map (value :: ·), log'') := by
        cases outcome <;> exact hwalks
      refine ⟨hwalks'.after htraced, ?_⟩
      cases outcome with
      | error f => exact nofun
      | ok values =>
        rintro _ ⟨⟩
        exact congrArg (· + 1) (hlength values rfl)

end

/-- Every outcome of a watched evaluation, with its log, is a walk over the nodes of the tree. -/
theorem ensures_watch (t : Tree (Action κ)) :
    Ensures (fun w => env.Traced t.postorder w.2 (faultOf w.1)) (env.watch callbacks t) := by
  refine (env.ensures_evaluate callbacks t []).mono ?_
  rintro ⟨outcome, _⟩ ⟨log, rfl, htraced⟩
  exact htraced

end Watch

/-! ## The order of both entry points -/

/-- What is invoked with an outcome: the subjects of the first calls and operations of the order; with a value, those of
all of them; and with a fault, those before a node that fails and that of this node if its subject raised the fault. -/
structure Ordered (env : Environment κ) (t : Tree (Action κ)) (outcome : Except Fault Float)
    (log : List (Invocation κ)) : Prop where
  initial : log.map (fun i => some i.subject) <+: env.subjects t.postorder
  whole : ∀ value, outcome = .ok value → env.Passed t.postorder log
  failed : ∀ fault, outcome = .error fault → ∃ before node after init last,
    t.postorder = before ++ node :: after ∧ log = init ++ last.toList ∧ env.Passed before init ∧
      env.FailsWith node last fault

theorem Traced.ordered {t : Tree (Action κ)} {outcome : Except Fault Float}
    (h : env.Traced t.postorder log (faultOf outcome)) : env.Ordered t outcome log := by
  refine ⟨h.prefix_subjects, ?_, ?_⟩
  · rintro value rfl
    exact h.passed
  · rintro fault rfl
    exact h.exists_failsWith

end Environment

/-- What a report tells of an outcome: the value if there is one, or else the wording and the kind of the fault. -/
structure Report.Tells (outcome : Except Fault Float) (r : Report) : Prop where
  success : r.isSuccess = true ↔ ∃ value, outcome = .ok value
  value : r.value = outcome.toOption
  error : ∀ e, outcome = .error (.error e) → r.failure = some (e.message, e.code)
  foreign : ∀ f, outcome = .error (.foreign f) → r.failure = some (f.message, .evaluationError)

theorem Report.tells_ofOutcome (outcome : Except Fault Float) : Tells outcome (ofOutcome outcome) := by
  rcases outcome with (e | f) | value
  · exact ⟨iff_of_false nofun nofun, rfl, by rintro _ ⟨⟩; rfl, nofun⟩
  · exact ⟨iff_of_false nofun nofun, rfl, nofun, by rintro _ ⟨⟩; rfl⟩
  · exact ⟨iff_of_true rfl ⟨value, rfl⟩, rfl, nofun, nofun⟩

namespace Environment

variable {κ : Type} {m : Type → Type} [Monad m] [LawfulMonad m]

/-- Evaluations and reports of a tree invoke the same in the same order, that of the nodes, and stop at the first node
that fails. The report is a success with the value of the evaluation, or tells the fault of it. -/
theorem evaluate_order (callbacks : Callbacks κ m) (env : Environment κ) (t : Tree (Action κ)) :
    Prod.fst <$> env.watch callbacks t = (env.evaluate callbacks t).run ∧
    Prod.fst <$> env.watchReport callbacks t = env.report callbacks t ∧
    Ensures (fun w => env.Ordered t w.1 w.2) (env.watch callbacks t) ∧
    env.watchReport callbacks t = (fun w => (Report.ofOutcome w.1, w.2)) <$> env.watch callbacks t ∧
    ∀ outcome, Report.Tells outcome (Report.ofOutcome outcome) :=
  ⟨env.fst_watch callbacks t, env.fst_watchReport callbacks t,
    (env.ensures_watch callbacks t).mono fun _ => Traced.ordered, env.watchReport_eq callbacks t,
    Report.tells_ofOutcome⟩

/-- Callbacks that fail for all but the first body. -/
def answers : Callbacks Nat Id := fun k _ =>
  if k = 0 then .ok 2.0 else .error (.error { cause := .evaluation "no answer" })

/-- A variable and two functions. -/
def envSample : Environment Nat where
  vars := ⟨[(['x'], 1.0)]⟩
  functions := ⟨[(['f'], .variadic ['f'] (.custom 0) none), (['g'], .variadic ['g'] (.custom 1) (some 1))]⟩

/-- A choice between two calls, the second of which is not selected. -/
def choiceSample : Tree (Action Nat) :=
  .operation 1 ⟨.infixed .right, [['?'], [':']], -600.0, .standard .choose⟩
    [.reference 0 ['x'], .call 2 ['f'] [.number 4 1.0], .call 7 ['g'] [.number 9 1.0]]

theorem evaluate_order_sample :
    envSample.watch answers choiceSample = (.error (.error ⟨.evaluation "no answer", some 7, none⟩),
      [⟨.body (.custom 0), [1.0], .ok 2.0⟩,
        ⟨.body (.custom 1), [1.0], .error (.error { cause := .evaluation "no answer" })⟩]) ∧
    envSample.Ordered choiceSample (envSample.watch answers choiceSample).1
      (envSample.watch answers choiceSample).2 := by
  obtain ⟨-, -, hordered, -, -⟩ := evaluate_order answers envSample choiceSample
  exact ⟨rfl, hordered.holds⟩

end Environment

end Mixfix
