import Mixfix.Proofs.Order

/-!
# Where errors of an evaluation come from

An error that ends an evaluation comes from the node that fails, and from this node alone (`Environment.Surfaces`): a
reference and a node of no meaning give it their position, a call gives its position to an error of its function that
has none, and an operation gives it nothing. However deep this node is, no node above it changes the error
(`evaluate_attribution`).
-/

namespace Mixfix.Environment

variable {κ : Type} (env : Environment κ)

/-- Calling the function of a name on a number of arguments gives an error: there is no such function, it requires more
arguments, or it ran and raised the error. -/
inductive CallRaises (name : Text) (provided : Nat) : Option (Invocation κ) → ExprError → Prop
  | absent (h : env.functions.get? name = none) : CallRaises name provided none { cause := .missingFunction name }
  | short {f : Function κ} {g : Guard} (hf : env.functions.get? name = some f) (hg : f.guard = some g)
      (h : provided < g.least) :
      CallRaises name provided none { cause := .missingArguments g.name g.least provided }
  | raised {f : Function κ} {args : List Float} {e : ExprError} (hf : env.functions.get? name = some f)
      (h : f.shortage? provided = none) : CallRaises name provided (some ⟨.body f.body, args, .error (.error e)⟩) e

/-- The error that an evaluation ends with when a node fails, and what the node invoked, if anything. -/
inductive Surfaces : Tree (Action κ) → Option (Invocation κ) → ExprError → Prop
  /-- A missing variable is at the place of its reference. -/
  | reference {position : Int} {name : Text} (h : env.vars.get? name = none) :
      Surfaces (.reference position name) none ⟨.missingVariable name, some position, env.source⟩
  /-- A kind of node without meaning is at the place of the node. -/
  | unknown {position : Int} {kind : Text} :
      Surfaces (.unknown position kind) none
        ⟨.general ("Unknown AST node type: " ++ kind.toString), some position, env.source⟩
  /-- An error without a position is given that of the call. -/
  | unplaced {position : Int} {name : Text} {args : List (Tree (Action κ))} {last : Option (Invocation κ)}
      {e : ExprError} (h : env.CallRaises name args.length last e) (he : e.position = none) :
      Surfaces (.call position name args) last { e with position := some position, expression := env.source }
  /-- An error with a position keeps it, and its expression. -/
  | placed {position q : Int} {name : Text} {args : List (Tree (Action κ))} {last : Option (Invocation κ)}
      {e : ExprError} (h : env.CallRaises name args.length last e) (he : e.position = some q) :
      Surfaces (.call position name args) last e
  /-- An error of an action stays as it is. -/
  | operation {position : Int} {operator : Operator (Action κ)} {operands : List (Tree (Action κ))}
      {args : List Float} {e : ExprError} :
      Surfaces (.operation position operator operands) (some ⟨.action operator.action, args, .error (.error e)⟩) e

variable {env} {node : Tree (Action κ)} {last : Option (Invocation κ)} {e : ExprError} {position : Int} {name : Text}
  {args : List (Tree (Action κ))}

/-- What a call makes of an error that calling its function gives. -/
theorem surfaces_call (h : env.CallRaises name args.length last e) :
    env.Surfaces (.call position name args) last (e.locate position env.source) := by
  cases he : e.position with
  | none =>
    rw [ExprError.locate, he]
    exact .unplaced h he
  | some q =>
    rw [ExprError.locate, he]
    exact .placed h he

theorem callRaises_of_shortage? {f : Function κ} {provided : Nat} (hf : env.functions.get? name = some f)
    (h : f.shortage? provided = some e) : env.CallRaises name provided none e := by
  rw [Function.shortage?] at h
  split at h
  · next g hg =>
    split at h
    · next hlt =>
      cases h
      exact .short hf hg hlt
    · cases h
  · cases h

/-- A node that refuses with an error is the only one that says where the error is. -/
theorem surfaces_of_refusal? (h : env.refusal? node = some (.error e)) : env.Surfaces node none e := by
  cases node with
  | number | operation => cases h
  | unknown =>
    cases h
    exact .unknown
  | reference position name =>
    rw [refusal?] at h
    split at h
    · cases h
    · next hname =>
      cases h
      exact .reference hname
  | call position name args =>
    rw [refusal?] at h
    split at h
    · next f hf =>
      obtain ⟨e', he', heq⟩ := Option.map_eq_some_iff.1 h
      cases heq
      exact surfaces_call (callRaises_of_shortage? hf he')
    · next hf =>
      cases h
      exact .unplaced (.absent hf) rfl

/-- A fault of what a node invokes becomes an error only if it is one. -/
theorem surfaces_of_attributed {k : Invoked κ} {values : List Float} {f : Fault} (hk : env.subject? node = some k)
    (hr : env.refusal? node = none) (h : env.attributed node f = .error e) :
    env.Surfaces node (some ⟨k, values, .error f⟩) e := by
  cases node with
  | number | reference | unknown => cases hk
  | operation =>
    cases hk
    cases h
    exact .operation
  | call position name args =>
    obtain ⟨g, hg, rfl⟩ := Option.map_eq_some_iff.1 hk
    have hshortage : g.shortage? args.length = none := by
      rw [refusal?, hg] at hr
      exact Option.map_eq_none_iff.1 hr
    cases f with
    | foreign => cases h
    | error e' =>
      cases h
      exact surfaces_call (.raised hg hshortage)

theorem FailsWith.surfaces {f : Fault} (h : env.FailsWith node last f) (hf : f = .error e) :
    env.Surfaces node last e := by
  cases h with
  | refused hr => exact surfaces_of_refusal? (hr.trans (congrArg some hf))
  | raised hk hr => exact surfaces_of_attributed hk hr hf

/-- An error that an evaluation ends with is the one that surfaces at the node that fails, all of the nodes before this
one being passed. -/
theorem evaluate_attribution {m : Type → Type} [Monad m] [LawfulMonad m] (callbacks : Callbacks κ m)
    (env : Environment κ) (t : Tree (Action κ)) :
    Prod.fst <$> env.watch callbacks t = (env.evaluate callbacks t).run ∧
    Ensures (fun w => ∀ e, w.1 = .error (.error e) → ∃ before node after init last,
        t.postorder = before ++ node :: after ∧ w.2 = init ++ last.toList ∧ env.Passed before init ∧
          env.Surfaces node last e)
      (env.watch callbacks t) := by
  refine ⟨env.fst_watch callbacks t, (env.ensures_watch callbacks t).mono ?_⟩
  rintro ⟨outcome, log⟩ htraced e rfl
  obtain ⟨before, node, after, init, last, hnodes, hlog, hpassed, hfails⟩ := Traced.exists_failsWith htraced
  exact ⟨before, node, after, init, last, hnodes, hlog, hpassed, hfails.surfaces rfl⟩

/-- A call of a call of an operation whose action fails. -/
def nestedSample : Tree (Action Nat) :=
  .call 0 ['f'] [.call 2 ['f'] [.operation 4 ⟨.prefixed, [['!']], 0.0, .custom 1⟩ [.reference 5 ['x']]]]

theorem evaluate_attribution_sample :
    (envSample.watch answers nestedSample).1 = .error (.error ⟨.evaluation "no answer", none, none⟩) ∧
    ∃ before node after init last, nestedSample.postorder = before ++ node :: after ∧
      (envSample.watch answers nestedSample).2 = init ++ last.toList ∧ envSample.Passed before init ∧
      envSample.Surfaces node last ⟨.evaluation "no answer", none, none⟩ := by
  have houtcome : (envSample.watch answers nestedSample).1 =
      .error (.error ⟨.evaluation "no answer", none, none⟩) := rfl
  exact ⟨houtcome, (evaluate_attribution answers envSample nestedSample).2.holds _ houtcome⟩

end Mixfix.Environment
