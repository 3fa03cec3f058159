import Mixfix.Proofs.Resolved

/-!
# Builders and expressions apart

Over a whole session, an expression is evaluated in the variables and functions that the builder had when it was built,
changed by nothing but its own commands (`Environment.next`, `Expression.environment_foldl`). The builder has no part in
what is done with expressions: without these commands, it replies the same (`Session.reply_eq`). Both are
`Session.isolated`.
-/

namespace Mixfix

variable {κ : Type} {m : Type → Type} [Monad m]

/-! ## Own commands -/

/-- The environment with what a command sets in the expression with a number, if it has the name. -/
def Environment.next (i : Nat) (env : Environment κ) : Command κ → Environment κ
  | .setVariable j name value =>
    if j = i ∧ env.vars.contains name then { env with vars := env.vars.insert name value } else env
  | .redefineFunction j name body least =>
    if j = i ∧ env.functions.contains name then
      { env with functions := env.functions.insert name (.variadic name body least) }
    else env
  | .register _ | .build _ | .views | .groups | .evaluate _ | .report _ | .inspect _ => env

namespace Expression

theorem environment_next (i : Nat) (e : Expression κ) (c : Command κ) :
    (e.next i c).environment = e.environment.next i c := by
  cases c with
  | register r | build text | views | groups | evaluate j | report j | inspect j => rfl
  | setVariable j name value =>
    rw [next, Environment.next]
    by_cases hj : j = i
    · by_cases hname : e.vars.contains name = true
      · rw [if_pos hj, if_pos ⟨hj, hname⟩, changed, setVariable?, if_pos hname]
        rfl
      · rw [if_pos hj, if_neg fun h => hname h.2, changed, setVariable?, if_neg hname]
        rfl
    · rw [if_neg hj, if_neg fun h => hj h.1]
  | redefineFunction j name body least =>
    rw [next, Environment.next]
    by_cases hj : j = i
    · by_cases hname : e.functions.contains name = true
      · rw [if_pos hj, if_pos ⟨hj, hname⟩, changed, redefineFunction?, if_pos hname]
        rfl
      · rw [if_pos hj, if_neg fun h => hname h.2, changed, redefineFunction?, if_neg hname]
        rfl
    · rw [if_neg hj, if_neg fun h => hj h.1]

/-- What an expression is evaluated in after commands is what its own commands make of it. -/
theorem environment_foldl (i : Nat) (e : Expression κ) (cs : List (Command κ)) :
    (cs.foldl (next i) e).environment = cs.foldl (Environment.next i) e.environment := by
  induction cs generalizing e with
  | nil => rfl
  | cons c cs ih => rw [List.foldl_cons, List.foldl_cons, ih, environment_next]

end Expression

/-! ## Sessions -/

namespace Session

/-- What is replied to a command for the builder depends on the builder alone. -/
theorem reply_eq {s s' : Session κ} (callbacks : Callbacks κ m) (h : s.builder = s'.builder) {c : Command κ}
    (hc : c.isForBuilder = true) : (s.step callbacks c).1 = (s'.step callbacks c).1 := by
  cases c with
  | register r =>
    rw [step, step, h]
    split <;> rfl
  | build text =>
    simp only [step, h]
    split <;> rfl
  | views => rw [step, step, h]
  | groups =>
    have hoperators : s.operators = s'.operators := congrArg Builder.operators h
    simp only [step, hoperators]
  | evaluate i | report i | setVariable i name value | redefineFunction i name body least | inspect i => cases hc

/-- At any moment of a session, an expression is evaluated as its tree was built, with the operators of that moment, in
the variables and functions that the builder had at that moment, changed by the commands for this expression alone; and
the builder replies as if there had been no commands for expressions. -/
theorem isolated (callbacks : Callbacks κ m) (limits : Limits) (cs : List (Command κ)) :
    (∀ (pre : List (Command κ)) (text : Text) (post : List (Command κ)) (b : Builder κ) (i : Nat) (e : Expression κ),
      cs = pre ++ .build text :: post → ((new limits).after callbacks pre).builder = b →
      ((new limits).after callbacks pre).expressions.length = i → b.build text = .ok e →
        e.tree.RefersTo b.vars.keys b.functions.keys b.operators.operators ∧
        (((new limits).after callbacks cs).step callbacks (.evaluate i)).1 = .outcome <$>
          ((post.foldl (Environment.next i) ⟨b.vars, b.functions, some text⟩).evaluate callbacks e.tree).run ∧
        (((new limits).after callbacks cs).step callbacks (.report i)).1 = .report <$>
          (post.foldl (Environment.next i) ⟨b.vars, b.functions, some text⟩).report callbacks e.tree) ∧
    ∀ c : Command κ, c.isForBuilder = true → (((new limits).after callbacks cs).step callbacks c).1 =
      (((new limits).after callbacks (cs.filter Command.isForBuilder)).step callbacks c).1 := by
  have hnew := separate_new (κ := κ) limits
  refine ⟨fun pre text post b i e hcs hb hi he => ?_, fun c hc => reply_eq callbacks ?_ hc⟩
  · subst hcs hb hi
    have hpre := hnew.after callbacks pre
    have hexpression := expression?_after hpre callbacks he post
    obtain ⟨-, -, -, -, heq⟩ := Builder.steps_of_build he
    have htree := (Expression.revised_foldl ((new limits).after callbacks pre).expressions.length e post).tree
    have henvironment := Expression.environment_foldl ((new limits).after callbacks pre).expressions.length e post
    rw [show e.environment = ⟨_, _, some text⟩ from congrArg Expression.environment heq] at henvironment
    refine ⟨Builder.refersTo_of_build (wellFormed_after limits callbacks pre) he, ?_, ?_⟩
    · rw [after_append, step, onExpression, hexpression, ← htree, ← henvironment]
      rfl
    · rw [after_append, step, onExpression, hexpression, ← htree, ← henvironment]
      rfl
  · rw [builder_after hnew, builder_after hnew, Builder.foldl_next_filter]

theorem isolated_sample : ∃ e : Expression Unit, (Builder.standard {}).build "max(e, 1) + 2".toList = .ok e ∧
    e.tree.RefersTo (Builder.standard (κ := Unit) {}).vars.keys (Builder.standard (κ := Unit) {}).functions.keys
      (Builder.standard {}).operators.operators ∧
    (((new {}).after quiet (standardCommands ++ commandsSample)).step quiet (.evaluate 0)).1 =
      Reply.outcome (κ := Unit) ((commandsSample.tail.foldl (Environment.next 0)
        ⟨(Builder.standard (κ := Unit) {}).vars, (Builder.standard {}).functions, some "max(e, 1) + 2".toList⟩).evaluate
          quiet e.tree).run ∧
    (((new {}).after quiet (standardCommands ++ commandsSample)).step quiet .views).1 =
      (((new {}).after quiet
        ((standardCommands ++ commandsSample).filter Command.isForBuilder)).step quiet .views).1 := by
  obtain ⟨e, he⟩ := exists_build_sample
  obtain ⟨hown, hfor⟩ := isolated quiet {} (standardCommands ++ commandsSample)
  obtain ⟨htree, hevaluate, -⟩ := hown standardCommands "max(e, 1) + 2".toList
    commandsSample.tail (.standard {}) 0 e rfl (builder_standardCommands {}) rfl he
  exact ⟨e, he, htree, hevaluate, hfor .views rfl⟩

end Session

end Mixfix
