import Mixfix.Parser
import Mixfix.Proofs.Reading

/-!
# Parsers are restored

From a count, a descent has a result and leaves the count as it was (`Descent.Gives`). Going into a section does if what
is done there does, on every path (`Descent.Gives.into`), so a parser gives what `Grammar.parse` gives and is afterwards
as it was made, be the result a tree or an error (`Parser.parse_fresh`, `Parser.parse_again`).
-/

namespace Mixfix

namespace Descent

variable {β γ : Type} {m : Descent β} {r : Except ExprError β} {depth : Int}

/-! ## Going into sections -/

/-- What is done at the end is done to the count that there is then, and leaves the result alone. -/
theorem run_tryFinally (m : Descent β) (f : Int → Int) (depth : Int) :
    (tryFinally m (modify f) : Descent β).run.run depth = ((m.run.run depth).1, f (m.run.run depth).2) := by
  unfold ExceptT.run StateT.run
  simp only [tryFinally, tryFinally', Functor.map, ExceptT.map, ExceptT.mk, bind, StateT.bind]
  cases m depth with
  | mk result depth' => cases result <;> rfl

theorem run_into (check : Int → Except ExprError Unit) (m : Descent β) (depth : Int) :
    (Descent.into check m).run.run depth =
      match check (depth + 1) with
      | .ok _ => ((m.run.run (depth + 1)).1, (m.run.run (depth + 1)).2 - 1)
      | .error e => (.error e, depth + 1 - 1) := by
  let body : Descent β := do
    match check (← get) with
    | .ok _ => m
    | .error e => throw e
  have hbody : body.run.run (depth + 1) = match check (depth + 1) with
      | .ok _ => m.run.run (depth + 1)
      | .error e => (.error e, depth + 1) := by
    have hget : body.run.run (depth + 1) = (match check (depth + 1) with
        | .ok _ => m
        | .error e => throw e : Descent β).run.run (depth + 1) := rfl
    rw [hget]
    cases check (depth + 1) <;> rfl
  have hinto : (Descent.into check m).run.run depth =
      (tryFinally body (modify (· - 1)) : Descent β).run.run (depth + 1) := rfl
  rw [hinto, run_tryFinally, hbody]
  cases check (depth + 1) <;> rfl

/-! ## Results -/

/-- From a count, the descent has the result and leaves the count as it was. -/
def Gives (m : Descent β) (depth : Int) (r : Except ExprError β) : Prop := m.run.run depth = (r, depth)

namespace Gives

theorem pure (x : β) : Gives (Pure.pure x) depth (.ok x) := rfl

theorem throw (e : ExprError) : Gives (β := β) (throw e) depth (.error e) := rfl

theorem bind {f : β → Descent γ} {f' : β → Except ExprError γ} (h : Gives m depth r)
    (hf : ∀ x, Gives (f x) depth (f' x)) : Gives (m >>= f) depth (r.bind f') := by
  rw [Gives, ExceptT.run_bind, StateT.run_bind, show m.run.run depth = (r, depth) from h]
  cases r with
  | error e => rfl
  | ok x => exact hf x

theorem map {f : β → γ} (h : Gives m depth r) : Gives (m >>= fun x => Pure.pure (f x)) depth (r.map f) := by
  have hbind := h.bind fun x => .pure (f x)
  cases r <;> exact hbind

/-- A section that is not looked at is off the count again. -/
theorem into_error {check : Int → Except ExprError Unit} {e : ExprError} (h : check (depth + 1) = .error e) :
    Gives (.into check m) depth (.error e) := by
  rw [Gives, run_into, h]
  exact Prod.ext rfl (Int.add_sub_cancel depth 1)

/-- Inside of a section the count is one more, and afterwards it is as it was. -/
theorem into {check : Int → Except ExprError Unit} (hcheck : check (depth + 1) = .ok ()) (h : Gives m (depth + 1) r) :
    Gives (.into check m) depth r := by
  rw [Gives, run_into, hcheck, show m.run.run (depth + 1) = (r, depth + 1) from h]
  exact Prod.ext rfl (Int.add_sub_cancel depth 1)

theorem inTurn {xs : List γ} {visit : (x : γ) → x ∈ xs → Descent β} {f : γ → Except ExprError β}
    (h : ∀ x hx, Gives (visit x hx) depth (f x)) : Gives (.inTurn xs visit) depth (xs.mapM f) := by
  induction xs with
  | nil => exact .pure []
  | cons x xs ih =>
    rw [Descent.inTurn, List.mapM_cons]
    exact (h x List.mem_cons_self).bind fun y =>
      (ih fun x' hx' => h x' (List.mem_cons_of_mem x hx')).bind fun ys => .pure (y :: ys)

end Gives

end Descent

/-! ## Parsers -/

namespace Parser

open Descent Grammar

variable {α : Type} {p : Parser α} {l : TokenList} {levels : Nat} {depth : Int}

/-- With as many levels left as the limit is above the count, a parser gives what is built with these levels. -/
theorem gives_visit (hdepth : 0 ≤ depth) (hlevels : depth + levels = p.grammar.limits.treeDepth.toNat) :
    Gives (p.visit l) depth (p.grammar.build p.source p.groups levels l) := by
  induction levels generalizing l depth with
  | zero =>
    have hcount : depth = p.grammar.limits.treeDepth.toNat := by omega
    rw [visit, Grammar.build, ← hcount]
    exact .into_error (if_pos (by rw [Limits.bound]; omega))
  | succ levels ih =>
    have ih {l : TokenList} := @ih l (depth + 1) (by omega) (by omega)
    rw [visit, build_succ]
    refine .into (if_neg (by rw [Limits.bound]; omega)) ?_
    split
    · next e hread =>
      rw [hread]
      exact .throw e
    · next inner hread =>
      rw [hread]
      exact ih
    · next name hread =>
      rw [hread]
      exact .pure _
    · next value hread =>
      rw [hread]
      exact .pure _
    · next name args hread =>
      rw [hread, Except.bind, treeOf, buildArguments_eq]
      refine (Gives.inTurn fun arg _ => ?_).map
      split
      · exact .throw _
      · exact ih
    · next position operator operands hread =>
      rw [hread, Except.bind, treeOf]
      refine (Gives.inTurn fun operand _ => ?_).map
      exact ih

theorem gives_visitWhole (g : Grammar α) (source : Text) (l : TokenList) :
    Gives ((fresh g source).visitWhole l) 0 (g.parse source l) := by
  have hvisit := @gives_visit α (fresh g source) l g.limits.treeDepth.toNat 0 (Int.le_refl 0) (by simp [fresh])
  refine hvisit.bind fun tree => ?_
  show Gives (match g.limits.check .treeNodes tree.nodeCount (some l.position) (some source) with
    | .ok _ => Pure.pure tree
    | .error e => MonadExcept.throw e) 0 _
  cases g.limits.check .treeNodes tree.nodeCount (some l.position) (some source) with
  | ok _ => exact .pure tree
  | error e => exact .throw e

/-- A parser that has parsed nothing yet gives what `Grammar.parse` gives, and is as it was made again. -/
theorem parse_fresh (g : Grammar α) (source : Text) (l : TokenList) :
    (fresh g source).parse l = (g.parse source l, fresh g source) := by
  have hwhole : ((fresh g source).visitWhole l).run.run (fresh g source).depth = (g.parse source l, 0) :=
    gives_visitWhole g source l
  rw [parse, hwhole]
  rfl

/-- After any lists, parsed or not, a parser gives what a parser gives that has parsed nothing yet. -/
theorem parse_again (g : Grammar α) (source : Text) (ls : List TokenList) (l : TokenList) :
    (ls.foldl (fun p l => (p.parse l).2) (fresh g source)).parse l = (fresh g source).parse l := by
  induction ls with
  | nil => rfl
  | cons l' ls ih => rw [List.foldl_cons, parse_fresh, ih]

end Parser

end Mixfix
