import Mixfix.Proofs.Bracketed
import Mixfix.Proofs.Ledger

/-!
# Names of built expressions

What a tree refers to was registered when it was built (`Grammar.refersTo_of_parse`). An expression has tables with
these names, and no command adds or removes one (`Expression.keys_next`). So its evaluation never comes to a name that
is missing: whatever else is done there, the evaluation is the same (`Environment.evaluateOr_eq`). All of this holds
over whole sessions (`Session.resolved`).
-/

namespace Mixfix

/-! ## What trees refer to -/

section Trees

variable {α : Type} {vars functions : List Text} {os : List (Operator α)} {t u : Tree α}

/-- The variables, functions and operators of a tree are among some. -/
structure Tree.RefersTo (vars functions : List Text) (os : List (Operator α)) (t : Tree α) : Prop where
  vars : ∀ path position name, t.at? path = some (.reference position name) → name ∈ vars
  functions : ∀ path position name args, t.at? path = some (.call position name args) → name ∈ functions
  operators : ∀ path position o operands, t.at? path = some (.operation position o operands) → o ∈ os

theorem Tree.RefersTo.child (h : t.RefersTo vars functions os) (hu : u ∈ t.children) :
    u.RefersTo vars functions os := by
  obtain ⟨i, hi⟩ := List.mem_iff_getElem?.1 hu
  have hpath (path : List Nat) : t.at? (i :: path) = u.at? path := by
    rw [at?, hi]
    rfl
  exact ⟨fun path p name hp => h.vars (i :: path) p name (by rw [hpath, hp]),
    fun path p name args hp => h.functions (i :: path) p name args (by rw [hpath, hp]),
    fun path p o operands hp => h.operators (i :: path) p o operands (by rw [hpath, hp])⟩

namespace Grammar

variable {g : Grammar α} {source : Text} {gs : List (Group α)} {l : TokenList}

theorem mem_operators_of_readOperation? {marks : List Mark} {position : Int} {o : Operator α}
    {operands : List TokenList} (hgs : ∀ group ∈ gs, group.Consistent os)
    (h : g.readOperation? l marks gs = some (.operation position o operands)) : o ∈ os := by
  induction gs with
  | nil => cases h
  | cons group gs ih =>
    rw [List.forall_mem_cons] at hgs
    have hinfix {t : Trie Text (Operator α)} {points : List Nat} {a : Associativity}
        (ht : ∀ ts, group.get? (.infixed a) ts = t.get? ts)
        (h : infixOperation? l t points = some (.operation position o operands)) : o ∈ os := by
      obtain ⟨o', ho', h⟩ := Option.bind_eq_some_iff.1 h
      cases h
      exact (hgs.1 (.infixed a) _ o ((ht _).trans ho')).1
    simp only [readOperation?, Option.orElse_eq_or, Option.or_eq_some_iff] at h
    rcases h with h | ⟨-, h | ⟨-, h | ⟨-, h | ⟨-, h⟩⟩⟩⟩
    · obtain ⟨points, -, h⟩ := Option.bind_eq_some_iff.1 h
      split at h
      · cases h
      · exact hinfix (a := .right) (fun _ => rfl) h
    · obtain ⟨points, -, h⟩ := Option.bind_eq_some_iff.1 h
      split at h
      · cases h
      · exact hinfix (a := .left) (fun _ => rfl) h
    · obtain ⟨o', ho', h⟩ := Option.bind_eq_some_iff.1 h
      split at h
      · cases h
      · cases h
        obtain ⟨t, -, ho⟩ := Option.bind_eq_some_iff.1 ho'
        exact (hgs.1 .prefixed [t] o ho).1
    · obtain ⟨o', ho', h⟩ := Option.bind_eq_some_iff.1 h
      split at h
      · cases h
      · cases h
        obtain ⟨t, -, ho⟩ := Option.bind_eq_some_iff.1 ho'
        exact (hgs.1 .postfixed [t] o ho).1
    · exact ih hgs.2 h

/-- A tree that is parsed refers to what it is parsed against. -/
theorem refersTo_of_parse (hr : g.operators.WellFormed) (h : g.parse source l = .ok t) :
    t.RefersTo g.vars g.functions g.operators.operators := by
  have hroot {path : List Nat} {u : Tree α} (hu : t.at? path = some u) :
      ∃ s reading, g.read source g.operators.groups.1 s = .ok reading ∧ Heads reading u := by
    obtain ⟨s, levels, -, hs⟩ := exists_sectionAt (build_of_parse h) hu
    exact exists_heads_of_build hs
  refine ⟨fun path p name hu => ?_, fun path p name args hu => ?_, fun path p o operands hu => ?_⟩
  · obtain ⟨s, reading, hread, hheads⟩ := hroot hu
    cases hheads with
    | reference => exact mem_vars_of_read hread
  · obtain ⟨s, reading, hread, hheads⟩ := hroot hu
    cases hheads with
    | call => exact (call_of_read hread).1
  · obtain ⟨s, reading, hread, hheads⟩ := hroot hu
    cases hheads with
    | operation => exact mem_operators_of_readOperation? (fun _ hm => hr.consistent hm) (operation_of_read hread)

end Grammar

end Trees

/-! ## Evaluation where no name is missing -/

variable {κ : Type} {m : Type → Type} [Monad m]

/-- What an evaluation does where a name is missing. -/
structure Ends (m : Type → Type) where
  onVariable : Int → Text → ExceptT Fault m Float
  onFunction : Text → m (Except Fault Float)

namespace Environment

variable (callbacks : Callbacks κ m) (env : Environment κ)

/-- The errors that `evaluate` ends with where a name is missing. -/
def ends : Ends m where
  onVariable position name :=
    throw (.error { cause := .missingVariable name, position := some position, expression := env.source })
  onFunction name := pure (.error (.error { cause := .missingFunction name }))

variable (ends : Ends m)

/-- Calls the function of a name, or does what is done where it is missing. -/
def callFunctionOr (name : Text) (args : List Float) : m (Except Fault Float) :=
  match env.functions.get? name with
  | some f => f.call callbacks args
  | none => ends.onFunction name

mutual

/-- Evaluates a tree as `evaluate` does, apart from what is done where a name is missing. -/
def evaluateOr : Tree (Action κ) → ExceptT Fault m Float
  | .number _ value => return value
  | .reference position name =>
    match env.vars.get? name with
    | some value => return value
    | none => ends.onVariable position name
  | .call position name args => do
    let values ← evaluateAllOr args
    let outcome ← ExceptT.lift (env.callFunctionOr callbacks ends name values)
    match outcome with
    | .ok value => return value
    | .error fault => throw (fault.locate position env.source)
  | .operation _ operator operands => do
    let values ← evaluateAllOr operands
    ExceptT.mk (operator.action.run callbacks values)
  | .unknown position kind =>
    throw (.error
      { cause := .general ("Unknown AST node type: " ++ kind.toString)
        position := some position
        expression := env.source })

/-- Evaluates the trees of a list, from left to right. -/
def evaluateAllOr : List (Tree (Action κ)) → ExceptT Fault m (List Float)
  | [] => return []
  | t :: ts => do
    let value ← evaluateOr t
    let values ← evaluateAllOr ts
    return value :: values

end

mutual

theorem evaluateOr_ends (t : Tree (Action κ)) : env.evaluateOr callbacks env.ends t = env.evaluate callbacks t := by
  cases t with
  | number p v | unknown p k | reference p name => rfl
  | call p name args =>
    rw [evaluateOr, evaluate, evaluateAllOr_ends args]
    rfl
  | operation p o operands => rw [evaluateOr, evaluate, evaluateAllOr_ends operands]

theorem evaluateAllOr_ends (ts : List (Tree (Action κ))) :
    env.evaluateAllOr callbacks env.ends ts = env.evaluateAll callbacks ts := by
  cases ts with
  | nil => rfl
  | cons t ts => rw [evaluateAllOr, evaluateAll, evaluateOr_ends t, evaluateAllOr_ends ts]

end

variable {env} {os : List (Operator (Action κ))}

theorem callFunctionOr_eq {name : Text} (h : name ∈ env.functions.keys) (ends ends' : Ends m) (args : List Float) :
    env.callFunctionOr callbacks ends name args = env.callFunctionOr callbacks ends' name args := by
  obtain ⟨f, hf⟩ := Option.isSome_iff_exists.1 (Table.contains_iff_mem_keys.2 h)
  rw [callFunctionOr, callFunctionOr, hf]

mutual

/-- Where a tree refers only to what is there, nothing is done that is done where a name is missing. -/
theorem evaluateOr_eq (t : Tree (Action κ)) (h : t.RefersTo env.vars.keys env.functions.keys os) (ends ends' : Ends m) :
    env.evaluateOr callbacks ends t = env.evaluateOr callbacks ends' t := by
  cases t with
  | number p v | unknown p k => rfl
  | reference p name =>
    obtain ⟨value, hvalue⟩ := Option.isSome_iff_exists.1 (Table.contains_iff_mem_keys.2 (h.vars [] p name rfl))
    rw [evaluateOr, evaluateOr, hvalue]
  | call p name args =>
    have hname := h.functions [] p name args rfl
    have hargs := evaluateAllOr_eq args (fun t ht => h.child ht) ends ends'
    simp only [evaluateOr, hargs, callFunctionOr_eq callbacks hname ends ends']
  | operation p o operands =>
    rw [evaluateOr, evaluateOr, evaluateAllOr_eq operands (fun t ht => h.child ht) ends ends']

theorem evaluateAllOr_eq (ts : List (Tree (Action κ)))
    (h : ∀ t ∈ ts, t.RefersTo env.vars.keys env.functions.keys os) (ends ends' : Ends m) :
    env.evaluateAllOr callbacks ends ts = env.evaluateAllOr callbacks ends' ts := by
  cases ts with
  | nil => rfl
  | cons t ts =>
    rw [List.forall_mem_cons] at h
    rw [evaluateAllOr, evaluateAllOr, evaluateOr_eq t h.1 ends ends', evaluateAllOr_eq ts h.2 ends ends']

end

end Environment

/-! ## Registered operators -/

namespace Builder

variable {b : Builder κ}

theorem reachable_ofStandard (os : List (Operator StandardAction)) (hos : ∀ o ∈ os, o ∈ Standard.all)
    (h : b.operators.Reachable) : (b.operators.addAll (os.map ofStandard)).Reachable :=
  h.addAll fun o ho => (Standard.formed_ofStandard hos o ho).1

/-- What is registered on a builder makes its registry. -/
theorem reachable_register {b' : Builder κ} {r : Registration κ} (h : b.operators.Reachable)
    (hr : b.register r = .ok b') : b'.operators.Reachable := by
  cases r with
  | limits limits | var name value | standardVars | function name f | standardFunctions =>
    simp only [register, Except.ok.injEq] at hr
    rw [← hr]
    simp only [withLimits, withVariable, withStandardVariables, withFunction, withStandardFunctions, h]
  | standardOperators =>
    simp only [register, withStandardOperators, Except.ok.injEq] at hr
    rw [← hr]
    dsimp only
    exact reachable_ofStandard Standard.operators (fun o ho => List.mem_append_left _ ho) h
  | comparisons =>
    simp only [register, withComparisons, Except.ok.injEq] at hr
    rw [← hr]
    dsimp only
    exact reachable_ofStandard Standard.comparisons (fun o ho => List.mem_append_right _ ho) h
  | token token =>
    simp only [register, withToken] at hr
    split at hr
    · cases hr
    · cases hr
      exact h.addToken token
  | prefixed token action priority =>
    simp only [register, withPrefix] at hr
    split at hr
    · cases hr
    · cases hr
      exact h.add ⟨List.cons_ne_nil _ _, fun _ => rfl⟩
  | postfixed token action priority =>
    simp only [register, withPostfix] at hr
    split at hr
    · cases hr
    · cases hr
      exact h.add ⟨List.cons_ne_nil _ _, fun _ => rfl⟩
  | infixed tokens action priority associativity =>
    simp only [register, withInfix] at hr
    split at hr
    · cases hr
    · next hne =>
      split at hr
      · cases hr
      · cases hr
        exact h.add ⟨by simpa using hne, fun hf => absurd rfl (hf associativity)⟩

/-- A command that registers nothing leaves a builder as it is, but its groups may have been asked for. -/
theorem next_of_ne_register (b : Builder κ) {c : Command κ} (hc : ∀ r, c ≠ .register r) :
    b.next c = b ∨ b.next c = { b with operators := b.operators.groups.2 } := by
  cases c with
  | register r => exact absurd rfl (hc r)
  | build text =>
    rw [next, consulted]
    split
    · split
      · exact Or.inr rfl
      · exact Or.inl rfl
    · exact Or.inl rfl
  | groups => exact Or.inr rfl
  | views | evaluate i | report i | setVariable i name value | redefineFunction i name body least | inspect i =>
    exact Or.inl rfl

theorem reachable_next (h : b.operators.Reachable) (c : Command κ) : (b.next c).operators.Reachable := by
  by_cases hc : ∃ r, c = .register r
  · obtain ⟨r, rfl⟩ := hc
    rw [next]
    cases hr : b.register r with
    | ok b' => exact reachable_register h hr
    | error e => exact h
  · rcases b.next_of_ne_register fun r hr => hc ⟨r, hr⟩ with hnext | hnext
    · rw [hnext]
      exact h
    · rw [hnext]
      exact h.groups

/-- A calculator stays one, whatever texts it is given and whatever it is asked, unless something is registered. -/
theorem IsCalculator.next (h : b.IsCalculator) {c : Command κ} (hc : ∀ r, c ≠ .register r) :
    (b.next c).IsCalculator := by
  rcases b.next_of_ne_register hc with hnext | hnext
  · rw [hnext]
    exact h
  · rw [hnext]
    exact h.groups

theorem reachable_foldl (h : b.operators.Reachable) (cs : List (Command κ)) :
    (cs.foldl next b).operators.Reachable := by
  induction cs generalizing b with
  | nil => exact h
  | cons c cs ih => exact ih (reachable_next h c)

/-- The tree of a text that builds refers to what is registered. -/
theorem refersTo_of_build (h : b.operators.WellFormed) {text : Text} {e : Expression κ} (he : b.build text = .ok e) :
    e.tree.RefersTo b.vars.keys b.functions.keys b.operators.operators := by
  obtain ⟨-, -, -, htree, -⟩ := steps_of_build he
  exact Grammar.refersTo_of_parse h htree

end Builder

/-! ## Sessions -/

namespace Session

variable {s : Session κ} {i : Nat} {e e' : Expression κ}

/-- From the first session to the second one nothing changes but the expression with a number. -/
structure ChangesOnly (s s' : Session κ) (i : Nat) (e' : Expression κ) : Prop where
  builder : s'.builder = s.builder
  self : s'.expression? i = some e'
  others : ∀ j, j ≠ i → s'.expression? j = s.expression? j

theorem Separate.changesOnly (h : s.Separate) (he : s.expression? i = some e) (hrevised : e.Revised e') :
    s.ChangesOnly (s.storeExpression i e') i e' := by
  have hledger := h.ledger_storeExpression he hrevised
  have hi : i < s.ledger.expressions.length := by
    rw [expression?_eq] at he
    exact (List.getElem?_eq_some_iff.1 he).1
  refine ⟨congrArg Ledger.builder hledger, ?_, fun j hj => ?_⟩
  · rw [expression?_eq, hledger, List.getElem?_set_self hi]
  · rw [expression?_eq, hledger, List.getElem?_set_ne (Ne.symm hj), expression?_eq]

/-- In a session that starts with an empty builder, the registry of the builder is well-formed. -/
theorem wellFormed_after (limits : Limits) (callbacks : Callbacks κ m) (cs : List (Command κ)) :
    ((new limits).after callbacks cs).builder.operators.WellFormed := by
  rw [builder_after (separate_new limits)]
  exact (Builder.reachable_foldl .empty cs).wellFormed

/-- The expression with a number has the names that are registered on a builder and refers to nothing else, it is
evaluated without a look at what is done where a name is missing, and its commands replace just the values that they
name, and only those of these names. -/
structure Resolves (callbacks : Callbacks κ m) (s : Session κ) (i : Nat) (b : Builder κ) (e : Expression κ) : Prop where
  expression : s.expression? i = some e
  tree : e.tree.RefersTo b.vars.keys b.functions.keys b.operators.operators
  vars : e.vars.keys = b.vars.keys
  functions : e.functions.keys = b.functions.keys
  evaluate : ∀ ends, (s.step callbacks (.evaluate i)).1 =
    .outcome <$> (e.environment.evaluateOr callbacks ends e.tree).run
  report : ∀ ends, (s.step callbacks (.report i)).1 =
    .report <$> Report.ofOutcome <$> (e.environment.evaluateOr callbacks ends e.tree).run
  setVariable : ∀ name ∈ b.vars.keys, ∀ value, ∃ e' s', s.step callbacks (.setVariable i name value) =
    (pure (.changed true), s') ∧ s.ChangesOnly s' i e' ∧ e'.tree = e.tree ∧ e'.source = e.source ∧
      e'.functions = e.functions ∧
      ∀ name', e'.vars.get? name' = if name' == name then some value else e.vars.get? name'
  setVariable_absent : ∀ name ∉ b.vars.keys, ∀ value,
    s.step callbacks (.setVariable i name value) = (pure (.changed false), s)
  redefineFunction : ∀ name ∈ b.functions.keys, ∀ body least, ∃ e' s',
    s.step callbacks (.redefineFunction i name body least) = (pure (.changed true), s') ∧ s.ChangesOnly s' i e' ∧
      e'.tree = e.tree ∧ e'.source = e.source ∧ e'.vars = e.vars ∧
      ∀ name', e'.functions.get? name' =
        if name' == name then some (.variadic name body least) else e.functions.get? name'
  redefineFunction_absent : ∀ name ∉ b.functions.keys, ∀ body least,
    s.step callbacks (.redefineFunction i name body least) = (pure (.changed false), s)

/-- What an expression with the names of a builder does in a session. -/
theorem resolves_of_separate (h : s.Separate) (callbacks : Callbacks κ m) {b : Builder κ}
    (he : s.expression? i = some e)
    (htree : e.tree.RefersTo b.vars.keys b.functions.keys b.operators.operators) (hvars : e.vars.keys = b.vars.keys)
    (hfunctions : e.functions.keys = b.functions.keys) : Resolves callbacks s i b e := by
  have hreply (f : Expression κ → m (Reply κ) × Session κ) : s.onExpression i f = f e := by rw [onExpression, he]
  have hevaluate (ends : Ends m) : e.environment.evaluateOr callbacks ends e.tree = e.evaluate callbacks := by
    rw [← hvars, ← hfunctions] at htree
    exact (Environment.evaluateOr_eq callbacks e.tree htree ends e.environment.ends).trans
      (e.environment.evaluateOr_ends callbacks e.tree)
  refine ⟨he, htree, hvars, hfunctions, fun ends => ?_, fun ends => ?_, fun name hname value => ?_,
    fun name hname value => ?_, fun name hname body least => ?_, fun name hname body least => ?_⟩
  · rw [step, hreply, hevaluate]
  · rw [step, hreply, hevaluate]
    rfl
  · have hcontains : e.vars.contains name = true := Table.contains_iff_mem_keys.2 (hvars ▸ hname)
    have hset : e.setVariable? name value = some { e with vars := e.vars.insert name value } := if_pos hcontains
    refine ⟨_, _, ?_, h.changesOnly he (Expression.revised_setVariable? hset), rfl, rfl, rfl,
      fun name' => Table.get?_insert _ _ _ _⟩
    rw [step, hreply, hset, change]
  · have hcontains : ¬ e.vars.contains name = true := fun hc => hname (hvars ▸ Table.contains_iff_mem_keys.1 hc)
    rw [step, hreply, Expression.setVariable?, if_neg hcontains, change]
  · have hcontains : e.functions.contains name = true := Table.contains_iff_mem_keys.2 (hfunctions ▸ hname)
    have hset : e.redefineFunction? name body least =
        some { e with functions := e.functions.insert name (.variadic name body least) } := if_pos hcontains
    refine ⟨_, _, ?_, h.changesOnly he (Expression.revised_redefineFunction? hset), rfl, rfl, rfl,
      fun name' => Table.get?_insert _ _ _ _⟩
    rw [step, hreply, hset, change]
  · have hcontains : ¬ e.functions.contains name = true :=
      fun hc => hname (hfunctions ▸ Table.contains_iff_mem_keys.1 hc)
    rw [step, hreply, Expression.redefineFunction?, if_neg hcontains, change]

/-- An expression that a builder has built never misses a name, whatever is registered on the builder afterwards and
whatever is set in the expression. -/
theorem resolved (callbacks : Callbacks κ m) (limits : Limits) (pre post : List (Command κ)) {text : Text}
    (he : ((new limits).after callbacks pre).builder.build text = .ok e) :
    ∃ e', e'.tree = e.tree ∧ Resolves callbacks ((new limits).after callbacks (pre ++ .build text :: post))
      ((new limits).after callbacks pre).expressions.length ((new limits).after callbacks pre).builder e' := by
  have hpre := (separate_new limits).after callbacks pre
  have hafter := hpre.after callbacks (.build text :: post)
  have hexpression := expression?_after hpre callbacks he post
  have hrevised := Expression.revised_foldl ((new limits).after callbacks pre).expressions.length e post
  have htree := Builder.refersTo_of_build (wellFormed_after limits callbacks pre) he
  obtain ⟨-, -, -, -, heq⟩ := Builder.steps_of_build he
  rw [after_append]
  refine ⟨_, hrevised.tree, resolves_of_separate hafter callbacks hexpression ?_ ?_ ?_⟩
  · rw [hrevised.tree]
    exact htree
  · rw [hrevised.vars, heq]
  · rw [hrevised.functions, heq]

/-- Callbacks for samples that have no actions or functions of their own. -/
def quiet : Callbacks Unit Id := fun _ _ => .ok 0.0

/-- The commands that register everything that is standard. -/
def standardCommands : List (Command Unit) :=
  [.register .standardOperators, .register .standardFunctions, .register .standardVars]

/-- A command to build, and commands that set a variable and a function of what is built, and change the builder. -/
def commandsSample : List (Command Unit) :=
  [.build "max(e, 1) + 2".toList, .register (.var ['x'] 1.0), .setVariable 0 ['e'] 2.0,
    .redefineFunction 0 "max".toList (.standard .min) none]

theorem builder_standardCommands (limits : Limits) :
    ((new limits).after quiet standardCommands).builder = .standard limits := by
  have hnew : (new (κ := Unit) limits).builder = .bare limits := rfl
  rw [builder_after (separate_new limits), hnew, standardCommands]
  simp only [List.foldl_cons, List.foldl_nil, Builder.next, Builder.register, Except.toOption, Option.getD_some,
    Builder.standard]

theorem exists_build_sample : ∃ e, (Builder.standard (κ := Unit) {}).build "max(e, 1) + 2".toList = .ok e := by
  have hok : ((Builder.standard (κ := Unit) {}).build "max(e, 1) + 2".toList).isOk = true := by
    simp only [Builder.build, Builder.parse_eq, Grammar.parse, Builder.groups_standard]
    decide +kernel
  exact Builder.exists_of_isOk hok

theorem resolved_sample : ∃ e e' : Expression Unit,
    ((new {}).after quiet standardCommands).builder.build "max(e, 1) + 2".toList = .ok e ∧ e'.tree = e.tree ∧
      Resolves quiet ((new {}).after quiet (standardCommands ++ commandsSample))
        ((new {}).after quiet standardCommands).expressions.length
        ((new {}).after quiet standardCommands).builder e' := by
  obtain ⟨e, he⟩ := exists_build_sample
  rw [← builder_standardCommands {}] at he
  obtain ⟨e', htree, hresolves⟩ := resolved quiet {} standardCommands commandsSample.tail he
  exact ⟨e, e', he, htree, hresolves⟩

end Session

end Mixfix
