import Mixfix.Proofs.Bracketed
import Mixfix.Proofs.Restored

/-!
# Limits cut off

Limits decide whether a text builds, but not to what. Under limits that are nowhere lower, each check that passed passes
again, so the same happens until the first limit is exceeded (`Capped`): a tree is the same tree, an error that reports
no limit is the same error, and an error that reports a limit tells the truth (`Limits.Reports`). A tree that is built
stays within the limits, where a call without arguments is never counted (`Grammar.length_le_of_build`). What parsers
have done before never counts either. All of this is `Builder.build_withLimits`.
-/

namespace Mixfix

/-! ## Limits -/

namespace Limits

/-- No limit of the first ones is above that of the second ones. -/
instance : LE Limits := ⟨fun limits limits' => ∀ which, limits.bound which ≤ limits'.bound which⟩

/-- The error names one of the limits, and a count beyond it. -/
def Reports (limits : Limits) (e : ExprError) : Prop :=
  ∃ which actual, e.cause = .limitExceeded which.name (limits.bound which) actual ∧ limits.bound which < actual

theorem reports_exceeded {limits : Limits} {which : Limit} {actual : Int} (h : limits.bound which < actual)
    (position : Option Int) (source : Option Text) : limits.Reports (limits.exceeded which actual position source) :=
  ⟨which, actual, rfl, h⟩

theorem Reports.code_eq {limits : Limits} {e : ExprError} (h : limits.Reports e) : e.code = .limitExceeded := by
  obtain ⟨which, actual, hcause, -⟩ := h
  rw [ExprError.code, hcause]
  rfl

end Limits

/-- The results of the same work under limits and under others that are nowhere lower: the same, unless the first one
reports a limit. -/
inductive Capped {β : Type} (limits : Limits) : Except ExprError β → Except ExprError β → Prop
  | ok (x : β) : Capped limits (.ok x) (.ok x)
  | error {e : ExprError} : e.code ≠ .limitExceeded → Capped limits (.error e) (.error e)
  | limit {e : ExprError} (r' : Except ExprError β) : limits.Reports e → Capped limits (.error e) r'

namespace Capped

variable {β γ : Type} {limits limits' : Limits} {r r' : Except ExprError β}

theorem bind {f f' : β → Except ExprError γ} (h : Capped limits r r') (hf : ∀ x, Capped limits (f x) (f' x)) :
    Capped limits (r.bind f) (r'.bind f') := by
  cases h with
  | ok x => exact hf x
  | error he => exact .error he
  | limit _ he => exact .limit _ he

theorem map (f : β → γ) (h : Capped limits r r') : Capped limits (r.map f) (r'.map f) := by
  cases h with
  | ok x => exact .ok (f x)
  | error he => exact .error he
  | limit _ he => exact .limit _ he

theorem mapM {f f' : γ → Except ExprError β} (h : ∀ x, Capped limits (f x) (f' x)) (xs : List γ) :
    Capped limits (xs.mapM f) (xs.mapM f') := by
  induction xs with
  | nil => exact .ok []
  | cons x xs ih =>
    rw [List.mapM_cons, List.mapM_cons]
    exact (h x).bind fun y => ih.bind fun ys => .ok (y :: ys)

/-- Work that reports no limit has the same result under all limits. -/
theorem same (h : ∀ e, r = .error e → e.code ≠ .limitExceeded) : Capped limits r r := by
  cases r with
  | ok x => exact .ok x
  | error e => exact .error (h e rfl)

/-- A count that is checked against limits that are nowhere lower. -/
theorem check (hle : limits ≤ limits') (which : Limit) (actual : Int) (position : Option Int) (source : Option Text) :
    Capped limits (limits.check which actual position source) (limits'.check which actual position source) := by
  have hbound := hle which
  rw [Limits.check, Limits.check]
  by_cases h : limits.bound which < actual
  · rw [if_pos h]
    exact .limit _ (Limits.reports_exceeded h _ _)
  · rw [if_neg h, if_neg (by omega)]
    exact .ok ()

end Capped

/-! ## Trees within limits -/

namespace Tree

variable {α : Type}

mutual

/-- How many nodes are on the longest way from the root down. -/
def height : Tree α → Nat
  | number _ _ => 1
  | reference _ _ => 1
  | call _ _ args => 1 + heightAll args
  | operation _ _ operands => 1 + heightAll operands
  | unknown _ _ => 1

/-- The height of the highest tree of a list. -/
def heightAll : List (Tree α) → Nat
  | [] => 0
  | t :: ts => max (height t) (heightAll ts)

end

theorem height_pos (t : Tree α) : 1 ≤ t.height := by
  cases t <;> simp [height]

/-- Whether the root is a call without arguments. -/
def isEmptyCall : Tree α → Bool
  | call _ _ [] => true
  | _ => false

theorem exists_of_isEmptyCall {t : Tree α} (h : t.isEmptyCall = true) :
    ∃ position name, t = .call position name [] := by
  unfold isEmptyCall at h
  split at h
  · exact ⟨_, _, rfl⟩
  · cases h

theorem heightAll_le {ts : List (Tree α)} {n : Nat} (h : ∀ t ∈ ts, t.height ≤ n) : heightAll ts ≤ n := by
  induction ts with
  | nil => exact Nat.zero_le n
  | cons t ts ih =>
    rw [List.forall_mem_cons] at h
    exact Nat.max_le.2 ⟨h.1, ih h.2⟩

end Tree

namespace Grammar

open TokenList

variable {α : Type} {g : Grammar α} {limits limits' : Limits} {source : Text} {gs : List (Group α)} {l : TokenList}

/-- The grammar with other limits. -/
def withLimits (g : Grammar α) (limits : Limits) : Grammar α := { g with limits }

/-! ## Reading and building under limits -/

theorem capped_readArguments (hle : limits ≤ limits') (name : Text) (args : TokenList) :
    Capped limits ((g.withLimits limits).readArguments source l name args)
      ((g.withLimits limits').readArguments source l name args) := by
  rw [readArguments, readArguments]
  split
  · exact .ok []
  · split
    · exact .error ErrorCode.noConfusion
    · split
      · exact .error ErrorCode.noConfusion
      · exact (Capped.check hle .callArguments _ _ _).bind fun _ => .ok _

theorem capped_readCall? (hle : limits ≤ limits') : Capped limits ((g.withLimits limits).readCall? source l)
    ((g.withLimits limits').readCall? source l) := by
  rw [readCall?, readCall?]
  split
  · exact .ok none
  · split
    · exact .ok none
    · next i _ =>
      split
      · exact .ok none
      · show Capped limits (if g.functions.contains (l.slice 0 i).trimmedText then _ else _)
          (if g.functions.contains (l.slice 0 i).trimmedText then _ else _)
        split
        · exact (capped_readArguments hle _ _).bind fun args => .ok _
        · show Capped limits (if l.tokens.any g.operators.isOperatorToken then _ else _)
            (if l.tokens.any g.operators.isOperatorToken then _ else _)
          split
          · exact .ok none
          · exact .error ErrorCode.noConfusion

/-- No limit has a say in which operation is found. -/
theorem readOperation?_withLimits (limits : Limits) (marks : List Mark) (gs : List (Group α)) :
    (g.withLimits limits).readOperation? l marks gs = g.readOperation? l marks gs := by
  induction gs with
  | nil => rfl
  | cons group gs ih =>
    rw [readOperation?, readOperation?, ih]
    rfl

theorem capped_readBare (hle : limits ≤ limits') : Capped limits ((g.withLimits limits).readBare source gs l)
    ((g.withLimits limits').readBare source gs l) := by
  rw [readBare_eq, readBare_eq, readOperation?_withLimits, readOperation?_withLimits]
  show Capped limits (if g.vars.contains l.trimmedText then _ else _) (if g.vars.contains l.trimmedText then _ else _)
  split
  · exact .ok _
  · refine (capped_readCall? hle).bind fun call? => .same fun e he => ?_
    cases call? with
    | some call => cases he
    | none =>
      show e.code ≠ _
      split at he
      · cases he
      · cases he
      · cases he
      · cases he
        exact ErrorCode.noConfusion

theorem checkEnds_code {e : ExprError} (h : g.checkEnds source l = .error e) : e.code ≠ .limitExceeded := by
  obtain ⟨t, -, rfl⟩ | ⟨t, -, rfl⟩ := error_of_checkEnds h
  · exact ErrorCode.noConfusion
  · exact ErrorCode.noConfusion

theorem capped_read (hle : limits ≤ limits') : Capped limits ((g.withLimits limits).read source gs l)
    ((g.withLimits limits').read source gs l) := by
  have hends : Capped limits ((g.withLimits limits).checkEnds source l) ((g.withLimits limits').checkEnds source l) :=
    .same fun e he => checkEnds_code (g := g.withLimits limits) he
  refine hends.bind fun _ => ?_
  split
  · exact .ok _
  · exact capped_readBare hle

theorem capped_buildArguments {buildSection buildSection' : TokenList → Except ExprError (Tree α)}
    (h : ∀ s, Capped limits (buildSection s) (buildSection' s)) (name part : Text) (args : List TokenList) :
    Capped limits (buildArguments source buildSection name part args)
      (buildArguments source buildSection' name part args) := by
  rw [buildArguments_eq, buildArguments_eq]
  refine .mapM (fun arg => ?_) args
  split
  · exact .error ErrorCode.noConfusion
  · exact h arg

/-- As long as no limit is exceeded, a section is built the same. -/
theorem capped_build (hle : limits ≤ limits') {levels levels' : Nat} (hlevels : levels ≤ levels') :
    Capped limits ((g.withLimits limits).build source gs levels l)
      ((g.withLimits limits').build source gs levels' l) := by
  induction levels generalizing levels' l with
  | zero =>
    have hover : limits.bound .treeDepth < (limits.treeDepth.toNat : Int) + 1 := by
      rw [Limits.bound]
      omega
    exact .limit _ (Limits.reports_exceeded hover _ _)
  | succ levels ih =>
    obtain ⟨levels', rfl⟩ : ∃ k, levels' = k + 1 := ⟨levels' - 1, by omega⟩
    have ih (s : TokenList) := @ih s levels' (by omega)
    rw [build_succ, build_succ]
    refine (capped_read hle).bind fun reading => ?_
    cases reading with
    | brackets inner => exact ih inner
    | reference name | number value => exact .ok _
    | call name args => exact (capped_buildArguments ih name l.text args).map _
    | operation position operator operands => exact (Capped.mapM ih operands).map _

theorem capped_parse (hle : limits ≤ limits') :
    Capped limits ((g.withLimits limits).parse source l) ((g.withLimits limits').parse source l) := by
  have hdepth : limits.treeDepth ≤ limits'.treeDepth := hle .treeDepth
  have hbuild := @capped_build _ g limits limits' source g.operators.groups.1 l hle limits.treeDepth.toNat
    limits'.treeDepth.toNat (by omega)
  exact hbuild.bind fun tree => (Capped.check hle .treeNodes _ _ _).bind fun _ => .ok tree

/-! ## Bounds of trees -/

/-- A tree is no higher than the levels that it is built with. -/
theorem height_le_of_build {levels : Nat} {t : Tree α} (h : g.build source gs levels l = .ok t) :
    t.height ≤ levels := by
  induction levels generalizing l t with
  | zero => cases h
  | succ levels ih =>
    have hbelow {sections : List TokenList} {ts : List (Tree α)}
        (hts : List.Forall₂ (fun s t => g.build source gs levels s = .ok t) sections ts) :
        1 + Tree.heightAll ts ≤ levels + 1 := by
      have hle : ∀ t ∈ ts, t.height ≤ levels := by
        intro t ht
        obtain ⟨i, hi, rfl⟩ := List.mem_iff_getElem.1 ht
        exact ih (hts.get (hts.length_eq ▸ hi) hi)
      have hall := Tree.heightAll_le hle
      omega
    obtain ⟨reading, -, ht⟩ := build_succ_eq_ok_iff.1 h
    cases reading with
    | brackets inner => exact Nat.le_succ_of_le (ih ht)
    | reference name | number value =>
      cases ht
      exact Nat.succ_le_succ (Nat.zero_le _)
    | call name args =>
      obtain ⟨ts, hts, rfl⟩ := treeOf_call_eq_ok_iff.1 ht
      exact hbelow (hts.imp fun _ _ h => h.2)
    | operation position operator operands =>
      obtain ⟨ts, hts, rfl⟩ := treeOf_operation_eq_ok_iff.1 ht
      exact hbelow hts

/-- The arguments of a call at the root of a tree are within the limit, if there are any. -/
theorem length_le_of_build {levels : Nat} {position : Int} {name : Text} {args : List (Tree α)}
    (h : g.build source gs levels l = .ok (.call position name args)) :
    args = [] ∨ args.length ≤ g.limits.callArguments := by
  obtain ⟨_, _, hread, hheads⟩ := exists_heads_of_build h
  cases hheads with
  | call _ _ hlength =>
    obtain ⟨-, _, hargs⟩ := call_of_read hread
    rcases splitBy_of_readArguments hargs with rfl | ⟨-, hle⟩
    · exact .inl (List.length_eq_zero_iff.1 hlength.symm)
    · rw [hlength] at hle
      exact .inr hle

/-- A tree that is parsed is within the limits. -/
theorem within_of_parse {t : Tree α} (h : g.parse source l = .ok t) :
    t.height ≤ g.limits.treeDepth ∧ t.nodeCount ≤ g.limits.treeNodes ∧
    ∀ path position name args, t.at? path = some (.call position name args) →
      args = [] ∨ args.length ≤ g.limits.callArguments := by
  have hbuild := build_of_parse h
  refine ⟨?_, ?_, fun path position name args hcall => ?_⟩
  · have hheight := height_le_of_build hbuild
    have hpos := t.height_pos
    omega
  · rw [parse, hbuild] at h
    cases hcheck : g.limits.check .treeNodes t.nodeCount (some l.position) (some source) with
    | error e =>
      simp only [bind, Except.bind, hcheck] at h
      cases h
    | ok _ => exact Limits.le_of_check hcheck
  · obtain ⟨s, levels, -, hs⟩ := exists_sectionAt hbuild hcall
    exact length_le_of_build hs

end Grammar

/-! ## Texts under limits -/

namespace Builder

variable {κ : Type} {b : Builder κ} {limits limits' : Limits} {text : Text}

theorem capped_checkLength (hle : limits ≤ limits') (text : Text) :
    Capped limits (limits.checkLength text) (limits'.checkLength text) := by
  have hbound : limits.expressionLength ≤ limits'.expressionLength := hle .expressionLength
  rw [Limits.checkLength, Limits.checkLength, Limits.check, Limits.check]
  by_cases h : limits.expressionLength < text.length
  · rw [Limits.bound, if_pos h]
    exact .limit _ (Limits.reports_exceeded h _ _)
  · rw [Limits.bound, Limits.bound, if_neg h, if_neg (by omega)]
    exact .ok ()

theorem checkBrackets_code {l : TokenList} {source : Text} {e : ExprError} (h : l.checkBrackets source = .error e) :
    e.code ≠ .limitExceeded := by
  rw [TokenList.checkBrackets] at h
  split at h
  · cases h
  · cases h
    exact ErrorCode.noConfusion
  · cases h
    exact ErrorCode.noConfusion

theorem capped_parse (b : Builder κ) (hle : limits ≤ limits') (text : Text) :
    Capped limits ((b.withLimits limits).parse text) ((b.withLimits limits').parse text) := by
  rw [parse_eq, parse_eq]
  refine (capped_checkLength hle text).bind fun _ => ?_
  have hbrackets : Capped limits ((b.tokenList text).checkBrackets text) ((b.tokenList text).checkBrackets text) :=
    .same fun e he => checkBrackets_code he
  exact hbrackets.bind fun _ => @Grammar.capped_parse _ b.grammar limits limits' text (b.tokenList text) hle

/-- A text that does not exceed the lower limits has the same outcome under the higher ones. -/
theorem build_eq_or_reports (b : Builder κ) (hle : limits ≤ limits') (text : Text) :
    (b.withLimits limits).build text = (b.withLimits limits').build text ∧
        (∀ e, (b.withLimits limits).build text = .error e → e.code ≠ .limitExceeded) ∨
      ∃ e, (b.withLimits limits).build text = .error (.error e) ∧ limits.Reports e := by
  have hparse := b.capped_parse hle text
  rw [build, build]
  by_cases hblank : text.isAllBlank = true
  · rw [if_pos hblank, if_pos hblank]
    refine .inl ⟨rfl, fun e he => ?_⟩
    cases he
    exact ErrorCode.noConfusion
  · rw [if_neg hblank, if_neg hblank]
    generalize (b.withLimits limits).parse text = r, (b.withLimits limits').parse text = r' at hparse
    cases hparse with
    | ok tree =>
      refine .inl ⟨rfl, fun e he => ?_⟩
      cases he
    | error hcode =>
      refine .inl ⟨rfl, fun e he => ?_⟩
      cases he
      exact hcode
    | limit r' hreports => exact .inr ⟨_, rfl, hreports⟩

/-- Under limits that are nowhere lower a text builds to the same expression, or fails with the same error unless the
error reports a limit, and then truly. An expression is within the limits, except that a call without arguments is not
counted. What a parser has parsed before, or failed to parse, makes no difference. -/
theorem build_withLimits (b : Builder κ) (hle : limits ≤ limits') (text : Text) :
    (∀ e, (b.withLimits limits).build text = .ok e → (b.withLimits limits').build text = .ok e ∧
      text.length ≤ limits.expressionLength ∧ e.tree.height ≤ limits.treeDepth ∧ e.tree.nodeCount ≤ limits.treeNodes ∧
      ∀ path position name args, e.tree.at? path = some (.call position name args) →
        args = [] ∨ args.length ≤ limits.callArguments) ∧
    (∀ e, (b.withLimits limits).build text = .error e → e.code ≠ .limitExceeded →
      (b.withLimits limits').build text = .error e) ∧
    (∀ e, (b.withLimits limits).build text = .error e → e.code = .limitExceeded →
      ∃ e', e = .error e' ∧ limits.Reports e') ∧
    ∀ (g : Grammar (Action κ)) (source : Text) (ls : List TokenList) (l : TokenList),
      ((ls.foldl (fun p l => (p.parse l).2) (Parser.fresh g source)).parse l).1 =
        ((Parser.fresh g source).parse l).1 := by
  refine ⟨fun e he => ?_, fun e he hcode => ?_, fun e he hcode => ?_, fun g source ls l => ?_⟩
  · obtain ⟨-, hlength, -, htree, -⟩ := steps_of_build he
    refine ⟨?_, Limits.le_of_check hlength, Grammar.within_of_parse htree⟩
    rcases b.build_eq_or_reports hle text with ⟨heq, -⟩ | ⟨e', he', -⟩
    · rw [← heq, he]
    · rw [he] at he'
      cases he'
  · rcases b.build_eq_or_reports hle text with ⟨heq, -⟩ | ⟨e', he', hreports⟩
    · rw [← heq, he]
    · rw [he] at he'
      cases he'
      exact absurd hreports.code_eq hcode
  · rcases b.build_eq_or_reports hle text with ⟨-, hne⟩ | ⟨e', he', hreports⟩
    · exact absurd hcode (hne e he)
    · rw [he] at he'
      cases he'
      exact ⟨e', rfl, hreports⟩
  · rw [Parser.parse_again]

theorem groups_standard_withLimits (limits : Limits) :
    ((standard (κ := Unit) {}).withLimits limits).grammar.operators.groups.1 =
      ((standard (κ := Unit) {}).operators.operators.foldl (fun gs o => Registry.addToGroups o gs) []).insertionSort
        fun a b => Priority.rank a.priority ≤ Priority.rank b.priority := groups_standard

/-- Limits that `max(e, 1) + 2` just keeps to. -/
def limitsSample : Limits := { expressionLength := 13, treeDepth := 3, treeNodes := 5, callArguments := 2 }

theorem build_withLimits_sample : limitsSample ≤ {} ∧ ∃ e : Expression Unit,
    ((standard (κ := Unit) {}).withLimits limitsSample).build "max(e, 1) + 2".toList = .ok e ∧
    ((standard (κ := Unit) {}).withLimits {}).build "max(e, 1) + 2".toList = .ok e ∧
    e.tree.height ≤ (3 : Int) ∧ e.tree.nodeCount ≤ (5 : Int) := by
  have hle : limitsSample ≤ {} := by
    intro which
    cases which <;> decide
  have hok : (((standard (κ := Unit) {}).withLimits limitsSample).build "max(e, 1) + 2".toList).isOk = true := by
    simp only [build, parse_eq, Grammar.parse, groups_standard_withLimits]
    decide +kernel
  obtain ⟨e, he⟩ := exists_of_isOk hok
  obtain ⟨hsame, -, hheight, hcount, -⟩ := (build_withLimits (standard {}) hle _).1 e he
  exact ⟨hle, e, he, hsame, hheight, hcount⟩

/-- A negative limit of the arguments lets a call pass that has none. -/
theorem build_uncounted : ∃ (e : Expression Unit) (position : Int) (name : Text),
    ((standard (κ := Unit) {}).withLimits { callArguments := -1 }).build "max()".toList = .ok e ∧
      e.tree.at? [] = some (.call position name []) ∧ ¬ ([] : List (Tree (Action Unit))).length ≤ (-1 : Int) := by
  have hcall : (((standard (κ := Unit) {}).withLimits { callArguments := -1 }).build "max()".toList).toOption.any
      (·.tree.isEmptyCall) = true := by
    simp only [build, parse_eq, Grammar.parse, groups_standard_withLimits]
    decide +kernel
  cases he : ((standard (κ := Unit) {}).withLimits { callArguments := -1 }).build "max()".toList with
  | error e =>
    rw [he] at hcall
    cases hcall
  | ok e =>
    rw [he] at hcall
    obtain ⟨position, name, htree⟩ := Tree.exists_of_isEmptyCall hcall
    exact ⟨e, position, name, rfl, congrArg some htree, by decide⟩

end Builder

end Mixfix
