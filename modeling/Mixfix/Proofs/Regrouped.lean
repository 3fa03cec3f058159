import Mixfix.Proofs.Reading

/-!
# Groups that are taken apart

What a scan finds depends on which paths of a trie hold an operator, and not on the operators (`Scan.seek_congr`). So
groups may be replaced by others that hold changed operators at the same tokens, and a group may be replaced by two: the
right-associative operators first, and all others behind them (`Group.Regrouped`). The left-associative operators of the
group stand around a right-associative one of it in the one case, and in the other those of a group that binds tighter;
either way they enclose it. So a section is read as before, with the changed operator at its root
(`Grammar.read_regrouped`), and by induction on the levels the trees are the same but for the change
(`Grammar.parse_regrouped`).
-/

namespace Mixfix

variable {α : Type}

/-! ## Changed operators -/

/-- The root with its operator changed. -/
def Reading.onOperators (f : Operator α → Operator α) : Reading α → Reading α
  | .operation position o operands => .operation position (f o) operands
  | reading => reading

namespace Tree

mutual

/-- The tree with all operators changed. -/
def onOperators (f : Operator α → Operator α) : Tree α → Tree α
  | number p v => number p v
  | reference p name => reference p name
  | call p name args => call p name (onOperatorsAll f args)
  | operation p o operands => operation p (f o) (onOperatorsAll f operands)
  | unknown p kind => unknown p kind

/-- The trees with all operators changed. -/
def onOperatorsAll (f : Operator α → Operator α) : List (Tree α) → List (Tree α)
  | [] => []
  | t :: ts => onOperators f t :: onOperatorsAll f ts

end

variable {f f' : Operator α → Operator α}

theorem onOperatorsAll_eq_map (ts : List (Tree α)) : onOperatorsAll f ts = ts.map (onOperators f) := by
  induction ts with
  | nil => rfl
  | cons t ts ih => rw [onOperatorsAll, ih, List.map_cons]

mutual

theorem nodeCount_onOperators : (t : Tree α) → (t.onOperators f).nodeCount = t.nodeCount
  | number _ _ | reference _ _ | unknown _ _ => rfl
  | call p name args => by rw [onOperators, nodeCount, nodeCount, nodeCountAll_onOperatorsAll args]
  | operation p o operands => by rw [onOperators, nodeCount, nodeCount, nodeCountAll_onOperatorsAll operands]

theorem nodeCountAll_onOperatorsAll : (ts : List (Tree α)) → nodeCountAll (onOperatorsAll f ts) = nodeCountAll ts
  | [] => rfl
  | t :: ts => by
    rw [onOperatorsAll, nodeCountAll, nodeCountAll, nodeCount_onOperators t, nodeCountAll_onOperatorsAll ts]

end

mutual

/-- One change after another is a change. -/
theorem onOperators_onOperators : (t : Tree α) → (t.onOperators f).onOperators f' = t.onOperators (f' ∘ f)
  | number _ _ | reference _ _ | unknown _ _ => rfl
  | call p name args => by
    rw [onOperators, onOperators, onOperators, onOperatorsAll_onOperatorsAll args]
  | operation p o operands => by
    rw [onOperators, onOperators, onOperators, onOperatorsAll_onOperatorsAll operands]
    rfl

theorem onOperatorsAll_onOperatorsAll : (ts : List (Tree α)) →
    onOperatorsAll f' (onOperatorsAll f ts) = onOperatorsAll (f' ∘ f) ts
  | [] => rfl
  | t :: ts => by
    rw [onOperatorsAll, onOperatorsAll, onOperatorsAll, onOperators_onOperators t, onOperatorsAll_onOperatorsAll ts]

end

end Tree

/-! ## Tries that hold items at the same paths -/

namespace Trie

variable {κ : Type} [BEq κ] [LawfulBEq κ] {t t' : Trie κ α}

/-- Both tries hold items at the same paths. -/
structure SamePaths (t t' : Trie κ α) : Prop where
  distinct : t.Distinct
  distinct' : t'.Distinct
  isSome_eq : ∀ path, (t'.get? path).isSome = (t.get? path).isSome

namespace SamePaths

omit [LawfulBEq κ] in
theorem get?_eq_none_iff (h : t.SamePaths t') (path : List κ) : t'.get? path = none ↔ t.get? path = none := by
  rw [← Option.not_isSome_iff_eq_none, ← Option.not_isSome_iff_eq_none, h.isSome_eq]

omit [LawfulBEq κ] in
theorem hasRootItem_eq (h : t.SamePaths t') : t'.hasRootItem = t.hasRootItem := h.isSome_eq []

theorem isEmpty_eq (h : t.SamePaths t') : t'.isEmpty = t.isEmpty := by
  rw [Bool.eq_iff_iff, isEmpty_iff h.distinct', isEmpty_iff h.distinct]
  exact forall_congr' h.get?_eq_none_iff

/-- An edge can be followed in both tries or in neither. -/
theorem follow? (h : t.SamePaths t') (k : κ) : t.follow? k = none ∧ t'.follow? k = none ∨
    ∃ b b', t.follow? k = some b ∧ t'.follow? k = some b' ∧ b.SamePaths b' := by
  have hnone : t'.follow? k = none ↔ t.follow? k = none := by
    rw [follow?_eq_none_iff h.distinct', follow?_eq_none_iff h.distinct]
    exact forall_congr' fun path => h.get?_eq_none_iff (k :: path)
  cases hb : t.follow? k with
  | none => exact .inl ⟨rfl, hnone.2 hb⟩
  | some b =>
    have hne : t'.follow? k ≠ none := fun hb' => by simp [hb] at hnone; exact hnone hb'
    obtain ⟨b', hb'⟩ := Option.ne_none_iff_exists'.1 hne
    refine .inr ⟨b, b', rfl, hb', h.distinct.follow? hb, h.distinct'.follow? hb', fun path => ?_⟩
    rw [get?_of_follow? hb, get?_of_follow? hb', h.isSome_eq]

end SamePaths

end Trie

/-- What is found depends only on the paths that hold an item. -/
theorem Scan.seek_congr {root root' node node' : Trie Text α} (hroot : root.SamePaths root')
    (hnode : node.SamePaths node') (n : Nat) (ss : List Site) : seek root' node' n ss = seek root node n ss := by
  induction ss generalizing root root' node node' n with
  | nil => rw [seek_nil, seek_nil]
  | cons s ss ih =>
    cases n with
    | succ n => rw [seek, seek, ih hroot hnode]
    | zero =>
      rcases hnode.follow? s.text with ⟨hnone, hnone'⟩ | ⟨next, next', hnext, hnext', h⟩
      · rcases hroot.follow? s.text with ⟨hr, hr'⟩ | ⟨begun, begun', hbegun, hbegun', hb⟩
        · rw [seek_other hnone hr, seek_other hnone' hr', ih hroot hnode]
        · simp only [seek, hnone, hnone', hbegun, hbegun', hb.hasRootItem_eq, ih hb hb, ih hroot hb, ih hroot hnode]
      · simp only [seek, hnext, hnext', h.hasRootItem_eq, ih h h, ih hroot h]

/-! ## Groups that share operators -/

namespace Group

variable {f : Operator α → Operator α} {g g' right rest : Group α} {gs gs' : List (Group α)} {a b : Bool}
  {marks : List Mark} {skip : Nat → Bool}

/-- The second group has the changed operators of the first: the right-associative ones, or all others, or both. -/
structure Shares (f : Operator α → Operator α) (rights others : Bool) (g g' : Group α) : Prop where
  sound : g.Sound
  sound' : g'.Sound
  right_eq : ∀ ts, g'.right.get? ts = if rights then (g.right.get? ts).map f else none
  left_eq : ∀ ts, g'.left.get? ts = if others then (g.left.get? ts).map f else none
  prefixOps_eq : ∀ t, g'.prefixOps.get? t = if others then (g.prefixOps.get? t).map f else none
  postfixOps_eq : ∀ t, g'.postfixOps.get? t = if others then (g.postfixOps.get? t).map f else none

/-- The groups of the second list have the changed operators of the first list, and some groups of the first list are
two in the second: the right-associative operators, and behind them all others. -/
inductive Regrouped (f : Operator α → Operator α) : List (Group α) → List (Group α) → Prop
  | nil : Regrouped f [] []
  | cons {g g' : Group α} {gs gs' : List (Group α)} : Shares f true true g g' → Regrouped f gs gs' →
      Regrouped f (g :: gs) (g' :: gs')
  | split {g right rest : Group α} {gs gs' : List (Group α)} :
      Shares f true false g right → Shares f false true g rest → Regrouped f gs gs' →
      Regrouped f (g :: gs) (right :: rest :: gs')

namespace Shares

theorem scanRight_eq (h : Shares f a b g g') :
    Grammar.scanRight g' marks skip = if a then Grammar.scanRight g marks skip else none := by
  cases a with
  | false =>
    have hempty : g'.right.isEmpty = true := (Trie.isEmpty_iff h.sound'.right_distinct).2 h.right_eq
    exact if_pos hempty
  | true =>
    have hpaths : g.right.SamePaths g'.right :=
      ⟨h.sound.right_distinct, h.sound'.right_distinct, fun ts => by rw [h.right_eq]; simp⟩
    rw [Grammar.scanRight, hpaths.isEmpty_eq, Scan.forward_eq, Scan.seek_congr hpaths hpaths, ← Scan.forward_eq]
    rfl

theorem scanLeft_eq (h : Shares f a b g g') :
    Grammar.scanLeft g' marks skip = if b then Grammar.scanLeft g marks skip else none := by
  cases b with
  | false =>
    have hempty : g'.left.isEmpty = true := (Trie.isEmpty_iff h.sound'.left_distinct).2 h.left_eq
    exact if_pos hempty
  | true =>
    have hpaths : g.left.SamePaths g'.left :=
      ⟨h.sound.left_distinct, h.sound'.left_distinct, fun ts => by rw [h.left_eq]; simp⟩
    have hreversed : g.leftReversed.SamePaths g'.leftReversed := by
      refine ⟨h.sound.reversed_distinct, h.sound'.reversed_distinct, fun ts => ?_⟩
      rw [h.sound'.reversed, h.sound.reversed, hpaths.isSome_eq]
    rw [Grammar.scanLeft, hpaths.isEmpty_eq, Scan.backward_last, Scan.seek_congr hreversed hreversed,
      ← Scan.backward_last]
    rfl

end Shares

/-- Whether an operator stands around some indices, apart from those that are ignored: a left-associative one of the
first group, or any of the others. -/
def anyEncloses (marks : List Mark) (skip : Nat → Bool) (first last : Nat) (same : Option (Group α))
    (tighter : List (Group α)) : Bool :=
  (same.any fun group => Grammar.encloses first last (Grammar.scanLeft group marks skip)) ||
    tighter.any fun group => Grammar.encloses first last (Grammar.scanRight group marks skip) ||
      Grammar.encloses first last (Grammar.scanLeft group marks skip)

theorem Regrouped.anyEncloses_eq (h : Regrouped f gs gs') (first last : Nat) :
    anyEncloses marks skip first last none gs' = anyEncloses marks skip first last none gs := by
  simp only [anyEncloses, Option.any_none, Bool.false_or]
  induction h with
  | nil => rfl
  | cons hg _ ih => rw [List.any_cons, List.any_cons, hg.scanRight_eq, hg.scanLeft_eq, ih]; rfl
  | split hright hrest _ ih =>
    rw [List.any_cons, List.any_cons, List.any_cons, hright.scanRight_eq, hright.scanLeft_eq, hrest.scanRight_eq,
      hrest.scanLeft_eq, ih]
    simp [Grammar.encloses, Bool.or_assoc]

theorem anyEncloses_some (first last : Nat) : anyEncloses marks skip first last (some g) gs =
    (Grammar.encloses first last (Grammar.scanLeft g marks skip) || anyEncloses marks skip first last none gs) := by
  simp [anyEncloses]

end Group

/-! ## Registries that tell tokens alike -/

namespace Registry

variable {r r' : Registry α}

/-- Both registries have the same operator tokens, and tell alike what kinds of operators these are of. -/
structure TellsAlike (r r' : Registry α) : Prop where
  isOperatorToken : r'.isOperatorToken = r.isOperatorToken
  isPrefixToken : r'.isPrefixToken = r.isPrefixToken
  isPostfixToken : r'.isPostfixToken = r.isPostfixToken
  isInfixToken : r'.isInfixToken = r.isInfixToken

theorem TellsAlike.canBeInfix_eq (h : r.TellsAlike r') (before behind : List Token) :
    r'.canBeInfix before behind = r.canBeInfix before behind := by
  simp only [canBeInfix, hasOperandBeyond, runBeside, h.isOperatorToken, h.isPrefixToken, h.isPostfixToken]

theorem TellsAlike.ofTokens_eq (h : r.TellsAlike r') (ts : List Token) : Mark.ofTokens r' ts = Mark.ofTokens r ts := by
  have hfrom (before : List Token) : Mark.ofTokensFrom r' before ts = Mark.ofTokensFrom r before ts := by
    induction ts generalizing before with
    | nil => rfl
    | cons t ts ih => simp only [Mark.ofTokensFrom, Mark.ofToken, h.canBeInfix_eq, h.isInfixToken, ih]
  exact hfrom []

end Registry

namespace Grammar

open Mixfix.Group

variable {g : Grammar α} {r' : Registry α} {f : Operator α → Operator α} {source : Text} {l : TokenList}
  {group group' : Group α} {gs gs' tighter tighter' : List (Group α)} {marks : List Mark} {a b : Bool}
  {same same' : Option (Group α)}

/-! ## Reading -/

/-- The grammar with other operators. -/
def withOperators (g : Grammar α) (r : Registry α) : Grammar α := { g with operators := r }

theorem checkEnds_withOperators (h : g.operators.TellsAlike r') :
    (g.withOperators r').checkEnds source l = g.checkEnds source l := by
  simp only [checkEnds, withOperators, h.isOperatorToken, h.isPrefixToken, h.isPostfixToken]

theorem readCall?_withOperators (h : g.operators.TellsAlike r') :
    (g.withOperators r').readCall? source l = g.readCall? source l := by
  simp only [readCall?, readArguments, withOperators, h.isOperatorToken]

theorem isEnclosed_withOperators (h : g.operators.TellsAlike r') {tokens : List Token} {points : List Nat}
    (henclosed : ∀ first last skip, anyEncloses marks skip first last same' tighter' =
      anyEncloses marks skip first last same tighter) :
    (g.withOperators r').isEnclosed tokens marks points same' tighter' =
      g.isEnclosed tokens marks points same tighter := by
  have hrun (first last : Nat) : (g.withOperators r').runAround tokens first last = g.runAround tokens first last := by
    simp only [runAround, withOperators, Registry.runBeside, h.isOperatorToken]
  rw [isEnclosed, isEnclosed]
  cases points.head? with
  | none => rfl
  | some first =>
    cases points.getLast? with
    | none => rfl
    | some last =>
      simp only [hrun]
      exact henclosed first last _

theorem infixOperation?_map {t t' : Trie Text (Operator α)} (h : ∀ ts, t'.get? ts = (t.get? ts).map f)
    (points : List Nat) : infixOperation? l t' points = (infixOperation? l t points).map (Reading.onOperators f) := by
  rw [infixOperation?, infixOperation?, h]
  cases t.get? (points.filterMap fun i => (l.tokens[i]?).bind Token.fixed?) <;> rfl

/-- A right-associative root is the same, if what stands at some indices is enclosed as before. -/
theorem readRight?_of_shares (h : g.operators.TellsAlike r') (hs : Shares f true b group group')
    (henclosed : ∀ first last skip, anyEncloses marks skip first last (some group') tighter' =
      anyEncloses marks skip first last (some group) tighter) :
    (g.withOperators r').readRight? l marks group' tighter' =
      (g.readRight? l marks group tighter).map (Reading.onOperators f) := by
  rw [readRight?, readRight?, hs.scanRight_eq, if_pos rfl]
  cases scanRight group marks fun _ => false with
  | none => rfl
  | some points =>
    simp only [bind, Option.bind_some, isEnclosed_withOperators h henclosed]
    split
    · rfl
    · exact infixOperation?_map hs.right_eq points

theorem readRight?_of_shares_others (hs : Shares f false b group group') :
    g.readRight? l marks group' tighter = none := by
  rw [readRight?, hs.scanRight_eq]
  rfl

/-- A left-associative root is the same, if what stands at some indices is enclosed as before. -/
theorem readLeft?_of_shares (h : g.operators.TellsAlike r') (hs : Shares f a true group group')
    (henclosed : ∀ first last skip, anyEncloses marks skip first last none tighter' =
      anyEncloses marks skip first last none tighter) :
    (g.withOperators r').readLeft? l marks group' tighter' =
      (g.readLeft? l marks group tighter).map (Reading.onOperators f) := by
  rw [readLeft?, readLeft?, hs.scanLeft_eq, if_pos rfl]
  cases scanLeft group marks fun _ => false with
  | none => rfl
  | some points =>
    simp only [bind, Option.bind_some, isEnclosed_withOperators h henclosed]
    split
    · rfl
    · exact infixOperation?_map hs.left_eq points

theorem readLeft?_of_shares_rights (hs : Shares f a false group group') :
    g.readLeft? l marks group' tighter = none := by
  rw [readLeft?, hs.scanLeft_eq]
  rfl

theorem readPrefix?_of_shares (hs : Shares f a b group group') :
    readPrefix? l group' = if b then (readPrefix? l group).map (Reading.onOperators f) else none := by
  rw [readPrefix?, readPrefix?]
  cases hfirst : l.first?.bind Token.fixed? with
  | none => cases b <;> rfl
  | some t =>
    simp only [bind, Option.bind_some, hs.prefixOps_eq]
    cases b with
    | false => rfl
    | true =>
      cases group.prefixOps.get? t with
      | none => rfl
      | some o => simp only [if_true, Option.map_some, Option.bind_some]; split <;> rfl

theorem readPostfix?_of_shares (hs : Shares f a b group group') :
    readPostfix? l group' = if b then (readPostfix? l group).map (Reading.onOperators f) else none := by
  rw [readPostfix?, readPostfix?]
  cases hlast : l.last?.bind Token.fixed? with
  | none => cases b <;> rfl
  | some t =>
    simp only [bind, Option.bind_some, hs.postfixOps_eq]
    cases b with
    | false => rfl
    | true =>
      cases group.postfixOps.get? t with
      | none => rfl
      | some o => simp only [if_true, Option.map_some, Option.bind_some]; split <;> rfl

/-- Going through the groups comes to the same root. -/
theorem readOperation?_regrouped (h : g.operators.TellsAlike r') (hgs : Regrouped f gs gs') :
    (g.withOperators r').readOperation? l marks gs' = (g.readOperation? l marks gs).map (Reading.onOperators f) := by
  induction hgs with
  | nil => rfl
  | @cons group group' gs gs' hs hgs ih =>
    have hleft (first last : Nat) (skip : Nat → Bool) := @Regrouped.anyEncloses_eq _ f gs gs' marks skip hgs first last
    have hright (first last : Nat) (skip : Nat → Bool) : anyEncloses marks skip first last (some group') gs' =
        anyEncloses marks skip first last (some group) gs := by
      rw [anyEncloses_some, anyEncloses_some, hs.scanLeft_eq, hleft]
      rfl
    simp only [readOperation?, Option.orElse_eq_or, Option.map_or, readRight?_of_shares h hs hright,
      readLeft?_of_shares h hs hleft, readPrefix?_of_shares hs, readPostfix?_of_shares hs, ih, if_true]
  | @split group right rest gs gs' hright hrest hgs ih =>
    have hleft (first last : Nat) (skip : Nat → Bool) := @Regrouped.anyEncloses_eq _ f gs gs' marks skip hgs first last
    -- the left-associative operators of the group come to be those of the tighter one of the two
    have hboth (first last : Nat) (skip : Nat → Bool) : anyEncloses marks skip first last (some right) (rest :: gs') =
        anyEncloses marks skip first last (some group) gs := by
      rw [anyEncloses_some, anyEncloses_some, ← hleft, hright.scanLeft_eq, anyEncloses, anyEncloses, List.any_cons,
        hrest.scanRight_eq, hrest.scanLeft_eq]
      simp [encloses]
    simp only [readOperation?, Option.orElse_eq_or, Option.map_or, readRight?_of_shares h hright hboth,
      readLeft?_of_shares_rights hright, readPrefix?_of_shares hright, readPostfix?_of_shares hright,
      readRight?_of_shares_others hrest, readLeft?_of_shares h hrest hleft, readPrefix?_of_shares hrest,
      readPostfix?_of_shares hrest, ih, if_true, if_false, Option.none_or, Bool.false_eq_true]

/-- A section is read as before, with the changed operator at its root. -/
theorem read_regrouped (h : g.operators.TellsAlike r') (hgs : Regrouped f gs gs') :
    (g.withOperators r').read source gs' l = (g.read source gs l).map (Reading.onOperators f) := by
  have hbare : (g.withOperators r').readBare source gs' l =
      (g.readBare source gs l).map (Reading.onOperators f) := by
    have hmarks : Mark.ofTokens (g.withOperators r').operators l.tokens = Mark.ofTokens g.operators l.tokens :=
      h.ofTokens_eq l.tokens
    rw [readBare_eq, readBare_eq, readCall?_withOperators h, hmarks, readOperation?_regrouped h hgs]
    show (if g.vars.contains l.trimmedText then _ else _) = _
    split
    · rfl
    · cases hcall : g.readCall? source l with
      | error e => rfl
      | ok call? =>
        cases call? with
        | some call =>
          obtain ⟨i, parts, -, -, -, -, -, rfl⟩ := call_of_readCall? hcall
          rfl
        | none =>
          cases g.readOperation? l (Mark.ofTokens g.operators l.tokens) gs with
          | some operation => rfl
          | none => cases readNumber? l.text <;> rfl
  rw [read, read, checkEnds_withOperators h, hbare]
  cases g.checkEnds source l with
  | error e => rfl
  | ok _ =>
    simp only [bind, Except.bind]
    split <;> rfl

/-! ## Building -/

/-- Mapping what is built of each section maps what is built of all. -/
theorem mapM_map {buildSection : TokenList → Except ExprError (Tree α)} {φ : Tree α → Tree α} (ss : List TokenList) :
    ss.mapM (fun s => (buildSection s).map φ) = (ss.mapM buildSection).map (List.map φ) := by
  induction ss with
  | nil => rfl
  | cons s ss ih =>
    rw [List.mapM_cons, List.mapM_cons, ih]
    cases buildSection s with
    | error e => rfl
    | ok t => cases ss.mapM buildSection <;> rfl

theorem buildArguments_map {buildSection : TokenList → Except ExprError (Tree α)} {φ : Tree α → Tree α}
    (name part : Text)
    (args : List TokenList) : buildArguments source (fun s => (buildSection s).map φ) name part args =
      (buildArguments source buildSection name part args).map (List.map φ) := by
  rw [buildArguments_eq, buildArguments_eq, ← mapM_map]
  congr 1
  funext arg
  split <;> rfl

theorem treeOf_map {buildSection : TokenList → Except ExprError (Tree α)} (reading : Reading α) :
    @treeOf α source (fun s => (buildSection s).map (Tree.onOperators f)) l (reading.onOperators f) =
      (@treeOf α source buildSection l reading).map (Tree.onOperators f) := by
  cases reading with
  | brackets inner => rfl
  | reference name | number value => rfl
  | call name args =>
    simp only [Reading.onOperators, treeOf, buildArguments_map]
    cases buildArguments source buildSection name l.text args with
    | error e => rfl
    | ok ts => simp [Except.map, Tree.onOperators, Tree.onOperatorsAll_eq_map]
  | operation position o operands =>
    simp only [Reading.onOperators, treeOf, mapM_map]
    cases operands.mapM buildSection with
    | error e => rfl
    | ok ts => simp [Except.map, Tree.onOperators, Tree.onOperatorsAll_eq_map]

theorem build_regrouped (h : g.operators.TellsAlike r') (hgs : Regrouped f gs gs') (levels : Nat) (l : TokenList) :
    (g.withOperators r').build source gs' levels l = (g.build source gs levels l).map (Tree.onOperators f) := by
  induction levels generalizing l with
  | zero => rfl
  | succ levels ih =>
    rw [build_succ, build_succ, read_regrouped h hgs, funext ih]
    cases g.read source gs l with
    | error e => rfl
    | ok reading => exact treeOf_map reading

/-- A list parses as before, with the operators of the tree changed, or fails with the same error. -/
theorem parse_regrouped (h : g.operators.TellsAlike r') (hgs : Regrouped f g.operators.groups.1 r'.groups.1) :
    (g.withOperators r').parse source l = (g.parse source l).map (Tree.onOperators f) := by
  have hbuild := @build_regrouped _ g r' f source _ _ h hgs g.limits.treeDepth.toNat l
  rw [parse, parse]
  show ((g.withOperators r').build source r'.groups.1 g.limits.treeDepth.toNat l).bind _ = _
  rw [hbuild]
  cases g.build source g.operators.groups.1 g.limits.treeDepth.toNat l with
  | error e => rfl
  | ok tree =>
    simp only [Except.map, Except.bind, bind, Tree.nodeCount_onOperators]
    cases hcheck : g.limits.check .treeNodes tree.nodeCount (some l.position) (some source) with
    | error e => simp [withOperators, hcheck]
    | ok _ => simp [withOperators, hcheck, pure, Except.pure]

end Grammar

end Mixfix
