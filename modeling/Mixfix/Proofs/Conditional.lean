import Mixfix.Proofs.Derivable
import Mixfix.Proofs.Flat
import Mixfix.Proofs.Operations

/-!
# An operator of two tokens that binds loosest

A registry whose only infix operator of two tokens groups to the right and binds looser than everything else
(`Registry.Conditional`). The first such operator outside of brackets is the root of derivable tokens
(`Grammar.readOperation?_ternary`); where there is none, the root is that of the other groups, which are flat
(`Grammar.readOperation?_of_simple`).

Whatever root is chosen, the sections below it are derivable (`Grammar.readOperation?_of_derivable`), so the parser
never rejects derivable tokens though it does not take back what it has chosen.
-/

namespace Mixfix

variable {α : Type}

open Priority

namespace Registry

/-- The operator `o` of the tokens `q` and `c` groups to the right and binds looser than all others; these have one
token each, if they stand between operands, and no token of `o`. -/
structure Conditional (r : Registry α) (q c : Text) (o : Operator α) : Prop extends r.Separate where
  get?_eq : r.infixOps.get? [q, c] = some o
  fixity_eq : o.fixity = .infixed .right
  lowest : ∀ o' ∈ r.operators, o' ≠ o → o.priority < o'.priority
  single : ∀ o' ∈ r.operators, o' ≠ o → (∃ a, o'.fixity = .infixed a) → ∃ t, o'.tokens = [t]
  exclusive : ∀ t ∈ [q, c], r.isPrefixToken (.fixed t) = false ∧ r.isPostfixToken (.fixed t) = false
  notNaN : ∀ o' ∈ r.operators, o'.priority.isNaN = false

namespace Conditional

variable {r : Registry α} {q c : Text} {o : Operator α}

theorem mem (h : r.Conditional q c o) : o ∈ r.operators := h.mem_of_infix h.get?_eq

theorem tokens_eq (h : r.Conditional q c o) : o.tokens = [q, c] := (h.infix_eq _ _ h.get?_eq).2.1

/-- What is filed under two tokens is the operator. -/
theorem eq_of_pair (h : r.Conditional q c o) {s t : Text} (hst : (r.infixOps.get? [s, t]).isSome = true) :
    s = q ∧ t = c := by
  obtain ⟨o', ho'⟩ := Option.isSome_iff_exists.1 hst
  obtain ⟨hf, htokens, -⟩ := h.infix_eq _ _ ho'
  by_cases heq : o' = o
  · rw [heq, h.tokens_eq] at htokens
    simpa [eq_comm] using htokens
  · obtain ⟨u, hu⟩ := h.single o' (h.mem_of_infix ho') heq hf
    rw [hu] at htokens
    cases htokens

theorem upToTernary (h : r.Conditional q c o) : r.UpToTernary := by
  intro ts hts
  obtain ⟨o', ho'⟩ := Option.isSome_iff_exists.1 hts
  obtain ⟨hf, htokens, -⟩ := h.infix_eq _ _ ho'
  by_cases heq : o' = o
  · exact Or.inr ⟨q, c, by rw [← htokens, heq, h.tokens_eq]⟩
  · obtain ⟨u, hu⟩ := h.single o' (h.mem_of_infix ho') heq hf
    exact Or.inl ⟨u, by rw [← htokens, hu]⟩

theorem toExclusive (h : r.Conditional q c o) : r.Exclusive := by
  intro s t u hst hu
  obtain ⟨rfl, rfl⟩ := h.eq_of_pair hst
  exact h.exclusive u hu

theorem lt_rank (h : r.Conditional q c o) {o' : Operator α} (ho' : o' ∈ r.operators) (hne : o' ≠ o) :
    rank o.priority < rank o'.priority :=
  (lt_iff (h.notNaN o h.mem) (h.notNaN o' ho')).1 (h.lowest o' ho' hne)

/-! ### The groups -/

/-- The groups before the one of the operator hold nothing, its own holds nothing else, and those behind it are flat. -/
structure Leads (r : Registry α) (o : Operator α) (pre : List (Group α)) (group : Group α) (post : List (Group α)) :
    Prop where
  groups_eq : r.groups.1 = pre ++ group :: post
  before : ∀ group' ∈ pre, ∀ f ts, group'.get? f ts = none
  holds : group.Holds o
  only : ∀ f ts o', group.get? f ts = some o' → o' = o
  behind : ∀ group' ∈ post, group'.IsFlat

theorem exists_leads (h : r.Conditional q c o) : ∃ pre group post, Leads r o pre group post := by
  obtain ⟨group, hm, hholds⟩ := h.exists_holds h.mem
  obtain ⟨pre, post, hgs⟩ := List.append_of_mem hm
  have hpair := h.pairwise_groups h.notNaN
  rw [hgs] at hpair
  obtain ⟨-, hpost, hpre⟩ := List.pairwise_append.1 hpair
  have hrank := h.rank_eq_of_holds h.notNaN hm hholds
  -- what a group holds has the rank of the group
  have hheld {group' : Group α} (hm' : group' ∈ r.groups.1) {f : Fixity} {ts : List Text} {o' : Operator α}
      (ho' : group'.get? f ts = some o') : o' ∈ r.operators ∧ o'.fixity = f ∧ o'.tokens = ts ∧
        rank o'.priority = rank group'.priority := by
    obtain ⟨hmem, hf, htokens⟩ := h.consistent hm' f ts o' ho'
    exact ⟨hmem, hf, htokens, h.rank_eq_of_holds h.notNaN hm' (by rw [Group.Holds, hf, htokens]; exact ho')⟩
  refine ⟨pre, group, post, hgs, fun group' hm' f ts => ?_, hholds, fun f ts o' ho' => ?_, fun group' hm' => ?_⟩
  · refine Option.eq_none_iff_forall_ne_some.2 fun o' ho' => ?_
    obtain ⟨hmem, -, -, hrank'⟩ := hheld (by rw [hgs]; exact List.mem_append_left _ hm') ho'
    have hlt := hpre group' hm' group List.mem_cons_self
    rw [← hrank', ← hrank] at hlt
    by_cases heq : o' = o
    · rw [heq] at hlt
      exact lt_irrefl _ hlt
    · exact lt_asymm hlt (h.lt_rank hmem heq)
  · refine Classical.byContradiction fun heq => ?_
    obtain ⟨hmem, -, -, hrank'⟩ := hheld hm ho'
    have hlt := h.lt_rank hmem heq
    rw [hrank, hrank'] at hlt
    exact lt_irrefl _ hlt
  · have hmem' : group' ∈ r.groups.1 := by rw [hgs]; exact List.mem_append_right _ (List.mem_cons_of_mem _ hm')
    refine (h.sound hmem').isFlat fun a ts o' ho' => ?_
    obtain ⟨hmem, hf, htokens, hrank'⟩ := hheld hmem' ho'
    have hlt := (List.pairwise_cons.1 hpost).1 group' hm'
    rw [← hrank', ← hrank] at hlt
    rw [← htokens]
    exact h.single o' hmem (fun heq => by rw [heq] at hlt; exact lt_irrefl _ hlt) ⟨a, hf⟩

variable {pre post : List (Group α)} {group : Group α}

theorem Leads.mem (h : Leads r o pre group post) : group ∈ r.groups.1 := by
  rw [h.groups_eq]
  exact List.mem_append_right _ List.mem_cons_self

/-- Some flat group holds each of the other operators. -/
theorem Leads.exists_holds (hr : r.Conditional q c o) (h : Leads r o pre group post) {o' : Operator α}
    (ho' : o' ∈ r.operators) (hne : o' ≠ o) : ∃ group' ∈ post, group'.Holds o' := by
  obtain ⟨group', hm, hholds⟩ := hr.exists_holds ho'
  rw [h.groups_eq] at hm
  rcases List.mem_append.1 hm with hm | hm
  · rw [Group.Holds, h.before group' hm] at hholds
    cases hholds
  · rcases List.mem_cons.1 hm with rfl | hm
    · exact absurd (h.only _ _ _ hholds) hne
    · exact ⟨group', hm, hholds⟩

end Conditional

end Registry

namespace Grammar

variable {g : Grammar α} {source : Text} {l : TokenList} {gs pre post : List (Group α)} {group : Group α}
  {r : Registry α} {q c : Text} {o : Operator α}

/-! ## Groups that are passed over -/

/-- A group in which nothing is found is passed over. -/
theorem readOperation?_skip (hright : scanRight group (Mark.ofTokens r l.tokens) (fun _ => false) = none)
    (hleft : scanLeft group (Mark.ofTokens r l.tokens) (fun _ => false) = none)
    (hbefore : ∀ t, group.prefixOps.get? t = none) (hbehind : ∀ t, group.postfixOps.get? t = none) :
    g.readOperation? l (Mark.ofTokens r l.tokens) (group :: gs) = g.readOperation? l (Mark.ofTokens r l.tokens) gs := by
  have hahead : readPrefix? l group = none := readPrefix?_eq_none_iff.2 fun t _ _ _ => hbefore t
  have hafter : readPostfix? l group = none := readPostfix?_eq_none_iff.2 fun t _ _ _ => hbehind t
  rw [readOperation?, readRight?, hright, readLeft?, hleft, hahead, hafter]
  rfl

theorem sitesFound_eq_none {t : Trie Text (Operator α)} {ss : List Site} (hd : t.Distinct)
    (h : ∀ s ∈ ss, ∀ path, t.get? (s.text :: path) = none) : sitesFound t ss = none := by
  have hseek := Scan.seek_others (fun s hs => (Trie.follow?_eq_none_iff hd).2 (h s hs)) []
  rw [List.append_nil, Scan.seek_nil] at hseek
  rw [sitesFound, hseek]
  rfl

/-- A group that holds nothing is passed over. -/
theorem readOperation?_barren (hs : group.Sound) (hb : Balanced l.tokens) (h : ∀ f ts, group.get? f ts = none) :
    g.readOperation? l (Mark.ofTokens r l.tokens) (group :: gs) = g.readOperation? l (Mark.ofTokens r l.tokens) gs := by
  refine readOperation?_skip ?_ ?_ (fun t => h .prefixed [t]) fun t => h .postfixed [t]
  · rw [scanRight_ofTokens hs, sitesFound_eq_none hs.right_distinct fun s _ path => h (.infixed .right) _]
    rfl
  · rw [scanLeft_ofTokens hs hb, sitesFound_eq_none hs.reversed_distinct fun s _ path =>
      (hs.reversed _).trans (h (.infixed .left) _)]
    rfl

theorem readOperation?_barrenAll (hs : ∀ group ∈ pre, group.Sound) (hb : Balanced l.tokens)
    (h : ∀ group ∈ pre, ∀ f ts, group.get? f ts = none) :
    g.readOperation? l (Mark.ofTokens r l.tokens) (pre ++ gs) = g.readOperation? l (Mark.ofTokens r l.tokens) gs := by
  induction pre with
  | nil => rfl
  | cons group pre ih =>
    rw [List.cons_append, readOperation?_barren (hs group List.mem_cons_self) hb (h group List.mem_cons_self)]
    exact ih (fun group' hm => hs group' (List.mem_cons_of_mem _ hm))
      fun group' hm => h group' (List.mem_cons_of_mem _ hm)

end Grammar

namespace Grammar

open Registry.Conditional

variable {g : Grammar α} {source : Text} {l : TokenList} {pre post : List (Group α)} {group : Group α} {q c : Text}
  {o : Operator α}

/-! ## The group of the operator -/

/-- The operator is the only one that the trie of its group holds. -/
theorem Leads.holdsOnly (hr : g.operators.Conditional q c o) (hl : Leads g.operators o pre group post) :
    Scan.HoldsOnly (fun p => (g.operators.infixOps.get? p).isSome = true) group.right ∧
      (group.right.get? [q, c]).isSome ∧ ∀ path, (group.right.get? path).isSome → path = [q, c] := by
  have hpath (path : List Text) (hp : (group.right.get? path).isSome) : path = [q, c] := by
    obtain ⟨o', ho'⟩ := Option.isSome_iff_exists.1 hp
    have hget : group.get? (.infixed .right) path = some o' := ho'
    rw [← (hr.consistent hl.mem _ _ _ hget).2.2, hl.only _ _ _ hget, hr.tokens_eq]
  have hheld : group.right.get? [q, c] = some o := by
    have := hl.holds
    rwa [Group.Holds, hr.fixity_eq, hr.tokens_eq] at this
  refine ⟨⟨hr.apart, (hr.sound hl.mem).right_distinct, fun p hp => ?_⟩, by rw [hheld]; rfl, hpath⟩
  rw [hpath p hp, hr.get?_eq]
  rfl

/-- The group holds no operator of another fixity. -/
theorem Leads.get?_eq_none (hr : g.operators.Conditional q c o) (hl : Leads g.operators o pre group post) {f : Fixity}
    (hf : f ≠ .infixed .right) (ts : List Text) : group.get? f ts = none := by
  refine Option.eq_none_iff_forall_ne_some.2 fun o' ho' => ?_
  have hfix := (hr.consistent hl.mem _ _ _ ho').2.1
  rw [hl.only _ _ _ ho', hr.fixity_eq] at hfix
  exact hf hfix.symm

/-- Where the operator has no site, the root is that of the groups behind its own. -/
theorem readOperation?_of_sites (hr : g.operators.Conditional q c o) (hl : Leads g.operators o pre group post)
    (hb : Balanced l.tokens) (hs : ∀ s ∈ Site.ofTokens g.operators l.tokens, s.text ≠ q) :
    g.readOperation? l (Mark.ofTokens g.operators l.tokens) g.operators.groups.1 =
      g.readOperation? l (Mark.ofTokens g.operators l.tokens) post := by
  have hsound (group' : Group α) (hm : group' ∈ pre) : group'.Sound :=
    hr.sound (by rw [hl.groups_eq]; exact List.mem_append_left _ hm)
  rw [hl.groups_eq, readOperation?_barrenAll hsound hb hl.before]
  obtain ⟨ht, -, hpath⟩ := Leads.holdsOnly hr hl
  refine readOperation?_skip ?_ ?_ (fun t => Leads.get?_eq_none hr hl (f := .prefixed) (by simp) [t])
    fun t => Leads.get?_eq_none hr hl (f := .postfixed) (by simp) [t]
  · rw [scanRight_ofTokens (hr.sound hl.mem), sitesFound_eq_none ht.distinct fun s hm path => ?_]
    · rfl
    · rw [← Option.not_isSome_iff_eq_none]
      intro hp
      exact hs s hm (List.cons.inj (hpath _ hp)).1
  · rw [scanLeft_ofTokens (hr.sound hl.mem) hb, sitesFound_eq_none (hr.sound hl.mem).reversed_distinct
      fun s hm path => ((hr.sound hl.mem).reversed _).trans
        (Leads.get?_eq_none hr hl (f := .infixed .left) (by simp) _)]
    rfl

/-- The sites of an operation of two tokens: those before it, its own with those between them, and those behind it. -/
theorem sites_ternary (hr : g.operators.Conditional q c o) {u m v : List Token} (hu : Derivable g u)
    (hm : Derivable g m) (hv : Derivable g v) : Site.ofTokens g.operators (TokenList.joined u [(q, m), (c, v)]) =
      Site.inTokens g.operators [] (.fixed q :: (m ++ .fixed c :: v)) 0 0 u ++ (⟨u.length, q⟩ ::
        (Site.inTokens g.operators (.fixed q :: u.reverse) (.fixed c :: v) (u.length + 1) 0 m ++
          [⟨u.length + 1 + m.length, c⟩])) ++
        Site.inTokens g.operators (.fixed c :: (m.reverse ++ .fixed q :: u.reverse)) []
          (u.length + 1 + m.length + 1) 0 v := by
  have hsome : (g.operators.infixOps.get? [q, c]).isSome = true := by rw [hr.get?_eq]; rfl
  obtain ⟨hbq, -, hiq⟩ := hr.of_infix hsome List.mem_cons_self
  obtain ⟨hbc, -, hic⟩ := hr.of_infix hsome (List.mem_cons_of_mem _ List.mem_cons_self)
  have hmm := hm.operand hr.toSeparate
  have hvm := hv.operand hr.toSeparate
  rw [TokenList.joined, TokenList.joined, TokenList.joined, Site.ofTokens,
    Site.inTokens_infix (hu.operand hr.toSeparate) (hmm.infixed hvm hbc) (Token.isPlain_of_not_builtin hbq) hiq,
    Site.inTokens_infix hmm hvm (Token.isPlain_of_not_builtin hbc) hic]
  simp

/-- The operation of an operator of two tokens is found by the places of these. -/
theorem infixOperation?_ternary {t : Trie Text (Operator α)} (ht : t.get? [q, c] = some o) {u m v : List Token}
    (htokens : l.tokens = TokenList.joined u [(q, m), (c, v)]) :
    infixOperation? l t [u.length, u.length + 1 + m.length] =
      some (.operation (l.positionAt u.length) o (l.cutAt [u.length, u.length + 1 + m.length])) := by
  have hq : l.tokens[u.length]? = some (.fixed q) := by rw [htokens, TokenList.joined]; simp
  have hc : l.tokens[u.length + 1 + m.length]? = some (.fixed c) := by
    rw [htokens, TokenList.joined, TokenList.joined, Nat.add_assoc, Nat.add_comm 1,
      List.getElem?_append_right (by omega)]
    simp
  rw [infixOperation?]
  simp only [List.filterMap_cons, hq, hc, Option.bind_some, Token.fixed?, List.filterMap_nil, ht]
  rfl

/-- The first place of the operator is the root, whatever stands behind it. -/
theorem readOperation?_ternary (hr : g.operators.Conditional q c o) {u m v : List Token} (hu : Simple g u)
    (hm : Derivable g m) (hv : Derivable g v) (htokens : l.tokens = TokenList.joined u [(q, m), (c, v)]) :
    g.readOperation? l (Mark.ofTokens g.operators l.tokens) g.operators.groups.1 =
      some (.operation (l.positionAt u.length) o (l.cutAt (TokenList.joints 0 u [(q, m), (c, v)]))) := by
  obtain ⟨pre, group, post, hl⟩ := hr.exists_leads
  obtain ⟨ht, hheld, hpath⟩ := Leads.holdsOnly hr hl
  have hget : group.right.get? [q, c] = some o := by
    have := hl.holds
    rwa [Group.Holds, hr.fixity_eq, hr.tokens_eq] at this
  have hsome : (g.operators.infixOps.get? [q, c]).isSome = true := by rw [hr.get?_eq]; rfl
  have hb : Balanced l.tokens := by
    rw [htokens]
    exact ((Derivable.ternary hsome hu.derivable hm hv).operand hr.toSeparate).balanced
  have hspelled := Scan.Spelled.next (s := ⟨u.length, q⟩)
    (@Derivable.nested _ g m (.fixed q :: u.reverse) (.fixed c :: v) (u.length + 1) hr.toSeparate hr.upToTernary
      hr.toExclusive hm) (Scan.Spelled.last ⟨u.length + 1 + m.length, c⟩)
  have hfound : sitesFound group.right (Site.ofTokens g.operators l.tokens) =
      some [⟨u.length, q⟩, ⟨u.length + 1 + m.length, c⟩] := by
    rw [sitesFound, htokens, sites_ternary hr hu.derivable hm hv, List.append_assoc,
      Scan.seek_others fun s hs => ?_, Scan.seek_spelled ht hspelled hheld]
    · rfl
    · rw [Trie.follow?_eq_none_iff ht.distinct]
      intro path
      rw [← Option.not_isSome_iff_eq_none]
      intro hp
      have := hu.sites hr.toSeparate hr.toExclusive s hs q c hsome
      rw [(List.cons.inj (hpath _ hp)).1] at this
      exact this List.mem_cons_self
  have hpoints : TokenList.joints 0 u [(q, m), (c, v)] = [u.length, u.length + 1 + m.length] := by
    simp [TokenList.joints]
  have henclosed : g.isEnclosed l.tokens (Mark.ofTokens g.operators l.tokens) [u.length, u.length + 1 + m.length]
      (some group) post = false := by
    refine isEnclosed_of_flat (fun first last hf hl' => ?_) (fun group' hm' => ?_) hl.behind
    · simp only [List.head?_cons, List.getLast?_cons_cons, List.getLast?_singleton, Option.some.injEq] at hf hl'
      omega
    · cases hm'
      refine ⟨hr.sound hl.mem, fun path hp => ?_⟩
      have hnone : group.left.get? path = none := Leads.get?_eq_none hr hl (f := .infixed .left) (by simp) path
      rw [hnone] at hp
      cases hp
  have hsound (group' : Group α) (hm : group' ∈ pre) : group'.Sound :=
    hr.sound (by rw [hl.groups_eq]; exact List.mem_append_left _ hm)
  rw [hl.groups_eq, readOperation?_barrenAll hsound hb hl.before, readOperation?, readRight?,
    scanRight_ofTokens (hr.sound hl.mem), hfound]
  simp only [Option.map_some, List.map_cons, List.map_nil, Option.bind_some, bind, henclosed,
    infixOperation?_ternary hget htokens, hpoints]
  rfl

/-! ## The root of derivable tokens -/

/-- Where an operator stands outside of brackets, some group has a candidate for the root. -/
theorem exists_not_silent (hr : g.operators.Conditional q c o) (hl : Leads g.operators o pre group post)
    (h : Simple g l.tokens) (hatom : ¬ Atom g l.tokens) : ∃ group' ∈ post, ¬ Silent g.operators l group' := by
  generalize htokens : l.tokens = ts at h hatom
  cases h with
  | atom h => exact absurd h hatom
  | @prefixed t u ht hu =>
    obtain ⟨o', ho', hf, hts⟩ := hr.isPrefixToken_iff.1 ht
    obtain ⟨group', hm, hholds⟩ := hl.exists_holds hr ho' (by rintro rfl; rw [hr.fixity_eq] at hf; cases hf)
    rw [Group.Holds, hf, hts] at hholds
    refine ⟨group', hm, fun hs => ?_⟩
    rw [Group.get?, readPrefix?_eq_none_iff.1 hs.before t u htokens (hu.ne_nil hr.toSeparate)] at hholds
    cases hholds
  | @postfixed t u ht hu =>
    obtain ⟨o', ho', hf, hts⟩ := hr.isPostfixToken_iff.1 ht
    obtain ⟨group', hm, hholds⟩ := hl.exists_holds hr ho' (by rintro rfl; rw [hr.fixity_eq] at hf; cases hf)
    rw [Group.Holds, hf, hts] at hholds
    refine ⟨group', hm, fun hs => ?_⟩
    rw [Group.get?, readPostfix?_eq_none_iff.1 hs.behind t u htokens (hu.ne_nil hr.toSeparate)] at hholds
    cases hholds
  | @binary t u v ht hu hv =>
    obtain ⟨hb, -, hi⟩ := hr.of_infix ht List.mem_cons_self
    obtain ⟨o', ho'⟩ := Option.isSome_iff_exists.1 ht
    obtain ⟨⟨a, hf⟩, hts, -⟩ := hr.infix_eq _ _ ho'
    obtain ⟨group', hm, hholds⟩ := hl.exists_holds hr (hr.mem_of_infix ho')
      (by rintro rfl; rw [hr.tokens_eq] at hts; cases hts)
    have hum := hu.derivable.operand hr.toSeparate
    have hsite : (⟨u.length, t⟩ : Site) ∈ Site.ofTokens g.operators l.tokens := by
      refine Site.mem_ofTokens.2 ⟨u, v, htokens, rfl, hum.balanced.depth_eq, Token.isPlain_of_not_builtin hb, hi, ?_⟩
      have := hum.canBeInfix (hv.derivable.operand hr.toSeparate) [] []
      rwa [List.append_nil, List.append_nil] at this
    rw [Group.Holds, hf, hts] at hholds
    refine ⟨group', hm, fun hs => ?_⟩
    have hnone : group'.get? (.infixed a) [t] = none := by
      cases a with
      | left => exact hs.left _ hsite
      | right => exact hs.right _ hsite
    rw [hnone] at hholds
    cases hholds

/-- The parts that the root of simple tokens shows are derivable. -/
theorem exists_shows_of_simple (hr : g.operators.Conditional q c o) (h : Simple g l.tokens)
    (hm : group ∈ g.operators.groups.1) {op : Reading α} (hroot : IsRoot g.operators l group op) : ∃ parts,
      Shows g.operators l op parts ∧ ∀ m ∈ parts, Derivable g m := by
  have hcut {a : Associativity} {before behind : List Site} {s : Site} {o' : Operator α}
      (hs : Site.ofTokens g.operators l.tokens = before ++ s :: behind)
      (ho' : group.get? (.infixed a) [s.text] = some o') : ∃ parts,
        Shows g.operators l (.operation (l.positionAt s.index) o' (l.cutAt [s.index])) parts ∧
          ∀ m ∈ parts, Derivable g m := by
    obtain ⟨hmem, hf, hts⟩ := hr.consistent hm _ _ _ ho'
    obtain ⟨u, v, htokens, hi, hsplits⟩ := Site.mem_ofTokens.1
      (show s ∈ Site.ofTokens g.operators l.tokens by rw [hs]; exact List.mem_append_right _ List.mem_cons_self)
    obtain ⟨hu, hv⟩ := h.cut hr.toSeparate htokens hsplits
    refine ⟨[u, v], ?_, ?_⟩
    · rw [hi]
      exact .binary hmem ⟨a, hf⟩ hts htokens
    · simp only [List.forall_mem_cons]
      exact ⟨hu.derivable, hv.derivable, by simp⟩
  have hshown {op : Reading α} {ts : List Token} (hs : Shows g.operators l op [ts]) (hts : Simple g ts) :
      ∃ parts, Shows g.operators l op parts ∧ ∀ m ∈ parts, Derivable g m :=
    ⟨[ts], hs, fun m hm => by rw [List.mem_singleton.1 hm]; exact hts.derivable⟩
  cases hroot with
  | right hs _ ho' => exact hcut (a := .right) hs ho'
  | left hs _ _ ho' => exact hcut (a := .left) hs ho'
  | before _ _ hread =>
    obtain ⟨t, o', ts, htokens, -, ho', rfl⟩ := readPrefix?_eq_some_iff.1 hread
    obtain ⟨hmem, hf, hts⟩ := hr.consistent hm .prefixed [t] o' ho'
    have ht := hr.of_prefix (hr.isPrefixToken_iff.2 ⟨o', hmem, hf, hts⟩)
    exact hshown (.prefixed hmem hf hts htokens) (h.lead hr.toSeparate htokens ht.2).2
  | behind _ _ _ hread =>
    obtain ⟨t, o', ts, htokens, -, ho', rfl⟩ := readPostfix?_eq_some_iff.1 hread
    obtain ⟨hmem, hf, hts⟩ := hr.consistent hm .postfixed [t] o' ho'
    have ht := hr.of_postfix (hr.isPostfixToken_iff.2 ⟨o', hmem, hf, hts⟩)
    exact hshown (.postfixed hmem hf hts htokens) (h.trail hr.toSeparate htokens ht.2).2

/-- An operation is read in simple tokens that are no atom, and its parts are derivable. -/
theorem readOperation?_of_simple (hr : g.operators.Conditional q c o) (h : Simple g l.tokens)
    (hatom : ¬ Atom g l.tokens) : ∃ op parts,
      g.readOperation? l (Mark.ofTokens g.operators l.tokens) g.operators.groups.1 = some op ∧
        Shows g.operators l op parts ∧ ∀ m ∈ parts, Derivable g m := by
  obtain ⟨pre, group, post, hl⟩ := hr.exists_leads
  have hb := (h.derivable.operand hr.toSeparate).balanced
  have hsome : (g.operators.infixOps.get? [q, c]).isSome = true := by rw [hr.get?_eq]; rfl
  have hsites (s : Site) (hs : s ∈ Site.ofTokens g.operators l.tokens) : s.text ≠ q := by
    have := h.sites hr.toSeparate hr.toExclusive s hs q c hsome
    simp only [List.mem_cons, not_or] at this
    exact this.1
  have hpost {group' : Group α} (hm : group' ∈ post) : group' ∈ g.operators.groups.1 := by
    rw [hl.groups_eq]
    exact List.mem_append_right _ (List.mem_cons_of_mem _ hm)
  rw [readOperation?_of_sites hr hl hb hsites]
  rcases readOperation?_of_flat hb hl.behind with ⟨-, hsilent⟩ | ⟨op, pre', group', post', hop, hpost', -, hroot⟩
  · obtain ⟨group', hm, hnot⟩ := exists_not_silent hr hl h hatom
    exact absurd (hsilent group' hm) hnot
  · have hm : group' ∈ g.operators.groups.1 := hpost (by rw [hpost']; exact List.mem_append_right _ List.mem_cons_self)
    exact ⟨op, (exists_shows_of_simple hr h hm hroot).imp fun _ hparts => ⟨hop, hparts⟩⟩

/-- Whatever operation is read in derivable tokens, its parts are derivable. -/
theorem readOperation?_of_derivable (hr : g.operators.Conditional q c o) (h : Derivable g l.tokens)
    (hatom : ¬ Atom g l.tokens) : ∃ op parts,
      g.readOperation? l (Mark.ofTokens g.operators l.tokens) g.operators.groups.1 = some op ∧
        Shows g.operators l op parts ∧ ∀ m ∈ parts, Derivable g m := by
  rcases h.simple_or with hs | ⟨s, t, u, m, v, htokens, hst, hu, hm, hv⟩
  · exact readOperation?_of_simple hr hs hatom
  · obtain ⟨rfl, rfl⟩ := hr.eq_of_pair hst
    have hjoined : l.tokens = TokenList.joined u [(s, m), (t, v)] := htokens
    refine ⟨_, [u, m, v], readOperation?_ternary hr hu hm hv hjoined,
      .ternary hr.mem ⟨_, hr.fixity_eq⟩ hr.tokens_eq hjoined, ?_⟩
    simp only [List.forall_mem_cons]
    exact ⟨hu.derivable, hm, hv, by simp⟩

end Grammar

end Mixfix
