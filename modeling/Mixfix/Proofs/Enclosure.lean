import Mixfix.Proofs.Reading

/-!
# Operators within others

Whether an operator lies within another is decided by scans of the sites around it. Where no token of an infix operator
is prefix or postfix (`Registry.Disjoint`), the operator tokens next to an operator are no sites, so these are the sites
before and behind its own (`Grammar.isEnclosed_eq`). An operator that all sites lie within is in no other
(`Grammar.isEnclosed_eq_false`); one that other sites begin before and end behind is (`Grammar.encloses_of_ends`).
-/

namespace Mixfix

variable {α : Type}

/-- No token of an infix operator is prefix or postfix. -/
structure Registry.Disjoint (r : Registry α) : Prop extends r.WellFormed where
  not_prefix : ∀ t, r.isInfixToken t = true → r.isPrefixToken t = false
  not_postfix : ∀ t, r.isInfixToken t = true → r.isPostfixToken t = false

namespace Registry.Disjoint

variable {r : Registry α} {before behind : List Token}

theorem isPlain (hr : r.Disjoint) {t : Token} (ht : r.isOperatorToken t = true) : t.isPlain = true := by
  rw [Token.isPlain, Bool.and_eq_true, Bool.not_eq_true', Bool.not_eq_true', Bool.eq_false_iff, Bool.eq_false_iff]
  constructor
  · intro ho
    rw [Token.isOpen_iff.1 ho, hr.isOperatorToken_builtin (by decide)] at ht
    cases ht
  · intro hc
    rw [Token.isClose_iff.1 hc, hr.isOperatorToken_builtin (by decide)] at ht
    cases ht

/-- The operator tokens next to a token are plain and, if this is a site, no tokens of infix operators. -/
theorem run (hr : r.Disjoint) {p : Token → Bool} {ts : List Token} (h : r.MeetsOperand p ts)
    (hp : ∀ t, r.isInfixToken t = true → p t = false) :
    ∃ rest, ts = r.runBeside ts ++ rest ∧ bracketDepth (r.runBeside ts) = 0 ∧
      ∀ t ∈ r.runBeside ts, r.isInfixToken t = false := by
  refine ⟨ts.dropWhile r.isOperatorToken, List.takeWhile_append_dropWhile.symm,
    bracketDepth_of_plain fun t ht => hr.isPlain (List.mem_takeWhile_imp ht), fun t ht => ?_⟩
  have hall := List.all_eq_true.1 (Registry.meetsOperand_iff.1 h).2 t ht
  rw [Bool.eq_false_iff]
  intro hi
  rw [hp t hi] at hall
  cases hall

end Registry.Disjoint

namespace Site

variable {r : Registry α} {ts : List Token} {u v x : List Site} {s e : Site}

theorem isInfixToken_of_mem (hs : s ∈ ofTokens r ts) : r.isInfixToken (.fixed s.text) = true := by
  obtain ⟨_, _, -, -, h⟩ := mem_ofTokens.1 hs
  exact h.infixToken

/-- A site is not among tokens that are none of infix operators. -/
theorem not_mem_run {a b c : List Token} (h : ts = a ++ b ++ c) (hb : ∀ t ∈ b, r.isInfixToken t = false)
    (hs : s ∈ ofTokens r ts) : s.index < a.length ∨ a.length + b.length ≤ s.index := by
  refine Classical.byContradiction fun hno => ?_
  have hget := getElem?_of_mem hs
  rw [h, List.append_assoc, List.getElem?_append_right (by omega), List.getElem?_append_left (by omega)] at hget
  have := hb _ (List.mem_of_getElem? hget)
  rw [isInfixToken_of_mem hs] at this
  cases this

/-- The first and the last of some sites bound the others. -/
theorem bounds_of_ends {y : Site} (hv : v.Pairwise fun s t => s.index < t.index) (hs : v.head? = some s)
    (he : v.getLast? = some e) (hy : y ∈ v) : s.index ≤ y.index ∧ y.index ≤ e.index := by
  constructor
  · obtain ⟨v', rfl⟩ := List.head?_eq_some_iff.1 hs
    rcases List.mem_cons.1 hy with rfl | hy
    · exact Nat.le_refl _
    · exact Nat.le_of_lt ((List.pairwise_cons.1 hv).1 y hy)
  · obtain ⟨v', rfl⟩ := List.getLast?_eq_some_iff.1 he
    rcases List.mem_append.1 hy with hy | hy
    · exact Nat.le_of_lt ((List.pairwise_append.1 hv).2.2 y hy e (List.mem_singleton_self e))
    · rw [List.mem_singleton.1 hy]

/-- The tokens from a site to another, with the operands around them. -/
theorem exists_between (hs : s ∈ ofTokens r ts) (he : e ∈ ofTokens r ts) (hle : s.index ≤ e.index) :
    ∃ a m c, ts = a ++ m ++ c ∧ s.index = a.length ∧ e.index + 1 = a.length + m.length ∧ bracketDepth m = 0 ∧
      r.MeetsOperand r.isPostfixToken a.reverse ∧ r.MeetsOperand r.isPrefixToken c := by
  obtain ⟨a, w, ha, hai, hasplit⟩ := mem_ofTokens.1 hs
  obtain ⟨a', c, hc, hci, hcsplit⟩ := mem_ofTokens.1 he
  rw [List.append_cons] at hc
  obtain ⟨m, hm⟩ : a <+: a' ++ [Token.fixed e.text] := by
    refine List.prefix_of_prefix_length_le ⟨_, ha.symm⟩ ⟨_, hc.symm⟩ ?_
    rw [List.length_append, List.length_singleton]
    omega
  have hlength := congrArg List.length hm
  have hdepth := congrArg bracketDepth hm
  rw [List.length_append, List.length_append, List.length_singleton] at hlength
  rw [bracketDepth_append, bracketDepth_append, hasplit.depth_eq, hcsplit.depth_eq, bracketDepth_cons,
    Token.weight_of_plain hcsplit.plain, bracketDepth_nil] at hdepth
  exact ⟨a, m, c, by rw [hm, hc], hai, by omega, by omega, (Registry.canBeInfix_iff.1 hasplit.candidate).1,
    (Registry.canBeInfix_iff.1 hcsplit.candidate).2⟩

/-- The tokens from the first to the last of some sites, with the operator tokens around them, close the brackets that
they open, and without them the sites before and behind are left. -/
theorem exists_cut {g : Grammar α} (hr : g.operators.Disjoint) (hsites : ofTokens g.operators ts = u ++ v ++ x)
    (hs : v.head? = some s) (he : v.getLast? = some e) : ∃ a b c, ts = a ++ b ++ c ∧
      g.runAround ts s.index e.index = (a.length, a.length + b.length) ∧ bracketDepth b = 0 ∧
        outside a.length (a.length + b.length) (ofTokens g.operators ts) = u ++ x := by
  have hev : e ∈ v := List.mem_of_getLast? he
  have hpair := pairwise_ofTokens (r := g.operators) ts
  rw [hsites] at hpair
  obtain ⟨huv, -, hux⟩ := List.pairwise_append.1 hpair
  obtain ⟨-, hvv, huv⟩ := List.pairwise_append.1 huv
  have hmem {y : Site} (hy : y ∈ v) : y ∈ ofTokens g.operators ts := by
    rw [hsites]
    exact List.mem_append_left _ (List.mem_append_right _ hy)
  obtain ⟨a, m, c, rfl, hai, hci, hdepth, hbefore, hbehind⟩ :=
    exists_between (hmem (List.mem_of_head? hs)) (hmem hev) (bounds_of_ends hvv hs he hev).1
  -- the runs of operator tokens beside them
  obtain ⟨a₀, hrun, hrunDepth, hrunSites⟩ := hr.run hbefore hr.not_postfix
  obtain ⟨c₀, hrun', hrunDepth', hrunSites'⟩ := hr.run hbehind hr.not_prefix
  have haround : g.runAround (a ++ m ++ c) s.index e.index = (s.index - (g.operators.runBeside a.reverse).length,
      e.index + (g.operators.runBeside c).length + 1) := by
    rw [Grammar.runAround, hci, hai, List.append_assoc, List.take_left, ← List.append_assoc, ← List.length_append,
      List.drop_left]
  generalize g.operators.runBeside a.reverse = run at hrun hrunDepth hrunSites haround
  generalize g.operators.runBeside c = run' at hrun' hrunDepth' hrunSites' haround
  obtain rfl : a = a₀.reverse ++ run.reverse := by rw [← List.reverse_append, ← hrun, List.reverse_reverse]
  obtain rfl := hrun'
  rw [List.length_append, List.length_reverse, List.length_reverse] at hai hci
  refine ⟨a₀.reverse, run.reverse ++ m ++ run', c₀, by simp, ?_, ?_, ?_⟩
  · rw [haround]
    simp only [List.length_append, List.length_reverse, Prod.mk.injEq]
    omega
  · rw [bracketDepth_append, bracketDepth_append, bracketDepth_reverse, hrunDepth, hrunDepth', hdepth]
    rfl
  · simp only [List.length_append, List.length_reverse]
    rw [outside, hsites]
    refine filter_outside (fun y hy => ?_) (fun y hy => ?_) fun y hy => ?_
    · have hlt := huv y hy s (List.mem_of_head? hs)
      have hnot := not_mem_run (r := g.operators) (b := run.reverse) (c := m ++ (run' ++ c₀)) (List.append_assoc _ _ _)
        (fun t ht => hrunSites t (List.mem_reverse.1 ht))
        (s := y) (by rw [hsites, List.append_assoc]; exact List.mem_append_left _ hy)
      rw [List.length_reverse, List.length_reverse] at hnot
      omega
    · have := bounds_of_ends hvv hs he hy
      omega
    · have hgt := hux e (List.mem_append_right _ hev) y hy
      have hnot := not_mem_run (r := g.operators) (a := a₀.reverse ++ run.reverse ++ m) (b := run') (c := c₀)
        (List.append_assoc _ _ _).symm hrunSites' (s := y) (by rw [hsites]; exact List.mem_append_right _ hy)
      rw [List.length_append, List.length_append, List.length_reverse, List.length_reverse] at hnot
      omega

end Site

namespace Grammar

variable {g : Grammar α} {ts : List Token} {group : Group α} {gs : List (Group α)} {same : Option (Group α)}
  {marks : List Mark} {points : List Nat} {u v x : List Site} {s e : Site}

theorem scanRight_of_isEmpty (h : group.right.isEmpty = true) (skip : Nat → Bool) :
    scanRight group marks skip = none := by
  rw [scanRight, if_pos h]

theorem scanLeft_of_isEmpty (h : group.left.isEmpty = true) (skip : Nat → Bool) : scanLeft group marks skip = none := by
  rw [scanLeft, if_pos h]

/-- Groups without infix operators enclose nothing. -/
theorem isEnclosed_of_isEmpty (hsame : ∀ group ∈ same, group.left.isEmpty = true)
    (hgs : ∀ group ∈ gs, group.right.isEmpty = true ∧ group.left.isEmpty = true) :
    g.isEnclosed ts marks points same gs = false := by
  rw [isEnclosed]
  split
  · refine Bool.or_eq_false_iff.2 ⟨?_, List.any_eq_false.2 fun group hm => ?_⟩
    · cases same with
      | none => rfl
      | some group => simp only [Option.any_some, scanLeft_of_isEmpty (hsame group rfl), encloses]
    · simp only [scanRight_of_isEmpty (hgs group hm).1, scanLeft_of_isEmpty (hgs group hm).2, encloses]
      simp
  · rfl

/-- The indices of the right-associative operator that a scan of sites finds. -/
def rightFound (group : Group α) (ss : List Site) : Option (List Nat) :=
  (sitesFound group.right ss).map (List.map Site.index)

/-- The indices of the left-associative operator that a scan of sites in reverse finds. -/
def leftFound (group : Group α) (ss : List Site) : Option (List Nat) :=
  (sitesFound group.leftReversed ss.reverse).map fun ss => (ss.map Site.index).reverse

/-- The points are those of sites from a first to a last one, with some sites before and behind these. -/
structure PointsAt (r : Registry α) (ts : List Token) (points : List Nat) (s e : Site) (u x : List Site) : Prop where
  sites : ∃ v, Site.ofTokens r ts = u ++ v ++ x ∧ v.head? = some s ∧ v.getLast? = some e
  first : points.head? = some s.index
  last : points.getLast? = some e.index

/-- An operator lies within another if this is found around it, among the sites before and behind. -/
theorem isEnclosed_eq (hr : g.operators.Disjoint) (hb : Balanced ts) (h : PointsAt g.operators ts points s e u x)
    (hsame : ∀ group ∈ same, group.Sound) (hgs : ∀ group ∈ gs, group.Sound) :
    g.isEnclosed ts (Mark.ofTokens g.operators ts) points same gs =
      ((same.any fun group => encloses s.index e.index (leftFound group (u ++ x))) ||
        gs.any fun group => encloses s.index e.index (rightFound group (u ++ x)) ||
          encloses s.index e.index (leftFound group (u ++ x))) := by
  obtain ⟨v, hsites, hs, he⟩ := h.sites
  obtain ⟨a, b, c, rfl, haround, hdepth, houtside⟩ := Site.exists_cut hr hsites hs he
  have hskip : (fun i => decide (a.length ≤ i) && decide (i < a.length + b.length)) =
      Site.inPart a.length (a.length + b.length) := rfl
  have hright (group : Group α) (hg : group.Sound) :
      scanRight group (Mark.ofTokens g.operators (a ++ b ++ c)) (Site.inPart a.length (a.length + b.length)) =
        rightFound group (u ++ x) := by
    rw [scanRight_outside hg hdepth, houtside]
    rfl
  have hleft (group : Group α) (hg : group.Sound) :
      scanLeft group (Mark.ofTokens g.operators (a ++ b ++ c)) (Site.inPart a.length (a.length + b.length)) =
        leftFound group (u ++ x) := by
    rw [scanLeft_outside hg hb hdepth, houtside]
    rfl
  rw [isEnclosed, h.first, h.last]
  simp only [haround, hskip]
  congr 1
  · cases same with
    | none => rfl
    | some group => simp only [Option.any_some, hleft group (hsame group rfl)]
  · induction gs with
    | nil => rfl
    | cons group gs ih =>
      have hg := hgs group List.mem_cons_self
      rw [List.any_cons, List.any_cons, hright group hg, hleft group hg,
        ih fun group' hm => hgs group' (List.mem_cons_of_mem _ hm)]

/-- An operator that all sites lie within is in no other. -/
theorem isEnclosed_eq_false (hr : g.operators.Disjoint) (hb : Balanced ts)
    (h : PointsAt g.operators ts points s e [] []) (hsame : ∀ group ∈ same, group.Sound)
    (hgs : ∀ group ∈ gs, group.Sound) :
    g.isEnclosed ts (Mark.ofTokens g.operators ts) points same gs = false := by
  have hright (group : Group α) : rightFound group [] = none := by rw [rightFound, sitesFound_nil, Option.map_none]
  have hleft (group : Group α) : leftFound group [] = none := by
    rw [leftFound, List.reverse_nil, sitesFound_nil, Option.map_none]
  rw [isEnclosed_eq hr hb h hsame hgs, List.append_nil]
  simp only [hright, hleft, encloses]
  simp

/-- Sites that begin before an operator and end behind it stand around it. -/
theorem encloses_of_ends {own : List Site} (hsites : Site.ofTokens g.operators ts = u ++ v ++ x)
    (hs : s ∈ v) (he : e ∈ v) (hu : u ≠ []) (hx : x ≠ []) (hhead : own.head? = (u ++ x).head?)
    (hlast : own.getLast? = (u ++ x).getLast?) : encloses s.index e.index (some (own.map Site.index)) = true := by
  obtain ⟨a, u, rfl⟩ := List.exists_cons_of_ne_nil hu
  obtain ⟨x, b, rfl⟩ := (List.eq_nil_or_concat x).resolve_left hx
  rw [List.concat_eq_append] at hsites hlast
  rw [List.cons_append, List.head?_cons] at hhead
  rw [← List.append_assoc, List.getLast?_concat] at hlast
  have hpair := Site.pairwise_ofTokens (r := g.operators) ts
  rw [hsites, List.append_assoc, List.pairwise_append] at hpair
  obtain ⟨-, hvx, huv⟩ := hpair
  have hlt := huv a List.mem_cons_self s (List.mem_append_left _ hs)
  have hgt := (List.pairwise_append.1 hvx).2.2 e he b (List.mem_append_right _ (List.mem_singleton_self b))
  rw [encloses, List.head?_map, List.getLast?_map, hhead, hlast]
  simp [hlt, hgt]

end Grammar

end Mixfix
