import Mixfix.Proofs.Hidden
import Mixfix.Proofs.Lapses
import Mixfix.Proofs.Mirrored
import Mixfix.Proofs.Runs

/-!
# What scans find

Whatever a scan finds is there: tokens that may be infix, outside of the brackets that are opened and closed since the
start of the scan, which spell an operator of the trie. This holds of any tokens, whether their brackets match or not,
of any trie and from any index on.

A scan only ever takes sites (`Scan.forward_eq`, `Scan.backward_eq`), and a site stands where the marks before it close
the brackets that they open (`Site.mem_ofMarks`). Indices that are ignored do not count towards the depth.

So the operator of a section is there whenever a scan of its group has found indices, and splitting the section at them
gives one section for each of its operands (`Grammar.CutsInto`).
-/

namespace Mixfix

variable {α : Type} {r : Registry α} {ts : List Token} {skip : Nat → Bool} {start stop : Nat}

/-- The tokens from an index on and up to another one, without those that are ignored. -/
def heeded (skip : Nat → Bool) (ts : List Token) (start stop : Nat) : List Token :=
  (((ts.zipIdx.take stop).drop start).filter fun t => !skip t.2).map Prod.fst

/-! ## Candidates -/

namespace Registry

/-- A text may be part of an infix operator at an index: it is one of the texts of infix operators, and no bracket, with
operands before and behind the run of operator tokens that it stands in. -/
structure IsCandidate (r : Registry α) (ts : List Token) (i : Nat) (text : Text) : Prop where
  token : ts[i]? = some (.fixed text)
  plain : (Token.fixed text).isPlain = true
  infixToken : r.isInfixToken (.fixed text) = true
  canBeInfix : r.canBeInfix (ts.take i).reverse (ts.drop (i + 1)) = true

/-- A candidate has tokens before and behind it. -/
theorem IsCandidate.inner {i : Nat} {text : Text} (h : r.IsCandidate ts i text) : 1 ≤ i ∧ i + 1 < ts.length := by
  obtain ⟨hbefore, hbehind⟩ := ne_nil_of_canBeInfix h.canBeInfix
  rw [ne_eq, List.reverse_eq_nil_iff, List.take_eq_nil_iff] at hbefore
  rw [ne_eq, List.drop_eq_nil_iff] at hbehind
  omega

end Registry

theorem Mark.ofToken_eq_candidate {before behind : List Token} {t : Token} {text : Text}
    (h : Mark.ofToken r before t behind = .candidate text) : t = .fixed text ∧ (Token.fixed text).isPlain = true ∧
      r.isInfixToken (.fixed text) = true ∧ r.canBeInfix before behind = true := by
  rw [Mark.ofToken] at h
  split at h
  · cases h
  · next hopen =>
    split at h
    · cases h
    · next hclose =>
      split at h
      · next hc =>
        obtain ⟨hinf, hcan⟩ := Bool.and_eq_true_iff.1 hc
        obtain rfl : t.text = text := by simpa using h
        cases t with
        | fixed t => exact ⟨rfl, by simp [Token.isPlain, Token.text, hopen, hclose], hinf, hcan⟩
        | raw t | number t x => cases hinf
      · cases h

/-- A mark is that of a candidate only where one stands. -/
theorem Registry.isCandidate_of_mark {i : Nat} {text : Text}
    (h : (Mark.ofTokens r ts)[i]? = some (.candidate text)) : r.IsCandidate ts i text := by
  have hi : i < ts.length := by
    rw [← Mark.length_ofTokens r ts]
    exact (List.getElem?_eq_some_iff.1 h).1
  have hsplit : ts.take i ++ ts[i] :: ts.drop (i + 1) = ts := by rw [List.getElem_cons_drop, List.take_append_drop]
  have hmark := Mark.getElem?_ofTokens (r := r) (ts.take i) (ts.drop (i + 1)) ts[i]
  rw [hsplit, List.length_take_of_le (Nat.le_of_lt hi), h, Option.some.injEq] at hmark
  obtain ⟨htoken, hplain, hinf, hcan⟩ := Mark.ofToken_eq_candidate hmark.symm
  exact ⟨by rw [List.getElem?_eq_getElem hi, htoken], hplain, hinf, hcan⟩

/-! ## Where sites stand -/

namespace Site

variable {marks : List Mark} {m : Mark} {s : Site} {i : Nat}

/-- A site is a candidate with as many brackets closed before it as are open. -/
theorem mem_ofMarks {depth : Int} {ms : List (Nat × Mark)} : s ∈ ofMarks depth ms ↔
    ∃ u v, ms = u ++ (s.index, .candidate s.text) :: v ∧ depth + markDepth u = 0 := by
  induction ms generalizing depth with
  | nil => simp [ofMarks]
  | cons m ms ih =>
    rw [ofMarks_cons, List.mem_append, ih]
    constructor
    · rintro (hs | ⟨u, v, rfl, hd⟩)
      · obtain ⟨i, m⟩ := m
        cases m with
        | opening | closing | other => cases hs
        | candidate text =>
          rw [ofMarks] at hs
          split at hs
          · next hd =>
            rw [List.mem_singleton.1 hs]
            exact ⟨[], ms, rfl, by simpa [markDepth] using hd⟩
          · cases hs
      · exact ⟨m :: u, v, rfl, by simpa [markDepth, Int.add_assoc] using hd⟩
    · rintro ⟨u, v, hms, hd⟩
      cases u with
      | nil =>
        obtain ⟨rfl, -⟩ := List.cons.inj hms
        have hzero : depth = 0 := by simpa [markDepth] using hd
        exact .inl (by simp [ofMarks, hzero])
      | cons m' u =>
        obtain ⟨rfl, rfl⟩ := List.cons.inj hms
        exact .inr ⟨u, v, rfl, by simpa [markDepth, Int.add_assoc] using hd⟩

theorem getElem?_indexed : (indexed marks)[i]? = (marks[i]?).map fun m => (i, m) := by
  rw [indexed, List.getElem?_map, List.getElem?_zipIdx, Option.map_map, Nat.zero_add]
  rfl

/-- Indexed marks stand at their index. -/
theorem mark_of_indexed_eq {a b : List (Nat × Mark)} (h : indexed marks = a ++ (i, m) :: b) :
    a.length = i ∧ marks[i]? = some m := by
  have hat : (indexed marks)[a.length]? = some (i, m) := by simp [h]
  rw [getElem?_indexed] at hat
  obtain ⟨m', hm', heq⟩ := Option.map_eq_some_iff.1 hat
  obtain ⟨rfl, rfl⟩ := Prod.mk.inj heq
  exact ⟨rfl, hm'⟩

theorem exists_of_filter_eq {β : Type*} {p : β → Bool} {xs u v : List β} {x : β} (h : xs.filter p = u ++ x :: v) :
    ∃ a b, xs = a ++ x :: b ∧ a.filter p = u ∧ p x = true := by
  obtain ⟨a, b, rfl, ha, hb⟩ := List.filter_eq_append_iff.1 h
  obtain ⟨c, d, rfl, hc, hx, -⟩ := List.filter_eq_cons_iff.1 hb
  exact ⟨a ++ c, d, by simp, by rw [List.filter_append, ha, List.filter_eq_nil_iff.2 hc, List.append_nil], hx⟩

/-- Marks change the depth as the tokens do that they are the marks of. -/
theorem markDepth_heeded : markDepth ((((indexed (Mark.ofTokens r ts)).take stop).drop start).filter
    fun m => !skip m.1) = bracketDepth (heeded skip ts start stop) := by
  have hweights (before : List Token) (index : Nat) :
      (marksIn r before [] index ts).map (fun m => (m.2.weight, m.1)) =
        (ts.zipIdx index).map fun t => (t.1.weight, t.2) := by
    induction ts generalizing before index with
    | nil => rfl
    | cons t ts ih => simp [marksIn, Mark.weight_ofToken, ih]
  have hfilter := congrArg (fun ws : List (Int × Nat) => ((((ws.take stop).drop start).filter
    fun w => !skip w.2).map Prod.fst).sum) (hweights [] 0)
  rw [indexed_ofTokens, markDepth, bracketDepth, heeded, List.map_map]
  simpa only [← List.map_take, ← List.map_drop, List.filter_map, List.map_map, Function.comp_def] using hfilter

/-- Where the sites stand that a forward scan sees. -/
theorem of_mem_forward (h : s ∈ forward (Mark.ofTokens r ts) start skip) :
    r.IsCandidate ts s.index s.text ∧ skip s.index = false ∧ start ≤ s.index ∧
      bracketDepth (heeded skip ts start s.index) = 0 := by
  obtain ⟨u, v, hms, hd⟩ := mem_ofMarks.1 h
  obtain ⟨a, b, hab, ha, hs⟩ := exists_of_filter_eq hms
  have hlt : start ≤ (indexed (Mark.ofTokens r ts)).length := by
    by_contra hlt
    rw [List.drop_eq_nil_of_le (by omega)] at hab
    simp at hab
  have hindexed : indexed (Mark.ofTokens r ts) =
      ((indexed (Mark.ofTokens r ts)).take start ++ a) ++ (s.index, .candidate s.text) :: b := by
    rw [List.append_assoc, ← hab, List.take_append_drop]
  obtain ⟨hlength, hmark⟩ := mark_of_indexed_eq hindexed
  rw [List.length_append, List.length_take_of_le hlt] at hlength
  -- the marks between the start and the site are those that the scan has seen
  have hbetween : ((indexed (Mark.ofTokens r ts)).take s.index).drop start = a := by
    rw [List.drop_take, hab, ← hlength, Nat.add_sub_cancel_left, List.take_left']
    rfl
  refine ⟨Registry.isCandidate_of_mark hmark, by simpa using hs, by omega, ?_⟩
  rw [← @markDepth_heeded _ r, hbetween, ha]
  simpa using hd

/-- Where the sites stand that a backward scan sees. -/
theorem of_mem_backward (h : s ∈ backward (Mark.ofTokens r ts) start skip) :
    r.IsCandidate ts s.index s.text ∧ skip s.index = false ∧ s.index ≤ start ∧
      bracketDepth (heeded skip ts (s.index + 1) (start + 1)) = 0 := by
  obtain ⟨u, v, hms, hd⟩ := mem_ofMarks.1 h
  obtain ⟨u, v', hfilter, rfl, hv⟩ := List.map_eq_append_iff.1 hms
  obtain ⟨⟨i, m⟩, v, rfl, hm, -⟩ := List.map_eq_cons_iff.1 hv
  obtain ⟨rfl, hm⟩ := Prod.mk.inj hm
  obtain rfl : m = .candidate s.text := by
    cases m with
    | opening | closing | other => cases hm
    | candidate text => exact hm
  obtain ⟨a, b, hab, ha, hs⟩ := exists_of_filter_eq hfilter
  have htake : (indexed (Mark.ofTokens r ts)).take (start + 1) =
      b.reverse ++ (s.index, .candidate s.text) :: a.reverse := by
    rw [← List.reverse_reverse ((indexed (Mark.ofTokens r ts)).take (start + 1)), hab]
    simp
  have hindexed : indexed (Mark.ofTokens r ts) = b.reverse ++ (s.index, .candidate s.text) ::
      (a.reverse ++ (indexed (Mark.ofTokens r ts)).drop (start + 1)) := by
    rw [← List.cons_append, ← List.append_assoc, ← htake, List.take_append_drop]
  obtain ⟨hlength, hmark⟩ := mark_of_indexed_eq hindexed
  have hle : s.index < start + 1 := by
    have hlength' := congrArg List.length htake
    have := List.length_take_le (start + 1) (indexed (Mark.ofTokens r ts))
    simp only [List.length_append, List.length_cons, hlength] at hlength'
    omega
  have hbetween : ((indexed (Mark.ofTokens r ts)).take (start + 1)).drop (s.index + 1) = a.reverse := by
    rw [htake, List.append_cons]
    exact List.drop_left' (by rw [List.length_append, hlength, List.length_singleton])
  refine ⟨Registry.isCandidate_of_mark hmark, by simpa using hs, by omega, ?_⟩
  rw [← @markDepth_heeded _ r, hbetween, ← Int.neg_eq_zero, ← markDepth_backwardMarks, backwardMarks,
    ← List.filter_reverse, List.reverse_reverse, ha]
  simpa using hd

end Site

/-! ## Operators that occur -/

/-- Candidates at some indices spell some texts: there are some, in ascending order, none of them is ignored, and none
is the first or the last token. -/
structure Occurs (r : Registry α) (ts : List Token) (skip : Nat → Bool) (points : List Nat) (texts : List Text) :
    Prop where
  ne_nil : points ≠ []
  ascending : points.Pairwise (· < ·)
  spelled : List.Forall₂ (r.IsCandidate ts) points texts
  heeded : ∀ p ∈ points, skip p = false
  inner : ∀ p ∈ points, 1 ≤ p ∧ p + 1 < ts.length

/-- Candidates at ascending indices occur there. -/
theorem occurs_of_sites {own : List Site} (hne : own ≠ []) (hp : (own.map Site.index).Pairwise (· < ·))
    (h : ∀ s ∈ own, r.IsCandidate ts s.index s.text ∧ skip s.index = false) :
    Occurs r ts skip (own.map Site.index) (own.map Site.text) where
  ne_nil := by simpa using hne
  ascending := hp
  spelled := by
    rw [List.forall₂_map_left_iff, List.forall₂_map_right_iff, List.forall₂_same]
    exact fun s hs => (h s hs).1
  heeded p hp := by
    obtain ⟨s, hs, rfl⟩ := List.mem_map.1 hp
    exact (h s hs).2
  inner p hp := by
    obtain ⟨s, hs, rfl⟩ := List.mem_map.1 hp
    exact (h s hs).1.inner

/-- Indexed marks are in ascending order. -/
theorem Site.pairwise_indexed (marks : List Mark) : ((indexed marks).map Prod.fst).Pairwise (· < ·) := by
  have hrange : (indexed marks).map Prod.fst = List.range marks.length := by
    rw [indexed, List.map_map]
    simp [Function.comp_def, List.range_eq_range']
  rw [hrange]
  exact List.pairwise_lt_range

namespace Scan

variable {β : Type} {t : Trie Text β} {points : List Nat}

/-- What a forward scan finds occurs behind the start, outside of the brackets since then. -/
theorem occurs_of_forward (h : forward t (Mark.ofTokens r ts) start skip = some points) :
    ∃ texts, Occurs r ts skip points texts ∧ (t.get? texts).isSome ∧
      ∀ p ∈ points, start ≤ p ∧ bracketDepth (heeded skip ts start p) = 0 := by
  rw [forward_eq] at h
  obtain ⟨f, hf, rfl⟩ := Option.map_eq_some_iff.1 h
  obtain ⟨hsub, hne, hitem⟩ := seek_sound 0 _ hf
  have hsites (s : Site) (hs : s ∈ f.sites) := Site.of_mem_forward (hsub.subset hs)
  have hindices : (f.sites.map Site.index).Sublist ((Site.indexed (Mark.ofTokens r ts)).map Prod.fst) :=
    (hsub.map _).trans ((Site.sublist_ofMarks _ _).trans ((List.filter_sublist.trans (List.drop_sublist _ _)).map _))
  refine ⟨f.sites.map Site.text, occurs_of_sites hne ((Site.pairwise_indexed _).sublist hindices) fun s hs => ?_, hitem,
    fun p hp => ?_⟩
  · exact ⟨(hsites s hs).1, (hsites s hs).2.1⟩
  · obtain ⟨s, hs, rfl⟩ := List.mem_map.1 hp
    exact (hsites s hs).2.2

/-- What a backward scan finds occurs up to the start, outside of the brackets between. -/
theorem occurs_of_backward (hstart : start < ts.length)
    (h : backward t (Mark.ofTokens r ts) start skip = some points) :
    ∃ texts, Occurs r ts skip points texts ∧ (t.get? texts.reverse).isSome ∧
      ∀ p ∈ points, p ≤ start ∧ bracketDepth (heeded skip ts (p + 1) (start + 1)) = 0 := by
  rw [backward_eq (by rwa [Mark.length_ofTokens])] at h
  obtain ⟨f, hf, rfl⟩ := Option.map_eq_some_iff.1 h
  obtain ⟨hsub, hne, hitem⟩ := seek_sound 0 _ hf
  have hsites (s : Site) (hs : s ∈ f.sites) := Site.of_mem_backward (hsub.subset hs)
  have hindices : (f.sites.map Site.index).reverse.Sublist ((Site.indexed (Mark.ofTokens r ts)).map Prod.fst) := by
    have hmarks := (hsub.map Site.index).trans (Site.sublist_ofMarks _ _)
    rw [List.map_map] at hmarks
    have hsub' := hmarks.trans (List.filter_sublist.map _)
    rw [List.map_reverse] at hsub'
    exact (List.reverse_sublist.1 (by rwa [List.reverse_reverse])).trans ((List.take_sublist _ _).map _)
  rw [← List.map_reverse] at hindices ⊢
  refine ⟨f.sites.reverse.map Site.text, occurs_of_sites (List.reverse_ne_nil_iff.2 hne)
    ((Site.pairwise_indexed _).sublist hindices) fun s hs => ?_, ?_, fun p hp => ?_⟩
  · exact ⟨(hsites s (List.mem_reverse.1 hs)).1, (hsites s (List.mem_reverse.1 hs)).2.1⟩
  · rwa [← List.map_reverse, List.reverse_reverse]
  · obtain ⟨s, hs, rfl⟩ := List.mem_map.1 hp
    exact (hsites s (List.mem_reverse.1 hs)).2.2

end Scan

/-! ## Operations that are cut -/

namespace Grammar

variable {group : Group α} {l : TokenList} {points : List Nat}

/-- A trie holds an operator for the tokens at some indices, and splitting a section there gives its operands: as many
sections as it takes. -/
def CutsInto (l : TokenList) (t : Trie Text (Operator α)) (points : List Nat) : Prop :=
  ∃ o parts, t.get? (points.filterMap fun i => (l.tokens[i]?).bind Token.fixed?) = some o ∧
    l.splitAtPoints (points.map Int.ofNat) = .ok parts ∧ parts.length = o.operandCount ∧
    infixOperation? l t points = some (.operation (l.positionAt (points.headD 0)) o parts)

/-- Sites that spell an operator of a group cut a section into its operands. -/
theorem cutsInto_of_among (hr : r.WellFormed) (hm : group ∈ r.groups.1) {own : List Site}
    (hown : Site.Among own l.tokens) {a : Associativity} {t : Trie Text (Operator α)}
    (ht : ∀ ts, group.get? (.infixed a) ts = t.get? ts) (hitem : (t.get? (own.map Site.text)).isSome) :
    CutsInto l t (own.map Site.index) := by
  obtain ⟨o, ho⟩ := Option.isSome_iff_exists.1 hitem
  obtain ⟨-, hf, htokens⟩ := hr.consistent hm (.infixed a) _ o ((ht _).trans ho)
  have htexts := Site.filterMap_fixed? hown.token
  refine ⟨o, l.cutAt (own.map Site.index), by rw [htexts, ho], ?_, ?_, by simp [infixOperation?, htexts, ho]⟩
  · exact TokenList.splitAtPoints_eq (TokenList.cuts_of_among hown).toAscending (by simpa using hown.ne_nil)
  · rw [Operator.operandCount, hf, htokens, TokenList.cutAt, TokenList.length_cutFrom, List.length_map, List.length_map]

theorem cutsInto_of_scanRight (hr : r.WellFormed) (hm : group ∈ r.groups.1)
    (h : scanRight group (Mark.ofTokens r l.tokens) (fun _ => false) = some points) :
    CutsInto l group.right points := by
  obtain ⟨own, rfl, hown, hitem⟩ := exists_among_of_scanRight (hr.sound hm) h
  exact cutsInto_of_among (a := .right) hr hm hown (fun _ => rfl) hitem

theorem cutsInto_of_scanLeft (hr : r.WellFormed) (hm : group ∈ r.groups.1)
    (h : scanLeft group (Mark.ofTokens r l.tokens) (fun _ => false) = some points) : CutsInto l group.left points := by
  obtain ⟨own, rfl, hown, hitem⟩ := exists_among_of_scanLeft (hr.sound hm) h
  exact cutsInto_of_among (a := .left) hr hm hown (fun _ => rfl) hitem

end Grammar

/-! ## Scans are sound -/

namespace Scan

/-- Scans end with an answer, and what they find are operators of the trie that occur where they have looked, so that
the operator of a section is there, and cuts it into its operands. -/
theorem ends_and_occurs {α β : Type} (r : Registry α) (ts : List Token) (t : Trie Text β) (start : Nat)
    (skip : Nat → Bool) :
    (∀ budget, 2 * (ts.length - start) + 2 ≤ budget →
      runForward (Mark.ofTokens r ts).toArray skip budget t t 0 [] start =
        some (forward t (Mark.ofTokens r ts) start skip)) ∧
    (∀ budget, 2 * (start + 1) + 2 ≤ budget →
      runBackward (Mark.ofTokens r ts).toArray skip budget t t 0 [] (start + 1) =
        some (backward t (Mark.ofTokens r ts) start skip)) ∧
    (∀ points, forward t (Mark.ofTokens r ts) start skip = some points →
      ∃ texts, Occurs r ts skip points texts ∧ (t.get? texts).isSome ∧
        ∀ p ∈ points, start ≤ p ∧ bracketDepth (heeded skip ts start p) = 0) ∧
    (start < ts.length → ∀ points, backward t (Mark.ofTokens r ts) start skip = some points →
      ∃ texts, Occurs r ts skip points texts ∧ (t.get? texts.reverse).isSome ∧
        ∀ p ∈ points, p ≤ start ∧ bracketDepth (heeded skip ts (p + 1) (start + 1)) = 0) ∧
    (r.Reachable → ∀ group ∈ r.groups.1, ∀ (l : TokenList) (points : List Nat),
      (Grammar.scanRight group (Mark.ofTokens r l.tokens) (fun _ => false) = some points →
        Grammar.CutsInto l group.right points) ∧
      (Grammar.scanLeft group (Mark.ofTokens r l.tokens) (fun _ => false) = some points →
        Grammar.CutsInto l group.left points)) := by
  have hlength := Mark.length_ofTokens r ts
  refine ⟨fun budget h => ?_, fun budget h => ?_, fun points h => occurs_of_forward h,
    fun hstart points h => occurs_of_backward hstart h, fun hr group hm l points => ⟨fun h => ?_, fun h => ?_⟩⟩
  · have hstall := stall_le t (Mark.ofTokens r ts).toArray[start]?
    rw [runForward_eq (Nat.le_refl start) [] (by rw [List.size_toArray, hlength]; omega), forward]
    rfl
  · have hstall := stall_le t (Mark.ofTokens r ts).toArray[start + 1 - 1]?
    rw [runBackward_eq (Nat.le_refl (start + 1)) [] (by omega), backward]
    simp only [List.append_nil]
  · exact Grammar.cutsInto_of_scanRight hr.wellFormed hm h
  · exact Grammar.cutsInto_of_scanLeft hr.wellFormed hm h

theorem reachable_rivalsSample : rivalsSample.Reachable := .addAll .empty (by
  simp only [List.forall_mem_cons]
  exact ⟨⟨by decide, fun h => absurd rfl (h .right)⟩, ⟨by decide, fun h => absurd rfl (h .right)⟩,
    ⟨by decide, fun h => absurd rfl (h .right)⟩, List.forall_mem_nil _⟩)

/-- The operators of `rivalsTrie`, forwards and backwards. -/
def rivalsBothWays : Trie Text Unit := (rivalsTrie.insert [['b'], ['a']] ()).insert [['d'], ['c']] ()

/-- The tokens of `) 1 a 2 c 3 d 4 b 5`. -/
def unmatchedTokens : List Token := .fixed [')'] :: nestedTokens

/-- Behind a bracket that does not match, both scans find the operator around the other one. -/
theorem ends_and_occurs_sample : rivalsSample.Reachable ∧ 9 < unmatchedTokens.length ∧
    runForward (Mark.ofTokens rivalsSample unmatchedTokens).toArray (Site.inPart 3 4) 20 rivalsBothWays rivalsBothWays
      0 [] 1 = some (some [2, 8]) ∧
    runBackward (Mark.ofTokens rivalsSample unmatchedTokens).toArray (Site.inPart 3 4) 22 rivalsBothWays
      rivalsBothWays 0 [] 10 = some (some [2, 8]) ∧
    (∃ texts, Occurs rivalsSample unmatchedTokens (Site.inPart 3 4) [2, 8] texts ∧
      (rivalsBothWays.get? texts).isSome ∧
      ∀ p ∈ [2, 8], 1 ≤ p ∧ bracketDepth (heeded (Site.inPart 3 4) unmatchedTokens 1 p) = 0) ∧
    (∃ texts, Occurs rivalsSample unmatchedTokens (Site.inPart 3 4) [2, 8] texts ∧
      (rivalsBothWays.get? texts.reverse).isSome ∧
      ∀ p ∈ [2, 8], p ≤ 9 ∧ bracketDepth (heeded (Site.inPart 3 4) unmatchedTokens (p + 1) 10) = 0) ∧
    ∃ group ∈ rivalsSample.groups.1,
      Grammar.scanRight group (Mark.ofTokens rivalsSample (TokenList.adjoining nestedTokens).tokens) (fun _ => false) =
        some [1, 7] ∧
      Grammar.CutsInto (TokenList.adjoining nestedTokens) group.right [1, 7] := by
  have hforward : forward rivalsBothWays (Mark.ofTokens rivalsSample unmatchedTokens) 1 (Site.inPart 3 4) =
      some [2, 8] := by decide +kernel
  have hbackward : backward rivalsBothWays (Mark.ofTokens rivalsSample unmatchedTokens) 9 (Site.inPart 3 4) =
      some [2, 8] := by decide +kernel
  have hscan : (rivalsSample.groups.1.any fun group => Grammar.scanRight group
      (Mark.ofTokens rivalsSample (TokenList.adjoining nestedTokens).tokens) (fun _ => false) ==
        some [1, 7]) = true := by
    rw [reachable_rivalsSample.wellFormed.groups_eq_foldl (by decide +kernel)]
    decide +kernel
  obtain ⟨group, hm, hpoints⟩ := List.any_eq_true.1 hscan
  have hpoints := beq_iff_eq.1 hpoints
  obtain ⟨hends, -, hoccurs, -, hcuts⟩ :=
    ends_and_occurs rivalsSample unmatchedTokens rivalsBothWays 1 (Site.inPart 3 4)
  obtain ⟨-, hends', -, hoccurs', -⟩ :=
    ends_and_occurs rivalsSample unmatchedTokens rivalsBothWays 9 (Site.inPart 3 4)
  exact ⟨reachable_rivalsSample, by decide, (hends 20 (by decide)).trans (congrArg some hforward),
    (hends' 22 (by decide)).trans (congrArg some hbackward), hoccurs [2, 8] hforward,
    hoccurs' (by decide) [2, 8] hbackward, group, hm, hpoints,
    (hcuts reachable_rivalsSample group hm (TokenList.adjoining nestedTokens) [1, 7]).1 hpoints⟩

end Scan

end Mixfix
