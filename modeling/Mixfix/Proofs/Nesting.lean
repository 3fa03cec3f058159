import Mixfix.Proofs.Bracketed
import Mixfix.Proofs.Matching
import Mixfix.Proofs.Yields

/-!
# Sections are balanced

Whether a section is in brackets is told from its first token, its last token and the depth between them, which is right
only if its brackets match. Brackets are checked for the whole list alone, but each way to read a balanced section
leaves balanced sections (`Grammar.balanced_of_read`), so every section of a list that has been checked is balanced.

Brackets at the end of a section are looked for in a suffix of it, which may have close brackets of pairs that begin
before it. Still the suffix is in brackets only if its first bracket is paired with its last
(`Pairs.areInBrackets_iff`).
-/

namespace Mixfix

variable {ts u v m : List Token} {i j k : Nat}

/-! ## The partner of a bracket -/

theorem FirstSurplus.unique (h : FirstSurplus ts i) (h' : FirstSurplus ts j) : i = j := by
  -- the shorter of two prefixes with a surplus would not have one
  have hle {i j : Nat} (h : FirstSurplus ts i) (h' : FirstSurplus ts j) : j ≤ i := by
    by_contra hlt
    exact absurd (h'.least (i + 1) (by omega)) (Int.not_le.2 h.surplus)
  exact Nat.le_antisymm (hle h' h) (hle h h')

/-- A bracket has one partner. -/
theorem Pairs.unique (h : Pairs ts i j) (h' : Pairs ts i k) : j = k := by
  obtain ⟨u, m, v, rfl, hm, hi, hj⟩ := h
  obtain ⟨u', m', v', heq, hm', hi', hk⟩ := h'
  obtain ⟨-, hrest⟩ := List.append_inj heq (hi.trans hi'.symm)
  obtain ⟨-, hrest⟩ := List.cons.inj hrest
  have hsurplus := firstSurplus_of_balanced (v := v') hm'
  rw [← hrest] at hsurplus
  have := (firstSurplus_of_balanced hm).unique hsurplus
  omega

/-- Brackets that are paired stand in the tokens, one behind the other. -/
theorem Pairs.lt (h : Pairs ts i j) : i < j ∧ j < ts.length := by
  obtain ⟨u, m, v, rfl, -, hi, hj⟩ := h
  simp only [List.length_append, List.length_cons]
  omega

/-- The tokens from an index on are in brackets exactly if a bracket there is paired with the last token. -/
theorem Balanced.areInBrackets_drop_iff (h : Balanced ts) (i : Nat) :
    TokenList.areInBrackets (ts.drop i) = true ↔ Pairs ts i (ts.length - 1) := by
  constructor
  · intro hin
    have hsplit := (List.take_append_drop i ts).symm
    have hb := h
    rw [hsplit] at hb
    obtain ⟨-, m, hm, hbm⟩ := TokenList.areInBrackets_append hb hin
    have hlt : i < ts.length := by
      by_contra hle
      rw [List.drop_eq_nil_of_le (by omega)] at hm
      cases hm
    have hlength := congrArg List.length hm
    rw [List.length_drop, List.length_cons, List.length_append, List.length_singleton] at hlength
    have htake : (ts.take i).length = i := List.length_take_of_le (Nat.le_of_lt hlt)
    refine ⟨ts.take i, m, [], by rw [← hm, List.take_append_drop], hbm, htake, ?_⟩
    omega
  · rintro ⟨u, m, v, rfl, hm, rfl, hj⟩
    simp only [List.length_append, List.length_cons] at hj
    obtain rfl : v = [] := List.eq_nil_of_length_eq_zero (by omega)
    rw [List.drop_left]
    exact TokenList.areInBrackets_iff_staysOpen.2 ⟨m, rfl, hm.depth_prefix⟩

/-! ## The first inner bracket -/

/-- At an index that is not the first stands an open bracket, and none between the first token and it. -/
structure FirstInner (ts : List Token) (i : Nat) : Prop where
  pos : 1 ≤ i
  opens : ts[i]? = some (.fixed Token.openText)
  least : ∀ j, 1 ≤ j → j < i → ts[j]? ≠ some (.fixed Token.openText)

namespace Grammar

open TokenList

/-- The last token of balanced tokens is no open bracket, so it need not be looked at. -/
theorem innerOpen?_eq_some_iff (h : Balanced ts) : innerOpen? ts = some i ↔ FirstInner ts i := by
  have hget {k : Nat} (hk : k < ts.tail.dropLast.length) : ts[k + 1]? = some ts.tail.dropLast[k] := by
    rw [List.getElem_dropLast, List.getElem_tail, List.getElem?_eq_getElem]
  rw [innerOpen?, Option.map_eq_some_iff]
  constructor
  · rintro ⟨k, hk, rfl⟩
    obtain ⟨hlt, hopen, hleast⟩ := List.findIdx?_eq_some_iff_getElem.1 hk
    refine ⟨Nat.le_add_left 1 k, by rw [hget hlt, Token.isOpen_iff.1 hopen], fun j hj hjk hopens => ?_⟩
    obtain ⟨j, rfl⟩ := Nat.exists_eq_add_of_le' hj
    rw [hget (by omega), Option.some.injEq] at hopens
    exact hleast j (by omega) (Token.isOpen_iff.2 hopens)
  · rintro ⟨hpos, hopens, hleast⟩
    obtain ⟨k, rfl⟩ := Nat.exists_eq_add_of_le' hpos
    obtain ⟨j, hj⟩ := h.exists_pairs hopens
    have hbounds := hj.lt
    have hlt : k < ts.tail.dropLast.length := by
      rw [List.length_dropLast, List.length_tail]
      omega
    refine ⟨k, List.findIdx?_eq_some_iff_getElem.2 ⟨hlt, ?_, fun j hjk hopen => ?_⟩, rfl⟩
    · rw [hget hlt, Option.some.injEq] at hopens
      exact Token.isOpen_iff.2 hopens
    · exact hleast (j + 1) (Nat.le_add_left 1 j) (by omega) (by rw [hget (by omega), Token.isOpen_iff.1 hopen])

/-! ## Sections that are read -/

variable {α : Type} {g : Grammar α} {source : Text} {l s : TokenList} {path : List Nat}

/-- Every section of a balanced list is balanced. -/
theorem SectionAt.balanced (hr : g.operators.WellFormed) (havoids : g.operators.AvoidsBuiltins)
    (hb : Balanced l.tokens) (hs : g.SectionAt source l path s) : Balanced s.tokens :=
  hs.preserves (fun hb hread => balanced_of_read hr havoids hb hread) hb

/-- Every section of a list whose brackets have been checked would pass the same check. So the test for brackets is
right of each: it tells whether the first token is paired with the last. It is right, too, of the suffix that begins
with the first inner bracket, whether that suffix is balanced or not. -/
theorem brackets_of_sectionAt (hr : g.operators.Reachable) (havoids : g.operators.AvoidsBuiltins)
    (hl : l.checkBrackets source = .ok ()) (hs : g.SectionAt source l path s) :
    s.checkBrackets source = .ok () ∧ Balanced s.tokens ∧
    (s.isInBrackets = true ↔ Pairs s.tokens 0 (s.size - 1)) ∧
    (∀ i, innerOpen? s.tokens = some i ↔ FirstInner s.tokens i) ∧
    ∀ i, FirstInner s.tokens i → ∃ j, Pairs s.tokens i j ∧
      ((s.slice i s.size).isInBrackets = true ↔ j = s.size - 1) := by
  have hb := hs.balanced hr.wellFormed havoids ((checkBrackets_eq_ok_iff l source).1 hl)
  refine ⟨(checkBrackets_eq_ok_iff s source).2 hb, hb, ?_, fun i => innerOpen?_eq_some_iff hb, fun i hi => ?_⟩
  · rw [isInBrackets, size_eq, ← hb.areInBrackets_drop_iff, List.drop_zero]
  · obtain ⟨j, hj⟩ := hb.exists_pairs hi.opens
    refine ⟨j, hj, ?_⟩
    rw [isInBrackets, tokens_slice_size, hb.areInBrackets_drop_iff, size_eq]
    exact ⟨fun h => hj.unique h, fun h => h ▸ hj⟩

/-- The tokens of `f(((x)ax)a(x))`. -/
def nestedSampleTokens : List Token :=
  [.raw ['f'], .fixed ['('], .fixed ['('], .fixed ['('], .raw ['x'], .fixed [')'], .fixed ['a'], .raw ['x'],
    .fixed [')'], .fixed ['a'], .fixed ['('], .raw ['x'], .fixed [')'], .fixed [')']]

/-- The argument of a call begins and ends with a bracket, and so does what it has from its first inner bracket on,
which is not balanced. -/
theorem brackets_of_sectionAt_sample : ∃ s, sharedSample.operators.Reachable ∧
    sharedSample.operators.AvoidsBuiltins ∧ (adjoining nestedSampleTokens).checkBrackets [] = .ok () ∧
    sharedSample.SectionAt [] (adjoining nestedSampleTokens) [0] s ∧ FirstInner s.tokens 1 ∧
    ¬ Balanced (s.slice 1 s.size).tokens ∧ s.checkBrackets [] = .ok () ∧ Balanced s.tokens ∧
    (s.isInBrackets = true ↔ Pairs s.tokens 0 (s.size - 1)) ∧ innerOpen? s.tokens = some 1 ∧
    ∃ j, Pairs s.tokens 1 j ∧ ((s.slice 1 s.size).isInBrackets = true ↔ j = s.size - 1) := by
  have havoids : sharedSample.operators.AvoidsBuiltins := by
    rw [Registry.AvoidsBuiltins, operators_sharedSample]
    decide
  have hread : sharedSample.read [] sharedSample.operators.groups.1 (adjoining nestedSampleTokens) =
      .ok (.call ['f'] [(adjoining nestedSampleTokens).slice 2 13]) := by rfl
  have hs : sharedSample.SectionAt [] (adjoining nestedSampleTokens) [0]
      ((adjoining nestedSampleTokens).slice 2 13) := .child hread (by simp) rfl .here
  have hfirst : FirstInner ((adjoining nestedSampleTokens).slice 2 13).tokens 1 :=
    ⟨Nat.le_refl 1, rfl, fun j hj hlt => absurd hlt (by omega)⟩
  have hunbalanced : ¬ Balanced
      (((adjoining nestedSampleTokens).slice 2 13).slice 1 ((adjoining nestedSampleTokens).slice 2 13).size).tokens :=
    fun h => absurd h.depth_eq (by decide)
  obtain ⟨hcheck, hb, hwhole, hinner, hsuffix⟩ := brackets_of_sectionAt reachable_sharedSample havoids rfl hs
  exact ⟨_, reachable_sharedSample, havoids, rfl, hs, hfirst, hunbalanced, hcheck, hb, hwhole, (hinner 1).2 hfirst,
    hsuffix 1 hfirst⟩

end Grammar

end Mixfix
