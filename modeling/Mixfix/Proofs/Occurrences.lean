import Mixfix.Builder
import Mixfix.Proofs.Locality
import Mixfix.Proofs.Parts

/-!
# Occurrences of the texts that a text is split by

A text is split by some texts one after the other, while an occurrence is a matter of the whole text. Wherever one of
the texts occurs, overlapping other occurrences or itself, a fixed token takes at least one character of the occurrence,
and this token is that text or one that goes before it (`Row.claims_ofText`): at the first occurrence of the first of
the texts the row falls into two, and an occurrence of a later text is on one of the sides or meets the token between
them. Nothing that is left between the fixed tokens contains any of the texts (`Row.not_infix_of_raw_mem`).

So the texts that go first are never broken up by those behind them (`TokenList.divided_of_tokenize`). A builder splits
by the tokens that were registered last first.
-/

namespace Mixfix

/-! ## Rows -/

namespace Row

open Text

variable {ss xs : List Text} {s t u : Text} {r left right : Row} {a m : Nat}

/-- A fixed token with one of the texts takes one of the `m` characters from the index `a` on. -/
def Claims (xs : List Text) (a m : Nat) (r : Row) : Prop :=
  ∃ us n x vs, r.items = us ++ ⟨n, .fixed x⟩ :: vs ∧ x ∈ xs ∧
    (us.flatMap Spaced.render).length + n < a + m ∧ a < (us.flatMap Spaced.render).length + n + x.length

theorem length_render (r : Row) : r.render.length = (r.items.flatMap Spaced.render).length + r.trailing := by
  rw [render, List.length_append, spaces, List.length_replicate]

theorem Claims.mono {ys : List Text} (h : Claims xs a m r) (hsub : xs ⊆ ys) : Claims ys a m r := by
  obtain ⟨us, n, x, vs, hitems, hx, hmeets⟩ := h
  exact ⟨us, n, x, vs, hitems, hsub hx, hmeets⟩

theorem Claims.join_left (h : Claims xs a m left) : Claims xs a m (left.join (.fixed t) right) := by
  obtain ⟨us, n, x, vs, hitems, hx, hmeets⟩ := h
  refine ⟨us, n, x, vs ++ ⟨left.trailing, .fixed t⟩ :: right.items, ?_, hx, hmeets⟩
  rw [join, hitems, List.append_assoc, List.cons_append]

theorem Claims.join_right (h : Claims xs a m right) :
    Claims xs (left.render.length + t.length + a) m (left.join (.fixed t) right) := by
  obtain ⟨us, n, x, vs, hitems, hx, hmeets⟩ := h
  refine ⟨left.items ++ ⟨left.trailing, .fixed t⟩ :: us, n, x, vs, ?_, hx, ?_⟩
  · rw [join, hitems, List.append_assoc, List.cons_append]
  · have hlength : ((left.items ++ ⟨left.trailing, .fixed t⟩ :: us).flatMap Spaced.render).length =
        left.render.length + t.length + (us.flatMap Spaced.render).length := by
      simp only [length_render, List.flatMap_append, List.length_append, List.flatMap_cons, Spaced.render, spaces,
        List.length_replicate, Token.text]
      omega
    rw [hlength]
    omega

/-- The token between two rows takes a character of what begins before its end and ends behind its start. -/
theorem Claims.join_mid (hx : t ∈ xs) (hstart : left.render.length < a + m) (hend : a < left.render.length + t.length) :
    Claims xs a m (left.join (.fixed t) right) := by
  rw [length_render] at hstart hend
  exact ⟨left.items, left.trailing, t, right.items, rfl, hx, hstart, hend⟩

theorem Claims.readNumbers (h : Claims xs a m r) : Claims xs a m r.readNumbers := by
  obtain ⟨us, n, x, vs, hitems, hx, hmeets⟩ := h
  have hrender : ((us.map fun s => { s with token := readToken s.token }).flatMap Spaced.render) =
      us.flatMap Spaced.render := by
    simp only [List.flatMap_map, Spaced.render, text_readToken]
    rfl
  refine ⟨us.map fun s => { s with token := readToken s.token }, n, x,
    vs.map fun s => { s with token := readToken s.token }, ?_, hx, by rw [hrender]; exact hmeets⟩
  simp [Row.readNumbers, hitems, readToken]

/-- Of two ways to divide a text, the one that divides it behind the other divides its second part. -/
theorem exists_between {u v w z : Text} (h : u ++ v = w ++ z) (hle : u.length ≤ w.length) :
    ∃ x, w = u ++ x ∧ v = x ++ z := by
  obtain ⟨x, rfl⟩ := List.prefix_of_prefix_length_le (List.prefix_append u v) ⟨z, h.symm⟩ hle
  rw [List.append_assoc] at h
  exact ⟨x, rfl, List.append_cancel_left h⟩

/-- Wherever one of the texts occurs, it or one before it takes a character. -/
theorem claims_ofText (h : Neat ss) {earlier later : List Text} (hss : ss = earlier ++ s :: later) {p q : Text}
    (ht : t = p ++ (s ++ q)) : Claims (earlier ++ [s]) p.length s.length (ofText ss t) := by
  induction ss generalizing earlier t p q with
  | nil => simp at hss
  | cons s₀ ss ih =>
    have hs₀ := (h s₀ List.mem_cons_self).1
    have hmem : s₀ ∈ earlier ++ [s] := by
      cases earlier with
      | nil => exact List.mem_singleton.2 (List.cons.inj hss).1
      | cons _ _ => rw [(List.cons.inj hss).1]; exact List.mem_cons_self
    -- where the first of the texts does not occur, it is another one that does
    have hrest {t p q : Text} (ht : t = p ++ (s ++ q)) (hnot : ¬ s₀ <:+: t) :
        Claims (earlier ++ [s]) p.length s.length (ofText ss t) := by
      cases earlier with
      | nil =>
        obtain ⟨rfl, -⟩ := List.cons.inj hss
        exact absurd ⟨p, q, by rw [ht, List.append_assoc]⟩ hnot
      | cons x earlier => exact (ih h.tail (List.cons.inj hss).2 ht).mono (List.subset_cons_self x _)
    induction t using firstInduction hs₀ generalizing p q with
    | none t hnot =>
      rw [ofText_of_absent h hnot]
      exact hrest ht hnot
    | first p₀ q₀ hfirst ihq =>
      rw [ofText_first h hfirst]
      have hlength := render_ofText ss p₀
      by_cases hbefore : p.length + s.length ≤ p₀.length
      · -- the occurrence is before the first one of the first text
        have hdivided : (p ++ s) ++ q = p₀ ++ (s₀ ++ q₀) := by rw [ht, List.append_assoc]
        obtain ⟨z, hz, -⟩ := exists_between hdivided (by rwa [List.length_append])
        rw [List.append_assoc] at hz
        exact (hrest hz hfirst.absent).join_left
      by_cases hbehind : p₀.length + s₀.length ≤ p.length
      · have hdivided : (p₀ ++ s₀) ++ q₀ = p ++ (s ++ q) := by rw [← ht, List.append_assoc]
        obtain ⟨z, rfl, hz⟩ := exists_between hdivided (by rwa [List.length_append])
        have hright := @Claims.join_right _ s₀ (ofText ss p₀) _ _ _ (ihq hz)
        rw [hlength] at hright
        rw [List.length_append, List.length_append]
        exact hright
      · refine Claims.join_mid hmem ?_ ?_
        · rw [hlength]
          omega
        · rw [hlength]
          omega

/-- None of the texts is left within a raw token. -/
theorem not_infix_of_raw_mem (h : Neat ss) (hraw : .raw u ∈ (ofText ss t).tokens) : ∀ s ∈ ss, ¬ s <:+: u := by
  induction ss generalizing t with
  | nil => simp
  | cons s₀ ss ih =>
    have habsent {t : Text} (hnot : ¬ s₀ <:+: t) (hraw : .raw u ∈ (ofText ss t).tokens) :
        ∀ s ∈ s₀ :: ss, ¬ s <:+: u := by
      have hu := infix_render hraw
      rw [render_ofText] at hu
      exact List.forall_mem_cons.2 ⟨fun hs => hnot (hs.trans hu), ih h.tail hraw⟩
    induction t using firstInduction (h s₀ List.mem_cons_self).1 with
    | none t hnot =>
      rw [ofText_of_absent h hnot] at hraw
      exact habsent hnot hraw
    | first p q hfirst ihq =>
      rw [tokens_ofText_first h hfirst, List.mem_append, List.mem_cons] at hraw
      rcases hraw with hraw | hraw | hraw
      · exact habsent hfirst.absent hraw
      · cases hraw
      · exact ihq hraw

end Row

/-! ## Token lists -/

namespace TokenList

open Text

variable {κ : Type} {splitters : List Text} {limits : Limits} {source : Text} {l : TokenList}

/-- A fixed token with one of the texts takes one of the `count` characters from the index `start` on. -/
def Claims (l : TokenList) (texts : List Text) (start count : Nat) : Prop :=
  ∃ (i : Nat) (t : Text) (n : Int), l.tokens[i]? = some (.fixed t) ∧ t ∈ texts ∧
    (l.positionAt i ≤ n ∧ n < l.positionAt i + t.length) ∧ ((start : Int) ≤ n ∧ n < start + count)

/-- The tokens divide the source: what the source is split by takes its characters from the source, earlier texts first,
and nothing that is left between could be split any further. -/
structure Divides (splitters : List Text) (source : Text) (l : TokenList) : Prop where
  /-- Every token stands in the source at its position. -/
  stands : ∀ i t, l.tokens[i]? = some t → ∃ n : Nat, l.positionAt i = n ∧ t.text <+: source.drop n
  fixed : ∀ t, .fixed t ∈ l.tokens → t ∈ splitters ∧ t ≠ []
  /-- Of each occurrence of a text, that text or an earlier one takes a character. -/
  claimed : ∀ earlier s later, splitters = earlier ++ s :: later → s ≠ [] →
    ∀ before behind, source = before ++ s ++ behind → l.Claims (earlier ++ [s]) before.length s.length
  /-- What is left has no spaces at its ends and contains none of the texts. -/
  remains : ∀ t ∈ l.tokens, t.fixed? = none →
    t.text ≠ [] ∧ Clean isSpace t.text ∧ ∀ s ∈ splitters, s ≠ [] → ¬ s <:+: t.text
  apart : ∀ i t t', l.tokens[i]? = some t → l.tokens[i + 1]? = some t' → t.fixed? ≠ none ∨ t'.fixed? ≠ none
  /-- What is left is a number exactly if it reads as one. -/
  number : ∀ t v, .number t v ∈ l.tokens → readNumber? t = some v
  raw : ∀ t, .raw t ∈ l.tokens → readNumber? t = none

theorem claims_of_row {xs : List Text} {a m : Nat} (h : l.toRow.Claims xs a m) (hoffset : l.offset = 0) (hm : 0 < m)
    (hne : ∀ t, .fixed t ∈ l.tokens → t ≠ []) : l.Claims xs a m := by
  obtain ⟨us, n, x, vs, hitems, hx, hstart, hend⟩ := h
  have htoken : l.tokens[us.length]? = some (.fixed x) := by simp [Row.tokens, hitems]
  have hpos := List.length_pos_iff.2 (hne x (List.mem_of_getElem? htoken))
  have hposition : l.positionAt us.length = ((us.flatMap Spaced.render).length + n : Nat) := by
    rw [positionAt, boundary, ← length_render_take, spacing, hoffset, hitems, List.take_left]
    simp
  -- the greater of both starts is a character of both
  refine ⟨us.length, x, max a ((us.flatMap Spaced.render).length + n : Nat), htoken, hx, ?_, ?_⟩
  · omega
  · omega

theorem divides_ofText (hclean : ∀ s ∈ splitters, Clean isSpace s) (source : Text) :
    (ofText splitters source).Divides splitters source := by
  have htokenized := tokenized_ofText splitters source
  have hneat := Row.neat_splittersOf hclean
  have hrow := (Row.ofText_splittersOf splitters source).symm
  have hfixed (t : Text) (ht : .fixed t ∈ (ofText splitters source).tokens) : t ≠ [] :=
    htokenized.ne_nil (.fixed t) ht
  constructor
  case stands => exact fun i t ht => (lies_ofText splitters source).exists_positionAt ht
  case fixed => exact fun t ht => ⟨htokenized.fixed t ht, hfixed t ht⟩
  case claimed =>
    intro earlier s later hsplitters hne before behind hsource
    have hss : Row.splittersOf splitters = Row.splittersOf earlier ++ s :: Row.splittersOf later := by
      simp [hsplitters, Row.splittersOf, hne]
    rw [List.append_assoc] at hsource
    have hclaims := Row.claims_ofText hneat hss hsource
    rw [← hrow] at hclaims
    have hsub : Row.splittersOf earlier ++ [s] ⊆ earlier ++ [s] := by
      intro x hx
      exact List.mem_append.2 ((List.mem_append.1 hx).imp_left fun hx => (Row.mem_splittersOf.1 hx).1)
    exact claims_of_row (hclaims.mono hsub).readNumbers rfl (List.length_pos_iff.2 hne) hfixed
  case remains =>
    intro t ht hrun
    rw [tokens_ofText, hrow] at ht
    obtain ⟨token, htoken, rfl⟩ := List.mem_map.1 ht
    obtain ⟨hne, hspaces⟩ := Row.clean_of_mem_ofText hneat token htoken
    rw [Row.text_readToken]
    refine ⟨hne, hspaces, fun s hs hsne => ?_⟩
    cases token with
    | raw u => exact Row.not_infix_of_raw_mem hneat htoken s (Row.mem_splittersOf.2 ⟨hs, hsne⟩)
    | fixed u => cases hrun
    | number u v => exact absurd htoken ((Row.ofText_spec _ source).2.number u v)
  case apart =>
    intro i t t' ht ht'
    obtain ⟨hi, rfl⟩ := List.getElem?_eq_some_iff.1 ht'
    obtain ⟨hi', rfl⟩ := List.getElem?_eq_some_iff.1 ht
    have hbeside := List.isChain_iff_getElem.1 htokenized.chain i hi
    rw [Row.Beside, Option.isSome_iff_ne_none, Option.isSome_iff_ne_none] at hbeside
    exact hbeside
  case number => exact htokenized.number
  case raw => exact htokenized.raw

/-- A text that is not too long is divided by the texts that it is split by. A builder splits by the tokens that were
registered last first, so that no token is broken up by those registered before it. -/
theorem divides_of_tokenize (hclean : ∀ s ∈ splitters, Clean isSpace s)
    (hlength : source.length ≤ limits.expressionLength) :
    ∃ l, tokenize splitters limits source = .ok l ∧ l.Divides splitters source ∧
      ∀ b : Builder κ, b.operators.tokens.reverse = splitters → b.limits = limits → b.tokenize source = .ok l ∧
        ∀ earlier s later, b.operators.tokens = earlier ++ s :: later → s ≠ [] →
          ∀ before behind, source = before ++ s ++ behind → l.Claims (s :: later) before.length s.length := by
  have hok := @tokenize_of_le splitters limits source hlength
  have hdivides := divides_ofText hclean source
  refine ⟨ofText splitters source, hok, hdivides, fun b htokens hlimits => ⟨?_, ?_⟩⟩
  · rw [Builder.tokenize, htokens, hlimits, hok]
  · intro earlier s later hregistered hne before behind hsource
    have hsplitters : splitters = later.reverse ++ s :: earlier.reverse := by
      rw [← htokens, hregistered, List.reverse_append, List.reverse_cons, List.append_assoc, List.singleton_append]
    have hclaims := hdivides.claimed _ s _ hsplitters hne before behind hsource
    obtain ⟨i, t, n, ht, hmem, hn⟩ := hclaims
    refine ⟨i, t, n, ht, ?_, hn⟩
    rcases List.mem_append.1 hmem with hmem | hmem
    · exact List.mem_cons_of_mem s (List.mem_reverse.1 hmem)
    · rw [List.mem_singleton.1 hmem]
      exact List.mem_cons_self

/-- In `a=/=1` the text `=/` goes first, and the first `=` has to share its character with it. -/
theorem divides_of_tokenize_sample : ∃ l, tokenize [['=', '/'], ['=']] {} "a=/=1".toList = .ok l ∧
    l.tokens.map Token.text = [['a'], ['=', '/'], ['='], ['1']] ∧ l.Divides [['=', '/'], ['=']] "a=/=1".toList ∧
      l.Claims ([['=', '/']] ++ [['=']]) 1 1 := by
  obtain ⟨l, hl, hdivides, -⟩ := @divides_of_tokenize Unit [['=', '/'], ['=']] {} "a=/=1".toList
    (by simp [Clean, isSpace]) (by decide)
  have htokens : (tokenize [['=', '/'], ['=']] {} "a=/=1".toList).toOption.map (fun l => l.tokens.map Token.text) =
      some [['a'], ['=', '/'], ['='], ['1']] := by decide +kernel
  rw [hl] at htokens
  have hclaims := hdivides.claimed [['=', '/']] ['='] [] rfl (by decide) ['a'] ['/', '=', '1'] rfl
  exact ⟨l, hl, Option.some.inj htokens, hdivides, hclaims⟩

end TokenList

end Mixfix
