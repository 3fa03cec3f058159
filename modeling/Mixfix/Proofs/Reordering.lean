import Mathlib.Tactic.Tauto
import Mixfix.Proofs.Locality

/-!
# Texts to split by in another order

A text that overlaps with none of the other texts to split by cuts a text at its first occurrence, wherever it comes
among them (`Row.tokens_ofText_apart`). If no two of them overlap, this holds of each: what stands before the occurrence
and behind it is split in turn, and neither the order nor repeats matter (`TokenList.tokenize_eq_of_mem_iff`). A text
may overlap with itself: its first occurrence goes first.
-/

namespace Mixfix

open Text

namespace Row

variable {ss ss' : List Text} {t : Text}

/-- The tokens of a text do not depend on the order of texts that do not overlap. -/
theorem tokens_ofText_of_mem_iff (h : Neat ss) (h' : Neat ss') (hmem : ∀ s, s ∈ ss ↔ s ∈ ss')
    (hapart : ∀ s ∈ ss, ∀ u ∈ ss, s ≠ u → Apart s u) (t : Text) : (ofText ss t).tokens = (ofText ss' t).tokens := by
  induction hn : t.length using Nat.strong_induction_on generalizing t with
  | _ n ih =>
    by_cases hsome : ∃ s ∈ ss, s <:+: t
    · obtain ⟨s, hs, hinside⟩ := hsome
      have hne := (h s hs).1
      obtain ⟨p, q, rfl, hp⟩ := exists_first hinside hne
      have hpos := List.length_pos_iff.2 hne
      rw [List.length_append, List.length_append] at hn
      rw [tokens_ofText_apart h hs (fun u hu hus => hapart u hu s hs hus) hp q,
        tokens_ofText_apart h' ((hmem s).1 hs) (fun u hu hus => hapart u ((hmem u).2 hu) s hs hus) hp q,
        ih p.length (by omega) p rfl, ih q.length (by omega) q rfl]
    · have habsent : ∀ s ∈ ss, ¬ s <:+: t := fun s hs hinside => hsome ⟨s, hs, hinside⟩
      rw [ofText_of_forall_absent h habsent, ofText_of_forall_absent h' fun s hs => habsent s ((hmem s).2 hs)]

/-- Neither does the row: its spaces are what is left of the text. -/
theorem ofText_of_mem_iff (hclean : ∀ s ∈ ss, Clean isSpace s) (hmem : ∀ s, s ∈ ss ↔ s ∈ ss')
    (hapart : ∀ s ∈ ss, ∀ u ∈ ss, s ≠ [] → u ≠ [] → s ≠ u → Apart s u) (t : Text) : ofText ss t = ofText ss' t := by
  have h := neat_splittersOf hclean
  have h' : Neat (splittersOf ss') := neat_splittersOf fun s hs => hclean s ((hmem s).2 hs)
  have htokens := tokens_ofText_of_mem_iff h h' (fun s => by rw [mem_splittersOf, mem_splittersOf, hmem])
    (fun s hs u hu => hapart s (mem_splittersOf.1 hs).1 u (mem_splittersOf.1 hu).1 (mem_splittersOf.1 hs).2
      (mem_splittersOf.1 hu).2) t
  rw [← ofText_splittersOf ss, ← ofText_splittersOf ss']
  exact eq_of_tokens htokens (by rw [render_ofText, render_ofText]) (clean_of_mem_ofText h)

end Row

namespace TokenList

/-- Texts that do not overlap split every text alike, in whatever order and however often they are given. -/
theorem tokenize_eq_of_mem_iff {splitters splitters' : List Text} (hclean : ∀ s ∈ splitters, Clean isSpace s)
    (hmem : ∀ s, s ∈ splitters ↔ s ∈ splitters')
    (hapart : ∀ s ∈ splitters, ∀ u ∈ splitters, s ≠ [] → u ≠ [] → s ≠ u → Row.Apart s u) (limits : Limits)
    (source : Text) : tokenize splitters limits source = tokenize splitters' limits source := by
  have hrow := Row.ofText_of_mem_iff hclean hmem hapart source
  have hlist : ofText splitters source = ofText splitters' source := by rw [ofText, ofText, hrow]
  rw [tokenize, tokenize, hlist]

/-- The text `++` overlaps with itself, and it has no characters in common with `->` and `=>`, which end alike. -/
theorem tokenize_eq_of_mem_iff_sample : ∃ splitters splitters' : List Text,
    splitters = [['+', '+'], ['=', '>'], [], ['-', '>']] ∧
    splitters' = [['-', '>'], ['=', '>'], ['+', '+'], ['-', '>'], []] ∧
    (∀ s ∈ splitters, Clean isSpace s) ∧ (∀ s, s ∈ splitters ↔ s ∈ splitters') ∧
    (∀ s ∈ splitters, ∀ u ∈ splitters, s ≠ [] → u ≠ [] → s ≠ u → Row.Apart s u) ∧
    (∀ limits, tokenize splitters limits "a +++->b=>1 ".toList = tokenize splitters' limits "a +++->b=>1 ".toList) ∧
    (ofText splitters "a +++->b=>1 ".toList).tokens.map Token.text =
      [['a'], ['+', '+'], ['+'], ['-', '>'], ['b'], ['=', '>'], ['1']] := by
  have hclean : ∀ s ∈ [['+', '+'], ['=', '>'], [], ['-', '>']], Clean isSpace s := by simp [Clean, isSpace]
  have hmem (s : Text) : s ∈ [['+', '+'], ['=', '>'], [], ['-', '>']] ↔
      s ∈ [['-', '>'], ['=', '>'], ['+', '+'], ['-', '>'], []] := by
    simp only [List.mem_cons, List.not_mem_nil, or_false]
    tauto
  have hapart : ∀ s ∈ [['+', '+'], ['=', '>'], [], ['-', '>']], ∀ u ∈ [['+', '+'], ['=', '>'], [], ['-', '>']],
      s ≠ [] → u ≠ [] → s ≠ u → Row.Apart s u := by decide
  exact ⟨_, _, rfl, rfl, hclean, hmem, hapart, fun limits => tokenize_eq_of_mem_iff hclean hmem hapart limits _,
    by decide +kernel⟩

end TokenList

end Mixfix
