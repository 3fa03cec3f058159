import Mathlib.Computability.Language
import Mixfix.Text.Pattern

/-!
# The languages of patterns

A pattern stands for a language (`Pattern.language`), built by union, concatenation and iteration. Trying one way to
match after the other finds a match exactly if there is one (`matchThen_iff`), so a whole text matches exactly if it is
in the language (`fullMatch_iff`).
-/

open scoped Computability

namespace Mixfix.Text

/-- The texts of one character of a class. -/
def ofClass (p : Char → Bool) : Language Char := {t | ∃ c, p c = true ∧ t = [c]}

variable {p : Char → Bool} {t : Text}

theorem mem_ofClass : t ∈ ofClass p ↔ ∃ c, p c = true ∧ t = [c] := Iff.rfl

/-- The iteration of a class is the texts of its characters. -/
theorem mem_kstar_ofClass : t ∈ (ofClass p)∗ ↔ ∀ c ∈ t, p c = true := by
  rw [Language.mem_kstar]
  constructor
  · rintro ⟨ts, rfl, hts⟩ c hc
    obtain ⟨u, hu, hcu⟩ := List.mem_flatten.1 hc
    obtain ⟨d, hd, rfl⟩ := hts u hu
    rwa [List.mem_singleton.1 hcu]
  · intro h
    refine ⟨t.map fun c => [c], (List.flatMap_singleton' t).symm, fun u hu => ?_⟩
    obtain ⟨c, hc, rfl⟩ := List.mem_map.1 hu
    exact ⟨c, h c hc, rfl⟩

/-- A character and those after it, all of a class. -/
theorem mem_ofClass_mul_kstar : t ∈ ofClass p * (ofClass p)∗ ↔ t ≠ [] ∧ ∀ c ∈ t, p c = true := by
  simp only [Language.mem_mul, mem_kstar_ofClass]
  constructor
  · rintro ⟨_, ⟨c, hc, rfl⟩, v, hv, rfl⟩
    exact ⟨List.cons_ne_nil c v, List.forall_mem_cons.2 ⟨hc, hv⟩⟩
  · rintro ⟨hne, h⟩
    obtain ⟨c, v, rfl⟩ := List.exists_cons_of_ne_nil hne
    rw [List.forall_mem_cons] at h
    exact ⟨[c], ⟨c, h.1, rfl⟩, v, h.2, rfl⟩

namespace Pattern

/-- The texts that match. -/
def language : Pattern → Language Char
  | word w => {w}
  | char p => ofClass p
  | run p => (ofClass p)∗
  | seq a b => language a * language b
  | either a b => language a + language b

theorem language_optional (a : Pattern) : (optional a).language = 1 + a.language := add_comm _ _

theorem language_run1 (p : Char → Bool) : (run1 p).language = ofClass p * (ofClass p)∗ := rfl

theorem runThen_iff {rest : Text → Bool} : ∀ {t : Text}, runThen p rest t = true ↔
    ∃ u v, t = u ++ v ∧ (∀ c ∈ u, p c = true) ∧ rest v = true := by
  intro t
  induction t with
  | nil => simp [runThen]
  | cons c t ih =>
    rw [runThen, Bool.or_eq_true, Bool.and_eq_true, ih]
    constructor
    · rintro (⟨hc, u, v, rfl, hu, hv⟩ | hrest)
      · exact ⟨c :: u, v, rfl, List.forall_mem_cons.2 ⟨hc, hu⟩, hv⟩
      · exact ⟨[], c :: t, rfl, by simp, hrest⟩
    · rintro ⟨u, v, huv, hu, hv⟩
      match u with
      | [] => exact .inr (by rwa [huv])
      | d :: u =>
        obtain ⟨rfl, rfl⟩ := List.cons.inj huv
        rw [List.forall_mem_cons] at hu
        exact .inl ⟨hu.1, u, v, rfl, hu.2, hv⟩

/-- A match with a rest that passes the test is found exactly if there is one. -/
theorem matchThen_iff (a : Pattern) : ∀ {rest : Text → Bool} {t : Text}, a.matchThen rest t = true ↔
    ∃ u v, t = u ++ v ∧ u ∈ a.language ∧ rest v = true := by
  induction a with
  | word w =>
    intro rest t
    rw [matchThen, Bool.and_eq_true, List.isPrefixOf_iff_prefix]
    constructor
    · rintro ⟨⟨v, rfl⟩, hrest⟩
      exact ⟨w, v, rfl, rfl, by simpa using hrest⟩
    · rintro ⟨_, v, rfl, rfl, hrest⟩
      exact ⟨List.prefix_append _ v, by simpa using hrest⟩
  | char p =>
    intro rest t
    cases t with
    | nil =>
      simp only [matchThen, Bool.false_eq_true, false_iff, not_exists, not_and]
      rintro u v huv ⟨c, -, rfl⟩
      cases huv
    | cons c t =>
      rw [matchThen, Bool.and_eq_true]
      constructor
      · rintro ⟨hc, hrest⟩
        exact ⟨[c], t, rfl, ⟨c, hc, rfl⟩, hrest⟩
      · rintro ⟨_, v, huv, ⟨d, hd, rfl⟩, hrest⟩
        obtain ⟨rfl, rfl⟩ := List.cons.inj huv
        exact ⟨hd, hrest⟩
  | run p =>
    intro rest t
    simp only [matchThen, runThen_iff, language, mem_kstar_ofClass]
  | seq a b iha ihb =>
    intro rest t
    simp only [matchThen, iha, ihb, language, Language.mem_mul]
    constructor
    · rintro ⟨u, _, rfl, hu, v, w, rfl, hv, hrest⟩
      exact ⟨u ++ v, w, by rw [List.append_assoc], ⟨u, hu, v, hv, rfl⟩, hrest⟩
    · rintro ⟨_, w, rfl, ⟨u, hu, v, hv, rfl⟩, hrest⟩
      exact ⟨u, v ++ w, by rw [List.append_assoc], hu, v, w, rfl, hv, hrest⟩
  | either a b iha ihb =>
    intro rest t
    rw [matchThen, Bool.or_eq_true, iha, ihb]
    simp only [language, Language.mem_add, or_and_right, and_or_left, exists_or]

/-- A whole text matches exactly if it is in the language of the pattern. -/
theorem fullMatch_iff (a : Pattern) : a.fullMatch t = true ↔ t ∈ a.language := by
  simp [fullMatch, matchThen_iff]

end Pattern

end Mixfix.Text
