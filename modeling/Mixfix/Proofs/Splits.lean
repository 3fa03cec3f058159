import Mathlib.Data.List.Sort
import Mixfix.Proofs.Sections

/-!
# Splits lose nothing

The slices around ascending indices, with the tokens at these indices between them, write the text of the list and have
its tokens (`TokenList.reassembles_cutAt`), if the text is what the tokens and spaces write.

Splitting at points is cutting at ascending indices (`TokenList.splitAtPoints_eq`), and which ones they are depends on
the set of the points alone, apart from the ends of the list (`TokenList.splitAtPoints_congr`). Splitting at a token is
splitting at the indices where it stands outside of brackets (`TokenList.Faithful.isSplit_splitBy`).
-/

namespace Mixfix

namespace TokenList

variable {l : TokenList} {a b p : Nat} {points : List Nat} {t : Token}

/-! ## Parts and what was dropped between them -/

/-- Parts with what was dropped between them. -/
def interleave {γ : Type} : List (List γ) → List (List γ) → List γ
  | part :: parts, d :: dropped => part ++ (d ++ interleave parts dropped)
  | parts, _ => parts.flatten

/-- The tokens at some indices. -/
def tokensAt (l : TokenList) (points : List Nat) : List Token := points.filterMap fun i => l.tokens[i]?

/-- Parts of the list which, with the tokens at some indices between them, write its text and have its tokens. -/
structure Reassembles (l : TokenList) (points : List Nat) (parts : List TokenList) : Prop where
  length : parts.length = points.length + 1
  text : interleave (parts.map TokenList.text) ((l.tokensAt points).map Token.text) = l.text
  tokens : interleave (parts.map fun part => part.tokens) ((l.tokensAt points).map fun t => [t]) = l.tokens

/-- Indices of tokens, in ascending order. -/
structure Ascending (l : TokenList) (points : List Nat) : Prop where
  pairwise : points.Pairwise (· < ·)
  lt_size : ∀ p ∈ points, p < l.size

theorem Ascending.tail (h : l.Ascending (p :: points)) : l.Ascending points :=
  ⟨(List.pairwise_cons.1 h.pairwise).2, fun q hq => h.lt_size q (List.mem_cons_of_mem _ hq)⟩

theorem items_slice (h : l.tokens[p]? = some t) (ha : a ≤ p) (hb : p < b) : (l.slice a b).items =
    (l.slice a p).items ++ ⟨l.spacing p, t⟩ :: (l.slice (p + 1) b).items := by
  rw [Row.tokens, List.getElem?_map] at h
  obtain ⟨s, hs, rfl⟩ := Option.map_eq_some_iff.1 h
  obtain ⟨hp, hget⟩ := List.getElem?_eq_some_iff.1 hs
  have hspacing : l.spacing p = s.spaces := by rw [spacing, hs, Option.map_some, Option.getD_some]
  have hdrop : (l.items.drop a).drop (p - a) = s :: l.items.drop (p + 1) := by
    rw [List.drop_drop, Nat.add_sub_cancel' ha, List.drop_eq_getElem_cons hp, hget]
  have hcount : b - a = (p - a) + (b - (p + 1) + 1) := by omega
  simp only [slice]
  rw [hcount, List.take_add, hdrop, List.take_succ_cons, hspacing]

theorem tokens_slice_split (h : l.tokens[p]? = some t) (ha : a ≤ p) (hb : p < b) :
    (l.slice a b).tokens = (l.slice a p).tokens ++ ([t] ++ (l.slice (p + 1) b).tokens) := by
  simp only [Row.tokens, items_slice h ha hb]
  simp

theorem Faithful.text_slice_split (hl : l.Faithful) (h : l.tokens[p]? = some t) (ha : a ≤ p) (hb : p < b) :
    (l.slice a b).text = (l.slice a p).text ++ (t.text ++ (l.slice (p + 1) b).text) := by
  have htrailing (a b : Nat) : (l.slice a b).trailing = l.spacing b := rfl
  rw [hl.slice (by omega), hl.slice ha, hl.slice hb]
  simp only [Row.render, items_slice h ha hb, htrailing, List.flatMap_append, List.flatMap_cons, Spaced.render,
    List.append_assoc]

/-! ## Cutting at ascending indices -/

/-- What a cut gives, put together again. -/
theorem interleave_cutFrom {γ : Type} {content : TokenList → List γ} {between : Token → List γ}
    (hsplit : ∀ {a p b : Nat} {t : Token}, l.tokens[p]? = some t → a ≤ p → p < b →
      content (l.slice a b) = content (l.slice a p) ++ (between t ++ content (l.slice (p + 1) b)))
    (h : l.Ascending points) {start : Nat} (hstart : ∀ p ∈ points, start ≤ p) :
    interleave ((l.cutFrom start points).map content) ((l.tokensAt points).map between) =
      content (l.slice start l.size) := by
  induction points generalizing start with
  | nil => simp [cutFrom, tokensAt, interleave]
  | cons p points ih =>
    have hp := h.lt_size p List.mem_cons_self
    obtain ⟨t, ht⟩ : ∃ t, l.tokens[p]? = some t := ⟨_, List.getElem?_eq_getElem (by rwa [← size_eq])⟩
    have hbehind : ∀ q ∈ points, p + 1 ≤ q := fun q hq => List.rel_of_pairwise_cons h.pairwise hq
    have hat : l.tokensAt (p :: points) = t :: l.tokensAt points := List.filterMap_cons_some ht
    rw [cutFrom, hat, List.map_cons, List.map_cons, interleave, ih h.tail hbehind,
      ← hsplit ht (hstart p List.mem_cons_self) hp]

theorem length_cutFrom (start : Nat) (points : List Nat) : (l.cutFrom start points).length = points.length + 1 := by
  induction points generalizing start with
  | nil => rfl
  | cons p points ih => rw [cutFrom, List.length_cons, ih, List.length_cons]

/-- The slices around ascending indices lose nothing but the tokens there. -/
theorem reassembles_cutAt (hl : l.Faithful) (h : l.Ascending points) : l.Reassembles points (l.cutAt points) where
  length := length_cutFrom 0 points
  text := by
    rw [cutAt, interleave_cutFrom hl.text_slice_split h fun p _ => Nat.zero_le p, hl.slice_size]
  tokens := by
    rw [cutAt, interleave_cutFrom tokens_slice_split h fun p _ => Nat.zero_le p, hl.slice_size]

/-! ## Splitting at points -/

/-- The points that split something, in ascending order. -/
def innerPoints (l : TokenList) (points : List Int) : List Int :=
  (points.filter fun (p : Int) => p != -1 && p != l.size).eraseDups.mergeSort

theorem mem_innerPoints {points : List Int} {p : Int} :
    p ∈ l.innerPoints points ↔ p ∈ points ∧ p ≠ -1 ∧ p ≠ l.size := by
  simp [innerPoints, List.mem_mergeSort, List.mem_eraseDups, List.mem_filter]

theorem nodup_eraseDups {β : Type*} [BEq β] [LawfulBEq β] (xs : List β) : xs.eraseDups.Nodup := by
  match xs with
  | [] => exact List.nodup_nil
  | x :: xs =>
    rw [List.eraseDups_cons, List.nodup_cons, List.mem_eraseDups]
    exact ⟨by simp, nodup_eraseDups _⟩
termination_by xs.length
decreasing_by
  have := List.length_filter_le (fun b => !b == x) xs
  simp only [List.length_cons]
  omega

theorem pairwise_innerPoints (l : TokenList) (points : List Int) : (l.innerPoints points).Pairwise (· < ·) := by
  have hle := List.pairwise_mergeSort' (· ≤ ·) (points.filter fun (p : Int) => p != -1 && p != l.size).eraseDups
  have hne := ((List.mergeSort_perm (points.filter fun (p : Int) => p != -1 && p != l.size).eraseDups
    fun a b => decide (a ≤ b)).nodup_iff).2 (nodup_eraseDups _)
  exact (hle.and hne).imp fun ⟨hle, hne⟩ => lt_of_le_of_ne hle hne

/-- The order of the points, repeated points and the ends of the list make no difference. -/
theorem splitAtPoints_congr {points points' : List Int}
    (h : ∀ p : Int, p ≠ -1 → p ≠ l.size → (p ∈ points ↔ p ∈ points')) :
    l.splitAtPoints points = l.splitAtPoints points' := by
  have hinner : l.innerPoints points = l.innerPoints points' := by
    refine (pairwise_innerPoints l points).eq_of_mem_iff (pairwise_innerPoints l points') fun p => ?_
    rw [mem_innerPoints, mem_innerPoints]
    exact ⟨fun ⟨hp, hne⟩ => ⟨(h p hne.1 hne.2).1 hp, hne⟩, fun ⟨hp, hne⟩ => ⟨(h p hne.1 hne.2).2 hp, hne⟩⟩
  rw [innerPoints, innerPoints] at hinner
  rw [splitAtPoints, splitAtPoints, hinner]

/-- Splitting at points is cutting at those of them that split something, if none of these is outside of the list. -/
theorem splitAtPoints_eq_ok_iff {points : List Int} {parts : List TokenList} : l.splitAtPoints points = .ok parts ↔
    (∀ p ∈ l.innerPoints points, 0 ≤ p ∧ p < l.size) ∧ (l.innerPoints points = [] ∧ parts = [l] ∨
      l.innerPoints points ≠ [] ∧ parts = l.cutAt ((l.innerPoints points).map Int.toNat)) := by
  rw [splitAtPoints]
  change (if (l.innerPoints points).isEmpty then _ else if (l.innerPoints points).any _ then _ else
    Except.ok (l.cutAt ((l.innerPoints points).map Int.toNat))) = _ ↔ _
  by_cases hempty : l.innerPoints points = []
  · simp [hempty, eq_comm]
  · rw [if_neg (by simpa using hempty)]
    split
    · next houtside =>
      obtain ⟨p, hp, ho⟩ := List.any_eq_true.1 houtside
      refine ⟨fun h => (nomatch h), fun ⟨hin, _⟩ => ?_⟩
      have := hin p hp
      simp at ho
      omega
    · next hinside =>
      have hin : ∀ p ∈ l.innerPoints points, 0 ≤ p ∧ p < l.size := by
        intro p hp
        have hnot : ¬ (p < 0 ∨ l.size < p) := fun ho => hinside (List.any_eq_true.2 ⟨p, hp, by simpa using ho⟩)
        have := (mem_innerPoints.1 hp).2.2
        omega
      simp only [Except.ok.injEq, hempty, ne_eq, false_and, not_false_eq_true, true_and, false_or, and_iff_right hin]
      exact eq_comm

/-- Only points outside of the list cannot be split at. -/
theorem exists_splitAtPoints_iff {points : List Int} :
    (∃ parts, l.splitAtPoints points = .ok parts) ↔ ∀ p ∈ points, -1 ≤ p ∧ p ≤ l.size := by
  have hin : (∀ p ∈ l.innerPoints points, 0 ≤ p ∧ p < l.size) ↔ ∀ p ∈ points, -1 ≤ p ∧ p ≤ l.size := by
    simp only [mem_innerPoints]
    refine ⟨fun h p hp => ?_, fun h p ⟨hp, hne⟩ => ?_⟩
    · by_cases hends : p = -1 ∨ p = l.size
      · omega
      · have := h p ⟨hp, by omega⟩
        omega
    · have := h p hp
      omega
  simp only [splitAtPoints_eq_ok_iff, exists_and_left, hin]
  refine and_iff_left ?_
  by_cases hempty : l.innerPoints points = []
  · exact ⟨[l], .inl ⟨hempty, rfl⟩⟩
  · exact ⟨_, .inr ⟨hempty, rfl⟩⟩

/-- The points that split something are indices in ascending order. -/
theorem exists_of_splitAtPoints {points : List Int} {parts : List TokenList} (h : l.splitAtPoints points = .ok parts) :
    ∃ inner : List Nat, l.Ascending inner ∧ (∀ i : Nat, i ∈ inner ↔ (i : Int) ∈ points ∧ i ≠ l.size) ∧
      (inner = [] ∧ parts = [l] ∨ inner ≠ [] ∧ parts = l.cutAt inner) := by
  obtain ⟨hin, hparts⟩ := splitAtPoints_eq_ok_iff.1 h
  refine ⟨(l.innerPoints points).map Int.toNat, ⟨?_, ?_⟩, fun i => ?_, ?_⟩
  · rw [List.pairwise_map]
    refine (pairwise_innerPoints l points).imp_of_mem fun hp hq hlt => ?_
    have := hin _ hp
    omega
  · intro p hp
    obtain ⟨q, hq, rfl⟩ := List.mem_map.1 hp
    have := hin q hq
    omega
  · have hmem : i ∈ (l.innerPoints points).map Int.toNat ↔ (i : Int) ∈ l.innerPoints points := by
      rw [List.mem_map]
      refine ⟨fun ⟨p, hp, hi⟩ => ?_, fun hi => ⟨i, hi, Int.toNat_natCast i⟩⟩
      have := hin p hp
      rwa [show (i : Int) = p by omega]
    have hends : ((i : Int) ≠ -1 ∧ (i : Int) ≠ l.size) ↔ i ≠ l.size := by omega
    rw [hmem, mem_innerPoints, hends]
  · rwa [Ne, List.map_eq_nil_iff]

/-- Ascending indices are in order already, and none of them is an end of the list. -/
theorem innerPoints_eq (h : l.Ascending points) : l.innerPoints (points.map Int.ofNat) = points.map Int.ofNat := by
  have hpairwise : (points.map Int.ofNat).Pairwise (· < ·) :=
    List.pairwise_map.2 (h.pairwise.imp fun hlt => Int.ofNat_lt.2 hlt)
  refine (pairwise_innerPoints l _).eq_of_mem_iff hpairwise fun p =>
    mem_innerPoints.trans ⟨fun hp => hp.1, fun hp => ?_⟩
  obtain ⟨q, hq, rfl⟩ := List.mem_map.1 hp
  have := h.lt_size q hq
  exact ⟨hp, by simp, by simp; omega⟩

/-- Splitting at ascending indices is cutting at them. -/
theorem splitAtPoints_eq (h : l.Ascending points) (hne : points ≠ []) :
    l.splitAtPoints (points.map Int.ofNat) = .ok (l.cutAt points) := by
  have hback : (points.map Int.ofNat).map Int.toNat = points := by
    rw [List.map_map]
    exact List.map_id points
  rw [splitAtPoints_eq_ok_iff, innerPoints_eq h, hback]
  refine ⟨fun p hp => ?_, .inr ⟨by simpa using hne, rfl⟩⟩
  obtain ⟨q, hq, rfl⟩ := List.mem_map.1 hp
  exact ⟨Int.natCast_nonneg q, Int.ofNat_lt.2 (h.lt_size q hq)⟩

/-- The parts that splitting at indices gives, which lose nothing but the tokens there. -/
structure IsSplit (l : TokenList) (points : List Nat) (parts : List TokenList) : Prop where
  splitAtPoints : l.splitAtPoints (points.map Int.ofNat) = .ok parts
  reassembles : l.Reassembles points parts

/-- Cutting at ascending indices is splitting at them, also where there are none. -/
theorem Faithful.isSplit_cutAt (hl : l.Faithful) (h : l.Ascending points) : l.IsSplit points (l.cutAt points) where
  splitAtPoints := by
    by_cases hne : points = []
    · rw [hne, cutAt, cutFrom, hl.slice_size]
      simp [TokenList.splitAtPoints]
    · exact splitAtPoints_eq h hne
  reassembles := reassembles_cutAt hl h

/-- Splitting at points is splitting at those of them that are indices. -/
theorem Faithful.exists_isSplit (hl : l.Faithful) {points : List Int} {parts : List TokenList}
    (h : l.splitAtPoints points = .ok parts) :
    ∃ inner, (∀ i : Nat, i ∈ inner ↔ (i : Int) ∈ points ∧ i ≠ l.size) ∧ l.IsSplit inner parts := by
  obtain ⟨inner, hinner, hmem, ⟨rfl, rfl⟩ | ⟨-, rfl⟩⟩ := exists_of_splitAtPoints h
  · have hcut := hl.isSplit_cutAt hinner
    rw [cutAt, cutFrom, hl.slice_size] at hcut
    exact ⟨[], hmem, hcut⟩
  · exact ⟨inner, hmem, hl.isSplit_cutAt hinner⟩

/-! ## Splitting at a token -/

/-- An index with as many open as close brackets before it. -/
def OutsideLeft (ts : List Token) (i : Nat) : Prop := bracketDepth (ts.take i) = 0

/-- A token that is no bracket and satisfies a test stands at an index outside of brackets. -/
def Matches (outside : Nat → Prop) (ts : List Token) (p : Token → Bool) (i : Nat) : Prop :=
  outside i ∧ ∃ t, ts[i]? = some t ∧ t.isPlain = true ∧ p t = true

theorem mem_splitPoints_iff {p : Token → Bool} {ts : List Token} {i : Nat} :
    i ∈ splitPoints p 0 0 ts ↔ Matches (OutsideLeft ts) ts p i := by
  rw [mem_splitPoints, Matches, OutsideLeft]
  constructor
  · rintro ⟨u, t, v, rfl, hi, hd, hp⟩
    rw [hi, Nat.zero_add, List.take_left]
    exact ⟨by omega, t, by simp, hp⟩
  · rintro ⟨hd, t, ht, hp⟩
    obtain ⟨hi, hget⟩ := List.getElem?_eq_some_iff.1 ht
    refine ⟨ts.take i, t, ts.drop (i + 1), ?_, by simp; omega, by omega, hp⟩
    rw [← hget, List.getElem_cons_drop, List.take_append_drop]

/-- The indices at which the list is split by a test. -/
theorem ascending_splitPoints (l : TokenList) (p : Token → Bool) : l.Ascending (splitPoints p 0 0 l.tokens) where
  pairwise := pairwise_splitPoints l.tokens
  lt_size i hi := by
    obtain ⟨-, t, ht, -⟩ := mem_splitPoints_iff.1 hi
    rw [size_eq]
    exact (List.getElem?_eq_some_iff.1 ht).1

/-- Splitting by a test is splitting at the indices outside of brackets where it holds. -/
theorem Faithful.isSplit_splitBy (hl : l.Faithful) (p : Token → Bool) :
    l.IsSplit (splitPoints p 0 0 l.tokens) (l.splitBy p) := by
  rw [splitBy_eq]
  exact hl.isSplit_cutAt (ascending_splitPoints l p)

end TokenList

end Mixfix
