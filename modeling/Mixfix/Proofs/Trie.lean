import Mixfix.Trie

/-!
# Tries as maps

What a trie says about items is what it holds at its paths, if no node has two branches with one key
(`Trie.Distinct`), which setting items preserves (`Trie.Distinct.set`):

* a trie is empty exactly if no path holds an item (`Trie.isEmpty_iff`);
* an edge can be followed exactly if some path through it holds an item (`Trie.follow?_eq_none_iff`), and the node at
  its end holds the items behind it (`Trie.get?_of_follow?`).

A trie that holds an item at a single path (`Trie.Only`) can be followed along this path alone.
-/

namespace Mixfix

variable {κ α : Type} [BEq κ]

/-! ## Nodes without repeated keys -/

namespace Branches

/-- No two branches of a node have one key. -/
def Distinct : Branches κ α → Prop
  | nil => True
  | cons key _ below others => others.find? key = none ∧ below.Distinct ∧ others.Distinct

theorem distinct_ofPath (item : Option α) (k : κ) (path : List κ) : (ofPath item k path).Distinct := by
  induction path generalizing k with
  | nil => exact ⟨rfl, trivial, trivial⟩
  | cons k' path ih => exact ⟨rfl, ih k', trivial⟩

theorem distinct_of_find? {b : Branches κ α} (h : b.Distinct) {k : κ} {t : Trie κ α} (hf : b.find? k = some t) :
    t.branches.Distinct := by
  induction b with
  | nil => cases hf
  | cons key item below others _ ih =>
    rw [find?] at hf
    split at hf
    · cases hf
      exact h.2.1
    · exact ih h.2.2 hf

variable [LawfulBEq κ]

theorem Distinct.set {b : Branches κ α} (h : b.Distinct) (item : Option α) (k : κ) (path : List κ) :
    (b.set item k path).Distinct := by
  fun_induction Branches.set item k path b with
  | case1 k path => exact distinct_ofPath item k path
  | case2 k key old below others hk => exact h
  | case3 k key old below others hk k' path' ih => exact ⟨h.1, ih h.2.1, h.2.2⟩
  | case4 k path key old below others hk ih =>
    refine ⟨?_, h.2.1, ih h.2.2⟩
    have hne : ¬ (key == k) = true := fun e => hk (by rw [eq_of_beq e]; exact beq_self_eq_true k)
    rw [find?_set, if_neg hne]
    exact h.1

end Branches

namespace Trie

/-- No node of the trie has two branches with one key. -/
def Distinct (t : Trie κ α) : Prop := t.branches.Distinct

theorem distinct_empty : (empty : Trie κ α).Distinct := trivial

theorem Distinct.branch? {t b : Trie κ α} (h : t.Distinct) {k : κ} (hb : t.branch? k = some b) : b.Distinct :=
  Branches.distinct_of_find? h hb

theorem Distinct.follow? {t b : Trie κ α} (h : t.Distinct) {k : κ} (hb : t.follow? k = some b) : b.Distinct :=
  h.branch? (Option.filter_eq_some_iff.1 hb).1

/-- Setting an item repeats no key. -/
theorem Distinct.set [LawfulBEq κ] {t : Trie κ α} (h : t.Distinct) (path : List κ) (item : Option α) :
    (t.set path item).Distinct := by
  match path with
  | [] => exact h
  | k :: path => exact Branches.Distinct.set h item k path

theorem Distinct.insert [LawfulBEq κ] {t : Trie κ α} (h : t.Distinct) (path : List κ) (item : α) :
    (t.insert path item).Distinct := h.set path (some item)

/-! ## Emptiness -/

theorem get?_nil (t : Trie κ α) : t.get? [] = t.item := rfl

theorem hasRootItem_eq (t : Trie κ α) : t.hasRootItem = (t.get? []).isSome := rfl

end Trie

namespace Branches

theorem get?_cons_key [LawfulBEq κ] (key : κ) (item i : Option α) (below others : Branches κ α) (path : List κ) :
    (⟨i, cons key item below others⟩ : Trie κ α).get? (key :: path) = (⟨item, below⟩ : Trie κ α).get? path := by
  simp [Trie.get?_cons, Trie.branch?, find?]

theorem get?_cons_ne {k key : κ} (hk : ¬ (k == key) = true) (item i : Option α) (below others : Branches κ α)
    (path : List κ) :
    (⟨i, cons key item below others⟩ : Trie κ α).get? (k :: path) = (⟨none, others⟩ : Trie κ α).get? (k :: path) := by
  simp [Trie.get?_cons, Trie.branch?, find?, hk]

theorem get?_cons_of_find?_eq_none {b : Branches κ α} {k : κ} (h : b.find? k = none) (i : Option α) (path : List κ) :
    (⟨i, b⟩ : Trie κ α).get? (k :: path) = none := by
  simp [Trie.get?_cons, Trie.branch?, h]

variable [LawfulBEq κ]

theorem isEmpty_iff {b : Branches κ α} (h : b.Distinct) :
    b.isEmpty = true ↔ ∀ k path, (⟨none, b⟩ : Trie κ α).get? (k :: path) = none := by
  induction b with
  | nil => exact ⟨fun _ k path => by simp [Trie.get?_cons, Trie.branch?, find?], fun _ => rfl⟩
  | cons key item below others ihb iho =>
    simp only [isEmpty, Bool.and_eq_true, Option.isNone_iff_eq_none, ihb h.2.1, iho h.2.2]
    constructor
    · rintro ⟨⟨rfl, hb⟩, ho⟩ k path
      by_cases hk : k == key
      · cases eq_of_beq hk
        rw [get?_cons_key]
        cases path with
        | nil => rfl
        | cons k' path => exact hb k' path
      · rw [get?_cons_ne hk]
        exact ho k path
    · intro hall
      have hitem : item = none := by simpa [get?_cons_key, Trie.get?_nil] using hall key []
      refine ⟨⟨hitem, fun k path => ?_⟩, fun k path => ?_⟩
      · have := hall key (k :: path)
        rw [get?_cons_key, hitem] at this
        exact this
      · by_cases hk : k == key
        · cases eq_of_beq hk
          exact get?_cons_of_find?_eq_none h.1 _ _
        · rw [← get?_cons_ne hk item none below others]
          exact hall k path

end Branches

namespace Trie

variable [LawfulBEq κ]

/-- A trie is empty exactly if no path holds an item. -/
theorem isEmpty_iff {t : Trie κ α} (h : t.Distinct) : t.isEmpty = true ↔ ∀ path, t.get? path = none := by
  have hcons (k : κ) (path : List κ) : (⟨none, t.branches⟩ : Trie κ α).get? (k :: path) = t.get? (k :: path) := rfl
  simp only [isEmpty, Bool.and_eq_true, Option.isNone_iff_eq_none, Branches.isEmpty_iff h, hcons]
  constructor
  · rintro ⟨hi, hb⟩ path
    match path with
    | [] => exact hi
    | k :: path => exact hb k path
  · intro hall
    exact ⟨hall [], fun k path => hall (k :: path)⟩

/-! ## Edges -/

omit [LawfulBEq κ] in
/-- The node at the end of an edge holds the items behind the edge. -/
theorem get?_of_follow? {t b : Trie κ α} {k : κ} (h : t.follow? k = some b) (path : List κ) :
    b.get? path = t.get? (k :: path) := by
  rw [get?_cons, (Option.filter_eq_some_iff.1 h).1]
  rfl

/-- An edge cannot be followed exactly if no path through it holds an item. -/
theorem follow?_eq_none_iff {t : Trie κ α} (h : t.Distinct) {k : κ} :
    t.follow? k = none ↔ ∀ path, t.get? (k :: path) = none := by
  rw [follow?]
  cases hb : t.branch? k with
  | none => simp [get?_cons, hb]
  | some b =>
    have hpath (path : List κ) : t.get? (k :: path) = b.get? path := by rw [get?_cons, hb]; rfl
    simp only [hpath, ← isEmpty_iff (h.branch? hb), Option.filter_eq_none_iff, Option.some.injEq]
    simp

theorem exists_follow?_of_get? {t : Trie κ α} (h : t.Distinct) {k : κ} {path : List κ}
    (hg : (t.get? (k :: path)).isSome) : ∃ b, t.follow? k = some b := by
  rw [← Option.isSome_iff_exists, ← Option.ne_none_iff_isSome]
  intro hn
  rw [(follow?_eq_none_iff h).1 hn path] at hg
  cases hg

/-! ## Tries with a single item -/

/-- The trie holds an item at one path and at no other. -/
def Only (t : Trie κ α) (rest : List κ) : Prop := ∀ path, (t.get? path).isSome ↔ path = rest

omit [LawfulBEq κ] in
theorem Only.hasRootItem_nil {t : Trie κ α} (h : t.Only []) : t.hasRootItem = true := (h []).2 rfl

omit [LawfulBEq κ] in
theorem Only.hasRootItem_of_ne_nil {t : Trie κ α} {rest : List κ} (h : t.Only rest) (hr : rest ≠ []) :
    t.hasRootItem = false := by
  rw [hasRootItem_eq, Bool.eq_false_iff]
  exact fun hs => hr ((h []).1 hs).symm

theorem Only.follow?_nil {t : Trie κ α} (hd : t.Distinct) (h : t.Only []) (k : κ) : t.follow? k = none := by
  rw [follow?_eq_none_iff hd]
  intro path
  rw [← Option.not_isSome_iff_eq_none, h]
  exact List.cons_ne_nil k path

theorem Only.follow?_ne {t : Trie κ α} (hd : t.Distinct) {k k' : κ} {rest : List κ} (h : t.Only (k :: rest))
    (hk : k' ≠ k) : t.follow? k' = none := by
  rw [follow?_eq_none_iff hd]
  intro path
  rw [← Option.not_isSome_iff_eq_none, h]
  exact fun e => hk (List.cons.inj e).1

theorem Only.follow? {t : Trie κ α} (hd : t.Distinct) {k : κ} {rest : List κ} (h : t.Only (k :: rest)) :
    ∃ b, t.follow? k = some b ∧ b.Only rest := by
  obtain ⟨b, hb⟩ := exists_follow?_of_get? hd ((h (k :: rest)).2 rfl)
  refine ⟨b, hb, fun path => ?_⟩
  rw [get?_of_follow? hb, h]
  exact ⟨fun e => (List.cons.inj e).2, fun e => by rw [e]⟩

end Trie

end Mixfix
