import Mathlib.Data.List.Induction
import Mathlib.Data.List.Nodup
import Mathlib.Data.List.Perm.Basic
import Mixfix.Proofs.Trie

/-!
# The paths of a trie after any requests

A trie lists the items that it holds, each at its path and once (`Trie.mem_items_iff`, `Trie.nodup_items`). After any
requests these are the items that were set last (`Trie.get?_after`), and a node is the trie of what was set under it,
with the path to the node taken off (`Trie.walk?_after`). A trie is reversed by setting what it lists, so a reversed
trie holds the same items at the reversed paths (`Trie.get?_reversed`). All of this together is `Trie.mapOf_after`.
-/

namespace Mixfix

/-! ## Last elements -/

/-- The element is in the list, and none behind it has the property. -/
def LastOf {γ : Type} (P : γ → Prop) (l : List γ) (y : γ) : Prop :=
  ∃ before behind, l = before ++ y :: behind ∧ ∀ z ∈ behind, ¬ P z

theorem LastOf.mem {γ : Type} {P : γ → Prop} {l : List γ} {y : γ} (h : LastOf P l y) : y ∈ l := by
  obtain ⟨before, behind, rfl, -⟩ := h
  exact List.mem_append_right _ List.mem_cons_self

theorem not_lastOf_nil {γ : Type} {P : γ → Prop} {y : γ} : ¬ LastOf P [] y := fun h => List.not_mem_nil h.mem

/-- One more element is the last one, or else it does not have the property and hides nothing. -/
theorem lastOf_concat_iff {γ : Type} {P : γ → Prop} {l : List γ} {x y : γ} :
    LastOf P (l ++ [x]) y ↔ x = y ∨ (¬ P x ∧ LastOf P l y) := by
  constructor
  · rintro ⟨before, behind, heq, hbehind⟩
    rcases List.eq_nil_or_concat behind with rfl | ⟨behind, z, rfl⟩
    · exact Or.inl (List.cons.inj (List.append_inj_right' heq rfl)).1
    · rw [List.concat_eq_append] at heq hbehind
      rw [← List.cons_append, ← List.append_assoc] at heq
      obtain ⟨rfl, hz⟩ := List.append_inj' heq rfl
      obtain rfl := (List.cons.inj hz).1
      rw [List.forall_mem_append, List.forall_mem_singleton] at hbehind
      exact Or.inr ⟨hbehind.2, before, behind, rfl, hbehind.1⟩
  · rintro (rfl | ⟨hx, before, behind, rfl, hbehind⟩)
    · exact ⟨l, [], rfl, by simp⟩
    · refine ⟨before, behind ++ [x], by simp, ?_⟩
      rw [List.forall_mem_append, List.forall_mem_singleton]
      exact ⟨hbehind, hx⟩

variable {κ α : Type} [BEq κ]

/-! ## Items -/

namespace Branches

variable [LawfulBEq κ] {b : Branches κ α} {path : List κ} {a : α}

omit [BEq κ] [LawfulBEq κ] in
/-- An item of some branches sits at the end of the first edge, behind it, or in another branch. -/
theorem mem_items_cons {key : κ} {item : Option α} {below others : Branches κ α} :
    (path, a) ∈ (cons key item below others).items ↔
      (path = [key] ∧ item = some a) ∨ (∃ rest, path = key :: rest ∧ (rest, a) ∈ below.items) ∨
        (path, a) ∈ others.items := by
  have hbelow : (path, a) ∈ below.items.map (fun p => (key :: p.1, p.2)) ↔
      ∃ rest, path = key :: rest ∧ (rest, a) ∈ below.items := by
    simp [@eq_comm _ path, and_comm]
  rw [items.eq_def]
  simp only [List.mem_append, hbelow, or_assoc]
  cases item <;> simp [@eq_comm _ a]

/-- The branches of a node list the items at the paths that go on from it. -/
theorem mem_items_iff (h : b.Distinct) :
    (path, a) ∈ b.items ↔ path ≠ [] ∧ (⟨none, b⟩ : Trie κ α).get? path = some a := by
  induction b generalizing path with
  | nil => cases path <;> simp [items, Trie.get?_cons, Trie.branch?, find?]
  | cons key item below others ihb iho =>
    rw [mem_items_cons, iho h.2.2]
    cases path with
    | nil => simp
    | cons k rest =>
      by_cases hk : k == key
      · cases eq_of_beq hk
        rw [get?_cons_key, get?_cons_of_find?_eq_none h.1]
        simp only [List.cons.injEq, true_and, exists_eq_left', ihb h.2.1]
        cases rest with
        | nil => simp [Trie.get?_nil]
        | cons k' rest => simp [Trie.get?_cons, Trie.branch?]
      · rw [get?_cons_ne hk]
        have hne : k ≠ key := by simpa using hk
        simp [hne]

/-- No path is listed twice. -/
theorem nodup_items (h : b.Distinct) : (b.items.map Prod.fst).Nodup := by
  induction b with
  | nil => exact List.nodup_nil
  | cons key item below others ihb iho =>
    have hbelow : ((below.items.map fun p => (key :: p.1, p.2)).map Prod.fst) =
        (below.items.map Prod.fst).map (key :: ·) := by
      rw [List.map_map, List.map_map]
      rfl
    have hnil : [] ∉ below.items.map Prod.fst := by
      intro hmem
      obtain ⟨⟨_, a⟩, hp, rfl⟩ := List.mem_map.1 hmem
      exact ((mem_items_iff h.2.1).1 hp).1 rfl
    -- the paths of the other branches begin with other keys
    have hothers (rest : List κ) : key :: rest ∉ others.items.map Prod.fst := by
      intro hmem
      obtain ⟨⟨_, a⟩, hp, heq⟩ := List.mem_map.1 hmem
      obtain rfl : _ = key :: rest := heq
      have hget := ((mem_items_iff h.2.2).1 hp).2
      rw [get?_cons_of_find?_eq_none h.1] at hget
      cases hget
    have hrest : ((below.items.map Prod.fst).map (key :: ·) ++ others.items.map Prod.fst).Nodup := by
      refine List.nodup_append'.2 ⟨(ihb h.2.1).map List.cons_injective, iho h.2.2, fun p hp hp' => ?_⟩
      obtain ⟨rest, -, rfl⟩ := List.mem_map.1 hp
      exact hothers rest hp'
    rw [items.eq_def]
    simp only [List.map_append, hbelow, List.append_assoc]
    cases item with
    | none => exact hrest
    | some a =>
      change ([key] :: ((below.items.map Prod.fst).map (key :: ·) ++ others.items.map Prod.fst)).Nodup
      refine List.nodup_cons.2 ⟨fun hmem => ?_, hrest⟩
      rcases List.mem_append.1 hmem with hmem | hmem
      · obtain ⟨rest, hrest, heq⟩ := List.mem_map.1 hmem
        obtain rfl : rest = [] := (List.cons.inj heq).2
        exact hnil hrest
      · exact hothers [] hmem

end Branches

namespace Trie

section Items

variable [LawfulBEq κ] {t : Trie κ α} {path : List κ} {a : α}

/-- A trie lists the items that it holds, each at its path. -/
theorem mem_items_iff (h : t.Distinct) : (path, a) ∈ t.items ↔ t.get? path = some a := by
  rw [items, List.mem_append, Branches.mem_items_iff h]
  match path with
  | [] => cases hitem : t.item <;> simp [get?_nil, hitem, @eq_comm _ a]
  | k :: rest => cases t.item <;> simp [get?_cons, branch?]

/-- No path is listed twice. -/
theorem nodup_items (h : t.Distinct) : (t.items.map Prod.fst).Nodup := by
  have hrest := Branches.nodup_items h
  rw [items]
  cases t.item with
  | none => exact hrest
  | some a =>
    refine List.nodup_cons.2 ⟨fun hmem => ?_, hrest⟩
    obtain ⟨⟨_, a⟩, hp, rfl⟩ := List.mem_map.1 hmem
    exact ((Branches.mem_items_iff h).1 hp).1 rfl

/-- A trie is empty exactly if it lists nothing. -/
theorem isEmpty_iff_items (h : t.Distinct) : t.isEmpty = true ↔ t.items = [] := by
  rw [isEmpty_iff h, List.eq_nil_iff_forall_not_mem]
  constructor
  · rintro hget ⟨path, a⟩ hmem
    rw [mem_items_iff h, hget] at hmem
    cases hmem
  · intro hitems path
    rw [Option.eq_none_iff_forall_ne_some]
    intro a ha
    exact hitems (path, a) ((mem_items_iff h).2 ha)

omit [LawfulBEq κ] in
theorem hasItemsUnder_eq (t : Trie κ α) (k : κ) : t.hasItemsUnder k = (t.follow? k).isSome := by
  rw [hasItemsUnder, follow?]
  cases t.branch? k with
  | none => rfl
  | some b => cases hb : b.isEmpty <;> simp [hb]

/-- There is something under a key exactly if a path that is listed begins with it. -/
theorem hasItemsUnder_iff (h : t.Distinct) {k : κ} :
    t.hasItemsUnder k = true ↔ ∃ rest a, (k :: rest, a) ∈ t.items := by
  simp only [mem_items_iff h]
  rw [hasItemsUnder_eq, ← Option.ne_none_iff_isSome, Ne, follow?_eq_none_iff h, not_forall]
  simp only [← Ne.eq_def, Option.ne_none_iff_exists']

end Items

/-! ## Requests -/

namespace Request

/-- The request sets something at the end of the path. -/
def Sets (path : List κ) (r : Request κ α) : Prop := ∃ item, r = .set path item

/-- What the request asks of the node at the end of a path, if it sets something there or below. -/
def beyond (path : List κ) : Request κ α → Option (Request κ α)
  | set p item => (p.dropPrefix? path).map (set · item)
  | reversed => none

/-- What some requests ask of the node at the end of a path. -/
def under (path : List κ) (rs : List (Request κ α)) : List (Request κ α) := rs.filterMap (beyond path)

end Request

open Trie.Request

variable {rs : List (Request κ α)}

theorem after_concat (rs : List (Request κ α)) (r : Request κ α) : after (rs ++ [r]) = ((after rs).ask r).2 := by
  rw [after, List.foldl_append]
  rfl

theorem after_concat_set (rs : List (Request κ α)) (path : List κ) (item : Option α) :
    after (rs ++ [.set path item]) = (after rs).set path item := after_concat rs _

theorem after_concat_reversed (rs : List (Request κ α)) : after (rs ++ [.reversed]) = after rs := after_concat rs _

variable [LawfulBEq κ]

theorem distinct_after (rs : List (Request κ α)) : (after rs).Distinct := by
  induction rs using List.reverseRecOn with
  | nil => exact distinct_empty
  | append_singleton rs r ih =>
    cases r with
    | set path item =>
      rw [after_concat_set]
      exact ih.set path item
    | reversed => rwa [after_concat_reversed]

/-- What a trie holds at a path is what was set there last. -/
theorem get?_after {path : List κ} {a : α} :
    (after rs).get? path = some a ↔ LastOf (Sets path) rs (.set path (some a)) := by
  induction rs using List.reverseRecOn with
  | nil => exact iff_of_false (by rw [after, List.foldl_nil, get?_empty]; simp) not_lastOf_nil
  | append_singleton rs r ih =>
    rw [lastOf_concat_iff]
    cases r with
    | set p item =>
      rw [after_concat_set, get?_set]
      by_cases hp : path = p
      · subst hp
        have hsets : Sets path (.set path item : Request κ α) := ⟨item, rfl⟩
        simp [hsets]
      · have hsets : ¬ Sets path (.set p item : Request κ α) := by
          rintro ⟨_, heq⟩
          cases heq
          exact hp rfl
        simp [hp, hsets, ih, @eq_comm _ p]
    | reversed =>
      have hsets : ¬ Sets path (.reversed : Request κ α) := by rintro ⟨_, ⟨⟩⟩
      rw [after_concat_reversed, ih]
      simp [hsets]

/-! ### Nodes -/

omit [LawfulBEq κ] in
theorem beyond_cons (k : κ) (path : List κ) (r : Request κ α) :
    beyond (k :: path) r = (beyond [k] r).bind (beyond path) := by
  cases r with
  | reversed => rfl
  | set p item =>
    cases p with
    | nil => rfl
    | cons k' p =>
      simp only [beyond, List.dropPrefix?]
      split <;> simp [beyond]

omit [LawfulBEq κ] in
theorem under_cons (k : κ) (path : List κ) (rs : List (Request κ α)) :
    under (k :: path) rs = under path (under [k] rs) := by
  rw [under, under, under, List.filterMap_filterMap]
  exact congrArg (rs.filterMap ·) (funext (beyond_cons k path))

omit [LawfulBEq κ] in
theorem after_under_nil (rs : List (Request κ α)) : after (under [] rs) = after rs := by
  induction rs using List.reverseRecOn with
  | nil => rfl
  | append_singleton rs r ih =>
    rw [under, List.filterMap_append, ← under]
    cases r with
    | set p item =>
      have hbeyond : [Request.set p item].filterMap (beyond []) = [.set p item] := by simp [beyond]
      rw [hbeyond, after_concat_set, after_concat_set, ih]
    | reversed =>
      have hbeyond : [(Request.reversed : Request κ α)].filterMap (beyond []) = [] := rfl
      rw [hbeyond, List.append_nil, after_concat_reversed, ih]

/-- The branch of a key is there if something was set at a path that begins with the key, and is the trie of the rest of
these paths. -/
theorem branch?_after {k : κ} {b : Trie κ α} :
    (after rs).branch? k = some b ↔ under [k] rs ≠ [] ∧ b = after (under [k] rs) := by
  induction rs using List.reverseRecOn generalizing b with
  | nil => simp [after, under, branch?, empty, Branches.find?]
  | append_singleton rs r ih =>
    have hconcat : under [k] (rs ++ [r]) = under [k] rs ++ (beyond [k] r).toList := by
      rw [under, List.filterMap_append, List.filterMap_cons, List.filterMap_nil]
      cases beyond [k] r <;> rfl
    rw [hconcat]
    cases r with
    | set p item =>
      rw [after_concat_set]
      cases p with
      | nil =>
        have hbeyond : beyond [k] (.set [] item : Request κ α) = none := rfl
        rw [hbeyond, Option.toList_none, List.append_nil, ← ih]
        rfl
      | cons k' p =>
        rw [branch?_set_cons]
        by_cases hk : k = k'
        · subst hk
          have hbeyond : beyond [k] (.set (k :: p) item : Request κ α) = some (.set p item) := by
            simp [beyond, List.dropPrefix?]
          have hold : ((after rs).branch? k).getD empty = after (under [k] rs) := by
            cases hb : (after rs).branch? k with
            | some b => exact (ih.1 hb).2
            | none =>
              have hnone : under [k] rs = [] := by
                by_contra hne
                rw [ih.2 ⟨hne, rfl⟩] at hb
                cases hb
              rw [hnone]
              rfl
          rw [hbeyond, Option.toList_some, after_concat_set, if_pos (beq_self_eq_true k), hold]
          simp [@eq_comm _ b]
        · have hbeyond : beyond [k] (.set (k' :: p) item : Request κ α) = none := by
            simp [beyond, List.dropPrefix?, @eq_comm _ k', hk]
          rw [hbeyond, Option.toList_none, List.append_nil, ← ih, if_neg (by simpa using hk)]
    | reversed =>
      have hbeyond : beyond [k] (.reversed : Request κ α) = none := rfl
      rw [after_concat_reversed, hbeyond, Option.toList_none, List.append_nil, ih]

/-- A path is there if it is empty or something was set under it, and its node is the trie of what was set under it. -/
theorem walk?_after {path : List κ} {b : Trie κ α} :
    (after rs).walk? path = some b ↔ (path = [] ∨ under path rs ≠ []) ∧ b = after (under path rs) := by
  induction path generalizing rs b with
  | nil =>
    rw [after_under_nil]
    simp [walk?, @eq_comm _ b]
  | cons k path ih =>
    rw [walk?, under_cons, Option.bind_eq_some_iff]
    constructor
    · rintro ⟨b', hb', hb⟩
      obtain ⟨hne, rfl⟩ := branch?_after.1 hb'
      obtain ⟨hpath, rfl⟩ := ih.1 hb
      refine ⟨Or.inr ?_, rfl⟩
      rcases hpath with rfl | hpath
      · rwa [← under_cons]
      · exact hpath
    · rintro ⟨hpath, rfl⟩
      have hne : under path (under [k] rs) ≠ [] := hpath.resolve_left (List.cons_ne_nil k path)
      refine ⟨_, branch?_after.2 ⟨fun hnil => ?_, rfl⟩, ih.2 ⟨Or.inr hne, rfl⟩⟩
      rw [hnil] at hne
      exact hne rfl

theorem mem_under {path rest : List κ} {item : Option α} :
    .set rest item ∈ under path rs ↔ .set (path ++ rest) item ∈ rs := by
  rw [under, List.mem_filterMap]
  constructor
  · rintro ⟨r, hr, hbeyond⟩
    cases r with
    | reversed => cases hbeyond
    | set p item' =>
      obtain ⟨rest', hrest, heq⟩ := Option.map_eq_some_iff.1 hbeyond
      cases heq
      obtain ⟨path', rfl, hpath⟩ := List.dropPrefix?_eq_some_iff.1 hrest
      rwa [← eq_of_beq hpath]
  · intro hr
    exact ⟨_, hr, by rw [beyond, List.dropPrefix?_append_of_beq rest (beq_self_eq_true path)]; rfl⟩

omit [LawfulBEq κ] in
theorem exists_of_mem_under {path : List κ} {r : Request κ α} (h : r ∈ under path rs) :
    ∃ rest item, r = .set rest item := by
  obtain ⟨r', -, hbeyond⟩ := List.mem_filterMap.1 h
  cases r' with
  | reversed => cases hbeyond
  | set p item =>
    obtain ⟨rest, -, rfl⟩ := Option.map_eq_some_iff.1 hbeyond
    exact ⟨rest, item, rfl⟩

theorem under_ne_nil_iff {path : List κ} : under path rs ≠ [] ↔ ∃ rest item, .set (path ++ rest) item ∈ rs := by
  constructor
  · intro hne
    obtain ⟨r, hr⟩ := List.exists_mem_of_ne_nil _ hne
    obtain ⟨rest, item, rfl⟩ := exists_of_mem_under hr
    exact ⟨rest, item, mem_under.1 hr⟩
  · rintro ⟨rest, item, hr⟩
    exact List.ne_nil_of_mem (mem_under.2 hr)

omit [LawfulBEq κ] in
/-- What a node holds is what the trie holds under the path of the node. -/
theorem get?_of_walk? {t b : Trie κ α} {path : List κ} (h : t.walk? path = some b) (rest : List κ) :
    b.get? rest = t.get? (path ++ rest) := by
  induction path generalizing t with
  | nil =>
    cases h
    rfl
  | cons k path ih =>
    obtain ⟨b', hb', hb⟩ := Option.bind_eq_some_iff.1 h
    rw [List.cons_append, get?_cons, hb', Option.bind_some, ih hb]

/-! ### Reversal -/

omit [LawfulBEq κ] in
theorem reversed_eq_after (t : Trie κ α) : t.reversed = after (t.items.map fun p => .set p.1.reverse (some p.2)) := by
  rw [after, List.foldl_map]
  rfl

theorem distinct_reversed (t : Trie κ α) : t.reversed.Distinct := by
  rw [reversed_eq_after]
  exact distinct_after _

/-- A reversed trie holds at a path what the trie holds at the reversed path. -/
theorem get?_reversed {t : Trie κ α} (h : t.Distinct) (path : List κ) : t.reversed.get? path = t.get? path.reverse := by
  ext a
  rw [reversed_eq_after, get?_after, ← mem_items_iff h]
  constructor
  · intro hlast
    obtain ⟨⟨p, a'⟩, hp, heq⟩ := List.mem_map.1 hlast.mem
    cases heq
    rwa [List.reverse_reverse]
  · intro hmem
    -- no other item is listed at the path, so none is set there later
    obtain ⟨before, behind, heq⟩ := List.append_of_mem hmem
    have hnodup := nodup_items h
    rw [heq, List.map_append, List.map_cons] at hnodup
    have hbehind : path.reverse ∉ behind.map Prod.fst := (List.nodup_cons.1 (List.nodup_append.1 hnodup).2.1).1
    refine ⟨before.map _, behind.map _, by rw [heq, List.map_append, List.map_cons, List.reverse_reverse], ?_⟩
    rintro _ hz ⟨item, rfl⟩
    obtain ⟨⟨p, a'⟩, hp, heq'⟩ := List.mem_map.1 hz
    cases heq'
    rw [List.reverse_reverse] at hbehind
    exact hbehind (List.mem_map.2 ⟨_, hp, rfl⟩)

/-- A reversed trie lists the items that the trie lists, each at its path reversed. -/
theorem items_reversed_perm {t : Trie κ α} (h : t.Distinct) :
    t.reversed.items.Perm (t.items.map fun p => (p.1.reverse, p.2)) := by
  have hnodup : (t.items.map fun p => (p.1.reverse, p.2)).Nodup := by
    refine ((List.Nodup.of_map _ (nodup_items h))).map fun p p' heq => ?_
    simpa [Prod.ext_iff] using heq
  refine (List.perm_ext_iff_of_nodup (List.Nodup.of_map _ (nodup_items (distinct_reversed t))) hnodup).2 ?_
  rintro ⟨path, a⟩
  rw [mem_items_iff (distinct_reversed t), get?_reversed h, ← mem_items_iff h, List.mem_map]
  constructor
  · intro hmem
    exact ⟨_, hmem, by rw [List.reverse_reverse]⟩
  · rintro ⟨⟨p, a'⟩, hp, heq⟩
    cases heq
    rwa [List.reverse_reverse]

theorem items_reversed_reversed_perm {t : Trie κ α} (h : t.Distinct) : t.reversed.reversed.items.Perm t.items := by
  have hmap := (items_reversed_perm h).map fun p => (p.1.reverse, p.2)
  rw [List.map_map] at hmap
  have hid : (fun p : List κ × α => (p.1.reverse, p.2)) ∘ (fun p => (p.1.reverse, p.2)) = id := by
    funext p
    simp
  rw [hid, List.map_id] at hmap
  exact (items_reversed_perm (distinct_reversed t)).trans hmap

/-! ## Maps -/

/-- The trie is the map that some requests leave. -/
structure MapOf (rs : List (Request κ α)) (t : Trie κ α) : Prop where
  /-- A path holds what was set there last. -/
  get?_iff : ∀ path a, t.get? path = some a ↔ LastOf (Sets path) rs (.set path (some a))
  mem_items : ∀ path a, (path, a) ∈ t.items ↔ t.get? path = some a
  nodup_items : (t.items.map Prod.fst).Nodup
  isEmpty_iff : t.isEmpty = true ↔ t.items = []
  hasItemsUnder_iff : ∀ k, t.hasItemsUnder k = true ↔ ∃ rest a, (k :: rest, a) ∈ t.items
  /-- A path exists if something was set under it, be it the absence of an item. -/
  walk?_isSome_iff : ∀ path, (t.walk? path).isSome = true ↔ path = [] ∨ ∃ rest item, .set (path ++ rest) item ∈ rs
  /-- A node is the trie of what was set under it. -/
  walk?_eq : ∀ path b, t.walk? path = some b → b = after (under path rs) ∧
    ∀ rest a, (rest, a) ∈ b.items ↔ (path ++ rest, a) ∈ t.items
  /-- A reversed trie has the reversed paths, and its reversal is the same map again. The trie stays as it is. -/
  reversed : ∃ r, t.ask .reversed = (some r, t) ∧ r.items.Perm (t.items.map fun p => (p.1.reverse, p.2)) ∧
    ∃ r', r.ask .reversed = (some r', r) ∧ r'.items.Perm t.items

/-- After any requests, a trie is the map that they leave. -/
theorem mapOf_after (rs : List (Request κ α)) : MapOf rs (after rs) := by
  have h : (after rs).Distinct := distinct_after rs
  constructor
  case get?_iff => exact fun path a => get?_after
  case mem_items => exact fun path a => mem_items_iff h
  case nodup_items => exact nodup_items h
  case isEmpty_iff => exact isEmpty_iff_items h
  case hasItemsUnder_iff => exact fun k => hasItemsUnder_iff h
  case walk?_isSome_iff =>
    intro path
    rw [← under_ne_nil_iff, Option.isSome_iff_exists]
    simp [walk?_after]
  case walk?_eq =>
    intro path b hb
    have hafter := (walk?_after.1 hb).2
    refine ⟨hafter, fun rest a => ?_⟩
    have hd : b.Distinct := hafter ▸ distinct_after _
    rw [mem_items_iff hd, mem_items_iff h, get?_of_walk? hb]
  case reversed =>
    exact ⟨_, rfl, items_reversed_perm h, _, rfl, items_reversed_reversed_perm h⟩

/-- Paths that begin with one another, an empty one, one that is set twice and one whose item is taken away. -/
def requestsSample : List (Request Char Nat) :=
  [.set ['a', 'b'] (some 1), .set ['a'] (some 2), .reversed, .set [] (some 3), .set ['a', 'b'] (some 4),
    .set ['b', 'c'] none, .set ['a'] none]

/-- The item that was set first at the path of two keys is gone, and so is that at the path of one key. The branch of
the other key is there, with no item in it. -/
theorem mapOf_after_sample : LawfulBEq Char ∧ MapOf requestsSample (after requestsSample) ∧
    (after requestsSample).items = [([], 3), (['a', 'b'], 4)] ∧
    (after requestsSample).reversed.items = [([], 3), (['b', 'a'], 4)] ∧
    (after requestsSample).hasItemsUnder 'b' = false ∧ ((after requestsSample).walk? ['b', 'c']).isSome = true :=
  ⟨inferInstance, mapOf_after requestsSample, by decide, by decide, by decide, by decide⟩

end Trie

end Mixfix
