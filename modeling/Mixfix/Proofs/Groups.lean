import Mathlib.Data.List.Nodup
import Mixfix.Proofs.Priority
import Mixfix.Proofs.Registry
import Mixfix.Proofs.Trie

/-!
# What the groups hold

The groups of a registry hold its operators and nothing else: what a group holds at some tokens (`Group.get?`) is the
operator of these tokens (`Registry.WellFormed.consistent`), and every operator is held by some group
(`Registry.WellFormed.exists_holds`).

If no priority is NaN, the groups are in ascending order of their priorities (`Registry.WellFormed.pairwise_groups`),
and the priority of a group is that of the operators it holds (`Registry.WellFormed.rank_eq_of_holds`).
-/

namespace Mixfix

variable {α : Type}

/-! ## One group -/

namespace Group

/-- The operator of a group that has a fixity and some tokens. -/
def get? (g : Group α) : Fixity → List Text → Option (Operator α)
  | .prefixed, [t] => g.prefixOps.get? t
  | .postfixed, [t] => g.postfixOps.get? t
  | .infixed .left, ts => g.left.get? ts
  | .infixed .right, ts => g.right.get? ts
  | _, _ => none

/-- The group holds the operator at its tokens. -/
def Holds (g : Group α) (o : Operator α) : Prop := g.get? o.fixity o.tokens = some o

variable {g : Group α} {o o' : Operator α} {os : List (Operator α)}

theorem get?_empty (p : Float) (f : Fixity) (ts : List Text) : (empty p : Group α).get? f ts = none := by
  fun_cases get? (empty p : Group α) f ts with
  | case1 t => rfl
  | case2 t => rfl
  | case3 ts => exact Trie.get?_empty ts
  | case4 ts => exact Trie.get?_empty ts
  | case5 => rfl

theorem addPlaced_of_refusal? {e : Refusal} (h : o.refusal? = some e) : g.addPlaced o = g := by rw [addPlaced, add, h]

theorem addPlaced_of_not_refused (h : o.refusal? = none) : g.addPlaced o = g.put o := by rw [addPlaced, add, h]

/-- Adding an operator binds its fixity and tokens and leaves everything else as it is. -/
theorem get?_addPlaced (ho : o.Formed) (hp : o.fixity ≠ .unplaced) (f : Fixity) (ts : List Text) :
    (g.addPlaced o).get? f ts = if f = o.fixity ∧ ts = o.tokens then some o else g.get? f ts := by
  rw [addPlaced_of_not_refused (ho.refusal?_eq_none hp), put]
  match hf : o.fixity with
  | .prefixed =>
    have htokens := ho.single (by simp [hf])
    match f, ts with
    | .prefixed, [] | .prefixed, _ :: _ :: _ => simp [get?, htokens]
    | .prefixed, [t] => simp [get?, htokens, Table.get?_insert]
    | .postfixed, [] | .postfixed, [_] | .postfixed, _ :: _ :: _ => simp [get?]
    | .infixed .left, _ | .infixed .right, _ | .unplaced, _ => simp [get?]
  | .postfixed =>
    have htokens := ho.single (by simp [hf])
    match f, ts with
    | .postfixed, [] | .postfixed, _ :: _ :: _ => simp [get?, htokens]
    | .postfixed, [t] => simp [get?, htokens, Table.get?_insert]
    | .prefixed, [] | .prefixed, [_] | .prefixed, _ :: _ :: _ => simp [get?]
    | .infixed .left, _ | .infixed .right, _ | .unplaced, _ => simp [get?]
  | .infixed .left =>
    match f, ts with
    | .infixed .left, ts => simp [get?, Trie.insert, Trie.get?_set]
    | .prefixed, [] | .prefixed, [_] | .prefixed, _ :: _ :: _ => simp [get?]
    | .postfixed, [] | .postfixed, [_] | .postfixed, _ :: _ :: _ => simp [get?]
    | .infixed .right, _ | .unplaced, _ => simp [get?]
  | .infixed .right =>
    match f, ts with
    | .infixed .right, ts => simp [get?, Trie.insert, Trie.get?_set]
    | .prefixed, [] | .prefixed, [_] | .prefixed, _ :: _ :: _ => simp [get?]
    | .postfixed, [] | .postfixed, [_] | .postfixed, _ :: _ :: _ => simp [get?]
    | .infixed .left, _ | .unplaced, _ => simp [get?]
  | .unplaced => exact absurd hf hp

theorem priority_addPlaced : (g.addPlaced o).priority = g.priority := by
  cases h : o.refusal? with
  | some e => rw [addPlaced_of_refusal? h]
  | none =>
    rw [addPlaced_of_not_refused h, put]
    match o.fixity with
    | .prefixed | .postfixed | .infixed .left | .infixed .right | .unplaced => rfl

/-- No node of a trie of the group has two branches with one key, and both tries of left-associative operators hold the
same. -/
structure Sound (g : Group α) : Prop where
  reversed : ∀ p, g.leftReversed.get? p = g.left.get? p.reverse
  left_distinct : g.left.Distinct
  reversed_distinct : g.leftReversed.Distinct
  right_distinct : g.right.Distinct

theorem sound_empty (p : Float) : (empty p : Group α).Sound where
  reversed p := (Trie.get?_empty p).trans (Trie.get?_empty p.reverse).symm
  left_distinct := Trie.distinct_empty
  reversed_distinct := Trie.distinct_empty
  right_distinct := Trie.distinct_empty

theorem Sound.put (h : g.Sound) : (g.put o).Sound := by
  rw [Group.put]
  match o.fixity with
  | .prefixed | .postfixed | .unplaced => exact ⟨h.reversed, h.left_distinct, h.reversed_distinct, h.right_distinct⟩
  | .infixed .right => exact ⟨h.reversed, h.left_distinct, h.reversed_distinct, h.right_distinct.insert _ _⟩
  | .infixed .left =>
    refine ⟨fun p => ?_, h.left_distinct.insert _ _, h.reversed_distinct.insert _ _, h.right_distinct⟩
    simp only [Trie.insert, Trie.get?_set, h.reversed]
    by_cases hp : p = o.tokens.reverse
    · simp [hp]
    · have hp' : p.reverse ≠ o.tokens := fun e => hp (by rw [← e, List.reverse_reverse])
      simp [hp, hp']

theorem Sound.addPlaced (h : g.Sound) : (g.addPlaced o).Sound := by
  cases hrefusal : o.refusal? with
  | some e => rwa [addPlaced_of_refusal? hrefusal]
  | none =>
    rw [addPlaced_of_not_refused hrefusal]
    exact h.put

/-- What the group holds is among some operators, at its own fixity and tokens. -/
def Consistent (g : Group α) (os : List (Operator α)) : Prop :=
  ∀ f ts o, g.get? f ts = some o → o ∈ os ∧ o.fixity = f ∧ o.tokens = ts

theorem consistent_empty (p : Float) (os : List (Operator α)) : (empty p : Group α).Consistent os := by
  intro f ts o h
  rw [get?_empty] at h
  cases h

theorem Consistent.addPlaced (h : g.Consistent os) (ho : o.Formed) (hp : o.fixity ≠ .unplaced) :
    (g.addPlaced o).Consistent (os ++ [o]) := by
  intro f ts o' hg
  rw [get?_addPlaced ho hp] at hg
  split at hg
  · next heq =>
    cases hg
    exact ⟨List.mem_append_right _ List.mem_cons_self, heq.1.symm, heq.2.symm⟩
  · exact ⟨List.mem_append_left _ (h f ts o' hg).1, (h f ts o' hg).2⟩

end Group

/-! ## All groups -/

namespace Registry

open Mixfix.Group

/-- Every group holds some of the operators, and every operator is held by a group. -/
structure Grouped (os : List (Operator α)) (gs : List (Group α)) : Prop where
  sound : ∀ g ∈ gs, g.Sound
  consistent : ∀ g ∈ gs, g.Consistent os
  complete : ∀ o ∈ os, ∃ g ∈ gs, g.Holds o

variable {r : Registry α} {o : Operator α} {os : List (Operator α)} {gs : List (Group α)} {g : Group α}

/-- Every group was there before, has become one with the operator, or is the new group of the operator. -/
theorem mem_addToGroups (h : g ∈ addToGroups o gs) :
    g ∈ gs ∨ (∃ g' ∈ gs, (g'.priority == o.priority) = true ∧ g = g'.addPlaced o) ∨
      g = (Group.empty o.priority).addPlaced o := by
  induction gs with
  | nil => exact Or.inr (Or.inr (List.mem_singleton.1 h))
  | cons g₀ gs ih =>
    rw [addToGroups] at h
    split at h
    · next hp =>
      rcases List.mem_cons.1 h with rfl | h
      · exact Or.inr (Or.inl ⟨g₀, List.mem_cons_self, hp, rfl⟩)
      · exact Or.inl (List.mem_cons_of_mem _ h)
    · rcases List.mem_cons.1 h with rfl | h
      · exact Or.inl List.mem_cons_self
      · rcases ih h with h | ⟨g', hg', h⟩ | h
        · exact Or.inl (List.mem_cons_of_mem _ h)
        · exact Or.inr (Or.inl ⟨g', List.mem_cons_of_mem _ hg', h⟩)
        · exact Or.inr (Or.inr h)

/-- Every group stays or becomes one with the operator. -/
theorem addToGroups_mem (h : g ∈ gs) : g ∈ addToGroups o gs ∨ g.addPlaced o ∈ addToGroups o gs := by
  induction gs with
  | nil => cases h
  | cons g₀ gs ih =>
    rw [addToGroups]
    split
    · rcases List.mem_cons.1 h with rfl | h
      · exact Or.inr List.mem_cons_self
      · exact Or.inl (List.mem_cons_of_mem _ h)
    · rcases List.mem_cons.1 h with rfl | h
      · exact Or.inl List.mem_cons_self
      · exact (ih h).imp (List.mem_cons_of_mem _) (List.mem_cons_of_mem _)

/-- The operator comes into some group. -/
theorem exists_mem_addToGroups (o : Operator α) (gs : List (Group α)) :
    ∃ g : Group α, g.addPlaced o ∈ addToGroups o gs := by
  induction gs with
  | nil => exact ⟨_, List.mem_singleton_self _⟩
  | cons g₀ gs ih =>
    rw [addToGroups]
    split
    · exact ⟨g₀, List.mem_cons_self⟩
    · obtain ⟨g, hg⟩ := ih
      exact ⟨g, List.mem_cons_of_mem _ hg⟩

/-- Adding an operator of another fixity or other tokens keeps the groups those of the operators. -/
theorem Grouped.add (h : Grouped os gs) (ho : o.Formed) (hp : o.fixity ≠ .unplaced)
    (hnew : ∀ o' ∈ os, o'.fixity = o.fixity → o'.tokens ≠ o.tokens) : Grouped (os ++ [o]) (addToGroups o gs) where
  sound g hg := by
    rcases mem_addToGroups hg with hg | ⟨g', hg', -, rfl⟩ | rfl
    · exact h.sound g hg
    · exact (h.sound g' hg').addPlaced
    · exact (sound_empty _).addPlaced
  consistent g hg := by
    rcases mem_addToGroups hg with hg | ⟨g', hg', -, rfl⟩ | rfl
    · exact fun f ts o' ho' =>
        ⟨List.mem_append_left _ (h.consistent g hg f ts o' ho').1, (h.consistent g hg f ts o' ho').2⟩
    · exact (h.consistent g' hg').addPlaced ho hp
    · exact (consistent_empty _ os).addPlaced ho hp
  complete o' ho' := by
    rcases List.mem_append.1 ho' with ho' | ho'
    · obtain ⟨g, hg, hholds⟩ := h.complete o' ho'
      rcases addToGroups_mem (o := o) hg with hg' | hg'
      · exact ⟨g, hg', hholds⟩
      · refine ⟨_, hg', ?_⟩
        rw [Holds, get?_addPlaced ho hp, if_neg fun e => hnew o' ho' e.1 e.2]
        exact hholds
    · obtain ⟨g, hg⟩ := exists_mem_addToGroups o gs
      refine ⟨_, hg, ?_⟩
      rw [List.mem_singleton.1 ho', Holds, get?_addPlaced ho hp, if_pos ⟨rfl, rfl⟩]

theorem Grouped.foldl {os' : List (Operator α)} (h : Grouped os gs) (ho : ∀ o ∈ os', o.Formed ∧ o.fixity ≠ .unplaced)
    (hpair : (os ++ os').Pairwise fun a b => a.fixity = b.fixity → a.tokens ≠ b.tokens) :
    Grouped (os ++ os') (os'.foldl (fun gs o => addToGroups o gs) gs) := by
  induction os' generalizing os gs with
  | nil => rwa [List.append_nil]
  | cons o os' ih =>
    have hnew (o' : Operator α) (ho' : o' ∈ os) : o'.fixity = o.fixity → o'.tokens ≠ o.tokens :=
      (List.pairwise_append.1 hpair).2.2 o' ho' o List.mem_cons_self
    have hadd := h.add (ho o List.mem_cons_self).1 (ho o List.mem_cons_self).2 hnew
    have hassoc : os ++ o :: os' = (os ++ [o]) ++ os' := by simp
    rw [hassoc] at hpair ⊢
    exact ih hadd (fun o' ho' => ho o' (List.mem_cons_of_mem _ ho')) hpair

/-- No two operators have one fixity and the same tokens, also by their places. -/
theorem Filed.pairwise_operators (h : r.Filed) :
    r.operators.Pairwise fun a b => a.fixity = b.fixity → a.tokens ≠ b.tokens := by
  have hvalues {κ : Type} [BEq κ] [LawfulBEq κ] {t : Table κ (Operator α)} (f : κ → List Text) (hn : t.keys.Nodup)
      (ht : ∀ k o, t.get? k = some o → o.tokens = f k) (hf : Function.Injective f) :
      t.values.Pairwise fun a b => a.fixity = b.fixity → a.tokens ≠ b.tokens := by
    rw [Table.values, List.pairwise_map]
    refine (List.pairwise_map.1 hn).imp_of_mem fun {a b} ha hb hab _ he => ?_
    rw [ht a.1 a.2 ((Table.lookup_eq_some_iff hn).2 ha), ht b.1 b.2 ((Table.lookup_eq_some_iff hn).2 hb)] at he
    exact hab (hf he)
  refine List.pairwise_append.2 ⟨List.pairwise_append.2 ⟨?_, ?_, ?_⟩, ?_, ?_⟩
  · exact hvalues (fun t => [t]) h.nodup_prefix (fun k o ho => (h.prefix_eq k o ho).2)
      fun a b hab => (List.cons.inj hab).1
  · exact hvalues (fun t => [t]) h.nodup_postfix (fun k o ho => (h.postfix_eq k o ho).2)
      fun a b hab => (List.cons.inj hab).1
  · intro a ha b hb hf
    obtain ⟨k, hk⟩ := (Table.mem_values_iff h.nodup_prefix).1 ha
    obtain ⟨k', hk'⟩ := (Table.mem_values_iff h.nodup_postfix).1 hb
    rw [(h.prefix_eq k a hk).1, (h.postfix_eq k' b hk').1] at hf
    cases hf
  · exact hvalues id h.nodup_infix (fun k o ho => (h.infix_eq k o ho).2.1) Function.injective_id
  · intro a ha b hb hf
    obtain ⟨k', hk'⟩ := (Table.mem_values_iff h.nodup_infix).1 hb
    obtain ⟨x, hx⟩ := (h.infix_eq k' b hk').1
    rcases List.mem_append.1 ha with ha | ha
    · obtain ⟨k, hk⟩ := (Table.mem_values_iff h.nodup_prefix).1 ha
      rw [(h.prefix_eq k a hk).1, hx] at hf
      cases hf
    · obtain ⟨k, hk⟩ := (Table.mem_values_iff h.nodup_postfix).1 ha
      rw [(h.postfix_eq k a hk).1, hx] at hf
      cases hf

/-! ## The groups of a registry -/

namespace WellFormed

theorem grouped (h : r.WellFormed) : Grouped r.operators r.groups.1 := by
  have hfold : Grouped r.operators (r.operators.foldl (fun gs o => addToGroups o gs) []) :=
    @Grouped.foldl _ [] [] _ ⟨by simp, by simp, by simp⟩ (fun o ho => ⟨h.formed ho, h.placed ho⟩)
      h.pairwise_operators
  rw [h.groups_eq, priorityGroups]
  refine ⟨fun g hg => hfold.sound g (List.mem_mergeSort.1 hg), fun g hg => hfold.consistent g (List.mem_mergeSort.1 hg),
    fun o ho => ?_⟩
  obtain ⟨g, hg, hholds⟩ := hfold.complete o ho
  exact ⟨g, List.mem_mergeSort.2 hg, hholds⟩

/-- What a group holds is an operator of the registry, at its own fixity and tokens. -/
theorem consistent (h : r.WellFormed) (hg : g ∈ r.groups.1) : g.Consistent r.operators := h.grouped.consistent g hg

theorem sound (h : r.WellFormed) (hg : g ∈ r.groups.1) : g.Sound := h.grouped.sound g hg

/-- Groups that the registered operators make in ascending order are kept in this order. -/
theorem groups_eq_foldl (h : r.WellFormed)
    (hp : (r.operators.foldl (fun gs o => addToGroups o gs) []).Pairwise fun a b => !(b.priority < a.priority)) :
    r.groups.1 = r.operators.foldl (fun gs o => addToGroups o gs) [] := by
  rw [h.groups_eq, priorityGroups, List.mergeSort_of_pairwise hp]

/-- Some group holds an operator of the registry. -/
theorem exists_holds (h : r.WellFormed) (ho : o ∈ r.operators) : ∃ g ∈ r.groups.1, g.Holds o := h.grouped.complete o ho

end WellFormed

/-! ## The order of the groups -/

open Priority

/-- The groups have distinct priorities, those of the operators that they hold. -/
structure Ranked (gs : List (Group α)) : Prop where
  notNaN : ∀ g ∈ gs, g.priority.isNaN = false
  rank_eq : ∀ g ∈ gs, ∀ o, g.Holds o → rank o.priority = rank g.priority
  nodup : (gs.map fun g => rank g.priority).Nodup

/-- A new group comes last if no group has the priority of the operator. -/
theorem map_rank_addToGroups (hgs : ∀ g ∈ gs, g.priority.isNaN = false) (ho : o.priority.isNaN = false) :
    (addToGroups o gs).map (fun g => rank g.priority) =
      if rank o.priority ∈ gs.map (fun g => rank g.priority) then gs.map fun g => rank g.priority
      else gs.map (fun g => rank g.priority) ++ [rank o.priority] := by
  induction gs with
  | nil => rw [addToGroups, List.map_singleton, priority_addPlaced]; rfl
  | cons g gs ih =>
    rw [addToGroups]
    split
    · next heq =>
      rw [beq_iff (hgs g List.mem_cons_self) ho] at heq
      simp [priority_addPlaced, heq]
    · next hne =>
      rw [beq_iff (hgs g List.mem_cons_self) ho] at hne
      rw [List.map_cons, ih fun g' hg' => hgs g' (List.mem_cons_of_mem _ hg')]
      have hne' : rank o.priority ≠ rank g.priority := fun e => hne e.symm
      simp only [List.map_cons, List.mem_cons, hne', false_or]
      split <;> rfl

theorem Ranked.add (h : Ranked gs) (hf : o.Formed) (hp : o.fixity ≠ .unplaced) (ho : o.priority.isNaN = false) :
    Ranked (addToGroups o gs) where
  notNaN g hg := by
    rcases mem_addToGroups hg with hg | ⟨g', hg', -, rfl⟩ | rfl
    · exact h.notNaN g hg
    · rw [priority_addPlaced]; exact h.notNaN g' hg'
    · rw [priority_addPlaced]; exact ho
  rank_eq g hg o' ho' := by
    rcases mem_addToGroups hg with hg | ⟨g', hg', heq, rfl⟩ | rfl
    · exact h.rank_eq g hg o' ho'
    · rw [beq_iff (h.notNaN g' hg') ho] at heq
      rw [Holds, get?_addPlaced hf hp] at ho'
      rw [priority_addPlaced]
      split at ho'
      · cases ho'; exact heq.symm
      · exact h.rank_eq g' hg' o' ho'
    · rw [Holds, get?_addPlaced hf hp, get?_empty] at ho'
      rw [priority_addPlaced]
      split at ho'
      · cases ho'; rfl
      · cases ho'
  nodup := by
    rw [map_rank_addToGroups h.notNaN ho]
    split
    · exact h.nodup
    · next hno =>
      rw [← List.concat_eq_append]
      exact List.Nodup.concat hno h.nodup

theorem Ranked.foldl (h : Ranked gs)
    (ho : ∀ o ∈ os, o.Formed ∧ o.fixity ≠ .unplaced ∧ o.priority.isNaN = false) :
    Ranked (os.foldl (fun gs o => addToGroups o gs) gs) := by
  induction os generalizing gs with
  | nil => exact h
  | cons o os ih =>
    obtain ⟨hf, hp, hn⟩ := ho o List.mem_cons_self
    exact ih (h.add hf hp hn) fun o' ho' => ho o' (List.mem_cons_of_mem _ ho')

/-- Sorting by distinct keys makes the keys ascend strictly, if the comparison of what is sorted is that of its keys. -/
theorem pairwise_mergeSort_of_key {β γ : Type*} [LinearOrder β] {key : γ → β} {le : γ → γ → Bool} {l : List γ}
    (hle : ∀ a ∈ l, ∀ b ∈ l, le a b = decide (key a ≤ key b)) (hn : (l.map key).Nodup) :
    (l.mergeSort le).Pairwise fun a b => key a < key b := by
  have hmap := List.map_mergeSort (s := fun a b => decide (a ≤ b)) hle
  have hsorted := @List.pairwise_mergeSort β (fun a b => decide (a ≤ b)) (fun a b c => by simpa using le_trans)
    (fun a b => by simpa using le_total a b) (l.map key)
  have hnodup := (List.mergeSort_perm (l.map key) fun a b => decide (a ≤ b)).nodup_iff.2 hn
  rw [← hmap] at hsorted hnodup
  exact ((List.pairwise_map.1 hsorted).and (List.pairwise_map.1 hnodup)).imp fun hab =>
    lt_of_le_of_ne (of_decide_eq_true hab.1) hab.2

theorem Ranked.pairwise_mergeSort (h : Ranked gs) :
    (gs.mergeSort fun a b => !(b.priority < a.priority)).Pairwise fun a b => rank a.priority < rank b.priority := by
  refine pairwise_mergeSort_of_key (fun a ha b hb => ?_) h.nodup
  rw [Bool.eq_iff_iff]
  simp [lt_iff (h.notNaN b hb) (h.notNaN a ha)]

namespace WellFormed

theorem ranked_fold (h : r.WellFormed) (hn : ∀ o ∈ r.operators, o.priority.isNaN = false) :
    Ranked (r.operators.foldl (fun gs o => addToGroups o gs) []) :=
  Ranked.foldl ⟨by simp, by simp, List.nodup_nil⟩ fun o ho => ⟨h.formed ho, h.placed ho, hn o ho⟩

/-- Unless a priority is NaN, a group has the priority of the operators that it holds. -/
theorem rank_eq_of_holds (h : r.WellFormed) (hn : ∀ o ∈ r.operators, o.priority.isNaN = false) (hg : g ∈ r.groups.1)
    (ho : g.Holds o) : rank o.priority = rank g.priority := by
  rw [h.groups_eq, priorityGroups] at hg
  exact (h.ranked_fold hn).rank_eq g (List.mem_mergeSort.1 hg) o ho

/-- Unless a priority is NaN, the groups are in ascending order. -/
theorem pairwise_groups (h : r.WellFormed) (hn : ∀ o ∈ r.operators, o.priority.isNaN = false) :
    r.groups.1.Pairwise fun a b => rank a.priority < rank b.priority := by
  rw [h.groups_eq, priorityGroups]
  exact (h.ranked_fold hn).pairwise_mergeSort

/-- The groups are those that the registered operators make, in the order in which they ascend. -/
theorem groups_eq_of_perm (h : r.WellFormed) (hn : ∀ o ∈ r.operators, o.priority.isNaN = false) {gs : List (Group α)}
    (hperm : gs.Perm (r.operators.foldl (fun gs o => addToGroups o gs) []))
    (hp : gs.Pairwise fun a b => rank a.priority < rank b.priority) : r.groups.1 = gs := by
  refine List.Perm.eq_of_pairwise (fun a b _ _ hab hba => absurd hab (lt_asymm hba)) (h.pairwise_groups hn) hp ?_
  rw [h.groups_eq, priorityGroups]
  exact (List.mergeSort_perm _ _).trans hperm.symm

end WellFormed

end Registry

end Mixfix
