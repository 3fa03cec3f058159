import Mathlib.Data.List.Induction
import Mixfix.Operator.Tier
import Mixfix.Proofs.Catalogue
import Mixfix.Proofs.Paths

/-!
# What a tier keeps after any requests

Each place of a tier has the operator that was added there last (`Tier.at?_after`), and what it keeps for backward scans
is the reversal of the left-associative operators that it has at that time (`Tier.fresh_after`). So every request for
them is answered by what they are now, whatever was added and asked for before (`Tier.upToDate_after`). As a group, a
tier is what its operators make of the empty group, the backward trie looked up (`Tier.group_after`).
-/

namespace Mixfix

variable {α : Type}

namespace Tier

variable {t : Tier α} {o : Operator α} {p : Place} {rs : List (Request α)} {priority : Float}

/-! ## Places -/

/-- The operator that the tier keeps in a place. -/
def at? (t : Tier α) : Place → Option (Operator α)
  | .prefixed token => t.prefixOps.get? token
  | .postfixed token => t.postfixOps.get? token
  | .infixed .left tokens => t.left.get? tokens
  | .infixed .right tokens => t.right.get? tokens

theorem at?_empty (priority : Float) (p : Place) : (empty priority : Tier α).at? p = none := by
  match p with
  | .prefixed _ | .postfixed _ => rfl
  | .infixed .left tokens | .infixed .right tokens => exact Trie.get?_empty tokens

theorem at?_group (t : Tier α) (p : Place) : t.group.at? p = t.at? p := by
  match p with
  | .prefixed _ | .postfixed _ | .infixed .left _ | .infixed .right _ => rfl

end Tier

namespace Group

/-- The group without what backward scans need. -/
def forward (g : Group α) : Group α := { g with leftReversed := .empty }

theorem at?_forward (g : Group α) (p : Place) : g.forward.at? p = g.at? p := by
  match p with
  | .prefixed _ | .postfixed _ | .infixed .left _ | .infixed .right _ => rfl

/-- What backward scans need has no part in what an operator is added to. -/
theorem forward_addPlaced {g g' : Group α} (h : g.forward = g'.forward) (o : Operator α) :
    (g.addPlaced o).forward = (g'.addPlaced o).forward := by
  obtain ⟨priority, prefixOps, postfixOps, left, leftReversed, right⟩ := g
  obtain ⟨priority', prefixOps', postfixOps', left', leftReversed', right'⟩ := g'
  cases h
  rw [addPlaced, addPlaced, add, add]
  cases o.refusal? with
  | some e => rfl
  | none =>
    simp only [put]
    cases o.fixity with
    | prefixed | postfixed | unplaced => rfl
    | infixed a => cases a <;> rfl

end Group

namespace Tier

variable {t : Tier α} {o : Operator α} {p : Place} {rs : List (Request α)} {priority : Float}

/-- An operator is put where it is added to the group. -/
theorem forward_put (t : Tier α) (h : o.refusal? = none) :
    (t.put o).group.forward = (t.group.addPlaced o).forward := by
  rw [put, Group.addPlaced_of_not_refused h, Group.put]
  cases o.fixity with
  | prefixed | postfixed | unplaced => rfl
  | infixed a => cases a <;> rfl

theorem at?_put (h : o.refusal? = none) (p : Place) :
    (t.put o).at? p = if o.place? = some p then some o else t.at? p := by
  rw [← at?_group, ← Group.at?_forward, forward_put t h, Group.at?_forward, Group.at?_addPlaced, at?_group]

/-! ## Requests -/

namespace Request

/-- The request adds an operator of a place, which is not refused. -/
def Binds (p : Place) (r : Request α) : Prop := ∃ o, r = .add o ∧ o.refusal? = none ∧ o.place? = some p

theorem binds_add_iff : Binds p (.add o) ↔ o.refusal? = none ∧ o.place? = some p := by
  constructor
  · rintro ⟨_, ⟨⟩, h⟩
    exact h
  · intro h
    exact ⟨o, rfl, h⟩

theorem not_binds_backward : ¬ Binds p (.backward : Request α) := by
  rintro ⟨_, ⟨⟩, -⟩

end Request

open Tier.Request

theorem after_concat (priority : Float) (rs : List (Request α)) (r : Request α) :
    after priority (rs ++ [r]) = (after priority rs).next r := by
  rw [after, List.foldl_append]
  rfl

/-- Asking for the backward trie changes nothing but that it is kept. -/
theorem backward_eq (t : Tier α) : t.backward.2 = { t with kept := some t.backward.1 } := by
  rw [backward]
  split
  · next r hr => rw [← hr]
  · rfl

theorem at?_backward (t : Tier α) (p : Place) : t.backward.2.at? p = t.at? p := by
  rw [backward_eq]
  match p with
  | .prefixed _ | .postfixed _ | .infixed .left _ | .infixed .right _ => rfl

theorem add_of_refusal? {e : Refusal} (h : o.refusal? = some e) : t.add o = (.error e, t) := by rw [add, h]

theorem add_of_not_refused (h : o.refusal? = none) : t.add o = (.ok (), t.put o) := by rw [add, h]

/-- A request puts its operator in its place, unless it is refused, and leaves every other place as it is. -/
theorem at?_next (t : Tier α) (r : Request α) (p : Place) :
    (Binds p r → ∃ o, r = .add o ∧ (t.next r).at? p = some o) ∧ (¬ Binds p r → (t.next r).at? p = t.at? p) := by
  cases r with
  | add o =>
    rw [next, binds_add_iff]
    cases hrefusal : o.refusal? with
    | some e => simp [add_of_refusal? hrefusal]
    | none =>
      rw [add_of_not_refused hrefusal, at?_put hrefusal]
      constructor
      · rintro ⟨-, hp⟩
        exact ⟨o, rfl, if_pos hp⟩
      · intro hno
        exact if_neg fun hp => hno ⟨rfl, hp⟩
  | backward => exact ⟨fun h => absurd h not_binds_backward, fun _ => at?_backward t p⟩

/-- A place has the operator that was added there last. -/
theorem at?_after : (after priority rs).at? p = some o ↔ Binds p (.add o) ∧ LastOf (Binds p) rs (.add o) := by
  induction rs using List.reverseRecOn with
  | nil => exact iff_of_false (by rw [after, List.foldl_nil, at?_empty]; simp) fun h => not_lastOf_nil h.2
  | append_singleton rs r ih =>
    rw [after_concat, lastOf_concat_iff]
    obtain ⟨hbinds, hfree⟩ := at?_next (after priority rs) r p
    by_cases hr : Binds p r
    · obtain ⟨o', rfl, ho'⟩ := hbinds hr
      rw [ho']
      constructor
      · rintro ⟨⟩
        exact ⟨hr, Or.inl rfl⟩
      · rintro ⟨-, heq | ⟨hno, -⟩⟩
        · cases heq
          rfl
        · exact absurd hr hno
    · rw [hfree hr, ih]
      constructor
      · rintro ⟨ho, hlast⟩
        exact ⟨ho, Or.inr ⟨hr, hlast⟩⟩
      · rintro ⟨ho, rfl | ⟨-, hlast⟩⟩
        · exact absurd ho hr
        · exact ⟨ho, hlast⟩

/-! ## The backward trie -/

/-- What is kept for backward scans is the reversal of the left-associative operators. -/
structure Fresh (t : Tier α) : Prop where
  distinct_left : t.left.Distinct
  distinct_right : t.right.Distinct
  kept : ∀ r, t.kept = some r → r = t.left.reversed

theorem fresh_empty (priority : Float) : (empty priority : Tier α).Fresh where
  distinct_left := Trie.distinct_empty
  distinct_right := Trie.distinct_empty
  kept r h := by cases h

/-- The answer is made of the left-associative operators of the tier, whether it was kept or not. -/
theorem Fresh.backward_eq (h : t.Fresh) : t.backward = (t.left.reversed, { t with kept := some t.left.reversed }) := by
  rw [backward]
  split
  · next r hr =>
    rw [← h.kept r hr, ← hr]
  · rfl

theorem Fresh.put (h : t.Fresh) (o : Operator α) : (t.put o).Fresh := by
  rw [Tier.put]
  match o.fixity with
  | .prefixed | .postfixed | .unplaced => exact ⟨h.distinct_left, h.distinct_right, h.kept⟩
  | .infixed .left => exact ⟨h.distinct_left.insert _ _, h.distinct_right, fun r hr => by cases hr⟩
  | .infixed .right => exact ⟨h.distinct_left, h.distinct_right.insert _ _, fun r hr => by cases hr⟩

theorem Fresh.next (h : t.Fresh) (r : Request α) : (t.next r).Fresh := by
  cases r with
  | add o =>
    rw [Tier.next]
    cases hrefusal : o.refusal? with
    | some e => rwa [add_of_refusal? hrefusal]
    | none =>
      rw [add_of_not_refused hrefusal]
      exact h.put o
  | backward =>
    rw [Tier.next, h.backward_eq]
    exact ⟨h.distinct_left, h.distinct_right, fun r hr => (Option.some.inj hr).symm⟩

theorem fresh_after (priority : Float) (rs : List (Request α)) : (after priority rs).Fresh := by
  induction rs using List.reverseRecOn with
  | nil => exact fresh_empty priority
  | append_singleton rs r ih =>
    rw [after_concat]
    exact ih.next r

/-- An operator is added to the trie of its own associativity and to no other. -/
theorem add_apart (t : Tier α) (o : Operator α) : (o.fixity ≠ .infixed .left → (t.add o).2.left = t.left) ∧
    (o.fixity ≠ .infixed .right → (t.add o).2.right = t.right) := by
  cases hrefusal : o.refusal? with
  | some e =>
    rw [add_of_refusal? hrefusal]
    exact ⟨fun _ => rfl, fun _ => rfl⟩
  | none =>
    rw [add_of_not_refused hrefusal, put]
    match o.fixity with
    | .prefixed | .postfixed | .unplaced => exact ⟨fun _ => rfl, fun _ => rfl⟩
    | .infixed .left => exact ⟨fun h => absurd rfl h, fun _ => rfl⟩
    | .infixed .right => exact ⟨fun _ => rfl, fun h => absurd rfl h⟩

theorem add_eq_error_iff {e : Refusal} : (t.add o).1 = .error e ↔ o.refusal? = some e := by
  rw [add]
  cases o.refusal? with
  | some e' => simp
  | none => simp

/-! ## Tiers as groups -/

namespace Request

/-- The operator that the request adds; one that is refused is not added. -/
def operator? : Request α → Option (Operator α)
  | add o => if o.refusal?.isSome then none else some o
  | backward => none

end Request

/-- Apart from what backward scans need, a tier is the group that its operators make. -/
theorem forward_group_after (priority : Float) (rs : List (Request α)) : (after priority rs).group.forward =
    ((rs.filterMap Request.operator?).foldl Group.addPlaced (Group.empty priority)).forward := by
  induction rs using List.reverseRecOn with
  | nil => rfl
  | append_singleton rs r ih =>
    rw [after_concat, List.filterMap_append, List.foldl_append]
    cases r with
    | add o =>
      rw [next]
      cases hrefusal : o.refusal? with
      | some e => simpa [Request.operator?, hrefusal, add_of_refusal? hrefusal] using ih
      | none =>
        rw [add_of_not_refused hrefusal, forward_put _ hrefusal, Group.forward_addPlaced ih]
        simp [Request.operator?, hrefusal]
    | backward =>
      rw [next, (fresh_after priority rs).backward_eq]
      exact ih

/-- As a group, a tier is the one that its operators make, and a backward scan finds the same in either. -/
theorem group_after (priority : Float) (rs : List (Request α)) :
    let g := (rs.filterMap Request.operator?).foldl Group.addPlaced (Group.empty priority)
    (after priority rs).group.forward = g.forward ∧
      ∀ ts, (after priority rs).group.leftReversed.get? ts = g.leftReversed.get? ts := by
  intro g
  have hforward : (after priority rs).group.forward = g.forward := forward_group_after priority rs
  have hfresh : (after priority rs).Fresh := fresh_after priority rs
  have hsound (os : List (Operator α)) : (os.foldl Group.addPlaced (Group.empty priority)).Sound := by
    induction os using List.reverseRecOn with
    | nil => exact Group.sound_empty priority
    | append_singleton os o ih =>
      rw [List.foldl_append]
      exact ih.addPlaced
  refine ⟨hforward, fun ts => ?_⟩
  have hleft : (after priority rs).left = g.left := congrArg Group.left hforward
  have hreversed : (after priority rs).group.leftReversed = (after priority rs).left.reversed :=
    congrArg Prod.fst hfresh.backward_eq
  rw [hreversed, Trie.get?_reversed hfresh.distinct_left, hleft, (hsound _).reversed]

/-! ## Any requests -/

/-- The tier has the operators that some requests added last, and what it answers to backward scans is up to date. -/
structure UpToDate (rs : List (Request α)) (t : Tier α) : Prop where
  /-- A place has the operator that was added there last. -/
  at?_iff : ∀ p o, t.at? p = some o ↔ Binds p (.add o) ∧ LastOf (Binds p) rs (.add o)
  /-- The answer has the left-associative operators of this time by their reversed tokens, and nothing but it
  changes. -/
  backward : ∃ r, t.backward = (r, { t with kept := some r }) ∧
    r.items.Perm (t.left.items.map fun p => (p.1.reverse, p.2)) ∧ ∀ ts, r.get? ts = t.left.get? ts.reverse
  apart : ∀ o, (o.fixity ≠ .infixed .left → (t.add o).2.left = t.left) ∧
    (o.fixity ≠ .infixed .right → (t.add o).2.right = t.right)
  refused_iff : ∀ o, (t.add o).1 = .error .unplaced ↔ o.fixity = .unplaced
  /-- An operator that is refused changes nothing. -/
  refused : ∀ o e, (t.add o).1 = .error e → (t.add o).2 = t

/-- After any requests, a tier is up to date. -/
theorem upToDate_after (priority : Float) (rs : List (Request α)) : UpToDate rs (after priority rs) := by
  have hfresh : (after priority rs).Fresh := fresh_after priority rs
  constructor
  case at?_iff => exact fun p o => at?_after
  case backward =>
    exact ⟨_, hfresh.backward_eq, Trie.items_reversed_perm hfresh.distinct_left,
      Trie.get?_reversed hfresh.distinct_left⟩
  case apart => exact add_apart _
  case refused_iff =>
    intro o
    rw [add_eq_error_iff, Operator.refusal?_eq_unplaced_iff]
  case refused =>
    intro o e he
    rw [add_of_refusal? (add_eq_error_iff.1 he)]

/-- What is asked for after another operator was added has both operators. -/
example : ((after 0.0 [.add ⟨.infixed .left, [['a'], ['b']], 0.0, 1⟩, .backward, .add ⟨.infixed .left, [['c']], 0.0, 2⟩,
    .add ⟨.unplaced, [['d']], 0.0, 3⟩]).backward.1.items.map Prod.fst) = [[['b'], ['a']], [['c']]] := by
  decide

end Tier

end Mixfix
