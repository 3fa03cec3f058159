import Mathlib.Data.List.Nodup
import Mixfix.Proofs.Trie
import Mixfix.Scan

/-!
# What a scan finds

A scan follows the operators of a trie along sites (`Scan.seek`).

* Among operators of one token it finds the first site of one of them (`seek_flat`).
* Sites are *nested* (`Nested`) if they are those of whole operators, which lie behind or within each other like
  brackets. If no two operators share a token, a scan passes over nested sites that stand within an operator
  (`seek_nested`), and finds the operator that the sites begin with (`seek_spelled`). If the trie does not hold that
  one, the scan may find an operator further in, and without the sites of this operator the sites are still nested
  (`seek_nested_or`, `seek_spelled_or`).
-/

namespace Mixfix

namespace Found

/-- What was found, when the scan passed over some more sites before. -/
def passOver (n : Nat) (f : Found) : Found := { f with passed := f.passed + n }

@[simp] theorem sites_passOver (n : Nat) (f : Found) : (f.passOver n).sites = f.sites := rfl

@[simp] theorem passOver_zero (f : Found) : f.passOver 0 = f := rfl

@[simp] theorem passOver_passOver (m n : Nat) (f : Found) : (f.passOver m).passOver n = f.passOver (m + n) := by
  simp [passOver, Nat.add_assoc]

theorem map_passOver_passOver (m n : Nat) (f : Option Found) :
    (f.map (passOver m)).map (passOver n) = f.map (passOver (m + n)) := by
  cases f <;> simp

end Found

namespace Scan

open Found

variable {β : Type} {root node next : Trie Text β}

/-! ## Single steps -/

theorem seek_nil (root node : Trie Text β) (n : Nat) : seek root node n [] = none := by rw [seek.eq_def]

/-- Sites that are to be passed over are. -/
theorem seek_pass (root node : Trie Text β) (v rest : List Site) :
    seek root node v.length (v ++ rest) = (seek root node 0 rest).map (passOver v.length) := by
  induction v with
  | nil => cases h : seek root node 0 rest <;> simp [h]
  | cons s v ih =>
    have hstep : seek root node (v.length + 1) (s :: (v ++ rest)) =
        (seek root node v.length (v ++ rest)).map (passOver 1) := by rw [seek.eq_def]; rfl
    rw [List.length_cons, List.cons_append, hstep, ih, map_passOver_passOver]

/-- A site that completes an operator. -/
theorem seek_complete {s : Site} {rest : List Site} (hf : node.follow? s.text = some next)
    (hi : next.hasRootItem = true) :
    seek root node 0 (s :: rest) = some (((seek next next 0 rest).getD ⟨[], 0⟩).after s) := by
  rw [seek.eq_def]
  simp [hf, hi]

/-- A site that goes on with an operator. -/
theorem seek_follow {s : Site} {rest : List Site} (hf : node.follow? s.text = some next)
    (hi : next.hasRootItem = false) :
    seek root node 0 (s :: rest) = (seek root next 0 rest).map (Found.after s) := by
  rw [seek.eq_def]
  simp [hf, hi]

/-- A site that no operator begins with. -/
theorem seek_other {s : Site} {rest : List Site} (hf : node.follow? s.text = none) (hr : root.follow? s.text = none) :
    seek root node 0 (s :: rest) = (seek root node 0 rest).map (passOver 1) := by
  rw [seek.eq_def]
  simp only [hf, hr, Option.map_none, Option.getD_none]
  rfl

/-- Sites that no operator begins with are passed over. -/
theorem seek_others {ss : List Site} (h : ∀ s ∈ ss, root.follow? s.text = none) (rest : List Site) :
    seek root root 0 (ss ++ rest) = (seek root root 0 rest).map (Found.passOver ss.length) := by
  induction ss with
  | nil => cases h : seek root root 0 rest <;> simp [h]
  | cons s ss ih =>
    have hs := h s List.mem_cons_self
    rw [List.cons_append, seek_other hs hs, ih fun s' hs' => h s' (List.mem_cons_of_mem _ hs'),
      Found.map_passOver_passOver]
    rfl

/-- A site that is an operator of its own, within another. -/
theorem seek_within_complete {s : Site} {rest : List Site} (hf : node.follow? s.text = none)
    (hr : root.follow? s.text = some next) (hi : next.hasRootItem = true) :
    seek root node 0 (s :: rest) =
      (seek root node (((seek next next 0 rest).getD ⟨[], 0⟩).passed) rest).map (passOver 1) := by
  rw [seek.eq_def]
  simp only [hf, hr, hi, if_true, Option.map_some, Option.getD_some]
  rfl

/-- A site that begins an operator within another. -/
theorem seek_within {s : Site} {rest : List Site} (hf : node.follow? s.text = none)
    (hr : root.follow? s.text = some next) (hi : next.hasRootItem = false) :
    seek root node 0 (s :: rest) =
      (seek root node (((seek root next 0 rest).map Found.passed).getD 0) rest).map (passOver 1) := by
  rw [seek.eq_def]
  simp only [hf, hr, hi, Bool.false_eq_true, if_false]
  rfl

/-- Nothing is found where nothing can be followed. -/
theorem seek_barren (hr : ∀ t, root.follow? t = none) (hn : ∀ t, node.follow? t = none) (ss : List Site) :
    seek root node 0 ss = none := by
  induction ss with
  | nil => exact seek_nil root node 0
  | cons s ss ih => rw [seek_other (hn s.text) (hr s.text), ih, Option.map_none]

theorem seek_only_nil (hd : node.Distinct) (h : node.Only []) (ss : List Site) : seek node node 0 ss = none :=
  seek_barren (h.follow?_nil hd) (h.follow?_nil hd) ss

/-! ## What is found is there -/

/-- The sites that are found are some of the given ones, in order, and spell a path of the trie that holds an item. -/
theorem seek_sound (n : Nat) (ss : List Site) : ∀ {root node : Trie Text β} {f : Found},
    seek root node n ss = some f → f.sites.Sublist ss ∧ f.sites ≠ [] ∧ (node.get? (f.sites.map Site.text)).isSome := by
  induction ss generalizing n with
  | nil =>
    intro root node f h
    rw [seek_nil] at h
    cases h
  | cons s ss ih =>
    intro root node f h
    -- a scan that does not take this site has its answer from the sites behind it
    have skip {m : Nat} (h : (seek root node m ss).map (passOver 1) = some f) :
        f.sites.Sublist (s :: ss) ∧ f.sites ≠ [] ∧ (node.get? (f.sites.map Site.text)).isSome := by
      obtain ⟨f', hf', rfl⟩ := Option.map_eq_some_iff.1 h
      obtain ⟨h₁, h₂, h₃⟩ := ih m hf'
      exact ⟨h₁.cons s, h₂, h₃⟩
    match n with
    | n + 1 =>
      rw [seek.eq_def] at h
      exact skip h
    | 0 =>
      cases hf : node.follow? s.text with
      | some next =>
        cases hi : next.hasRootItem with
        | true =>
          rw [seek_complete hf hi] at h
          cases h
          cases hrest : seek next next 0 ss with
          | none =>
            refine ⟨List.singleton_sublist.2 List.mem_cons_self, List.cons_ne_nil _ _, ?_⟩
            rw [Trie.hasRootItem_eq, Trie.get?_of_follow? hf] at hi
            exact hi
          | some f' =>
            obtain ⟨h₁, h₂, h₃⟩ := ih 0 hrest
            rw [Trie.get?_of_follow? hf] at h₃
            exact ⟨h₁.cons_cons s, List.cons_ne_nil _ _, h₃⟩
        | false =>
          rw [seek_follow hf hi] at h
          obtain ⟨f', hf', rfl⟩ := Option.map_eq_some_iff.1 h
          obtain ⟨h₁, h₂, h₃⟩ := ih 0 hf'
          rw [Trie.get?_of_follow? hf] at h₃
          exact ⟨h₁.cons_cons s, List.cons_ne_nil _ _, h₃⟩
      | none =>
        cases hr : root.follow? s.text with
        | none =>
          rw [seek_other hf hr] at h
          exact skip h
        | some next =>
          cases hi : next.hasRootItem with
          | true =>
            rw [seek_within_complete hf hr hi] at h
            exact skip h
          | false =>
            rw [seek_within hf hr hi] at h
            exact skip h

/-! ## Operators of one token -/

/-- The trie holds operators of a single token only. -/
def Flat (t : Trie Text β) : Prop := ∀ path, (t.get? path).isSome → ∃ k, path = [k]

theorem Flat.follow? (hd : root.Distinct) (h : Flat root) {k : Text} (hf : root.follow? k = some next) :
    next.Only [] ∧ (root.get? [k]).isSome := by
  have hone (path : List Text) (hp : (root.get? (k :: path)).isSome) : path = [] := by
    obtain ⟨k', hk'⟩ := h _ hp
    exact (List.cons.inj hk').2
  have hex : ∃ path, (root.get? (k :: path)).isSome := by
    refine Classical.byContradiction fun hno => ?_
    have : root.follow? k = none := by
      rw [Trie.follow?_eq_none_iff hd]
      intro path
      rw [← Option.not_isSome_iff_eq_none]
      exact fun hp => hno ⟨path, hp⟩
    rw [this] at hf
    cases hf
  obtain ⟨path, hp⟩ := hex
  have hk : (root.get? [k]).isSome := by rw [hone path hp] at hp; exact hp
  refine ⟨fun path => ?_, hk⟩
  rw [Trie.get?_of_follow? hf]
  exact ⟨hone path, fun e => by rw [e]; exact hk⟩

/-- Among operators of one token, the first site of one of them is found. -/
theorem seek_flat (hd : root.Distinct) (h : Flat root) (ss : List Site) :
    (seek root root 0 ss).map Found.sites = (ss.find? fun s => (root.get? [s.text]).isSome).map fun s => [s] := by
  induction ss with
  | nil => rw [seek_nil]; rfl
  | cons s ss ih =>
    cases hf : root.follow? s.text with
    | none =>
      have hs : root.get? [s.text] = none := (Trie.follow?_eq_none_iff hd).1 hf []
      rw [seek_other hf hf, List.find?_cons_of_neg (by simp [hs]), ← ih, Option.map_map]
      rfl
    | some next =>
      obtain ⟨hnext, hs⟩ := h.follow? hd hf
      rw [seek_complete hf hnext.hasRootItem_nil, seek_only_nil (hd.follow? hf) hnext,
        List.find?_cons_of_pos (by exact hs)]
      rfl

/-! ## Nested sites -/

mutual

/-- Sites that are those of whole operators of `P`, one behind or within the other. -/
inductive Nested (P : List Text → Prop) : List Site → Prop
  | nil : Nested P []
  | whole {p : List Text} {v own w : List Site} : P p → Spelled P p v own → Nested P w → Nested P (v ++ w)

/-- Sites that spell a path, with nested sites between those of the path, which are `own`. -/
inductive Spelled (P : List Text → Prop) : List Text → List Site → List Site → Prop
  | last (s : Site) : Spelled P [s.text] [s] [s]
  | next {s : Site} {m : List Site} {p : List Text} {v own : List Site} :
      Nested P m → Spelled P p v own → Spelled P (s.text :: p) (s :: (m ++ v)) (s :: own)

end

/-- No token stands twice in an operator of `P` or in two of them. -/
structure Apart (P : List Text → Prop) : Prop where
  nodup : ∀ p, P p → p.Nodup
  eq_of_mem : ∀ p q t, P p → P q → t ∈ p → t ∈ q → p = q

section Nesting

variable {P : List Text → Prop}

theorem Nested.append {u w : List Site} (hu : Nested P u) (hw : Nested P w) : Nested P (u ++ w) := by
  induction hu using Nested.rec (motive_2 := fun _ _ _ _ => True) with
  | nil => exact hw
  | whole hp hv _ _ ih => rw [List.append_assoc]; exact Nested.whole hp hv ih
  | last => trivial
  | next => trivial

theorem Nested.single {p : List Text} {v own : List Site} (hp : P p) (hv : Spelled P p v own) : Nested P v := by
  have := Nested.whole hp hv Nested.nil
  rwa [List.append_nil] at this

theorem Spelled.ne_nil {p : List Text} {v own : List Site} (h : Spelled P p v own) :
    p ≠ [] ∧ v ≠ [] ∧ own ≠ [] := by
  cases h <;> simp

theorem Spelled.texts {p : List Text} {v own : List Site} (h : Spelled P p v own) : own.map Site.text = p := by
  induction h using Spelled.rec (motive_1 := fun _ _ => True) with
  | nil | whole => trivial
  | last => rfl
  | next _ _ _ ih => rw [List.map_cons, ih]

theorem Spelled.sublist {p : List Text} {v own : List Site} (h : Spelled P p v own) : own.Sublist v := by
  induction h using Spelled.rec (motive_1 := fun _ _ => True) with
  | nil | whole => trivial
  | last => exact List.Sublist.refl _
  | next _ _ _ ih => exact (List.sublist_append_of_sublist_right ih).cons_cons _

/-! ### Sites in reverse -/

theorem Spelled.concat {p : List Text} {v own m : List Site} (h : Spelled P p v own) (hm : Nested P m) (s : Site) :
    Spelled P (p ++ [s.text]) (v ++ (m ++ [s])) (own ++ [s]) := by
  induction h using Spelled.rec (motive_1 := fun _ _ => True) with
  | nil | whole => trivial
  | last t =>
    have := Spelled.next (s := t) hm (Spelled.last (P := P) s)
    simpa using this
  | @next t _ _ _ _ hw _ _ ih =>
    have := Spelled.next (s := t) hw ih
    simpa using this

mutual

/-- Nested sites are nested in reverse. -/
theorem Nested.reverse {w : List Site} (h : Nested P w) : Nested (fun p => P p.reverse) w.reverse := by
  match h with
  | .nil => exact Nested.nil
  | .whole (p := p) hp hv hw =>
    rw [List.reverse_append]
    exact (Nested.reverse hw).append (Nested.single (by rwa [List.reverse_reverse]) (Spelled.reverse hv))

/-- Sites that spell a path spell it in reverse. -/
theorem Spelled.reverse {p : List Text} {v own : List Site} (h : Spelled P p v own) :
    Spelled (fun p => P p.reverse) p.reverse v.reverse own.reverse := by
  match h with
  | .last s => exact Spelled.last s
  | .next (s := s) hw hv =>
    have := (Spelled.reverse hv).concat (Nested.reverse hw) s
    simpa using this

end

theorem Apart.reverse (h : Apart P) : Apart fun p => P p.reverse where
  nodup _ hp := List.nodup_reverse.1 (h.nodup _ hp)
  eq_of_mem _ _ t hp hq htp htq :=
    List.reverse_inj.1 (h.eq_of_mem _ _ t hp hq (List.mem_reverse.2 htp) (List.mem_reverse.2 htq))

end Nesting

/-! ## Scans over nested sites -/

section Tries

variable {P : List Text → Prop}

/-- The trie holds operators of `P` only, no two of which share a token. -/
structure HoldsOnly (P : List Text → Prop) (root : Trie Text β) : Prop where
  apart : Apart P
  distinct : root.Distinct
  mem : ∀ p, (root.get? p).isSome → P p

/-- A token is no first token of the trie if it belongs to an operator of which it is not the first token, or which the
trie does not hold. -/
theorem follow?_eq_none (ht : HoldsOnly P root) {pre q : List Text} {k : Text} (hp : P (pre ++ k :: q))
    (hroot : pre ≠ [] ∨ root.get? (pre ++ k :: q) = none) : root.follow? k = none := by
  rw [Trie.follow?_eq_none_iff ht.distinct]
  intro path
  rw [← Option.not_isSome_iff_eq_none]
  intro hs
  have heq := ht.apart.eq_of_mem _ _ k (ht.mem _ hs) hp List.mem_cons_self
    (List.mem_append_right _ List.mem_cons_self)
  rcases hroot with hpre | hnone
  · obtain ⟨t, pre, rfl⟩ := List.exists_cons_of_ne_nil hpre
    have hn := ht.apart.nodup _ hp
    obtain ⟨rfl, -⟩ := List.cons.inj heq
    simp at hn
  · rw [heq, hnone] at hs
    cases hs

/-- What is left of an operator of the trie, behind its first tokens. -/
structure Midway (P : List Text → Prop) (root : Trie Text β) (pre p : List Text) (node : Trie Text β) : Prop where
  distinct : node.Distinct
  only : node.Only p
  started : pre ≠ []
  unfinished : p ≠ []
  held : (root.get? (pre ++ p)).isSome
  mem : P (pre ++ p)

theorem Midway.follow?_eq_none_of_ne {pre p : List Text} (h : Midway P root pre p node) {t : Text}
    (ht : ∀ q, p ≠ t :: q) : node.follow? t = none := by
  obtain ⟨k, q, rfl⟩ := List.exists_cons_of_ne_nil h.unfinished
  exact h.only.follow?_ne h.distinct fun e => ht q (by rw [e])

/-- Behind its first tokens an operator does not go on with the token of another, nor with its own first one. -/
theorem Midway.follow?_eq_none (hP : Apart P) {pre p q : List Text} {t : Text} (h : Midway P root pre p node)
    (hq : P q) (ht : t ∈ q) (hne : q = pre ++ p → t ∈ pre) : node.follow? t = none := by
  refine h.follow?_eq_none_of_ne fun q' e => ?_
  have hmem : t ∈ p := by rw [e]; exact List.mem_cons_self
  have heq := hP.eq_of_mem _ _ t hq h.mem ht (List.mem_append_right _ hmem)
  have hn := hP.nodup _ h.mem
  rw [List.nodup_append] at hn
  exact hn.2.2 t (hne heq) t hmem rfl

/-- Where the trie holds an operator, its first token leads to the rest of it. -/
theorem exists_follow? (ht : HoldsOnly P root) {k : Text} {p : List Text} (hp : (root.get? (k :: p)).isSome) :
    ∃ next, root.follow? k = some next ∧ next.Distinct ∧ next.Only p := by
  obtain ⟨next, hf⟩ := Trie.exists_follow?_of_get? ht.distinct hp
  refine ⟨next, hf, ht.distinct.follow? hf, fun q => ?_⟩
  rw [Trie.get?_of_follow? hf]
  constructor
  · intro hq
    exact (List.cons.inj (ht.apart.eq_of_mem _ _ k (ht.mem _ hq) (ht.mem _ hp) List.mem_cons_self List.mem_cons_self)).2
  · rintro rfl
    exact hp

mutual

/-- Within an operator, nested sites are passed over. -/
theorem seek_nested (ht : HoldsOnly P root) {w : List Site} (h : Nested P w) {pre q : List Text} {node : Trie Text β}
    (hm : Midway P root pre q node) (rest : List Site) :
    seek root node 0 (w ++ rest) = (seek root node 0 rest).map (passOver w.length) := by
  match h with
  | .nil => cases h : seek root node 0 rest <;> simp [h]
  | .whole (p := p) hp hv hw =>
    rw [List.append_assoc, List.length_append, Nat.add_comm, ← map_passOver_passOver, ← seek_nested ht hw hm]
    by_cases hr : (root.get? p).isSome
    · exact seek_held ht hv hr hm _
    · exact seek_not_held ht hv (show P ([] ++ p) from hp) (Option.not_isSome_iff_eq_none.1 hr) hm _

/-- Over nested sites, the rest of an operator is found. -/
theorem seek_rest (ht : HoldsOnly P root) {p : List Text} {v own : List Site} (h : Spelled P p v own) {pre : List Text}
    (hr : (root.get? (pre ++ p)).isSome) {node : Trie Text β} (hn : node.Distinct)
    (ho : node.Only p) (rest : List Site) : seek root node 0 (v ++ rest) = some ⟨own, v.length⟩ := by
  match h with
  | .last s =>
    obtain ⟨next, hf, hnext⟩ := ho.follow? hn
    rw [List.singleton_append, seek_complete hf hnext.hasRootItem_nil, seek_only_nil (hn.follow? hf) hnext]
    rfl
  | .next (s := s) (m := m) (p := p) (v := v) hw hv =>
    obtain ⟨next, hf, hnext⟩ := ho.follow? hn
    have hr' : (root.get? ((pre ++ [s.text]) ++ p)).isSome := by
      rw [List.append_assoc]; exact hr
    have hm : Midway P root (pre ++ [s.text]) p next :=
      ⟨hn.follow? hf, hnext, by simp, hv.ne_nil.1, hr', ht.mem _ hr'⟩
    rw [List.cons_append, List.append_assoc, seek_follow hf (hnext.hasRootItem_of_ne_nil hv.ne_nil.1),
      seek_nested ht hw hm, seek_rest ht hv hr' hm.distinct hnext]
    simp [passOver, after, Nat.add_comm]

/-- Within an operator, another one of the trie is passed over. -/
theorem seek_held (ht : HoldsOnly P root) {p : List Text} {v own : List Site} (h : Spelled P p v own)
    (hr : (root.get? p).isSome) {pre q : List Text} {node : Trie Text β} (hm : Midway P root pre q node)
    (rest : List Site) :
    seek root node 0 (v ++ rest) = (seek root node 0 rest).map (passOver v.length) := by
  match h with
  | .last s =>
    obtain ⟨next, hf, hn, hnext⟩ := exists_follow? ht hr
    have hnode : node.follow? s.text = none :=
      hm.follow?_eq_none ht.apart (ht.mem _ hr) List.mem_cons_self fun e => by
        obtain ⟨t, pre, rfl⟩ := List.exists_cons_of_ne_nil hm.started
        have hlen := congrArg List.length e
        simp at hlen
        exact absurd hlen.2 hm.unfinished
    rw [List.singleton_append, seek_within_complete hnode hf hnext.hasRootItem_nil, seek_only_nil hn hnext]
    rfl
  | .next (s := s) (m := m) (p := p) (v := v) hw hv =>
    obtain ⟨next, hf, hn, hnext⟩ := exists_follow? ht hr
    have hnode : node.follow? s.text = none :=
      hm.follow?_eq_none ht.apart (ht.mem _ hr) List.mem_cons_self fun e => by
        obtain ⟨t, pre, rfl⟩ := List.exists_cons_of_ne_nil hm.started
        rw [List.cons_append, List.cons.injEq] at e
        rw [e.1]
        exact List.mem_cons_self
    have hm' : Midway P root [s.text] p next := ⟨hn, hnext, by simp, hv.ne_nil.1, hr, ht.mem _ hr⟩
    have hpass := seek_pass root node (m ++ v) rest
    rw [List.append_assoc] at hpass
    rw [List.cons_append, List.append_assoc, seek_within hnode hf (hnext.hasRootItem_of_ne_nil hv.ne_nil.1),
      seek_nested ht hw hm', seek_rest ht hv hm'.held hn hnext]
    simp only [Option.map_some, Option.getD_some, passOver]
    rw [Nat.add_comm v.length, ← List.length_append, hpass, map_passOver_passOver]
    rfl

/-- Within an operator, one that the trie does not hold is passed over. -/
theorem seek_not_held (ht : HoldsOnly P root) {pre₀ p : List Text} {v own : List Site} (h : Spelled P p v own)
    (hp : P (pre₀ ++ p)) (hr : root.get? (pre₀ ++ p) = none) {pre q : List Text} {node : Trie Text β}
    (hm : Midway P root pre q node) (rest : List Site) :
    seek root node 0 (v ++ rest) = (seek root node 0 rest).map (passOver v.length) := by
  have hnode (t : Text) (hmem : t ∈ p) : node.follow? t = none :=
    hm.follow?_eq_none ht.apart hp (List.mem_append_right _ hmem) fun e => by
      have := hm.held
      rw [← e, hr] at this
      cases this
  match h with
  | .last s =>
    rw [List.singleton_append, seek_other (hnode s.text List.mem_cons_self)
      (follow?_eq_none ht hp (Or.inr hr))]
    rfl
  | .next (s := s) (m := m) (p := p) (v := v) hw hv =>
    have hassoc : pre₀ ++ s.text :: p = (pre₀ ++ [s.text]) ++ p := by simp
    rw [hassoc] at hp hr
    rw [List.cons_append, List.append_assoc, seek_other (hnode s.text List.mem_cons_self)
      (follow?_eq_none ht (hassoc ▸ hp) (Or.inr (hassoc ▸ hr))), seek_nested ht hw hm,
      seek_not_held ht hv hp hr hm, map_passOver_passOver, map_passOver_passOver]
    rw [List.length_cons, List.length_append, Nat.add_comm v.length, Nat.add_right_comm]

end

/-- An operator of the trie that the sites begin with is found. -/
theorem seek_spelled (ht : HoldsOnly P root) {p : List Text} {v own : List Site} (h : Spelled P p v own)
    (hr : (root.get? p).isSome) (rest : List Site) : seek root root 0 (v ++ rest) = some ⟨own, v.length⟩ := by
  cases h with
  | last s =>
    obtain ⟨next, hf, hn, hnext⟩ := exists_follow? ht hr
    rw [List.singleton_append, seek_complete hf hnext.hasRootItem_nil, seek_only_nil hn hnext]
    rfl
  | @next s m p v own hw hv =>
    obtain ⟨next, hf, hn, hnext⟩ := exists_follow? ht hr
    have hm : Midway P root [s.text] p next := ⟨hn, hnext, by simp, hv.ne_nil.1, hr, ht.mem _ hr⟩
    rw [List.cons_append, List.append_assoc, seek_follow hf (hnext.hasRootItem_of_ne_nil hv.ne_nil.1),
      seek_nested ht hw hm, seek_rest ht hv hm.held hn hnext]
    simp [passOver, after, Nat.add_comm]

/-! ## Operators found further in -/

mutual

/-- Nested sites are passed over, or an operator among them is found, without which they are still nested. -/
theorem seek_nested_or (ht : HoldsOnly P root) {w : List Site} (h : Nested P w) (rest : List Site) :
    seek root root 0 (w ++ rest) = (seek root root 0 rest).map (passOver w.length) ∨
      ∃ u p v own x f, w = u ++ v ++ x ∧ Spelled P p v own ∧ (root.get? p).isSome ∧ Nested P (u ++ x) ∧
        seek root root 0 (w ++ rest) = some f ∧ f.sites = own := by
  match h with
  | .nil => exact Or.inl (by cases h : seek root root 0 rest <;> simp [h])
  | @Nested.whole _ p v own w hp hv hw =>
    by_cases hr : (root.get? p).isSome
    · refine Or.inr ⟨[], p, v, own, w, ⟨own, v.length⟩, rfl, hv, hr, hw, ?_, rfl⟩
      rw [List.append_assoc]
      exact seek_spelled ht hv hr _
    · rcases @seek_spelled_or ht [] p v own hv hp (Option.not_isSome_iff_eq_none.1 hr) (w ++ rest) with
        hpass | ⟨u, p', v', own', x, f, rfl, -, -, hv', hr', hux, hf, hown⟩
      · rcases seek_nested_or ht hw rest with hpass' | ⟨u, p', v', own', x, f, rfl, hv', hr', hux, hf, hown⟩
        · left
          rw [List.append_assoc, hpass, hpass', map_passOver_passOver, List.length_append, Nat.add_comm]
        · refine Or.inr ⟨v ++ u, p', v', own', x, f.passOver v.length, by simp, hv', hr', ?_, ?_, hown⟩
          · rw [List.append_assoc]
            exact Nested.whole hp hv hux
          · rw [List.append_assoc, hpass, hf, Option.map_some]
      · refine Or.inr ⟨u, p', v', own', x ++ w, f, by simp, hv', hr', ?_, ?_, hown⟩
        · rw [← List.append_assoc]
          exact Nested.whole hp hux hw
        · rw [List.append_assoc]
          exact hf

/-- The sites of an operator that the trie does not hold are passed over, or an operator within it is found, without
which they still spell the operator. -/
theorem seek_spelled_or (ht : HoldsOnly P root) {pre p : List Text} {v own : List Site} (h : Spelled P p v own)
    (hp : P (pre ++ p)) (hr : root.get? (pre ++ p) = none) (rest : List Site) :
    seek root root 0 (v ++ rest) = (seek root root 0 rest).map (passOver v.length) ∨
      ∃ u p' v' own' x f, v = u ++ v' ++ x ∧ u ≠ [] ∧ x ≠ [] ∧ Spelled P p' v' own' ∧ (root.get? p').isSome ∧
        Spelled P p (u ++ x) own ∧ seek root root 0 (v ++ rest) = some f ∧ f.sites = own' := by
  match h with
  | .last s =>
    have hroot := follow?_eq_none ht hp (Or.inr hr)
    exact Or.inl (by rw [List.singleton_append, seek_other hroot hroot]; rfl)
  | .next (s := s) (m := m) (p := p) (v := v) hw hv =>
    have hroot := follow?_eq_none ht hp (Or.inr hr)
    have hassoc : pre ++ s.text :: p = (pre ++ [s.text]) ++ p := by simp
    rw [hassoc] at hp hr
    have hstep (ss : List Site) : seek root root 0 (s :: ss) = (seek root root 0 ss).map (passOver 1) :=
      seek_other hroot hroot
    rcases seek_nested_or ht hw (v ++ rest) with hpass | ⟨u, p', v', own', x, f, rfl, hv', hr', hux, hf, hown⟩
    · rcases seek_spelled_or ht hv hp hr rest with
        hpass' | ⟨u, p', v', own', x, f, rfl, hu, hx, hv', hr', hux, hf, hown⟩
      · left
        rw [List.cons_append, List.append_assoc, hstep, hpass, hpass', map_passOver_passOver, map_passOver_passOver]
        rw [List.length_cons, List.length_append, Nat.add_comm v.length, Nat.add_right_comm]
      · refine Or.inr ⟨s :: (m ++ u), p', v', own', x, (f.passOver m.length).passOver 1, by simp,
          List.cons_ne_nil _ _, hx, hv', hr', ?_, ?_, hown⟩
        · rw [List.cons_append, List.append_assoc]
          exact Spelled.next hw hux
        · rw [List.cons_append, List.append_assoc, hstep, hpass, hf, Option.map_some, Option.map_some]
    · refine Or.inr ⟨s :: u, p', v', own', x ++ v, f.passOver 1, by simp, List.cons_ne_nil _ _,
        List.append_ne_nil_of_right_ne_nil _ hv.ne_nil.2.1, hv', hr', ?_, ?_, hown⟩
      · rw [List.cons_append, ← List.append_assoc]
        exact Spelled.next hux hv
      · rw [List.cons_append, List.append_assoc, hstep, hf, Option.map_some]

end

end Tries

end Scan

end Mixfix
