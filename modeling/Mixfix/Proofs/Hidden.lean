import Mixfix.Proofs.Registry
import Mixfix.Proofs.Scans
import Mixfix.Proofs.Sites

/-!
# Operators that a scan overlooks

A forward scan takes the first site that begins an operator of its trie, and it never gives up a site that it has taken.
Other operators that are whole are passed over on the way, so an operator that stands in full in a section is overlooked
if it stands behind the beginning of one that is not completed (`Scan.forward_begun`).

* A scan finds nothing if and only if every operator that stands in the section is hidden behind such a beginning, and
  it finds an operator if the first one that is begun is completed, with nothing but whole operators between its tokens
  (`Scan.forward_eq_none_iff`).
* `Completed` tells such operators apart by the tries alone. A search along their sites ends with their last one
  (`Completed.ends`), and the sites between them are passed over (`Between.passes`), by induction on how the sites are
  made up.
-/

namespace Mixfix

namespace Scan

open Found

variable {β : Type} {root node next t : Trie Text β}

/-! ## Operators that are completed -/

mutual

/-- Sites that spell a path from a node to an item, and between them sites that are passed over. -/
inductive Completed : Trie Text β → Trie Text β → List Text → List Site → Prop
  | last {root node next : Trie Text β} {s : Site} : node.follow? s.text = some next → next.hasRootItem = true →
      Completed root node [s.text] [s]
  /-- An operator that others extend goes on with one of them. -/
  | extend {root node next : Trie Text β} {s : Site} {m v : List Site} {p : List Text} :
      node.follow? s.text = some next → next.hasRootItem = true → Between next next m → Completed next next p v →
        Completed root node (s.text :: p) (s :: (m ++ v))
  | step {root node next : Trie Text β} {s : Site} {m v : List Site} {p : List Text} :
      node.follow? s.text = some next → next.hasRootItem = false → Between root next m → Completed root next p v →
        Completed root node (s.text :: p) (s :: (m ++ v))

/-- Sites that do not go on from a node: those that begin no operator, and those of whole operators which no operator
extends. -/
inductive Between : Trie Text β → Trie Text β → List Site → Prop
  | nil {root node : Trie Text β} : Between root node []
  | other {root node : Trie Text β} {s : Site} {m : List Site} : node.follow? s.text = none →
      root.follow? s.text = none → Between root node m → Between root node (s :: m)
  | whole {root node : Trie Text β} {s : Site} {v m : List Site} {p : List Text} : node.follow? s.text = none →
      Completed root root p (s :: v) → (∀ q, (root.get? (p ++ q)).isSome → q = []) → Between root node m →
        Between root node (s :: v ++ m)

end

theorem Completed.exists_follow? {p : List Text} {s : Site} {v : List Site} (h : Completed root node p (s :: v)) :
    (node.follow? s.text).isSome := by
  cases h with
  | last hf | extend hf | step hf => rw [hf]; rfl

/-- A search along some sites finds what they spell and ends with their last one, whatever stands behind them. -/
def Ends (root node : Trie Text β) (p : List Text) (v : List Site) : Prop :=
  root.Distinct → node.Distinct → (∀ q, (node.get? (p ++ q)).isSome → q = []) →
    ∀ rest, ∃ own, seek root node 0 (v ++ rest) = some ⟨own, v.length⟩

/-- A search passes over some sites, whatever stands behind them. -/
def Passes (root node : Trie Text β) (m : List Site) : Prop :=
  root.Distinct → ∀ rest, seek root node 0 (m ++ rest) = (seek root node 0 rest).map (passOver m.length)

section Steps

variable {s : Site} {m v : List Site} {p : List Text}

theorem Ends.last (hf : node.follow? s.text = some next) (hi : next.hasRootItem = true) :
    Ends root node [s.text] [s] := by
  intro _ hn hp rest
  have honly : next.Only [] := fun q => by
    rw [Trie.get?_of_follow? hf]
    refine ⟨hp q, fun hq => ?_⟩
    rw [hq, ← Trie.get?_of_follow? hf]
    exact hi
  refine ⟨[s], ?_⟩
  rw [List.singleton_append, seek_complete hf hi, seek_only_nil (hn.follow? hf) honly]
  rfl

theorem Ends.extend (hf : node.follow? s.text = some next) (hi : next.hasRootItem = true) (hm : Passes next next m)
    (hv : Ends next next p v) : Ends root node (s.text :: p) (s :: (m ++ v)) := by
  intro _ hn hp rest
  have hd := hn.follow? hf
  obtain ⟨own, hown⟩ := hv hd hd (fun q hq => hp q (by rwa [List.cons_append, ← Trie.get?_of_follow? hf])) rest
  refine ⟨s :: own, ?_⟩
  rw [List.cons_append, seek_complete hf hi, List.append_assoc, hm hd, hown]
  simp [Found.after, passOver, Nat.add_comm]

theorem Ends.step (hf : node.follow? s.text = some next) (hi : next.hasRootItem = false) (hm : Passes root next m)
    (hv : Ends root next p v) : Ends root node (s.text :: p) (s :: (m ++ v)) := by
  intro hr hn hp rest
  obtain ⟨own, hown⟩ := hv hr (hn.follow? hf)
    (fun q hq => hp q (by rwa [List.cons_append, ← Trie.get?_of_follow? hf])) rest
  refine ⟨s :: own, ?_⟩
  rw [List.cons_append, seek_follow hf hi, List.append_assoc, hm hr, hown]
  simp [Found.after, passOver, Nat.add_comm]

theorem Passes.nil : Passes root node [] := fun _ rest => by
  cases hs : seek root node 0 rest <;> simp [hs]

theorem Passes.other (hf : node.follow? s.text = none) (hr : root.follow? s.text = none) (hm : Passes root node m) :
    Passes root node (s :: m) := fun hd rest => by
  rw [List.cons_append, seek_other hf hr, hm hd, map_passOver_passOver]
  rfl

theorem Passes.whole (hf : node.follow? s.text = none) (hr : (root.follow? s.text).isSome)
    (hv : Ends root root p (s :: v)) (hp : ∀ q, (root.get? (p ++ q)).isSome → q = []) (hm : Passes root node m) :
    Passes root node (s :: v ++ m) := fun hd rest => by
  obtain ⟨own, hown⟩ := hv hd hd hp (m ++ rest)
  obtain ⟨u, s', w, hss, hpassed, -⟩ := exists_of_seek hown
  -- what is found is passed over up to its last site, which is the last one of the operator
  have hw : m ++ rest = w := by
    have hss' : (s :: v) ++ (m ++ rest) = (u ++ [s']) ++ w := by rw [hss, List.append_assoc]; rfl
    exact (List.append_inj hss' (by rw [List.length_append]; exact hpassed)).2
  have hanew : seek root node 0 (s :: (v ++ (m ++ rest))) = (seek root node 0 w).map (passOver (u.length + 1)) :=
    seek_anew_some hf hr hown hss hpassed
  rw [List.append_assoc, List.cons_append, hanew, ← hw, hm hd, map_passOver_passOver, ← hpassed, List.length_append,
    Nat.add_comm]

end Steps

/-- A search along the sites of an operator that no other one extends ends with its last site. -/
theorem Completed.ends {p : List Text} {v : List Site} (h : Completed root node p v) : Ends root node p v := by
  induction h using Completed.rec (motive_2 := fun root node m _ => Passes root node m) with
  | last hf hi => exact .last hf hi
  | extend hf hi _ _ hm hv => exact .extend hf hi hm hv
  | step hf hi _ _ hm hv => exact .step hf hi hm hv
  | nil => exact .nil
  | other hf hr _ hm => exact .other hf hr hm
  | whole hf hc hp _ hv hm => exact .whole hf hc.exists_follow? hv hp hm

/-- A search passes over the sites between those of an operator. -/
theorem Between.passes {m : List Site} (h : Between root node m) : Passes root node m := by
  induction h using Between.rec (motive_1 := fun root node p v _ => Ends root node p v) with
  | last hf hi => exact .last hf hi
  | extend hf hi _ _ hm hv => exact .extend hf hi hm hv
  | step hf hi _ _ hm hv => exact .step hf hi hm hv
  | nil => exact .nil
  | other hf hr _ hm => exact .other hf hr hm
  | whole hf hc hp _ hv hm => exact .whole hf hc.exists_follow? hv hp hm

/-- A search finds an operator that is completed, or one that extends it. -/
theorem Completed.isSome_seek {p : List Text} {v : List Site} (h : Completed root node p v) (hd : root.Distinct)
    (rest : List Site) : (seek root node 0 (v ++ rest)).isSome := by
  induction h using Completed.rec (motive_2 := fun _ _ _ _ => True) with
  | last hf hi => rw [List.singleton_append, seek_complete hf hi]; rfl
  | extend hf hi => rw [List.cons_append, seek_complete hf hi]; rfl
  | step hf hi hm _ _ ih =>
    rw [List.cons_append, seek_follow hf hi, List.append_assoc, hm.passes hd, Option.isSome_map, Option.isSome_map]
    exact ih hd
  | nil | other | whole => trivial

/-! ## Operators that stand in a section -/

variable {α : Type} {r : Registry α} {ts : List Token} {ss : List Site}

/-- Sites of a section, in ascending order, that spell an operator of a trie. -/
structure Present (r : Registry α) (ts : List Token) (t : Trie Text β) (own : List Site) : Prop where
  ascending : own.Pairwise fun a b => a.index < b.index
  sites : ∀ s ∈ own, s ∈ Site.ofTokens r ts
  held : (t.get? (own.map Site.text)).isSome

/-- The first site that begins an operator of a trie is that of an operator which is completed. -/
def FirstCompleted (t : Trie Text β) (ss : List Site) : Prop :=
  ∀ u s v, ss = u ++ s :: v → (∀ s' ∈ u, t.follow? s'.text = none) → (t.follow? s.text).isSome →
    ∃ p w x, s :: v = w ++ x ∧ Completed t t p w

theorem Completed.firstCompleted {p : List Text} {w : List Site} (h : Completed t t p w) (x : List Site) :
    FirstCompleted t (w ++ x) := by
  intro u s v huv hu _
  cases w with
  | nil => cases h
  | cons s' w =>
    cases u with
    | nil => exact ⟨p, s' :: w, x, huv.symm, h⟩
    | cons s'' u =>
      have hbegun := h.exists_follow?
      rw [(List.cons.inj huv).1, hu s'' List.mem_cons_self] at hbegun
      cases hbegun

/-- No site begins an operator, or there is a first one that does. -/
theorem exists_first_begun (t : Trie Text β) (ss : List Site) : (∀ s ∈ ss, t.follow? s.text = none) ∨
    ∃ u s v, ss = u ++ s :: v ∧ (∀ s' ∈ u, t.follow? s'.text = none) ∧ (t.follow? s.text).isSome := by
  induction ss with
  | nil => exact .inl (List.forall_mem_nil _)
  | cons s ss ih =>
    cases hf : t.follow? s.text with
    | some next => exact .inr ⟨[], s, ss, rfl, List.forall_mem_nil _, by rw [hf]; rfl⟩
    | none =>
      rcases ih with h | ⟨u, s', v, rfl, hu, hs⟩
      · exact .inl (List.forall_mem_cons.2 ⟨hf, h⟩)
      · exact .inr ⟨s :: u, s', v, rfl, List.forall_mem_cons.2 ⟨hf, hu⟩, hs⟩

/-- A section has an operator only where one is begun. -/
theorem Present.exists_begun {own : List Site} (h : Present r ts t own) (hd : t.Distinct) (hroot : t.get? [] = none) :
    ∃ s rest, own = s :: rest ∧ (t.follow? s.text).isSome := by
  cases own with
  | nil =>
    have := h.held
    rw [List.map_nil, hroot] at this
    cases this
  | cons s rest =>
    obtain ⟨b, hb⟩ := Trie.exists_follow?_of_get? hd h.held
    exact ⟨s, rest, rfl, by rw [hb]; rfl⟩

/-- What a scan finds stands in the section. -/
theorem present_of_seek {f : Found} (h : seek t t 0 (Site.ofTokens r ts) = some f) : Present r ts t f.sites where
  ascending := (Site.pairwise_ofTokens ts).sublist (seek_sound 0 _ h).1
  sites _ hs := (seek_sound 0 _ h).1.subset hs
  held := (seek_sound 0 _ h).2.2

theorem forward_ofTokens_eq_none_iff : forward t (Mark.ofTokens r ts) 0 (fun _ => false) = none ↔
    seek t t 0 (Site.ofTokens r ts) = none := by
  rw [forward_eq, Site.forward_ofTokens, Option.map_eq_none_iff]

/-- A scan from a site on goes through that site and those behind it. -/
theorem forward_index_eq_none_iff {u v : List Site} {s : Site} (h : Site.ofTokens r ts = u ++ s :: v) :
    forward t (Mark.ofTokens r ts) s.index (fun _ => false) = none ↔ seek t t 0 (s :: v) = none := by
  have hsites : Site.ahead (Mark.ofTokens r ts) (fun _ => false) 0 0 = u ++ s :: v := by
    rw [← h, ← Site.forward_ofTokens]
    rfl
  rw [forward_eq, Option.map_eq_none_iff, ← (Site.ahead_append hsites).1]
  rfl

/-- A scan finds what it finds from the first site on that begins an operator. -/
theorem forward_begun {u v : List Site} {s : Site} (h : Site.ofTokens r ts = u ++ s :: v)
    (hu : ∀ s' ∈ u, t.follow? s'.text = none) : forward t (Mark.ofTokens r ts) 0 (fun _ => false) = none ↔
      forward t (Mark.ofTokens r ts) s.index (fun _ => false) = none := by
  rw [forward_ofTokens_eq_none_iff, forward_index_eq_none_iff h, h, seek_others hu, Option.map_eq_none_iff]

/-- A site that begins an operator is the first one that does, or stands behind it. -/
theorem eq_or_lt_of_begun {u v : List Site} {s s' : Site} (h : Site.ofTokens r ts = u ++ s :: v)
    (hu : ∀ s' ∈ u, t.follow? s'.text = none) (hs' : s' ∈ Site.ofTokens r ts) (hb : (t.follow? s'.text).isSome) :
    s' = s ∨ s.index < s'.index := by
  have hasc := Site.pairwise_ofTokens (r := r) ts
  rw [h, List.pairwise_append, List.pairwise_cons] at hasc
  rw [h, List.mem_append, List.mem_cons] at hs'
  rcases hs' with hs' | hs' | hs'
  · rw [hu s' hs'] at hb
    cases hb
  · exact .inl hs'
  · exact .inr (hasc.2.1.1 s' hs')

/-- A scan takes the first site that begins an operator. -/
theorem sites_of_begun {s : Site} {v : List Site} {f : Found} (hb : (t.follow? s.text).isSome)
    (h : seek t t 0 (s :: v) = some f) : ∃ rest, f.sites = s :: rest := by
  obtain ⟨next, hnext⟩ := Option.isSome_iff_exists.1 hb
  cases hi : next.hasRootItem with
  | true =>
    rw [seek_complete hnext hi] at h
    cases h
    exact ⟨_, rfl⟩
  | false =>
    rw [seek_follow hnext hi] at h
    obtain ⟨f', -, rfl⟩ := Option.map_eq_some_iff.1 h
    exact ⟨_, rfl⟩

/-- Every operator that stands in a section without a result is hidden behind one that is begun and not completed. -/
theorem exists_hiding (hd : t.Distinct) (hroot : t.get? [] = none)
    (h : forward t (Mark.ofTokens r ts) 0 (fun _ => false) = none) {own : List Site} (hown : Present r ts t own) :
    ∃ s ∈ Site.ofTokens r ts, (t.follow? s.text).isSome ∧ (∀ s' ∈ own, s.index ≤ s'.index) ∧
      forward t (Mark.ofTokens r ts) s.index (fun _ => false) = none := by
  obtain ⟨s₁, rest, rfl, hb⟩ := hown.exists_begun hd hroot
  have hs₁ := hown.sites s₁ List.mem_cons_self
  rcases exists_first_begun t (Site.ofTokens r ts) with hnone | ⟨u, s, v, hss, hu, hs⟩
  · rw [hnone s₁ hs₁] at hb
    cases hb
  · have hle : s.index ≤ s₁.index := by
      rcases eq_or_lt_of_begun hss hu hs₁ hb with rfl | hlt
      · exact Nat.le_refl _
      · exact Nat.le_of_lt hlt
    refine ⟨s, by rw [hss]; simp, hs, ?_, (forward_begun hss hu).1 h⟩
    exact List.forall_mem_cons.2 ⟨hle, fun s' hs' =>
      Nat.le_trans hle (Nat.le_of_lt (List.rel_of_pairwise_cons hown.ascending hs'))⟩

/-- What a scan finds is not hidden. -/
theorem not_hidden {f : Found} (h : seek t t 0 (Site.ofTokens r ts) = some f) {s : Site}
    (hs : s ∈ Site.ofTokens r ts) (hb : (t.follow? s.text).isSome) (hle : ∀ s' ∈ f.sites, s.index ≤ s'.index) :
    forward t (Mark.ofTokens r ts) s.index (fun _ => false) ≠ none := by
  rcases exists_first_begun t (Site.ofTokens r ts) with hnone | ⟨u, s₀, v, hss, hu, hs₀⟩
  · rw [hnone s hs] at hb
    cases hb
  · rw [hss, seek_others hu] at h
    obtain ⟨f', hf', rfl⟩ := Option.map_eq_some_iff.1 h
    obtain ⟨rest, hrest⟩ := sites_of_begun hs₀ hf'
    have hfirst : s.index ≤ s₀.index := hle s₀ (by rw [sites_passOver, hrest]; exact List.mem_cons_self)
    rcases eq_or_lt_of_begun hss hu hs hb with rfl | hlt
    · rw [Ne, forward_index_eq_none_iff hss, hf']
      exact Option.some_ne_none _
    · omega

/-- A scan overlooks an operator that stands in the section if and only if a site that is not behind its first one
begins an operator which a scan from there does not complete. If the first operator that is begun is completed, the scan
finds nothing only where nothing stands. -/
theorem forward_eq_none_iff (hd : t.Distinct) (hroot : t.get? [] = none) :
    (forward t (Mark.ofTokens r ts) 0 (fun _ => false) = none ↔ ∀ own, Present r ts t own →
      ∃ s ∈ Site.ofTokens r ts, (t.follow? s.text).isSome ∧ (∀ s' ∈ own, s.index ≤ s'.index) ∧
        forward t (Mark.ofTokens r ts) s.index (fun _ => false) = none) ∧
    (FirstCompleted t (Site.ofTokens r ts) →
      (forward t (Mark.ofTokens r ts) 0 (fun _ => false) = none ↔ ∀ own, ¬Present r ts t own)) := by
  have hfound (hno : ∀ f, seek t t 0 (Site.ofTokens r ts) ≠ some f) :
      forward t (Mark.ofTokens r ts) 0 (fun _ => false) = none :=
    forward_ofTokens_eq_none_iff.2 (Option.eq_none_iff_forall_ne_some.2 hno)
  refine ⟨⟨fun h own hown => exists_hiding hd hroot h hown, fun h => hfound fun f hf => ?_⟩, fun hfirst =>
    ⟨fun h own hown => ?_, fun h => hfound fun f hf => h f.sites (present_of_seek hf)⟩⟩
  · obtain ⟨s, hs, hb, hle, hnone⟩ := h f.sites (present_of_seek hf)
    exact not_hidden hf hs hb hle hnone
  · obtain ⟨s₁, rest, rfl, hb⟩ := hown.exists_begun hd hroot
    rcases exists_first_begun t (Site.ofTokens r ts) with hnone | ⟨u, s, v, hss, hu, hs⟩
    · rw [hnone s₁ (hown.sites s₁ List.mem_cons_self)] at hb
      cases hb
    · obtain ⟨p, w, x, hwx, hcompleted⟩ := hfirst u s v hss hu hs
      have hsome := hcompleted.isSome_seek hd x
      rw [forward_begun hss hu, forward_index_eq_none_iff hss, hwx] at h
      rw [h] at hsome
      cases hsome

/-- A registry with two operators of two tokens, of which one is begun by a token that is an operator of its own. -/
def rivalsSample : Registry Unit :=
  Registry.empty.addAll [⟨.infixed .right, [['a'], ['b']], 0.0, ()⟩, ⟨.infixed .right, [['c'], ['d']], 0.0, ()⟩,
    ⟨.infixed .right, [['a']], 1.0, ()⟩]

/-- The two operators of two tokens. -/
def rivalsTrie : Trie Text Unit := (Trie.empty.insert [['a'], ['b']] ()).insert [['c'], ['d']] ()

theorem isSome_rivalsTrie {path : List Text} (h : (rivalsTrie.get? path).isSome) :
    path = [['a'], ['b']] ∨ path = [['c'], ['d']] := by
  rw [rivalsTrie, Trie.insert, Trie.insert, Trie.get?_set, Trie.get?_set, Trie.get?_empty] at h
  by_cases hc : path = [['c'], ['d']]
  · exact .inr hc
  · by_cases ha : path = [['a'], ['b']]
    · exact .inl ha
    · simp [hc, ha] at h

theorem distinct_rivalsTrie : rivalsTrie.Distinct := (Trie.distinct_empty.insert _ ()).insert _ ()

/-- The tokens of `1 a 2 c 3 d 4 b 5`. -/
def nestedTokens : List Token :=
  [.number ['1'] 1.0, .fixed ['a'], .number ['2'] 2.0, .fixed ['c'], .number ['3'] 3.0, .fixed ['d'],
    .number ['4'] 4.0, .fixed ['b'], .number ['5'] 5.0]

/-- The operator that is begun first is completed around the other one. -/
theorem forward_eq_none_iff_sample : rivalsTrie.Distinct ∧ rivalsTrie.get? [] = none ∧
    FirstCompleted rivalsTrie (Site.ofTokens rivalsSample nestedTokens) ∧
    (forward rivalsTrie (Mark.ofTokens rivalsSample nestedTokens) 0 (fun _ => false) = none ↔
      ∀ own, ¬Present rivalsSample nestedTokens rivalsTrie own) ∧
    forward rivalsTrie (Mark.ofTokens rivalsSample nestedTokens) 0 (fun _ => false) = some [1, 7] := by
  have hsites : Site.ofTokens rivalsSample nestedTokens = [⟨1, ['a']⟩, ⟨3, ['c']⟩, ⟨5, ['d']⟩, ⟨7, ['b']⟩] := by
    decide +kernel
  have hinner : Completed rivalsTrie rivalsTrie [['c'], ['d']] [⟨3, ['c']⟩, ⟨5, ['d']⟩] :=
    .step (s := ⟨3, ['c']⟩) (m := []) (by rfl) (by rfl) .nil (.last (s := ⟨5, ['d']⟩) (by rfl) (by rfl))
  have hbetween (node : Trie Text Unit) (hf : node.follow? ['c'] = none) :
      Between rivalsTrie node [⟨3, ['c']⟩, ⟨5, ['d']⟩] :=
    .whole (m := []) hf hinner (fun q hq => by simpa using isSome_rivalsTrie hq) .nil
  have houter : Completed rivalsTrie rivalsTrie [['a'], ['b']] [⟨1, ['a']⟩, ⟨3, ['c']⟩, ⟨5, ['d']⟩, ⟨7, ['b']⟩] :=
    .step (s := ⟨1, ['a']⟩) (by rfl) (by rfl) (hbetween _ (by rfl)) (.last (s := ⟨7, ['b']⟩) (by rfl) (by rfl))
  have hfirst : FirstCompleted rivalsTrie (Site.ofTokens rivalsSample nestedTokens) := by
    rw [hsites]
    exact houter.firstCompleted []
  exact ⟨distinct_rivalsTrie, by decide, hfirst, (forward_eq_none_iff distinct_rivalsTrie (by decide)).2 hfirst,
    by decide +kernel⟩

/-- The tokens of `1 a 2 c 3 d 4`. -/
def overlookedTokens : List Token :=
  [.number ['1'] 1.0, .fixed ['a'], .number ['2'] 2.0, .fixed ['c'], .number ['3'] 3.0, .fixed ['d'],
    .number ['4'] 4.0]

/-- The operator of `c` and `d` stands in full, but the scan has taken `a`, for which there is no `b`. -/
theorem forward_overlooks : rivalsSample.Reachable ∧ Balanced overlookedTokens ∧
    Present rivalsSample overlookedTokens rivalsTrie [⟨3, ['c']⟩, ⟨5, ['d']⟩] ∧
    forward rivalsTrie (Mark.ofTokens rivalsSample overlookedTokens) 0 (fun _ => false) = none := by
  have hr : rivalsSample.Reachable := .addAll .empty (by
    simp only [List.forall_mem_cons]
    refine ⟨⟨by decide, fun h => absurd rfl (h .right)⟩, ⟨by decide, fun h => absurd rfl (h .right)⟩,
      ⟨by decide, fun h => absurd rfl (h .right)⟩, List.forall_mem_nil _⟩)
  exact ⟨hr, .of_plain (by decide), ⟨by decide, by decide +kernel, by decide⟩, by decide +kernel⟩

end Scan

end Mixfix
