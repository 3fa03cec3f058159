import Mixfix.Proofs.Seek
import Mixfix.Proofs.Size

/-!
# Scans along sites

A scan goes from mark to mark, but it only ever takes sites (`Scan.forward_eq`): the sites from its index on are what
`Scan.seek` follows, and where the scan is started anew, so is the search. The induction is on the recursion of the
scan.
-/

namespace Mixfix

namespace Site

variable {marks : List Mark} {skip : Nat → Bool} {depth : Int} {i : Nat} {m : Mark} {text : Text}

/-- Sites stand where marks do. -/
theorem sublist_ofMarks (depth : Int) (ms : List (Nat × Mark)) :
    ((ofMarks depth ms).map Site.index).Sublist (ms.map Prod.fst) := by
  fun_induction ofMarks depth ms with
  | case1 => exact .slnil
  | case2 depth i rest ih => exact ih.cons i
  | case3 depth i rest ih => exact ih.cons i
  | case4 i text rest ih => exact ih.cons_cons i
  | case5 depth i text rest hd ih => exact ih.cons i
  | case6 depth i rest ih => exact ih.cons i

theorem index_mem_of_mem_ofMarks {s : Site} {depth : Int} {ms : List (Nat × Mark)} (h : s ∈ ofMarks depth ms) :
    ∃ m ∈ ms, m.1 = s.index :=
  List.mem_map.1 ((sublist_ofMarks depth ms).subset (List.mem_map_of_mem h))

theorem index_lt_of_mem_indexed {marks : List Mark} {m : Nat × Mark} (h : m ∈ indexed marks) : m.1 < marks.length := by
  rw [indexed] at h
  obtain ⟨⟨mark, i⟩, hm, rfl⟩ := List.mem_map.1 h
  have := List.snd_lt_of_mem_zipIdx hm
  simpa using this

theorem index_lt_of_mem_backward {marks : List Mark} {start : Nat} {skip : Nat → Bool} {s : Site}
    (h : s ∈ backward marks start skip) : s.index < marks.length := by
  obtain ⟨m, hm, hi⟩ := index_mem_of_mem_ofMarks h
  obtain ⟨m', hm', rfl⟩ := List.mem_map.1 hm
  have hlt := index_lt_of_mem_indexed (List.mem_of_mem_take (List.mem_reverse.1 (List.mem_filter.1 hm').1))
  rw [← hi]
  exact hlt

/-! ## Sites from an index on -/

/-- The sites from an index on, when `depth` brackets are open. -/
def ahead (marks : List Mark) (skip : Nat → Bool) (depth : Int) (i : Nat) : List Site :=
  ofMarks depth (((indexed marks).drop i).filter fun m => !skip m.1)

theorem exists_mark (h : i < marks.length) : ∃ m, marks.toArray[i]? = some m := ⟨marks[i], by simp [h]⟩

theorem mark_eq_other (h : i < marks.length) (hopen : marks.toArray[i]? ≠ some .opening)
    (hclose : marks.toArray[i]? ≠ some .closing) (hcandidate : ∀ text, marks.toArray[i]? ≠ some (.candidate text)) :
    marks.toArray[i]? = some .other := by
  obtain ⟨m, hm⟩ := exists_mark h
  cases m with
  | opening => exact absurd hm hopen
  | closing => exact absurd hm hclose
  | candidate text => exact absurd hm (hcandidate text)
  | other => exact hm

theorem drop_indexed (h : marks.toArray[i]? = some m) :
    (indexed marks).drop i = (i, m) :: (indexed marks).drop (i + 1) := by
  rw [List.getElem?_toArray] at h
  obtain ⟨hi, rfl⟩ := List.getElem?_eq_some_iff.1 h
  rw [List.drop_eq_getElem_cons (by simpa [indexed] using hi)]
  simp [indexed]

theorem ahead_end (h : marks.length ≤ i) : ahead marks skip depth i = [] := by
  rw [ahead, List.drop_eq_nil_of_le (by simpa [indexed] using h)]
  rfl

theorem ahead_skip (hs : skip i = true) : ahead marks skip depth i = ahead marks skip depth (i + 1) := by
  by_cases hi : i < marks.length
  · obtain ⟨m, hm⟩ := exists_mark hi
    rw [ahead, drop_indexed hm, List.filter_cons_of_neg (by simpa using hs)]
    rfl
  · rw [ahead_end (by omega), ahead_end (by omega)]

theorem ahead_mark (hs : ¬skip i = true) (hm : marks.toArray[i]? = some m) : ahead marks skip depth i =
    ofMarks depth ((i, m) :: ((indexed marks).drop (i + 1)).filter fun m => !skip m.1) := by
  rw [ahead, drop_indexed hm, List.filter_cons_of_pos (by simpa using hs)]

theorem ahead_opening (hs : ¬skip i = true) (hm : marks.toArray[i]? = some .opening) :
    ahead marks skip depth i = ahead marks skip (depth + 1) (i + 1) := ahead_mark hs hm

theorem ahead_closing (hs : ¬skip i = true) (hm : marks.toArray[i]? = some .closing) :
    ahead marks skip depth i = ahead marks skip (depth - 1) (i + 1) := ahead_mark hs hm

theorem ahead_other (hs : ¬skip i = true) (hm : marks.toArray[i]? = some .other) :
    ahead marks skip depth i = ahead marks skip depth (i + 1) := ahead_mark hs hm

theorem ahead_site (hs : ¬skip i = true) (hm : marks.toArray[i]? = some (.candidate text)) :
    ahead marks skip 0 i = ⟨i, text⟩ :: ahead marks skip 0 (i + 1) := ahead_mark hs hm

theorem ahead_inside (hs : ¬skip i = true) (hm : marks.toArray[i]? = some (.candidate text)) (hd : depth ≠ 0) :
    ahead marks skip depth i = ahead marks skip depth (i + 1) := by
  rw [ahead_mark hs hm, ofMarks, if_neg hd]
  rfl

/-- A site and those behind it are the sites from its index on, and the latter are those from the next index on. -/
theorem ahead_append {u v : List Site} {s : Site} (h : ahead marks skip depth i = u ++ s :: v) :
    ahead marks skip 0 s.index = s :: v ∧ ahead marks skip 0 (s.index + 1) = v := by
  induction hn : marks.length - i generalizing i depth u with
  | zero =>
    rw [ahead_end (by omega)] at h
    simp at h
  | succ n ih =>
    have hstep {depth : Int} {u : List Site} (h : ahead marks skip depth (i + 1) = u ++ s :: v) := ih h (by omega)
    by_cases hs : skip i
    · exact hstep (ahead_skip hs ▸ h)
    · obtain ⟨m, hm⟩ := exists_mark (show i < marks.length by omega)
      cases m with
      | opening => exact hstep (ahead_opening hs hm ▸ h)
      | closing => exact hstep (ahead_closing hs hm ▸ h)
      | other => exact hstep (ahead_other hs hm ▸ h)
      | candidate text =>
        by_cases hd : depth = 0
        · rw [hd, ahead_site hs hm] at h
          cases u with
          | nil =>
            obtain ⟨hsite, hv⟩ := List.cons.inj h
            rw [← hsite, ← hv]
            exact ⟨ahead_site hs hm, rfl⟩
          | cons _ u => exact hstep (List.cons.inj h).2
        · exact hstep (ahead_inside hs hm hd ▸ h)

end Site

namespace Scan

open Found

variable {β : Type}

/-! ## Where a search ends -/

/-- A search ends with the last site that it finds. -/
theorem exists_of_seek {root node : Trie Text β} {n : Nat} {ss : List Site} {f : Found}
    (h : seek root node n ss = some f) :
    ∃ u s v, ss = u ++ s :: v ∧ f.passed = u.length + 1 ∧ f.sites.getLast? = some s := by
  -- what is found behind a site is found behind the sites up to that one
  have behind {ss : List Site} (s : Site) {f : Found}
      (h : ∃ u t v, ss = u ++ t :: v ∧ f.passed = u.length + 1 ∧ f.sites.getLast? = some t) :
      ∃ u t v, s :: ss = u ++ t :: v ∧ f.passed + 1 = u.length + 1 ∧ f.sites.getLast? = some t := by
    obtain ⟨u, t, v, rfl, hp, hl⟩ := h
    exact ⟨s :: u, t, v, rfl, by rw [hp, List.length_cons], hl⟩
  have after {ss : List Site} (s : Site) {f : Found}
      (h : ∃ u t v, ss = u ++ t :: v ∧ f.passed = u.length + 1 ∧ f.sites.getLast? = some t) :
      ∃ u t v, s :: ss = u ++ t :: v ∧ (f.after s).passed = u.length + 1 ∧ (f.after s).sites.getLast? = some t := by
    obtain ⟨u, t, v, hss, hp, hl⟩ := behind s h
    refine ⟨u, t, v, hss, hp, ?_⟩
    rw [Found.after, List.getLast?_cons, hl, Option.getD_some]
  fun_induction seek root node n ss generalizing f with
  | case1 => cases h
  | case2 root node pass s rest ih =>
    obtain ⟨f, hf, rfl⟩ := Option.map_eq_some_iff.1 h
    exact behind s (ih hf)
  | case3 root node s rest next hnext hitem ih =>
    cases h
    cases hrest : seek next next 0 rest with
    | none => exact ⟨[], s, rest, rfl, rfl, rfl⟩
    | some f => exact after s (ih hrest)
  | case4 root node s rest next hnext hitem ih =>
    obtain ⟨f, hf, rfl⟩ := Option.map_eq_some_iff.1 h
    exact after s (ih hf)
  | case5 root node s =>
    rename_i ih
    obtain ⟨f, hf, rfl⟩ := Option.map_eq_some_iff.1 h
    exact behind s (ih hf)

/-! ## Searches that are started anew -/

variable {root node : Trie Text β} {s : Site} {rest : List Site}

/-- A site that the search from the root takes, but without any result, is passed over. -/
theorem seek_anew_none (hn : node.follow? s.text = none) (hr : (root.follow? s.text).isSome)
    (h : seek root root 0 (s :: rest) = none) :
    seek root node 0 (s :: rest) = (seek root node 0 rest).map (passOver 1) := by
  obtain ⟨next, hnext⟩ := Option.isSome_iff_exists.1 hr
  cases hi : next.hasRootItem with
  | true =>
    rw [seek_complete hnext hi] at h
    cases h
  | false =>
    rw [seek_follow hnext hi, Option.map_eq_none_iff] at h
    rw [seek_within hn hnext hi, h]
    rfl

/-- What the search from the root finds is passed over. -/
theorem seek_anew_some (hn : node.follow? s.text = none) (hr : (root.follow? s.text).isSome) {f : Found}
    {u v : List Site} {t : Site} (h : seek root root 0 (s :: rest) = some f) (hss : s :: rest = u ++ t :: v)
    (hp : f.passed = u.length + 1) :
    seek root node 0 (s :: rest) = (seek root node 0 v).map (passOver (u.length + 1)) := by
  obtain ⟨next, hnext⟩ := Option.isSome_iff_exists.1 hr
  -- the sites behind the first one, up to the last that was found, are as many as the search passed over
  have hrest : ∃ w, rest = w ++ v ∧ w.length = u.length := by
    cases u with
    | nil =>
      obtain ⟨-, rfl⟩ := List.cons.inj hss
      exact ⟨[], rfl, rfl⟩
    | cons a u =>
      obtain ⟨-, rfl⟩ := List.cons.inj hss
      exact ⟨u ++ [t], by simp, by simp⟩
  obtain ⟨w, rfl, hw⟩ := hrest
  have hpass : (seek root node w.length (w ++ v)).map (passOver 1) =
      (seek root node 0 v).map (passOver (u.length + 1)) := by
    rw [seek_pass, map_passOver_passOver, hw]
  cases hi : next.hasRootItem with
  | true =>
    rw [seek_complete hnext hi] at h
    cases h
    rw [← hpass, seek_within_complete hn hnext hi]
    have hlast : ((seek next next 0 (w ++ v)).getD ⟨[], 0⟩).passed = w.length :=
      (Nat.add_right_cancel hp).trans hw.symm
    rw [hlast]
  | false =>
    rw [seek_follow hnext hi] at h
    obtain ⟨f, hf, rfl⟩ := Option.map_eq_some_iff.1 h
    rw [← hpass, seek_within hn hnext hi, hf]
    have hlast : f.passed = w.length := (Nat.add_right_cancel hp).trans hw.symm
    rw [← hlast]
    rfl

/-! ## The forward scan -/

theorem indices_cons {low i : Nat} (hi : low ≤ i) (found : Option (Ahead low)) :
    (Ahead.cons i hi found).indices = i :: (found.map Ahead.indices).getD [] := by
  cases found <;> rfl

theorem map_indices_some {low i : Nat} (hi : low ≤ i) (found : Option (Ahead low)) :
    (found.map fun a => Ahead.cons i hi (some a)).map Ahead.indices = (found.map Ahead.indices).map (List.cons i) := by
  cases found <;> rfl

/-- A forward scan finds the sites that a search along the sites from its index on finds. -/
theorem forwardFrom_eq (marks : List Mark) (skip : Nat → Bool) (low : Nat) (root node : Trie Text β) (depth : Int)
    (i : Nat) (hi : low ≤ i) :
    (forwardFrom marks.toArray skip low root node depth i hi).map Ahead.indices =
      (seek root node 0 (Site.ahead marks skip depth i)).map fun f => f.sites.map Site.index := by
  -- the sites that the search passes over do not change what it finds
  have pass (n : Nat) (found : Option Found) : (found.map (passOver n)).map (fun f => f.sites.map Site.index) =
      found.map fun f => f.sites.map Site.index := by
    cases found <;> rfl
  fun_induction forwardFrom marks.toArray skip low root node depth i hi with
  | case1 low root node depth i hi _ _ hs ih => rw [ih, Site.ahead_skip hs]
  | case2 low root node depth i hi _ _ hs hm ih => rw [ih, Site.ahead_opening hs hm]
  | case3 low root node depth i hi _ _ hs hm ih => rw [ih, Site.ahead_closing hs hm]
  | case4 low root node i hi _ _ hs text hm next hn hitem ih =>
    rw [Site.ahead_site hs hm, seek_complete hn hitem, Option.map_some, Option.map_some, indices_cons, ih]
    cases seek next next 0 (Site.ahead marks skip 0 (i + 1)) <;> rfl
  | case5 low root node i hi _ _ hs text hm next hn hitem ih =>
    rw [Site.ahead_site hs hm, seek_follow hn (by simpa using hitem), map_indices_some, ih,
      Option.map_map, Option.map_map]
    rfl
  | case6 low root node i hi _ _ hs text hm hn hr a ha ihanew ih =>
    rw [ha, Option.map_some, eq_comm, Option.map_eq_some_iff] at ihanew
    obtain ⟨f, hf, hindices⟩ := ihanew
    obtain ⟨u, s, v, hss, hpassed, hlast⟩ := exists_of_seek hf
    have hs' : a.last = s.index := by
      have := a.getLast?_indices
      rw [← hindices, List.getLast?_map, hlast] at this
      exact (Option.some.inj this).symm
    rw [ih, hs', (Site.ahead_append hss).2, Site.ahead_site hs hm]
    rw [Site.ahead_site hs hm] at hf hss
    rw [seek_anew_some hn hr hf hss hpassed, pass]
  | case7 low root node i hi _ _ hs text hm hn hr ha ihanew ih =>
    rw [ha, Option.map_none, eq_comm, Option.map_eq_none_iff, Site.ahead_site hs hm] at ihanew
    rw [ih, Site.ahead_site hs hm, seek_anew_none hn hr ihanew, pass]
  | case8 low root node i hi _ _ hs text hm hn hr ih =>
    rw [ih, Site.ahead_site hs hm, seek_other hn (by simpa using hr), pass]
  | case9 low root node depth i hi _ _ hs text hm hd ih => rw [ih, Site.ahead_inside hs hm hd]
  | case10 low root node depth i hi _ hlt hs hopen hclose hcandidate ih =>
    rw [ih, Site.ahead_other hs (Site.mark_eq_other hlt hopen hclose hcandidate)]
  | case11 low root node depth i hi _ hlt =>
    rw [Site.ahead_end (Nat.not_lt.1 hlt), seek_nil]
    rfl

/-- The scan for the operators of a trie finds the sites that a search along all sites from the start on finds. -/
theorem forward_eq (t : Trie Text β) (marks : List Mark) (start : Nat) (skip : Nat → Bool) :
    forward t marks start skip =
      (seek t t 0 (Site.forward marks start skip)).map fun f => f.sites.map Site.index :=
  forwardFrom_eq marks skip start t t 0 start _

/-! ### One step of the scan -/

section Steps

variable {marks : Array Mark} {skip : Nat → Bool} {low i : Nat} {root node next : Trie Text β} {depth : Int}
  {hi : low ≤ i} {text : Text}

theorem forwardFrom_end (h : marks.size ≤ i) : forwardFrom marks skip low root node depth i hi = none := by
  rw [forwardFrom, dif_neg (Nat.not_lt.2 h)]

theorem forwardFrom_skip (h : i < marks.size) (hs : skip i = true) :
    forwardFrom marks skip low root node depth i hi =
      forwardFrom marks skip low root node depth (i + 1) (Nat.le_succ_of_le hi) := by
  rw [forwardFrom, dif_pos h, if_pos hs]

/-- What the scan does with the mark at an index, apart from the proofs that it ends. -/
theorem forwardFrom_step (h : i < marks.size) (hs : ¬skip i = true) :
    forwardFrom marks skip low root node depth i hi =
      match marks[i]? with
      | some .opening => forwardFrom marks skip low root node (depth + 1) (i + 1) (Nat.le_succ_of_le hi)
      | some .closing => forwardFrom marks skip low root node (depth - 1) (i + 1) (Nat.le_succ_of_le hi)
      | some (.candidate text) =>
        if depth = 0 then
          match node.follow? text with
          | some next =>
            if next.hasRootItem then
              some (.cons i hi (forwardFrom marks skip low next next 0 (i + 1) (Nat.le_succ_of_le hi)))
            else (forwardFrom marks skip low root next depth (i + 1) (Nat.le_succ_of_le hi)).map fun rest =>
              .cons i hi (some rest)
          | none =>
            if (root.follow? text).isSome then
              match forwardFrom marks skip i root root 0 i (Nat.le_refl i) with
              | some nested => forwardFrom marks skip low root node depth (nested.last + 1)
                  (Nat.le_succ_of_le (Nat.le_trans hi nested.low_le_last))
              | none => forwardFrom marks skip low root node depth (i + 1) (Nat.le_succ_of_le hi)
            else forwardFrom marks skip low root node depth (i + 1) (Nat.le_succ_of_le hi)
        else forwardFrom marks skip low root node depth (i + 1) (Nat.le_succ_of_le hi)
      | _ => forwardFrom marks skip low root node depth (i + 1) (Nat.le_succ_of_le hi) := by
  rw [forwardFrom, dif_pos h, if_neg hs]
  generalize marks[i]? = m
  cases m with
  | none => rfl
  | some m =>
    cases m with
    | opening => rfl
    | closing => rfl
    | candidate text =>
      dsimp only
      generalize node.follow? text = n
      cases n <;> rfl
    | other => rfl

theorem forwardFrom_opening (h : i < marks.size) (hs : ¬skip i = true) (hm : marks[i]? = some .opening) :
    forwardFrom marks skip low root node depth i hi =
      forwardFrom marks skip low root node (depth + 1) (i + 1) (Nat.le_succ_of_le hi) := by
  rw [forwardFrom_step h hs, hm]

theorem forwardFrom_closing (h : i < marks.size) (hs : ¬skip i = true) (hm : marks[i]? = some .closing) :
    forwardFrom marks skip low root node depth i hi =
      forwardFrom marks skip low root node (depth - 1) (i + 1) (Nat.le_succ_of_le hi) := by
  rw [forwardFrom_step h hs, hm]

theorem forwardFrom_other (h : i < marks.size) (hs : ¬skip i = true) (hm : marks[i]? = some .other) :
    forwardFrom marks skip low root node depth i hi =
      forwardFrom marks skip low root node depth (i + 1) (Nat.le_succ_of_le hi) := by
  rw [forwardFrom_step h hs, hm]

theorem forwardFrom_inside (h : i < marks.size) (hs : ¬skip i = true) (hm : marks[i]? = some (.candidate text))
    (hd : ¬depth = 0) : forwardFrom marks skip low root node depth i hi =
      forwardFrom marks skip low root node depth (i + 1) (Nat.le_succ_of_le hi) := by
  rw [forwardFrom_step h hs, hm]
  exact if_neg hd

theorem forwardFrom_complete (h : i < marks.size) (hs : ¬skip i = true) (hm : marks[i]? = some (.candidate text))
    (hn : node.follow? text = some next) (hitem : next.hasRootItem = true) :
    forwardFrom marks skip low root node 0 i hi =
      some (.cons i hi (forwardFrom marks skip low next next 0 (i + 1) (Nat.le_succ_of_le hi))) := by
  rw [forwardFrom_step h hs, hm]
  simp only [hn, hitem, if_true]

theorem forwardFrom_follow (h : i < marks.size) (hs : ¬skip i = true) (hm : marks[i]? = some (.candidate text))
    (hn : node.follow? text = some next) (hitem : ¬next.hasRootItem = true) :
    forwardFrom marks skip low root node 0 i hi =
      (forwardFrom marks skip low root next 0 (i + 1) (Nat.le_succ_of_le hi)).map fun a => .cons i hi (some a) := by
  rw [forwardFrom_step h hs, hm]
  simp only [hn, hitem, Bool.false_eq_true, if_true, if_false]

theorem forwardFrom_anew (h : i < marks.size) (hs : ¬skip i = true) (hm : marks[i]? = some (.candidate text))
    (hn : node.follow? text = none) (hr : (root.follow? text).isSome) :
    forwardFrom marks skip low root node 0 i hi =
      match forwardFrom marks skip i root root 0 i (Nat.le_refl i) with
      | some nested => forwardFrom marks skip low root node 0 (nested.last + 1)
          (Nat.le_succ_of_le (Nat.le_trans hi nested.low_le_last))
      | none => forwardFrom marks skip low root node 0 (i + 1) (Nat.le_succ_of_le hi) := by
  rw [forwardFrom_step h hs, hm]
  simp only [hn, hr, if_true]

theorem forwardFrom_barren (h : i < marks.size) (hs : ¬skip i = true) (hm : marks[i]? = some (.candidate text))
    (hn : node.follow? text = none) (hr : ¬(root.follow? text).isSome) :
    forwardFrom marks skip low root node 0 i hi =
      forwardFrom marks skip low root node 0 (i + 1) (Nat.le_succ_of_le hi) := by
  rw [forwardFrom_step h hs, hm]
  simp only [hn, hr, Bool.false_eq_true, if_true, if_false]

end Steps

/-! ## The backward scan -/

/-- Indices of a section of `n` tokens, as they are when the section is read backwards. -/
def mirror (n : Nat) (is : List Nat) : List Nat := (is.map fun i => n - 1 - i).reverse

theorem mirror_concat (n : Nat) (is : List Nat) (i : Nat) : mirror n (is ++ [i]) = (n - 1 - i) :: mirror n is := by
  simp [mirror]

theorem indices_concat {high i : Nat} (hi : i < high) (found : Option (Behind high)) :
    (Behind.concat i hi found).indices = ((found.map Behind.indices).getD []) ++ [i] := by
  cases found <;> rfl

theorem mirror_mirror {n : Nat} {is : List Nat} (h : ∀ i ∈ is, i < n) : mirror n (mirror n is) = is := by
  rw [mirror, mirror, ← List.map_reverse, List.reverse_reverse, List.map_map]
  refine (List.map_congr_left fun i hi => ?_).trans (List.map_id is)
  have := h i hi
  simp only [Function.comp_apply, id]
  omega

end Scan

/-- Marks as they are when the section is read backwards. -/
def Mark.mirror (marks : List Mark) : List Mark := (marks.map Mark.reversed).reverse

theorem Mark.getElem?_mirror {marks : List Mark} {i j : Nat} (h : j + (i + 1) = marks.length) :
    (mirror marks).toArray[j]? = (marks.toArray[i]?).map reversed := by
  rw [List.getElem?_toArray, List.getElem?_toArray, mirror, List.getElem?_reverse (by simp; omega), List.getElem?_map]
  congr 2
  simp
  omega

namespace Scan

/-- A backward scan is a forward scan of the section read backwards. -/
theorem forwardFrom_mirror {marks : List Mark} {skip skip' : Nat → Bool}
    (hskip : ∀ i j, j + (i + 1) = marks.length → skip' j = skip i) (high : Nat) (root node : Trie Text β) (depth : Int)
    (count : Nat) (hcount : count ≤ high) (low j : Nat) (hj : low ≤ j) (h : j + count = marks.length) :
    (forwardFrom (Mark.mirror marks).toArray skip' low root node depth j hj).map Ahead.indices =
      (backwardFrom marks.toArray skip high root node depth count hcount).map fun b =>
        mirror marks.length b.indices := by
  -- what the forward scan sees at the index that mirrors `i`
  have size {i j : Nat} (h : j + (i + 1) = marks.length) : j < (Mark.mirror marks).toArray.size := by
    simp [Mark.mirror]
    omega
  have mark {i j : Nat} {m : Mark} (h : j + (i + 1) = marks.length) (hm : marks.toArray[i]? = some m) :
      (Mark.mirror marks).toArray[j]? = some m.reversed := by
    rw [Mark.getElem?_mirror h, hm, Option.map_some]
  fun_induction backwardFrom marks.toArray skip high root node depth count hcount generalizing low j with
  | case1 high root node depth hcount =>
    rw [forwardFrom_end (by simp [Mark.mirror]; omega)]
    rfl
  | case2 high root node depth i _ _ hs _ ih =>
    rw [forwardFrom_skip (size h) ((hskip i j h).trans hs), ih _ _ _ (by omega)]
  | case3 high root node depth i _ _ hs hm _ ih =>
    rw [forwardFrom_opening (size h) (by rwa [hskip i j h]) (mark h hm), ih _ _ _ (by omega)]
  | case4 high root node depth i _ _ hs hm _ ih =>
    rw [forwardFrom_closing (size h) (by rwa [hskip i j h]) (mark h hm), ih _ _ _ (by omega)]
  | case5 high root node i hi _ hs text hm next hn hitem _ ih =>
    have hindex : marks.length - 1 - i = j := by omega
    rw [forwardFrom_complete (size h) (by rwa [hskip i j h]) (mark h hm) hn hitem, Option.map_some, Option.map_some,
      indices_cons, ih _ _ _ (by omega), indices_concat, mirror_concat, hindex]
    cases backwardFrom marks.toArray skip high next next 0 i (Nat.le_of_succ_le hi) <;> rfl
  | case6 high root node i hi _ hs text hm next hn hitem _ ih =>
    have hindex : marks.length - 1 - i = j := by omega
    rw [forwardFrom_follow (size h) (by rwa [hskip i j h]) (mark h hm) hn hitem, map_indices_some, ih _ _ _ (by omega)]
    cases backwardFrom marks.toArray skip high root next 0 i (Nat.le_of_succ_le hi) with
    | none => rfl
    | some b => rw [Option.map_some, Option.map_some, Option.map_some, Option.map_some, indices_concat,
        Option.map_some, Option.getD_some, mirror_concat, hindex]
  | case7 high root node i hi _ hs text hm hn hr b hb _ ihanew ih =>
    have hfound := ihanew j j (Nat.le_refl j) h
    rw [hb, Option.map_some, Option.map_eq_some_iff] at hfound
    obtain ⟨a, ha, hindices⟩ := hfound
    -- the last index that the one scan finds is the first that the other one finds
    have hlast : a.last = marks.length - 1 - b.first := by
      have := a.getLast?_indices
      rw [hindices, mirror, List.getLast?_reverse, List.head?_map, b.head?_indices] at this
      exact (Option.some.inj this).symm
    have hfirst := b.first_lt_high
    rw [forwardFrom_anew (size h) (by rwa [hskip i j h]) (mark h hm) hn hr, ha]
    exact ih _ _ _ (by omega)
  | case8 high root node i hi _ hs text hm hn hr hb _ ihanew ih =>
    have hfound := ihanew j j (Nat.le_refl j) h
    rw [hb, Option.map_none, Option.map_eq_none_iff] at hfound
    rw [forwardFrom_anew (size h) (by rwa [hskip i j h]) (mark h hm) hn hr, hfound]
    exact ih _ _ _ (by omega)
  | case9 high root node i hi _ hs text hm hn hr _ ih =>
    rw [forwardFrom_barren (size h) (by rwa [hskip i j h]) (mark h hm) hn hr, ih _ _ _ (by omega)]
  | case10 high root node depth i hi _ hs text hm hd _ ih =>
    rw [forwardFrom_inside (size h) (by rwa [hskip i j h]) (mark h hm) hd, ih _ _ _ (by omega)]
  | case11 high root node depth i hi _ hs hclose hopen hcandidate _ ih =>
    have hm := Site.mark_eq_other (show i < marks.length by omega) hopen hclose hcandidate
    rw [forwardFrom_other (size h) (by rwa [hskip i j h]) (mark h hm), ih _ _ _ (by omega)]

/-- A backward scan from an index on is a forward scan of the section read backwards. -/
theorem backward_eq_mirror {marks : List Mark} {start : Nat} (h : start < marks.length) (t : Trie Text β)
    {skip skip' : Nat → Bool} (hskip : ∀ i j, j + (i + 1) = marks.length → skip' j = skip i) :
    backward t marks start skip =
      (forward t (Mark.mirror marks) (marks.length - 1 - start) skip').map (mirror marks.length) := by
  rw [forward, forwardFrom_mirror hskip (start + 1) t t 0 (start + 1) (Nat.le_refl _) _ _ (Nat.le_refl _)
    (by omega), backward, Option.map_map]
  refine Option.map_congr fun b _ => (mirror_mirror fun i hi => ?_).symm
  have := b.lt_high i hi
  omega

end Scan

/-! ### Sites of a section read backwards -/

namespace Site

/-- A site of a section of `n` tokens, as it is when the section is read backwards. -/
def mirrored (n : Nat) (s : Site) : Site := ⟨n - 1 - s.index, s.text⟩

theorem indexed_mirror (marks : List Mark) : indexed (Mark.mirror marks) =
    (indexed marks).reverse.map fun m => (marks.length - 1 - m.1, m.2.reversed) := by
  refine List.ext_getElem (by simp [indexed, Mark.mirror]) fun i h h' => ?_
  simp only [indexed, Mark.mirror, List.length_map, List.length_zipIdx, List.length_reverse] at h
  simp [indexed, Mark.mirror]
  omega

theorem ofMarks_mirrored (n : Nat) (depth : Int) (ms : List (Nat × Mark)) :
    ofMarks depth (ms.map fun m => (n - 1 - m.1, m.2)) = (ofMarks depth ms).map (mirrored n) := by
  fun_induction ofMarks depth ms with
  | case1 => rfl
  | case2 depth i rest ih => exact ih
  | case3 depth i rest ih => exact ih
  | case4 i text rest ih => rw [List.map_cons, ofMarks, if_pos rfl, ih]; rfl
  | case5 depth i text rest hd ih => rw [List.map_cons, ofMarks, if_neg hd, ih]
  | case6 depth i rest ih => exact ih

theorem forward_mirror {marks : List Mark} {start : Nat} (h : start < marks.length) (skip : Nat → Bool) :
    forward (Mark.mirror marks) (marks.length - 1 - start) (fun i => skip (marks.length - 1 - i)) =
      (backward marks start skip).map (mirrored marks.length) := by
  have hdrop :
      (indexed marks).reverse.drop (marks.length - 1 - start) = ((indexed marks).take (start + 1)).reverse := by
    rw [List.reverse_take]
    congr 1
    simp [indexed]
    omega
  rw [forward, backward, ← ofMarks_mirrored, indexed_mirror, ← List.map_drop, hdrop, List.filter_map, List.map_map]
  have hskip : ∀ m ∈ ((indexed marks).take (start + 1)).reverse,
      (!skip (marks.length - 1 - (marks.length - 1 - m.1))) = !skip m.1 := fun m hm => by
    have := index_lt_of_mem_indexed (List.mem_of_mem_take (List.mem_reverse.1 hm))
    congr 2
    omega
  exact congrArg (ofMarks 0)
    (congrArg (List.map fun m => (marks.length - 1 - m.1, m.2.reversed)) (List.filter_congr hskip))

end Site

/-- What is found, as it is when the section is read backwards. -/
def Found.mirrored (n : Nat) (f : Found) : Found := ⟨f.sites.map (Site.mirrored n), f.passed⟩

namespace Scan

/-- What a search finds does not depend on where the sites are. -/
theorem seek_mirrored (root node : Trie Text β) (n pass : Nat) (ss : List Site) :
    seek root node pass (ss.map (Site.mirrored n)) = (seek root node pass ss).map (Found.mirrored n) := by
  induction ss generalizing root node pass with
  | nil => simp only [List.map_nil, seek_nil, Option.map_none]
  | cons s ss ih =>
    rw [List.map_cons]
    cases pass with
    | succ pass =>
      rw [seek, seek, ih, Option.map_map, Option.map_map]
      rfl
    | zero =>
      cases hn : node.follow? s.text with
      | some next =>
        cases hi : next.hasRootItem with
        | true =>
          rw [seek_complete hn hi, seek_complete (s := s.mirrored n) hn hi, ih]
          cases seek next next 0 ss <;> rfl
        | false =>
          rw [seek_follow hn hi, seek_follow (s := s.mirrored n) hn hi, ih, Option.map_map, Option.map_map]
          rfl
      | none =>
        cases hr : root.follow? s.text with
        | none =>
          rw [seek_other hn hr, seek_other (s := s.mirrored n) hn hr, ih, Option.map_map, Option.map_map]
          rfl
        | some next =>
          cases hi : next.hasRootItem with
          | true =>
            have hpassed (found : Option Found) : ((found.map (Found.mirrored n)).getD ⟨[], 0⟩).passed =
                (found.getD ⟨[], 0⟩).passed := by
              cases found <;> rfl
            rw [seek_within_complete hn hr hi, seek_within_complete (s := s.mirrored n) hn hr hi, ih, ih, hpassed,
              Option.map_map, Option.map_map]
            rfl
          | false =>
            rw [seek_within hn hr hi, seek_within (s := s.mirrored n) hn hr hi, ih, ih, Option.map_map, Option.map_map,
              Option.map_map]
            rfl

/-- The scan against reversed operators finds the sites that a search along all sites up to the start finds. -/
theorem backward_eq {marks : List Mark} {start : Nat} (h : start < marks.length) (t : Trie Text β) (skip : Nat → Bool) :
    backward t marks start skip =
      (seek t t 0 (Site.backward marks start skip)).map fun f => (f.sites.map Site.index).reverse := by
  have hskip (i j : Nat) (hj : j + (i + 1) = marks.length) : skip (marks.length - 1 - j) = skip i := by
    congr 1
    omega
  rw [backward_eq_mirror h t hskip, forward_eq, Site.forward_mirror h, seek_mirrored, Option.map_map, Option.map_map]
  refine Option.map_congr fun f hf => ?_
  have hindex : ∀ s ∈ f.sites, marks.length - 1 - (s.mirrored marks.length).index = s.index := fun s hs => by
    have := Site.index_lt_of_mem_backward ((seek_sound 0 _ hf).1.subset hs)
    simp only [Site.mirrored]
    omega
  simp only [Function.comp_apply, mirror, Found.mirrored, List.map_map]
  exact congrArg List.reverse (List.map_congr_left hindex)

/-- The scan that starts with the last mark, if there is any. -/
theorem backward_last (t : Trie Text β) (marks : List Mark) (skip : Nat → Bool) :
    backward t marks (marks.length - 1) skip =
      (seek t t 0 (Site.backward marks (marks.length - 1) skip)).map fun f => (f.sites.map Site.index).reverse := by
  cases marks with
  | nil =>
    have hnone : backward t [] 0 skip = none := by
      have hzero : backwardFrom [].toArray skip (0 + 1) t t 0 0 (Nat.zero_le 1) = none := by rw [backwardFrom]
      rw [backward, backwardFrom]
      generalize hm : ([] : List Mark).toArray[0]? = m
      obtain rfl : m = none := hm.symm
      dsimp only
      split <;> rw [hzero] <;> rfl
    exact hnone.trans (by rw [Site.backward]; simp [Site.indexed, Site.ofMarks, seek_nil])
  | cons m marks => exact backward_eq (by simp) t skip

end Scan

end Mixfix
