import Mixfix.Proofs.Scans

/-!
# Scans end

A scan looks for a nested operator by starting anew at the index that it is at, so the index alone does not tell that it
ever ends. Here the scans run on a budget (`Scan.runForward`, `Scan.runBackward`): they keep nothing but what the loop
keeps, and every step to another index and every scan that is started anew takes one from the budget. A run ends with
the answer of the scan once the budget is above twice the number of indices that are left, and one more if the operator
in hand does not go on with the mark at the index (`Scan.runForward_eq`, `Scan.runBackward_eq`): it is that one which a
scan that is started anew at the same index does not need.
-/

namespace Mixfix

namespace Scan

variable {β : Type}

/-! ## Forward runs -/

/-- A forward scan with a budget, at the index `i`, when `depth` brackets are open and `points` have been taken: `node`
is what is left of the operators that begin with these, and `root` holds all operators. There is no answer if the budget
is used up. -/
def runForward (marks : Array Mark) (skip : Nat → Bool) : (budget : Nat) → (root node : Trie Text β) → (depth : Int) →
    (points : List Nat) → (i : Nat) → Option (Option (List Nat))
  | 0, _, _, _, _, _ => none
  | budget + 1, root, node, depth, points, i =>
    if i < marks.size then
      if skip i then runForward marks skip budget root node depth points (i + 1)
      else
        match marks[i]? with
        | some .opening => runForward marks skip budget root node (depth + 1) points (i + 1)
        | some .closing => runForward marks skip budget root node (depth - 1) points (i + 1)
        | some (.candidate text) =>
          if depth = 0 then
            match node.follow? text with
            | some next =>
              if next.hasRootItem then
                (runForward marks skip budget next next 0 [] (i + 1)).map fun rest => some (points ++ i :: rest.getD [])
              else runForward marks skip budget root next depth (points ++ [i]) (i + 1)
            | none =>
              if (root.follow? text).isSome then
                (runForward marks skip budget root root 0 [] i).bind fun nested =>
                  runForward marks skip budget root node depth points ((nested.bind List.getLast?).getD i + 1)
              else runForward marks skip budget root node depth points (i + 1)
          else runForward marks skip budget root node depth points (i + 1)
        | _ => runForward marks skip budget root node depth points (i + 1)
    else some none

/-- A forward run ends with what the scan finds. -/
theorem runForward_eq {marks : Array Mark} {skip : Nat → Bool} {low : Nat} {root node : Trie Text β} {depth : Int}
    {i : Nat} (hi : low ≤ i) {budget : Nat} (points : List Nat)
    (h : 2 * (marks.size - i) + stall node marks[i]? < budget) :
    runForward marks skip budget root node depth points i =
      some ((forwardFrom marks skip low root node depth i hi).map fun a => points ++ a.indices) := by
  -- at the next index, twice the number of indices left is two less, which pays for the step and for a stall
  have hnext (node' : Trie Text β) {i budget : Nat} {n : Nat} (hlt : i < marks.size)
      (h : 2 * (marks.size - i) + n < budget + 1) :
      2 * (marks.size - (i + 1)) + stall node' marks[i + 1]? < budget := by
    have := stall_le node' marks[i + 1]?
    omega
  fun_induction forwardFrom marks skip low root node depth i hi generalizing budget points with
    -- no case is one of a budget that is used up
    obtain ⟨budget, rfl⟩ := Nat.exists_eq_add_one.2 (Nat.zero_lt_of_lt h)
  | case1 low root node depth i hi _ hlt hs ih =>
    rw [runForward, if_pos hlt, if_pos hs, ih points (hnext node hlt h)]
  | case2 low root node depth i hi _ hlt hs hm ih =>
    rw [runForward, if_pos hlt, if_neg hs, hm, ih points (hnext node hlt h)]
  | case3 low root node depth i hi _ hlt hs hm ih =>
    rw [runForward, if_pos hlt, if_neg hs, hm, ih points (hnext node hlt h)]
  | case4 low root node i hi _ hlt hs text hm next hn hitem ih =>
    rw [runForward, if_pos hlt, if_neg hs, hm]
    simp only [hn, hitem, if_true, ih [] (hnext next hlt h), Option.map_some, List.nil_append, indices_cons]
  | case5 low root node i hi _ hlt hs text hm next hn hitem ih =>
    rw [runForward, if_pos hlt, if_neg hs, hm]
    simp only [hn, hitem, Bool.false_eq_true, if_true, if_false, ih (points ++ [i]) (hnext next hlt h)]
    cases forwardFrom marks skip low root next 0 (i + 1) (Nat.le_succ_of_le hi) with
    | none => rfl
    | some a => simp [indices_cons]
  | case6 low root node i hi _ hlt hs text hm hn hr a ha ihanew ih =>
    have hanew := stall_lt hm hn hr
    have hlast := a.low_le_last
    have hstall := stall_le node marks[a.last + 1]?
    have hnested := @ihanew budget [] (by omega)
    rw [runForward, if_pos hlt, if_neg hs, hm]
    simp only [hn, hr, if_true, hnested, ha, Option.bind_some, Option.map_some, List.nil_append, a.getLast?_indices,
      Option.getD_some]
    exact ih points (by omega)
  | case7 low root node i hi _ hlt hs text hm hn hr ha ihanew ih =>
    have hanew := stall_lt hm hn hr
    have hnested := @ihanew budget [] (by omega)
    rw [runForward, if_pos hlt, if_neg hs, hm]
    simp only [hn, hr, if_true, hnested, ha, Option.bind_some, Option.map_none, Option.bind_none, Option.getD_none]
    exact ih points (hnext node hlt h)
  | case8 low root node i hi _ hlt hs text hm hn hr ih =>
    rw [runForward, if_pos hlt, if_neg hs, hm]
    simp only [hn, hr, Bool.false_eq_true, if_true, if_false, ih points (hnext node hlt h)]
  | case9 low root node depth i hi _ hlt hs text hm hd ih =>
    rw [runForward, if_pos hlt, if_neg hs, hm]
    simp only [hd, if_false, ih points (hnext node hlt h)]
  | case10 low root node depth i hi _ hlt hs hopen hclose hcandidate ih =>
    have hm := @Site.mark_eq_other marks.toList i hlt hopen hclose hcandidate
    rw [runForward, if_pos hlt, if_neg hs, hm]
    exact ih points (hnext node hlt h)
  | case11 low root node depth i hi _ hlt =>
    rw [runForward, if_neg hlt, Option.map_none]

/-! ## Backward runs -/

/-- A backward scan with a budget, at the last of the first `count` indices, when `depth` brackets are open and `points`
have been taken. -/
def runBackward (marks : Array Mark) (skip : Nat → Bool) : (budget : Nat) → (root node : Trie Text β) → (depth : Int) →
    (points : List Nat) → (count : Nat) → Option (Option (List Nat))
  | 0, _, _, _, _, _ => none
  | _ + 1, _, _, _, _, 0 => some none
  | budget + 1, root, node, depth, points, i + 1 =>
    if skip i then runBackward marks skip budget root node depth points i
    else
      match marks[i]? with
      | some .closing => runBackward marks skip budget root node (depth + 1) points i
      | some .opening => runBackward marks skip budget root node (depth - 1) points i
      | some (.candidate text) =>
        if depth = 0 then
          match node.follow? text with
          | some next =>
            if next.hasRootItem then
              (runBackward marks skip budget next next 0 [] i).map fun rest => some (rest.getD [] ++ i :: points)
            else runBackward marks skip budget root next depth (i :: points) i
          | none =>
            if (root.follow? text).isSome then
              (runBackward marks skip budget root root 0 [] (i + 1)).bind fun nested =>
                runBackward marks skip budget root node depth points ((nested.bind List.head?).getD i)
            else runBackward marks skip budget root node depth points i
        else runBackward marks skip budget root node depth points i
      | _ => runBackward marks skip budget root node depth points i

/-- A backward run ends with what the scan finds. -/
theorem runBackward_eq {marks : Array Mark} {skip : Nat → Bool} {high : Nat} {root node : Trie Text β} {depth : Int}
    {count : Nat} (hcount : count ≤ high) {budget : Nat} (points : List Nat)
    (h : 2 * count + stall node marks[count - 1]? < budget) :
    runBackward marks skip budget root node depth points count =
      some ((backwardFrom marks skip high root node depth count hcount).map fun b => b.indices ++ points) := by
  have hnext (node' : Trie Text β) {i budget : Nat} {n : Nat} (h : 2 * (i + 1) + n < budget + 1) :
      2 * i + stall node' marks[i - 1]? < budget := by
    have := stall_le node' marks[i - 1]?
    omega
  fun_induction backwardFrom marks skip high root node depth count hcount generalizing budget points with
    -- no case is one of a budget that is used up
    obtain ⟨budget, rfl⟩ := Nat.exists_eq_add_one.2 (Nat.zero_lt_of_lt h)
  | case1 high root node depth hcount =>
    rw [runBackward, Option.map_none]
  | case2 high root node depth i _ _ hs _ ih =>
    rw [runBackward, if_pos hs, ih points (hnext node h)]
  | case3 high root node depth i _ _ hs hm _ ih =>
    rw [runBackward, if_neg hs, hm, ih points (hnext node h)]
  | case4 high root node depth i _ _ hs hm _ ih =>
    rw [runBackward, if_neg hs, hm, ih points (hnext node h)]
  | case5 high root node i hi _ hs text hm next hn hitem _ ih =>
    rw [runBackward, if_neg hs, hm]
    simp only [hn, hitem, if_true, ih [] (hnext next h), Option.map_some, List.append_nil, indices_concat,
      List.append_assoc, List.singleton_append]
  | case6 high root node i hi _ hs text hm next hn hitem _ ih =>
    rw [runBackward, if_neg hs, hm]
    simp only [hn, hitem, Bool.false_eq_true, if_true, if_false, ih (i :: points) (hnext next h)]
    cases backwardFrom marks skip high root next 0 i (Nat.le_of_succ_le hi) with
    | none => rfl
    | some b => simp [indices_concat]
  | case7 high root node i hi _ hs text hm hn hr b hb _ ihanew ih =>
    have hanew : stall root marks[i + 1 - 1]? < stall node marks[i.succ - 1]? := stall_lt hm hn hr
    have hfirst := b.first_lt_high
    have hstall := stall_le node marks[b.first - 1]?
    have hnested := @ihanew budget [] (by omega)
    rw [runBackward, if_neg hs, hm]
    simp only [hn, hr, if_true, hnested, hb, Option.bind_some, Option.map_some, List.append_nil, b.head?_indices,
      Option.getD_some]
    exact ih points (by omega)
  | case8 high root node i hi _ hs text hm hn hr hb _ ihanew ih =>
    have hanew : stall root marks[i + 1 - 1]? < stall node marks[i.succ - 1]? := stall_lt hm hn hr
    have hnested := @ihanew budget [] (by omega)
    rw [runBackward, if_neg hs, hm]
    simp only [hn, hr, if_true, hnested, hb, Option.bind_some, Option.map_none, Option.bind_none, Option.getD_none]
    exact ih points (hnext node h)
  | case9 high root node i hi _ hs text hm hn hr _ ih =>
    rw [runBackward, if_neg hs, hm]
    simp only [hn, hr, Bool.false_eq_true, if_true, if_false, ih points (hnext node h)]
  | case10 high root node depth i hi _ hs text hm hd _ ih =>
    rw [runBackward, if_neg hs, hm]
    simp only [hd, if_false, ih points (hnext node h)]
  | case11 high root node depth i hi _ hs hclose hopen hcandidate _ ih =>
    rw [runBackward, if_neg hs]
    cases hm : marks[i]? with
    | none => exact ih points (hnext node h)
    | some m =>
      cases m with
      | opening => exact absurd hm hopen
      | closing => exact absurd hm hclose
      | candidate text => exact absurd hm (hcandidate text)
      | other => exact ih points (hnext node h)

end Scan

end Mixfix
