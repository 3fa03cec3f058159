import Mixfix.Proofs.Mirrored
import Mixfix.Proofs.Splits

/-!
# Splitting at a sequence

The tokens of a sequence are looked for one after the other, and each is taken where it is found first. So the indices
that are found are the least among all ascending indices outside of brackets that spell the sequence
(`TokenList.earliest_of_firstMatch`), and there are none only if no such indices are (`TokenList.exists_firstMatch`). A
search from the end is a search for the reversed sequence in the mirrored tokens (`TokenList.splitBySequenceBack_eq`),
so it finds the greatest indices. It counts brackets from the other side, which makes no difference if they match.

* Splitting at a sequence gives nothing if and only if the sequence is no subsequence of the tokens outside of brackets,
  whichever side the search starts from (`TokenList.splitBySequence_complete`).
* All ways of splitting agree with splitting at indices, and lose nothing but the tokens there
  (`TokenList.splits_agree`).
-/

namespace Mixfix

namespace TokenList

variable {l : TokenList} {ts done rest ss sequence : List Token} {t s : Token} {points is : List Nat} {i j : Nat}

/-! ## Embeddings of a sequence -/

/-- Ascending indices outside of brackets at which tokens stand that equal those of a sequence. -/
structure Embeds (outside : Nat → Prop) (ts sequence : List Token) (points : List Nat) : Prop where
  pairwise : points.Pairwise (· < ·)
  forall₂ : List.Forall₂ (fun i s => Matches outside ts (· == s) i) points sequence

/-- Indices of a sequence of which none is greater than in another embedding. -/
structure Earliest (outside : Nat → Prop) (ts sequence : List Token) (points : List Nat) : Prop where
  embeds : Embeds outside ts sequence points
  le : ∀ others, Embeds outside ts sequence others → List.Forall₂ (· ≤ ·) points others

/-- Indices of a sequence of which none is less than in another embedding. -/
structure Latest (outside : Nat → Prop) (ts sequence : List Token) (points : List Nat) : Prop where
  embeds : Embeds outside ts sequence points
  le : ∀ others, Embeds outside ts sequence others → List.Forall₂ (· ≤ ·) others points

/-- The indices from `i` on where the tokens of a sequence are found first, when `depth` brackets are open. -/
def firstMatch (depth : Int) (i : Nat) : List Token → List Token → Option (List Nat)
  | _, [] => some []
  | [], _ :: _ => none
  | t :: ts, s :: ss =>
    if depth = 0 ∧ t.isPlain = true ∧ (t == s) = true then (firstMatch (depth + t.weight) (i + 1) ts ss).map (i :: ·)
    else firstMatch (depth + t.weight) (i + 1) ts (s :: ss)

/-- A search for a sequence cuts the list where it finds the tokens. -/
theorem splitBySequenceFrom_eq (ts : List Token) : ∀ {ss : List Token} {start i : Nat} {depth : Int},
    splitBySequenceFrom l start depth i ts ss = (firstMatch depth i ts ss).map (l.cutFrom start) := by
  induction ts with
  | nil =>
    intro ss start i depth
    cases ss <;> rfl
  | cons t ts ih =>
    intro ss start i depth
    cases ss with
    | nil => rfl
    | cons s ss =>
      rw [splitBySequenceFrom, firstMatch]
      by_cases ho : t.isOpen
      · simp [ho, Token.isPlain, Token.weight, ih]
      · by_cases hc : t.isClose
        · simp [ho, hc, Token.isPlain, Token.weight, ih, Int.sub_eq_add_neg]
        · have hw : depth + t.weight = depth := by simp [Token.weight, ho, hc]
          by_cases hd : depth = 0 ∧ (t == s) = true
          · have hplain : t.isPlain = true := by simp [Token.isPlain, ho, hc]
            rw [if_neg ho, if_neg hc, if_pos (by simpa using hd), if_pos ⟨hd.1, hplain, hd.2⟩, ih, hw, Option.map_map,
              Option.map_map]
            rfl
          · rw [if_neg ho, if_neg hc, if_neg (by simpa using hd), if_neg fun h => hd ⟨h.1, h.2.2⟩, ih, hw]

theorem matches_length {p : Token → Bool} :
    Matches (OutsideLeft (done ++ t :: rest)) (done ++ t :: rest) p done.length ↔
      bracketDepth done = 0 ∧ t.isPlain = true ∧ p t = true := by
  rw [Matches, OutsideLeft, List.take_left]
  simp

/-- One step of a search takes a token that matches and passes any other one. -/
theorem firstMatch_step (h : ts = done ++ t :: rest) (s : Token) (ss : List Token) :
    Matches (OutsideLeft ts) ts (· == s) done.length ∧
      firstMatch (bracketDepth done) done.length (t :: rest) (s :: ss) =
        (firstMatch (bracketDepth (done ++ [t])) (done.length + 1) rest ss).map (done.length :: ·) ∨
    ¬Matches (OutsideLeft ts) ts (· == s) done.length ∧
      firstMatch (bracketDepth done) done.length (t :: rest) (s :: ss) =
        firstMatch (bracketDepth (done ++ [t])) (done.length + 1) rest (s :: ss) := by
  have hdepth : bracketDepth (done ++ [t]) = bracketDepth done + t.weight := by simp
  rw [h, matches_length, firstMatch, hdepth]
  split
  · next hmatch => exact .inl ⟨hmatch, rfl⟩
  · next hno => exact .inr ⟨hno, rfl⟩

/-- What is found is an embedding behind what has been searched. -/
theorem firstMatch_sound (h : ts = done ++ rest)
    (hfound : firstMatch (bracketDepth done) done.length rest ss = some is) :
    (∀ x ∈ is, done.length ≤ x) ∧ Embeds (OutsideLeft ts) ts ss is := by
  induction rest generalizing done ss is with
  | nil =>
    cases ss with
    | nil =>
      cases hfound
      exact ⟨List.forall_mem_nil _, .nil, .nil⟩
    | cons s ss => cases hfound
  | cons t rest ih =>
    cases ss with
    | nil =>
      cases hfound
      exact ⟨List.forall_mem_nil _, .nil, .nil⟩
    | cons s ss =>
      have ih {ss is} := @ih (done ++ [t]) ss is (by rw [h]; simp)
      rw [List.length_append, List.length_singleton] at ih
      obtain ⟨hmatch, hstep⟩ | ⟨-, hstep⟩ := firstMatch_step h s ss <;> rw [hstep] at hfound
      · obtain ⟨is, his, rfl⟩ := Option.map_eq_some_iff.1 hfound
        obtain ⟨hle, hpairwise, hforall⟩ := ih his
        exact ⟨List.forall_mem_cons.2 ⟨Nat.le_refl _, fun x hx => Nat.le_of_succ_le (hle x hx)⟩,
          List.pairwise_cons.2 ⟨hle, hpairwise⟩, .cons hmatch hforall⟩
      · obtain ⟨hle, hembeds⟩ := ih hfound
        exact ⟨fun x hx => Nat.le_of_succ_le (hle x hx), hembeds⟩

/-- Where a sequence is embedded it is found, and no later. -/
theorem firstMatch_least (h : ts = done ++ rest) (hle : ∀ x ∈ points, done.length ≤ x)
    (hpoints : Embeds (OutsideLeft ts) ts ss points) :
    ∃ is, firstMatch (bracketDepth done) done.length rest ss = some is ∧ List.Forall₂ (· ≤ ·) is points := by
  induction rest generalizing done ss points with
  | nil =>
    obtain ⟨-, hforall⟩ := hpoints
    cases hforall with
    | nil => exact ⟨[], rfl, .nil⟩
    | @cons x s points ss hx hforall =>
      obtain ⟨-, t, ht, -⟩ := hx
      have hlt := (List.getElem?_eq_some_iff.1 ht).1
      have := hle x List.mem_cons_self
      rw [h, List.append_nil] at hlt
      omega
  | cons t rest ih =>
    obtain ⟨hpairwise, hforall⟩ := hpoints
    cases hforall with
    | nil => exact ⟨[], rfl, .nil⟩
    | @cons x s points ss hx hforall =>
      have ih {ss points} := @ih (done ++ [t]) ss points (by rw [h]; simp)
      rw [List.length_append, List.length_singleton] at ih
      obtain ⟨hlt, hpairwise'⟩ := List.pairwise_cons.1 hpairwise
      have hxle := hle x List.mem_cons_self
      obtain ⟨-, hstep⟩ | ⟨hno, hstep⟩ := firstMatch_step h s ss <;> rw [hstep]
      · obtain ⟨is, his, hmin⟩ := ih (fun y hy => by have := hlt y hy; omega) ⟨hpairwise', hforall⟩
        exact ⟨done.length :: is, by rw [his]; rfl, .cons hxle hmin⟩
      · have hne : x ≠ done.length := by
          rintro rfl
          exact hno hx
        exact ih (List.forall_mem_cons.2 ⟨by omega, fun y hy => by have := hlt y hy; omega⟩)
          ⟨hpairwise, .cons hx hforall⟩

/-- What is found first is an embedding, and the least one. -/
theorem earliest_of_firstMatch (h : firstMatch 0 0 ts sequence = some is) :
    Earliest (OutsideLeft ts) ts sequence is where
  embeds := (@firstMatch_sound ts [] ts _ _ rfl h).2
  le points hpoints := by
    obtain ⟨is', his', hmin⟩ := @firstMatch_least ts [] ts _ _ rfl (fun x _ => Nat.zero_le x) hpoints
    cases h.symm.trans his'
    exact hmin

theorem exists_firstMatch (h : Embeds (OutsideLeft ts) ts sequence points) :
    ∃ is, firstMatch 0 0 ts sequence = some is :=
  have ⟨is, his, _⟩ := @firstMatch_least ts [] ts _ _ rfl (fun x _ => Nat.zero_le x) h
  ⟨is, his⟩

/-! ## Embeddings counted from the end -/

/-- An index with as many open as close brackets behind its token. -/
def OutsideRight (ts : List Token) (i : Nat) : Prop := bracketDepth (ts.drop (i + 1)) = 0

theorem bracketDepth_mirror (ts : List Token) : bracketDepth (Token.mirror ts) = -bracketDepth ts := by
  induction ts with
  | nil => rfl
  | cons t ts ih =>
    have hweight : t.mirrored.weight = -t.weight := by
      rw [Token.weight, Token.weight, Token.isOpen_mirrored, Token.isClose_mirrored]
      cases ho : t.isOpen with
      | true => rw [Token.isClose_of_isOpen ho]; rfl
      | false => cases t.isClose <;> rfl
    rw [Token.mirror_cons, bracketDepth_append, ih, bracketDepth_cons, bracketDepth_cons, hweight]
    simp

theorem matches_right_length {p : Token → Bool} :
    Matches (OutsideRight (done ++ t :: rest)) (done ++ t :: rest) p done.length ↔
      bracketDepth rest = 0 ∧ t.isPlain = true ∧ p t = true := by
  have hdrop : (done ++ t :: rest).drop (done.length + 1) = rest := by simp
  rw [Matches, OutsideRight, hdrop]
  simp

/-- A token stands outside of brackets, counted from the right, if its mirror image does, counted from the left. -/
theorem matches_mirror {p : Token → Bool} (h : j + (i + 1) = ts.length) :
    Matches (OutsideLeft (Token.mirror ts)) (Token.mirror ts) p j ↔ Matches (OutsideRight ts) ts p i := by
  obtain ⟨u, t, v, rfl, rfl, hv⟩ := Token.exists_split h
  rw [← hv, ← Token.length_mirror v, Token.mirror_append_cons, matches_length, matches_right_length,
    bracketDepth_mirror, Int.neg_eq_zero]
  have hplain : t.mirrored.isPlain = t.isPlain := by
    rw [Token.isPlain, Token.isPlain, Token.isOpen_mirrored, Token.isClose_mirrored, Bool.and_comm]
  rw [hplain]
  refine and_congr_right fun _ => and_congr_right fun ht => ?_
  simp only [Token.isPlain, Bool.and_eq_true, Bool.not_eq_true'] at ht
  rw [Token.mirrored_of_plain ht.1 ht.2]

theorem Embeds.lt_length {outside : Nat → Prop} (h : Embeds outside ts sequence points) :
    ∀ p ∈ points, p < ts.length := by
  obtain ⟨-, h⟩ := h
  induction h with
  | nil => exact List.forall_mem_nil _
  | cons hx _ ih =>
    obtain ⟨-, t, ht, -⟩ := hx
    exact List.forall_mem_cons.2 ⟨(List.getElem?_eq_some_iff.1 ht).1, ih⟩

theorem Embeds.ascending {outside : Nat → Prop} (h : Embeds outside l.tokens sequence points) : l.Ascending points :=
  ⟨h.pairwise, by rw [size_eq]; exact h.lt_length⟩

theorem Embeds.length_cutAt {outside : Nat → Prop} (h : Embeds outside ts sequence points) :
    (l.cutAt points).length = sequence.length + 1 := by
  rw [cutAt, length_cutFrom, h.forall₂.length_eq]

theorem pairwise_mirror {n : Nat} (h : points.Pairwise (· < ·)) (hlt : ∀ p ∈ points, p < n) :
    (Scan.mirror n points).Pairwise (· < ·) := by
  rw [Scan.mirror, List.pairwise_reverse, List.pairwise_map]
  refine h.imp_of_mem fun ha hb hab => ?_
  have := hlt _ hb
  omega

/-- Indices of a sequence are, read backwards, indices of the reversed sequence. -/
theorem Embeds.mirror (h : Embeds (OutsideRight ts) ts sequence points) :
    Embeds (OutsideLeft (Token.mirror ts)) (Token.mirror ts) sequence.reverse (Scan.mirror ts.length points) where
  pairwise := pairwise_mirror h.pairwise h.lt_length
  forall₂ := by
    rw [Scan.mirror, List.forall₂_reverse_iff, List.forall₂_map_left_iff]
    refine h.forall₂.imp fun i s hi => (matches_mirror ?_).2 hi
    obtain ⟨-, t, ht, -⟩ := hi
    have := (List.getElem?_eq_some_iff.1 ht).1
    omega

theorem Embeds.of_mirror (h : Embeds (OutsideLeft (Token.mirror ts)) (Token.mirror ts) sequence.reverse points) :
    Embeds (OutsideRight ts) ts sequence (Scan.mirror ts.length points) where
  pairwise := pairwise_mirror h.pairwise (by rw [← Token.length_mirror]; exact h.lt_length)
  forall₂ := by
    rw [Scan.mirror, ← List.reverse_reverse sequence, List.forall₂_reverse_iff, List.forall₂_map_left_iff]
    refine h.forall₂.imp fun j s hj => (matches_mirror ?_).1 hj
    obtain ⟨-, t, ht, -⟩ := hj
    have := (List.getElem?_eq_some_iff.1 ht).1
    rw [Token.length_mirror] at this
    omega

/-- The slices up to an end, around ascending indices from a start on. -/
def cutUpTo (l : TokenList) (start stop : Nat) : List Nat → List TokenList
  | [] => [l.slice start stop]
  | p :: ps => l.slice start p :: cutUpTo l (p + 1) stop ps

theorem cutUpTo_size (start : Nat) (points : List Nat) : l.cutUpTo start l.size points = l.cutFrom start points := by
  induction points generalizing start with
  | nil => rfl
  | cons p points ih => rw [cutUpTo, cutFrom, ih]

theorem cutUpTo_concat (start stop p : Nat) (points : List Nat) :
    l.cutUpTo start stop (points ++ [p]) = l.cutUpTo start p points ++ [l.slice (p + 1) stop] := by
  induction points generalizing start with
  | nil => rfl
  | cons q points ih => rw [List.cons_append, cutUpTo, cutUpTo, ih, List.cons_append]

/-- A search from the end is a search for the reversed sequence in the mirrored tokens. -/
theorem splitBySequenceBack_eq (ts : List Token) : ∀ {ss : List Token} {stop j : Nat} {depth : Int}
    {parts : List TokenList}, j + ts.length = l.size → splitBySequenceBack l stop depth parts ts ss =
      (firstMatch depth j (ts.map Token.mirrored) ss).map fun js =>
        l.cutUpTo 0 stop (Scan.mirror l.size js) ++ parts := by
  induction ts with
  | nil =>
    intro ss stop j depth parts _
    cases ss <;> rfl
  | cons t ts ih =>
    intro ss stop j depth parts hj
    have hj' : j + 1 + ts.length = l.size := by rw [List.length_cons] at hj; omega
    cases ss with
    | nil => rfl
    | cons s ss =>
      rw [splitBySequenceBack, List.map_cons, firstMatch]
      by_cases hc : t.isClose
      · have hplain : t.mirrored.isPlain = false := by simp [Token.isPlain, Token.isOpen_mirrored, hc]
        have hw : t.mirrored.weight = 1 := by simp [Token.weight, Token.isOpen_mirrored, hc]
        rw [if_pos hc, if_neg (by simp [hplain]), ih hj', hw]
      · by_cases ho : t.isOpen
        · have hplain : t.mirrored.isPlain = false := by simp [Token.isPlain, Token.isClose_mirrored, ho]
          have hw : t.mirrored.weight = -1 := by
            simp [Token.weight, Token.isOpen_mirrored, Token.isClose_mirrored, ho, hc]
          rw [if_neg hc, if_pos ho, if_neg (by simp [hplain]), ih hj', hw]
          rfl
        · have ht : t.mirrored = t := Token.mirrored_of_plain (by simpa using ho) (by simpa using hc)
          have hw : depth + t.weight = depth := by simp [Token.weight, ho, hc]
          rw [ht]
          by_cases hd : depth = 0 ∧ (t == s) = true
          · have hplain : t.isPlain = true := by simp [Token.isPlain, ho, hc]
            have hindex : l.size - 1 - j = ts.length := by omega
            have hmirror (js : List Nat) : Scan.mirror l.size (j :: js) = Scan.mirror l.size js ++ [ts.length] := by
              rw [← hindex]
              simp [Scan.mirror]
            rw [if_neg hc, if_neg ho, if_pos (by simpa using hd), if_pos ⟨hd.1, hplain, hd.2⟩, ih hj', hw,
              Option.map_map]
            refine Option.map_congr fun js _ => ?_
            rw [Function.comp_apply, hmirror, cutUpTo_concat, List.append_assoc]
            rfl
          · rw [if_neg hc, if_neg ho, if_neg (by simpa using hd), if_neg fun h => hd ⟨h.1, h.2.2⟩, ih hj', hw]

/-! ## Splitting at a sequence -/

theorem splitBySequence_eq (hne : sequence ≠ []) :
    l.splitBySequence sequence = .ok ((firstMatch 0 0 l.tokens sequence).map l.cutAt) := by
  have hempty : sequence.isEmpty = false := List.isEmpty_eq_false_iff.2 hne
  rw [splitBySequence, hempty, Bool.false_and, if_neg Bool.false_ne_true, splitBySequenceFrom_eq]
  rfl

theorem splitBySequenceInReverse_eq (hne : sequence ≠ []) : l.splitBySequenceInReverse sequence =
    .ok ((firstMatch 0 0 (Token.mirror l.tokens) sequence.reverse).map fun js => l.cutAt (Scan.mirror l.size js)) := by
  have hempty : sequence.isEmpty = false := List.isEmpty_eq_false_iff.2 hne
  have hlength : 0 + l.tokens.reverse.length = l.size := by rw [size_eq, List.length_reverse, Nat.zero_add]
  rw [splitBySequenceInReverse, hempty, Bool.false_and, if_neg Bool.false_ne_true, splitBySequenceBack_eq _ hlength,
    List.map_reverse]
  simp only [cutUpTo_size, List.append_nil]
  rfl

theorem forall₂_le_mirror {n : Nat} (h : List.Forall₂ (· ≤ ·) is (Scan.mirror n points)) (hlt : ∀ p ∈ points, p < n) :
    List.Forall₂ (· ≤ ·) points (Scan.mirror n is) := by
  have hle : List.Forall₂ (fun p i => i ≤ n - 1 - p) points is.reverse := by
    rw [Scan.mirror, ← List.reverse_reverse is, List.forall₂_reverse_iff, List.forall₂_map_right_iff] at h
    exact h.flip
  rw [Scan.mirror, ← List.map_reverse, List.forall₂_map_right_iff]
  refine ((List.forall₂_and_left points is.reverse).2 ⟨hlt, hle⟩).imp fun p i hpi => ?_
  omega

/-- A search from the end finds the greatest embedding. -/
theorem latest_of_firstMatch_mirror (h : firstMatch 0 0 (Token.mirror ts) sequence.reverse = some is) :
    Latest (OutsideRight ts) ts sequence (Scan.mirror ts.length is) where
  embeds := (earliest_of_firstMatch h).embeds.of_mirror
  le _ hpoints := forall₂_le_mirror ((earliest_of_firstMatch h).le _ hpoints.mirror) hpoints.lt_length

/-- What is split at a sequence is cut at its earliest indices. -/
theorem exists_of_splitBySequence (hne : sequence ≠ []) {parts : List TokenList}
    (h : l.splitBySequence sequence = .ok (some parts)) :
    ∃ points, Earliest (OutsideLeft l.tokens) l.tokens sequence points ∧ parts = l.cutAt points := by
  rw [splitBySequence_eq hne, Except.ok.injEq, Option.map_eq_some_iff] at h
  obtain ⟨is, his, rfl⟩ := h
  exact ⟨is, earliest_of_firstMatch his, rfl⟩

/-- What is split at a sequence from the end is cut at its latest indices. -/
theorem exists_of_splitBySequenceInReverse (hne : sequence ≠ []) {parts : List TokenList}
    (h : l.splitBySequenceInReverse sequence = .ok (some parts)) :
    ∃ points, Latest (OutsideRight l.tokens) l.tokens sequence points ∧ parts = l.cutAt points := by
  rw [splitBySequenceInReverse_eq hne, Except.ok.injEq, Option.map_eq_some_iff] at h
  obtain ⟨js, hjs, rfl⟩ := h
  rw [size_eq]
  exact ⟨_, latest_of_firstMatch_mirror hjs, rfl⟩

/-! ## Subsequences -/

/-- The tokens outside of brackets, without the brackets, when `depth` of them are open. -/
def topLevel (depth : Int) : List Token → List Token
  | [] => []
  | t :: ts =>
    if depth = 0 ∧ t.isPlain = true then t :: topLevel (depth + t.weight) ts else topLevel (depth + t.weight) ts

/-- Tokens outside of brackets, one behind the other, equal those of the sequence. -/
def IsSubsequence (sequence ts : List Token) : Prop :=
  ∃ sub, sub.Sublist (topLevel 0 ts) ∧ List.Forall₂ (fun t s => (t == s) = true) sub sequence

theorem firstMatch_isSome_iff (depth : Int) (i : Nat) (ts ss : List Token) : (firstMatch depth i ts ss).isSome ↔
    ∃ sub, sub.Sublist (topLevel depth ts) ∧ List.Forall₂ (fun t s => (t == s) = true) sub ss := by
  induction ts generalizing depth i ss with
  | nil =>
    cases ss with
    | nil => exact ⟨fun _ => ⟨[], .slnil, .nil⟩, fun _ => rfl⟩
    | cons s ss =>
      refine ⟨fun h => (nomatch h), fun ⟨sub, hsub, h⟩ => ?_⟩
      rw [topLevel, List.sublist_nil] at hsub
      rw [hsub] at h
      cases h
  | cons t ts ih =>
    cases ss with
    | nil => exact ⟨fun _ => ⟨[], List.nil_sublist _, .nil⟩, fun _ => rfl⟩
    | cons s ss =>
      rw [firstMatch, topLevel]
      by_cases hout : depth = 0 ∧ t.isPlain = true
      · rw [if_pos hout]
        by_cases hts : (t == s) = true
        · rw [if_pos ⟨hout.1, hout.2, hts⟩, Option.isSome_map, ih]
          refine ⟨fun ⟨sub, hsub, h⟩ => ⟨t :: sub, hsub.cons_cons t, .cons hts h⟩, fun ⟨sub, hsub, h⟩ => ?_⟩
          obtain _ | ⟨-, h⟩ := h
          exact ⟨_, hsub.tail, h⟩
        · rw [if_neg fun h => hts h.2.2, ih]
          refine ⟨fun ⟨sub, hsub, h⟩ => ⟨sub, hsub.cons t, h⟩, fun ⟨sub, hsub, h⟩ => ⟨sub, ?_, h⟩⟩
          obtain _ | ⟨hx, -⟩ := h
          cases hsub with
          | cons _ hsub => exact hsub
          | cons_cons => exact absurd hx hts
      · rw [if_neg hout, if_neg fun h => hout ⟨h.1, h.2.1⟩, ih]

/-- A sequence is embedded if and only if it is a subsequence. -/
theorem exists_embeds_iff : (∃ points, Embeds (OutsideLeft ts) ts sequence points) ↔ IsSubsequence sequence ts := by
  rw [IsSubsequence, ← firstMatch_isSome_iff 0 0]
  refine ⟨fun ⟨points, h⟩ => ?_, fun h => ?_⟩
  · obtain ⟨is, his⟩ := exists_firstMatch h
    rw [his]
    rfl
  · obtain ⟨is, his⟩ := Option.isSome_iff_exists.1 h
    exact ⟨is, (earliest_of_firstMatch his).embeds⟩

/-- Where the brackets match, it makes no difference from which side they are counted. -/
theorem matches_right_iff (h : Balanced ts) {p : Token → Bool} :
    Matches (OutsideRight ts) ts p i ↔ Matches (OutsideLeft ts) ts p i := by
  by_cases hi : i < ts.length
  · obtain ⟨u, t, v, rfl, rfl, -⟩ := @Token.exists_split ts i (ts.length - (i + 1)) (by omega)
    rw [matches_length, matches_right_length]
    refine and_congr_left fun ht => ?_
    have hdepth := h.depth_eq
    rw [bracketDepth_append, bracketDepth_cons, Token.weight_of_plain ht.1] at hdepth
    omega
  · have hnone : ts[i]? = none := List.getElem?_eq_none (by omega)
    simp [Matches, hnone]

theorem embeds_right_iff (h : Balanced ts) :
    Embeds (OutsideRight ts) ts sequence points ↔ Embeds (OutsideLeft ts) ts sequence points :=
  ⟨fun he => ⟨he.pairwise, he.forall₂.imp fun _ _ => (matches_right_iff h).1⟩,
    fun he => ⟨he.pairwise, he.forall₂.imp fun _ _ => (matches_right_iff h).2⟩⟩

theorem Latest.left (h : Balanced ts) (hlatest : Latest (OutsideRight ts) ts sequence points) :
    Latest (OutsideLeft ts) ts sequence points :=
  ⟨(embeds_right_iff h).1 hlatest.embeds, fun others hothers => hlatest.le others ((embeds_right_iff h).2 hothers)⟩

theorem firstMatch_eq_none_iff :
    firstMatch 0 0 ts sequence = none ↔ ¬∃ points, Embeds (OutsideLeft ts) ts sequence points := by
  rw [exists_embeds_iff, IsSubsequence, ← firstMatch_isSome_iff 0 0, Option.not_isSome_iff_eq_none]

theorem splitBySequence_eq_none_iff (hne : sequence ≠ []) :
    l.splitBySequence sequence = .ok none ↔ ¬IsSubsequence sequence l.tokens := by
  rw [splitBySequence_eq hne, Except.ok.injEq, Option.map_eq_none_iff, firstMatch_eq_none_iff, exists_embeds_iff]

theorem splitBySequenceInReverse_eq_none_iff (h : Balanced l.tokens) (hne : sequence ≠ []) :
    l.splitBySequenceInReverse sequence = .ok none ↔ ¬IsSubsequence sequence l.tokens := by
  have hmirror :
      (∃ points, Embeds (OutsideLeft (Token.mirror l.tokens)) (Token.mirror l.tokens) sequence.reverse points) ↔
        ∃ points, Embeds (OutsideLeft l.tokens) l.tokens sequence points :=
    ⟨fun ⟨points, hpoints⟩ => ⟨_, (embeds_right_iff h).1 hpoints.of_mirror⟩,
      fun ⟨points, hpoints⟩ => ⟨_, ((embeds_right_iff h).2 hpoints).mirror⟩⟩
  rw [splitBySequenceInReverse_eq hne, Except.ok.injEq, Option.map_eq_none_iff, firstMatch_eq_none_iff, hmirror,
    exists_embeds_iff]

/-- Sequence splitting is complete in both directions: it gives nothing only if the sequence is no subsequence, and else
cuts the list at the least indices that spell the sequence, or at the greatest ones. -/
theorem splitBySequence_complete (h : Balanced l.tokens) (hne : sequence ≠ []) :
    (l.splitBySequence sequence = .ok none ↔ l.splitBySequenceInReverse sequence = .ok none) ∧
    (l.splitBySequence sequence = .ok none ↔ ¬IsSubsequence sequence l.tokens) ∧
    (IsSubsequence sequence l.tokens → ∃ least greatest,
      l.splitBySequence sequence = .ok (some (l.cutAt least)) ∧
      l.splitBySequenceInReverse sequence = .ok (some (l.cutAt greatest)) ∧
      Earliest (OutsideLeft l.tokens) l.tokens sequence least ∧
      Latest (OutsideLeft l.tokens) l.tokens sequence greatest) := by
  have hnone := splitBySequence_eq_none_iff (l := l) hne
  have hnone' := splitBySequenceInReverse_eq_none_iff h hne
  refine ⟨hnone.trans hnone'.symm, hnone, fun hsub => ?_⟩
  have hsome {result : Except SliceError (Option (List TokenList))} {found : Option (List TokenList)}
      (h : result = .ok found) (hn : result ≠ .ok none) : ∃ parts, result = .ok (some parts) := by
    cases found with
    | none => exact absurd h hn
    | some parts => exact ⟨parts, h⟩
  obtain ⟨parts, hparts⟩ := hsome (splitBySequence_eq hne) fun hn => hnone.1 hn hsub
  obtain ⟨parts', hparts'⟩ := hsome (splitBySequenceInReverse_eq hne) fun hn => hnone'.1 hn hsub
  obtain ⟨least, hleast, rfl⟩ := exists_of_splitBySequence hne hparts
  obtain ⟨greatest, hgreatest, rfl⟩ := exists_of_splitBySequenceInReverse hne hparts'
  exact ⟨least, greatest, hparts, hparts', hleast, hgreatest.left h⟩

/-- The tokens of `aa(ab)bab`. -/
def repeatedTokens : List Token :=
  [.fixed ['a'], .fixed ['a'], .fixed ['('], .fixed ['a'], .fixed ['b'], .fixed [')'], .fixed ['b'], .fixed ['a'],
    .fixed ['b']]

/-- The least indices are not those of the greatest embedding, and neither of them is inside of the brackets. -/
theorem splitBySequence_complete_sample : Balanced (adjoining repeatedTokens).tokens ∧
    IsSubsequence [.fixed ['a'], .fixed ['b']] (adjoining repeatedTokens).tokens ∧
    firstMatch 0 0 repeatedTokens [.fixed ['a'], .fixed ['b']] = some [0, 6] ∧
    firstMatch 0 0 (Token.mirror repeatedTokens) [.fixed ['b'], .fixed ['a']] = some (Scan.mirror 9 [7, 8]) ∧
    ∃ least greatest,
      (adjoining repeatedTokens).splitBySequence [.fixed ['a'], .fixed ['b']] =
        .ok (some ((adjoining repeatedTokens).cutAt least)) ∧
      (adjoining repeatedTokens).splitBySequenceInReverse [.fixed ['a'], .fixed ['b']] =
        .ok (some ((adjoining repeatedTokens).cutAt greatest)) ∧
      List.Forall₂ (· ≤ ·) least greatest := by
  have hb : Balanced (adjoining repeatedTokens).tokens := by
    rw [tokens_adjoining]
    have hinner : Balanced [.fixed ['a'], .fixed ['b']] := .of_plain (by decide)
    have hbehind : Balanced [.fixed ['b'], .fixed ['a'], .fixed ['b']] := .of_plain (by decide)
    exact .append (u := [.fixed ['a'], .fixed ['a']]) (.of_plain (by decide)) (hinner.wrap.append hbehind)
  have hsub : IsSubsequence [.fixed ['a'], .fixed ['b']] (adjoining repeatedTokens).tokens := by
    rw [tokens_adjoining]
    exact (firstMatch_isSome_iff 0 0 repeatedTokens _).1 (by decide)
  obtain ⟨-, -, hsplit⟩ := splitBySequence_complete hb (List.cons_ne_nil (.fixed ['a']) [.fixed ['b']])
  obtain ⟨least, greatest, hleast, hgreatest, hearliest, hlatest⟩ := hsplit hsub
  exact ⟨hb, hsub, by decide, by decide, least, greatest, hleast, hgreatest, hlatest.le least hearliest.embeds⟩

/-- All ways of splitting agree with splitting at indices, and lose nothing but the tokens there. -/
theorem splits_agree (hl : l.Faithful) :
    (∀ t, ∃ points, (∀ i, i ∈ points ↔ Matches (OutsideLeft l.tokens) l.tokens (· == t) i) ∧
      l.IsSplit points (l.splitBy (· == t))) ∧
    (∀ sequence parts, sequence ≠ [] → l.splitBySequence sequence = .ok (some parts) → ∃ points,
      Earliest (OutsideLeft l.tokens) l.tokens sequence points ∧ l.IsSplit points parts ∧
      parts.length = sequence.length + 1) ∧
    (∀ sequence parts, sequence ≠ [] → l.splitBySequenceInReverse sequence = .ok (some parts) → ∃ points,
      Latest (OutsideRight l.tokens) l.tokens sequence points ∧ l.IsSplit points parts ∧
      parts.length = sequence.length + 1) ∧
    (∀ points points' : List Int, (∀ p : Int, p ≠ -1 → p ≠ l.size → (p ∈ points ↔ p ∈ points')) →
      l.splitAtPoints points = l.splitAtPoints points') ∧
    (∀ points : List Int, (∃ parts, l.splitAtPoints points = .ok parts) ↔ ∀ p ∈ points, -1 ≤ p ∧ p ≤ l.size) ∧
    ∀ points parts, l.splitAtPoints points = .ok parts →
      ∃ inner, (∀ i : Nat, i ∈ inner ↔ (i : Int) ∈ points ∧ i ≠ l.size) ∧ l.IsSplit inner parts := by
  refine ⟨fun t => ⟨_, fun i => mem_splitPoints_iff, hl.isSplit_splitBy _⟩, fun sequence parts hne h => ?_,
    fun sequence parts hne h => ?_, fun points points' h => splitAtPoints_congr h,
    fun points => exists_splitAtPoints_iff, fun points parts h => hl.exists_isSplit h⟩
  · obtain ⟨points, hpoints, rfl⟩ := exists_of_splitBySequence hne h
    exact ⟨points, hpoints, hl.isSplit_cutAt hpoints.embeds.ascending, hpoints.embeds.length_cutAt⟩
  · obtain ⟨points, hpoints, rfl⟩ := exists_of_splitBySequenceInReverse hne h
    exact ⟨points, hpoints, hl.isSplit_cutAt hpoints.embeds.ascending, hpoints.embeds.length_cutAt⟩

/-- The list of `a b ) a  b`, with a bracket that is not opened. -/
def unopenedSample : TokenList where
  items := [⟨0, .fixed ['a']⟩, ⟨1, .fixed ['b']⟩, ⟨1, .fixed [')']⟩, ⟨1, .fixed ['a']⟩, ⟨2, .fixed ['b']⟩]
  trailing := 0
  text := ['a', ' ', 'b', ' ', ')', ' ', 'a', ' ', ' ', 'b']
  offset := 0

/-- Brackets that do not match are counted otherwise from the right, and the splits agree nevertheless. -/
theorem splits_agree_sample : unopenedSample.Faithful ∧
    (∃ points,
      (∀ i, i ∈ points ↔ Matches (OutsideLeft unopenedSample.tokens) unopenedSample.tokens (· == .fixed ['a']) i) ∧
      unopenedSample.IsSplit points (unopenedSample.splitBy (· == .fixed ['a']))) ∧
    (∃ points, Earliest (OutsideLeft unopenedSample.tokens) unopenedSample.tokens [.fixed ['a'], .fixed ['b']] points ∧
      unopenedSample.IsSplit points (unopenedSample.cutAt [0, 1])) ∧
    ∃ points, Latest (OutsideRight unopenedSample.tokens) unopenedSample.tokens [.fixed ['a'], .fixed ['b']] points ∧
      unopenedSample.IsSplit points (unopenedSample.cutAt [3, 4]) := by
  have hfaithful : unopenedSample.Faithful := rfl
  have hne : [Token.fixed ['a'], .fixed ['b']] ≠ [] := List.cons_ne_nil _ _
  obtain ⟨hby, hforward, hbackward, -⟩ := splits_agree hfaithful
  obtain ⟨points, hearliest, hsplit, -⟩ := hforward _ (unopenedSample.cutAt [0, 1]) hne rfl
  obtain ⟨points', hlatest, hsplit', -⟩ := hbackward _ (unopenedSample.cutAt [3, 4]) hne rfl
  exact ⟨hfaithful, hby _, ⟨points, hearliest, hsplit⟩, points', hlatest, hsplit'⟩

end TokenList

end Mixfix
