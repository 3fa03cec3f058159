import Mathlib.Algebra.Ring.Nat
import Mathlib.Data.List.Basic
import Mathlib.Data.List.Forall2
import Mixfix.Proofs.Brackets
import Mixfix.TokenList.Split

/-!
# Sections of token lists

The sections that a parser cuts out of a token list are slices of slices. A slice has the tokens between its ends
(`TokenList.tokens_slice`) at the positions that they have in the list (`TokenList.positionAt_slice`), so a section
shows a part of the whole list wherever it was cut (`TokenList.Shows`). A list whose text is written by its tokens and
spaces (`TokenList.Faithful`) has faithful slices (`TokenList.Faithful.slice`).
-/

namespace Mixfix

namespace TokenList

variable {l : TokenList} {a b i : Nat}

/-! ## Tokens -/

theorem size_eq (l : TokenList) : l.size = l.tokens.length := by simp [size, Row.tokens]

theorem isEmpty_of_size_pos (h : 0 < l.size) : l.isEmpty = false := by
  rw [size, List.length_pos_iff] at h
  rw [isEmpty, List.isEmpty_eq_false_iff]
  exact h

theorem tokens_slice (l : TokenList) (a b : Nat) : (l.slice a b).tokens = (l.tokens.drop a).take (b - a) := by
  simp [Row.tokens, slice, List.map_take, List.map_drop]

theorem size_slice (h : b ≤ l.size) : (l.slice a b).size = b - a := by
  rw [size] at h
  simp only [size, slice, List.length_take, List.length_drop]
  omega

theorem tokens_slice_size (l : TokenList) (a : Nat) : (l.slice a l.size).tokens = l.tokens.drop a := by
  rw [tokens_slice, size_eq]
  exact List.take_of_length_le (by simp)

/-- The slice between a token and the end holds what stands behind the token. -/
theorem tokens_slice_drop {u v : List Token} (h : l.tokens = u ++ v) : (l.slice u.length l.size).tokens = v := by
  rw [tokens_slice_size, h, List.drop_left]

/-- The slice between two places holds what stands between them. -/
theorem tokens_slice_mid {u m v : List Token} (h : l.tokens = u ++ m ++ v) :
    (l.slice u.length (u.length + m.length)).tokens = m := by
  rw [tokens_slice, h, List.append_assoc, List.drop_left, Nat.add_sub_cancel_left, List.take_left]

/-! ## Positions -/

theorem widthOfFirst_zero (ss : List Spaced) : Spaced.widthOfFirst 0 ss = 0 := by cases ss <;> rfl

theorem widthOfFirst_nil (n : Nat) : Spaced.widthOfFirst n [] = 0 := by cases n <;> rfl

theorem widthOfFirst_add (m n : Nat) (ss : List Spaced) :
    Spaced.widthOfFirst (m + n) ss = Spaced.widthOfFirst m ss + Spaced.widthOfFirst n (ss.drop m) := by
  induction m generalizing ss with
  | zero => simp [widthOfFirst_zero]
  | succ m ih =>
    cases ss with
    | nil => simp [widthOfFirst_nil]
    | cons s ss =>
      rw [Nat.add_right_comm, Spaced.widthOfFirst, Spaced.widthOfFirst, ih, List.drop_succ_cons, Nat.add_assoc]

theorem widthOfFirst_take {m n : Nat} (h : m ≤ n) (ss : List Spaced) :
    Spaced.widthOfFirst m (ss.take n) = Spaced.widthOfFirst m ss := by
  induction m generalizing n ss with
  | zero => simp [widthOfFirst_zero]
  | succ m ih =>
    cases ss with
    | nil => simp
    | cons s ss =>
      obtain ⟨n, rfl⟩ : ∃ k, n = k + 1 := ⟨n - 1, by omega⟩
      rw [List.take_succ_cons, Spaced.widthOfFirst, Spaced.widthOfFirst, ih (by omega)]

theorem spacing_slice (hb : b ≤ l.size) (hi : a + i ≤ b) : (l.slice a b).spacing i = l.spacing (a + i) := by
  rw [spacing, spacing]
  by_cases h : a + i < b
  · have hlt : i < b - a := by omega
    have hsome : a + i < l.items.length := by rw [size] at hb; omega
    simp [slice, hlt, hsome, List.getElem?_drop]
  · have heq : a + i = b := by omega
    have hlen : ((l.items.drop a).take (b - a))[i]? = none := by
      rw [List.getElem?_eq_none]
      simp only [List.length_take, List.length_drop]
      omega
    simp only [slice, hlen, Option.map_none, Option.getD_none, heq, spacing]

theorem boundary_slice (hi : a + i ≤ b) : (l.boundary a : Int) + (l.slice a b).boundary i = l.boundary (a + i) := by
  have htake : (l.slice a b).boundary i = Spaced.widthOfFirst i (l.items.drop a) := widthOfFirst_take (by omega) _
  rw [htake, boundary, boundary, widthOfFirst_add]
  omega

/-- The tokens of a slice keep their positions. -/
theorem positionAt_slice (hb : b ≤ l.size) (hi : a + i ≤ b) : (l.slice a b).positionAt i = l.positionAt (a + i) := by
  have hoffset : (l.slice a b).offset = l.offset + l.boundary a := rfl
  have hboundary := boundary_slice (l := l) hi
  rw [positionAt, positionAt, spacing_slice hb hi, hoffset]
  omega

theorem position_eq (l : TokenList) : l.position = l.positionAt 0 := by
  rw [position, positionAt, boundary, widthOfFirst_zero]
  omega

theorem boundary_succ {t : Token} (h : l.tokens[i]? = some t) :
    l.boundary (i + 1) = l.boundary i + l.spacing i + t.text.length := by
  rw [Row.tokens, List.getElem?_map] at h
  obtain ⟨s, hs, rfl⟩ := Option.map_eq_some_iff.1 h
  obtain ⟨hi, hget⟩ := List.getElem?_eq_some_iff.1 hs
  rw [boundary, boundary, widthOfFirst_add, spacing, hs, List.drop_eq_getElem_cons hi, hget, Spaced.widthOfFirst,
    widthOfFirst_zero, Spaced.width, Option.map_some, Option.getD_some]
  omega

theorem boundary_mono (h : a ≤ b) : l.boundary a ≤ l.boundary b := by
  obtain ⟨n, rfl⟩ := Nat.exists_eq_add_of_le h
  rw [boundary, boundary, widthOfFirst_add]
  exact Nat.le_add_right _ _

/-- Positions ascend over a token that is not empty. -/
theorem positionAt_lt {k : Nat} {t : Token} (h : l.tokens[k]? = some t) (ht : t.text ≠ []) (ha : a ≤ k) (hb : k < b) :
    l.positionAt a < l.positionAt b := by
  have hk := boundary_succ h
  have hle := boundary_mono (l := l) (a := k + 1) hb
  have hpos := List.length_pos_iff.2 ht
  have hmono : l.boundary a + l.spacing a ≤ l.boundary k + l.spacing k := by
    rcases Nat.eq_or_lt_of_le ha with rfl | hlt
    · exact Nat.le_refl _
    · obtain ⟨hsize, -⟩ := List.getElem?_eq_some_iff.1 h
      have := boundary_succ (List.getElem?_eq_getElem (Nat.lt_trans hlt hsize))
      have := boundary_mono (l := l) (a := a + 1) hlt
      omega
  rw [positionAt, positionAt]
  omega

/-! ## Sections -/

/-- The list shows the tokens of another one from an index on, at the same positions. -/
structure Shows (l full : TokenList) (start : Nat) : Prop where
  inside : start + l.size ≤ full.size
  tokens_eq : l.tokens = (full.tokens.drop start).take l.size
  position_eq : ∀ i ≤ l.size, l.positionAt i = full.positionAt (start + i)

theorem Shows.refl (l : TokenList) : l.Shows l 0 where
  inside := by omega
  tokens_eq := by rw [List.drop_zero, size_eq, List.take_length]
  position_eq i _ := by rw [Nat.zero_add]

theorem Shows.slice {full : TokenList} {start : Nat} (h : l.Shows full start) (hb : b ≤ l.size) (hab : a ≤ b) :
    (l.slice a b).Shows full (start + a) where
  inside := by
    have := h.inside
    rw [size_slice hb]
    omega
  tokens_eq := by
    rw [tokens_slice, h.tokens_eq, size_slice hb, List.drop_take, List.take_take, List.drop_drop,
      Nat.min_eq_left (by omega)]
  position_eq i hi := by
    rw [size_slice hb] at hi
    rw [positionAt_slice hb (by omega), h.position_eq (a + i) (by omega), Nat.add_assoc]

/-! ## Texts -/

/-- The text of the list is what its tokens and spaces write. -/
def Faithful (l : TokenList) : Prop := l.text = l.toRow.render

/-- The list of tokens without spaces around them. -/
def adjoining (ts : List Token) : TokenList where
  items := ts.map fun t => ⟨0, t⟩
  trailing := 0
  text := Row.render ⟨ts.map fun t => ⟨0, t⟩, 0⟩
  offset := 0

theorem faithful_adjoining (ts : List Token) : (adjoining ts).Faithful := rfl

theorem tokens_adjoining (ts : List Token) : (adjoining ts).tokens = ts := by
  simp [adjoining, Row.tokens, Function.comp_def]

theorem length_render_item (s : Spaced) : s.render.length = s.width := by
  simp [Spaced.render, Spaced.width, Text.spaces]

theorem length_render_take (n : Nat) (ss : List Spaced) :
    ((ss.take n).flatMap Spaced.render).length = Spaced.widthOfFirst n ss := by
  induction n generalizing ss with
  | zero => simp [widthOfFirst_zero]
  | succ n ih =>
    cases ss with
    | nil => rfl
    | cons s ss => simp [Spaced.widthOfFirst, length_render_item, ih]

/-- What follows the first tokens begins with the spaces of the next one. -/
theorem exists_render_drop (l : TokenList) (b : Nat) : ∃ rest,
    (l.items.drop b).flatMap Spaced.render ++ Text.spaces l.trailing = Text.spaces (l.spacing b) ++ rest := by
  rw [spacing]
  cases h : l.items.drop b with
  | nil =>
    rw [List.drop_eq_nil_iff] at h
    exact ⟨[], by simp [List.getElem?_eq_none h]⟩
  | cons s ss =>
    have hs : l.items[b]? = some s := by rw [← List.head?_drop, h]; rfl
    exact ⟨s.token.text ++ (ss.flatMap Spaced.render ++ Text.spaces l.trailing), by simp [hs, Spaced.render]⟩

/-- Slices of a faithful list are faithful. -/
theorem Faithful.slice (h : l.Faithful) (hab : a ≤ b) : (l.slice a b).Faithful := by
  have hsplit : l.items = l.items.take a ++ ((l.items.drop a).take (b - a) ++ l.items.drop b) := by
    have hdrop : l.items.drop b = (l.items.drop a).drop (b - a) := by rw [List.drop_drop]; congr 1; omega
    rw [hdrop, List.take_append_drop, List.take_append_drop]
  obtain ⟨rest, hrest⟩ := exists_render_drop l b
  have htext : l.text = (l.items.take a).flatMap Spaced.render ++
      (((l.items.drop a).take (b - a)).flatMap Spaced.render ++ (Text.spaces (l.spacing b) ++ rest)) := by
    rw [h, Row.render, ← hrest]
    conv_lhs => rw [hsplit]
    simp
  have hstart : l.boundary a = ((l.items.take a).flatMap Spaced.render).length := (length_render_take a l.items).symm
  have hwidth : l.boundary b + l.spacing b - l.boundary a =
      (((l.items.drop a).take (b - a)).flatMap Spaced.render ++ Text.spaces (l.spacing b)).length := by
    have hadd : l.boundary b = l.boundary a + Spaced.widthOfFirst (b - a) (l.items.drop a) := by
      rw [boundary, boundary, ← widthOfFirst_add]
      congr 1
      omega
    rw [List.length_append, length_render_take, hadd, Text.spaces, List.length_replicate]
    omega
  have hslice : (l.slice a b).text = (l.text.drop (l.boundary a)).take (l.boundary b + l.spacing b - l.boundary a) :=
    rfl
  rw [Faithful, hslice, hwidth, htext, hstart, List.drop_left, ← List.append_assoc, List.take_left]
  rfl

theorem Faithful.eq_of_row {l' : TokenList} (h : l.Faithful) (h' : l'.Faithful) (hrow : l.toRow = l'.toRow)
    (hoffset : l.offset = l'.offset) : l = l' := by
  obtain ⟨row, text, offset⟩ := l
  obtain ⟨row', text', offset'⟩ := l'
  obtain rfl : row = row' := hrow
  obtain rfl : offset = offset' := hoffset
  rw [show text = row.render from h, show text' = row.render from h']

/-- A slice of a slice is a slice. -/
theorem Faithful.slice_slice {a' b' : Nat} (h : l.Faithful) (hb : b ≤ l.size) (hab : a' ≤ b') (hb' : a + b' ≤ b) :
    (l.slice a b).slice a' b' = l.slice (a + a') (a + b') := by
  refine ((h.slice (by omega)).slice hab).eq_of_row (h.slice (by omega)) ?_ ?_
  · have hitems : ((l.slice a b).slice a' b').items = (l.slice (a + a') (a + b')).items := by
      simp only [TokenList.slice, List.drop_take, List.take_take, List.drop_drop]
      congr 1
      omega
    have htrailing : ((l.slice a b).slice a' b').trailing = (l.slice (a + a') (a + b')).trailing := spacing_slice hb hb'
    exact congrArg₂ Row.mk hitems htrailing
  · have hboundary := @boundary_slice l a b a' (by omega)
    simp only [TokenList.slice] at hboundary ⊢
    omega

theorem Faithful.slice_size (h : l.Faithful) : l.slice 0 l.size = l := by
  refine (h.slice (Nat.zero_le _)).eq_of_row h ?_ ?_
  · have hitems : (l.slice 0 l.size).items = l.items := by simp [TokenList.slice, size]
    have htrailing : (l.slice 0 l.size).trailing = l.trailing := by simp [TokenList.slice, spacing, size]
    exact congrArg₂ Row.mk hitems htrailing
  · simp [TokenList.slice, boundary, widthOfFirst_zero]

/-! ## Parts between tokens -/

/-- Parts with a fixed token before each but the first. -/
def joined (m : List Token) : List (Text × List Token) → List Token
  | [] => m
  | (t, m') :: rest => m ++ .fixed t :: joined m' rest

/-- The indices of the tokens between the parts, when the first part begins at an index. -/
def joints (start : Nat) (m : List Token) : List (Text × List Token) → List Nat
  | [] => []
  | (_, m') :: rest => (start + m.length) :: joints (start + m.length + 1) m' rest

/-- Joined parts begin with the first part. -/
theorem exists_joined_eq_append (m : List Token) (rest : List (Text × List Token)) : ∃ v, joined m rest = m ++ v := by
  cases rest with
  | nil => exact ⟨[], (List.append_nil m).symm⟩
  | cons p rest => exact ⟨_, rfl⟩

/-- Joined parts end with the last part. -/
theorem exists_joined_eq_append_last (m : List Token) (rest : List (Text × List Token)) :
    ∃ u, ∃ m' ∈ m :: rest.map Prod.snd, joined m rest = u ++ m' := by
  induction rest generalizing m with
  | nil => exact ⟨[], m, List.mem_cons_self, rfl⟩
  | cons p rest ih =>
    obtain ⟨u, m', hm', h⟩ := ih p.2
    exact ⟨m ++ .fixed p.1 :: u, m', List.mem_cons_of_mem _ hm', by rw [joined, h]; simp⟩

theorem joined_concat (m : List Token) (rest : List (Text × List Token)) (p : Text × List Token) :
    joined m (rest ++ [p]) = joined m rest ++ .fixed p.1 :: p.2 := by
  induction rest generalizing m with
  | nil => rfl
  | cons q rest ih => rw [List.cons_append, joined, joined, ih, List.append_assoc, List.cons_append]

theorem joints_concat (start : Nat) (m : List Token) (rest : List (Text × List Token)) (p : Text × List Token) :
    joints start m (rest ++ [p]) = joints start m rest ++ [start + (joined m rest).length] := by
  induction rest generalizing start m with
  | nil => rfl
  | cons q rest ih =>
    rw [List.cons_append, joints, joints, ih, joined, List.length_append, List.length_cons, List.cons_append]
    congr 3
    omega

/-- The tokens and the indices between the parts tell the parts. -/
theorem joined_inj {start : Nat} {m m' : List Token} {rest rest' : List (Text × List Token)}
    (h : joined m rest = joined m' rest') (hjoints : joints start m rest = joints start m' rest') :
    m = m' ∧ rest = rest' := by
  induction rest generalizing start m m' rest' with
  | nil =>
    cases rest' with
    | nil => exact ⟨h, rfl⟩
    | cons q rest' => cases hjoints
  | cons p rest ih =>
    cases rest' with
    | nil => cases hjoints
    | cons q rest' =>
      obtain ⟨hstart, hjoints⟩ := List.cons.inj hjoints
      obtain ⟨rfl, hrest⟩ := List.append_inj h (by omega)
      obtain ⟨ht, hrest⟩ := List.cons.inj hrest
      obtain ⟨hm, rfl⟩ := ih hrest hjoints
      exact ⟨rfl, congrArg (· :: rest) (Prod.ext (Token.fixed.inj ht) hm)⟩

/-- The list is a slice of another one, with some tokens. -/
def IsPart (l part : TokenList) (ts : List Token) : Prop :=
  part.tokens = ts ∧ ∃ a b, a ≤ b ∧ b ≤ l.size ∧ part = l.slice a b

theorem IsPart.faithful {part : TokenList} {ts : List Token} (h : l.IsPart part ts) (hl : l.Faithful) :
    part.Faithful := by
  obtain ⟨-, a, b, hab, -, rfl⟩ := h
  exact hl.slice hab

theorem forall_of_isPart {P : TokenList → Prop} {ss : List TokenList} {parts : List (List Token)}
    (h : List.Forall₂ l.IsPart ss parts) (hP : ∀ s m, m ∈ parts → l.IsPart s m → P s) : ∀ s ∈ ss, P s := by
  induction h with
  | nil => simp
  | cons hs _ ih =>
    exact List.forall_mem_cons.2 ⟨hP _ _ List.mem_cons_self hs, ih fun s m hm => hP s m (List.mem_cons_of_mem _ hm)⟩

/-- A part is that of a section, which has what each section has. -/
theorem exists_of_isPart {β : Type} {R : TokenList → β → Prop} {ss : List TokenList} {parts : List (List Token)}
    {xs : List β} (h : List.Forall₂ l.IsPart ss parts) (hxs : List.Forall₂ R ss xs) :
    ∀ m ∈ parts, ∃ s x, l.IsPart s m ∧ R s x := by
  induction h generalizing xs with
  | nil => simp
  | cons hs _ ih =>
    obtain _ | ⟨hx, hxs⟩ := hxs
    exact List.forall_mem_cons.2 ⟨⟨_, _, hs, hx⟩, ih hxs⟩

/-- Cutting at the tokens between parts gives the parts. -/
theorem cutFrom_joints (m : List Token) (rest : List (Text × List Token)) {pre : List Token}
    (h : l.tokens = pre ++ joined m rest) :
    List.Forall₂ l.IsPart (l.cutFrom pre.length (joints pre.length m rest)) (m :: rest.map Prod.snd) := by
  induction rest generalizing m pre with
  | nil =>
    have hsize : l.size = pre.length + m.length := by rw [size_eq, h, joined, List.length_append]
    refine .cons ⟨?_, _, _, ?_, Nat.le_refl _, rfl⟩ .nil
    · exact tokens_slice_drop h
    · omega
  | cons p rest ih =>
    obtain ⟨t, m'⟩ := p
    have hsplit : l.tokens = pre ++ m ++ .fixed t :: joined m' rest := by rw [h, joined, List.append_assoc]
    have hrest := @ih m' (pre ++ m ++ [.fixed t]) (by rw [hsplit]; simp)
    have hlength : (pre ++ m ++ [Token.fixed t]).length = pre.length + m.length + 1 := by simp; omega
    rw [hlength] at hrest
    refine .cons ⟨tokens_slice_mid hsplit, _, _, Nat.le_add_right _ _, ?_, rfl⟩ hrest
    rw [size_eq, hsplit]
    simp

theorem cutAt_joints {m : List Token} {rest : List (Text × List Token)} (h : l.tokens = joined m rest) :
    List.Forall₂ l.IsPart (l.cutAt (joints 0 m rest)) (m :: rest.map Prod.snd) :=
  @cutFrom_joints _ m rest [] h

theorem sum_size_of_isPart {ss : List TokenList} {parts : List (List Token)} (h : List.Forall₂ l.IsPart ss parts) :
    (ss.map size).sum = (parts.map List.length).sum := by
  induction h with
  | nil => rfl
  | cons hs _ ih => rw [List.map_cons, List.map_cons, List.sum_cons, List.sum_cons, ih, size_eq, hs.1]

theorem length_joined (m : List Token) (rest : List (Text × List Token)) : (joined m rest).length =
    ((m :: rest.map Prod.snd).map List.length).sum + rest.length := by
  induction rest generalizing m with
  | nil => simp [joined]
  | cons p rest ih =>
    rw [joined, List.length_append, List.length_cons, ih]
    simp only [List.map_cons, List.sum_cons, List.length_cons]
    omega

/-! ## Parts between separators -/

/-- The indices of the tokens outside of brackets that satisfy a test. -/
def splitPoints (p : Token → Bool) (depth : Int) (i : Nat) : List Token → List Nat
  | [] => []
  | t :: ts =>
    if depth = 0 ∧ t.isPlain = true ∧ p t = true then i :: splitPoints p (depth + t.weight) (i + 1) ts
    else splitPoints p (depth + t.weight) (i + 1) ts

theorem splitByFrom_eq (p : Token → Bool) (ts : List Token) : ∀ {start i : Nat} {depth : Int}, i + ts.length = l.size →
    splitByFrom l p start depth i ts = l.cutFrom start (splitPoints p depth i ts) := by
  induction ts with
  | nil =>
    intro start i depth hi
    rw [List.length_nil, Nat.add_zero] at hi
    rw [splitByFrom, splitPoints, cutFrom, hi]
  | cons t ts ih =>
    intro start i depth hi
    have hi' : i + 1 + ts.length = l.size := by rw [List.length_cons] at hi; omega
    rw [splitByFrom, splitPoints]
    by_cases ho : t.isOpen
    · simp [ho, Token.isPlain, Token.weight, ih hi']
    · by_cases hc : t.isClose
      · simp [ho, hc, Token.isPlain, Token.weight, ih hi', Int.sub_eq_add_neg]
      · by_cases hd : depth = 0 ∧ p t = true
        · simp [ho, hc, hd.1, hd.2, Token.isPlain, Token.weight, ih hi', cutFrom]
        · have hw : depth + t.weight = depth := by simp [Token.weight, ho, hc]
          rw [if_neg ho, if_neg hc, if_neg (by simpa using hd), if_neg fun h => hd ⟨h.1, h.2.2⟩, ih hi', hw]

/-- Splitting at tokens of a kind is cutting at their indices. -/
theorem splitBy_eq (p : Token → Bool) : l.splitBy p = l.cutAt (splitPoints p 0 0 l.tokens) :=
  splitByFrom_eq p l.tokens (by rw [size_eq, Nat.zero_add])

theorem splitPoints_append {p : Token → Bool} {depth : Int} {i : Nat} (u v : List Token) :
    splitPoints p depth i (u ++ v) =
      splitPoints p depth i u ++ splitPoints p (depth + bracketDepth u) (i + u.length) v := by
  induction u generalizing depth i with
  | nil => simp [splitPoints]
  | cons t u ih =>
    rw [List.cons_append, splitPoints, splitPoints, ih, bracketDepth_cons, List.length_cons, Int.add_assoc,
      Nat.add_comm u.length, Nat.add_assoc]
    split <;> rfl

/-- Within brackets nothing is split. -/
theorem splitPoints_eq_nil {p : Token → Bool} {depth : Int} {ts : List Token}
    (h : ∀ u v, ts = u ++ v → 1 ≤ depth + bracketDepth u) (i : Nat) : splitPoints p depth i ts = [] := by
  induction ts generalizing depth i with
  | nil => rfl
  | cons t ts ih =>
    rw [forall_prefix_cons] at h
    rw [splitPoints, if_neg fun hs => by omega]
    exact ih h.2 (i + 1)

theorem mem_splitPoints {p : Token → Bool} {depth : Int} {i x : Nat} {ts : List Token} : x ∈ splitPoints p depth i ts ↔
    ∃ u t v, ts = u ++ t :: v ∧ x = i + u.length ∧ depth + bracketDepth u = 0 ∧ t.isPlain = true ∧ p t = true := by
  induction ts generalizing depth i with
  | nil => simp [splitPoints]
  | cons t ts ih =>
    rw [splitPoints]
    constructor
    · intro h
      have hrest (h : x ∈ splitPoints p (depth + t.weight) (i + 1) ts) : ∃ u t' v, t :: ts = u ++ t' :: v ∧
          x = i + u.length ∧ depth + bracketDepth u = 0 ∧ t'.isPlain = true ∧ p t' = true := by
        obtain ⟨u, t', v, rfl, hx, hd, hp⟩ := ih.1 h
        exact ⟨t :: u, t', v, rfl, by rw [hx, List.length_cons]; omega, by rw [bracketDepth_cons]; omega, hp⟩
      split at h
      · next hc =>
        rcases List.mem_cons.1 h with rfl | h
        · exact ⟨[], t, ts, rfl, rfl, by simpa using hc.1, hc.2⟩
        · exact hrest h
      · exact hrest h
    · rintro ⟨u, t', v, huv, hx, hd, hp⟩
      match u with
      | [] =>
        obtain ⟨rfl, rfl⟩ := List.cons.inj huv
        rw [if_pos ⟨by simpa using hd, hp⟩, hx]
        exact List.mem_cons_self
      | t₀ :: u =>
        obtain ⟨rfl, rfl⟩ := List.cons.inj huv
        have hmem : x ∈ splitPoints p (depth + t.weight) (i + 1) (u ++ t' :: v) :=
          ih.2 ⟨u, t', v, rfl, by rw [hx, List.length_cons]; omega, by rw [bracketDepth_cons] at hd; omega, hp⟩
        split
        · exact List.mem_cons_of_mem _ hmem
        · exact hmem

theorem pairwise_splitPoints {p : Token → Bool} {depth : Int} {i : Nat} (ts : List Token) :
    (splitPoints p depth i ts).Pairwise (· < ·) := by
  induction ts generalizing depth i with
  | nil => exact List.Pairwise.nil
  | cons t ts ih =>
    rw [splitPoints]
    split
    · refine List.pairwise_cons.2 ⟨fun x hx => ?_, ih⟩
      obtain ⟨u, -, -, -, hx, -⟩ := mem_splitPoints.1 hx
      omega
    · exact ih

/-- The separators between parts without any are where the parts are joined. -/
theorem splitPoints_joined {p : Token → Bool} {t : Text} (ht : (Token.fixed t).isPlain = true)
    (hp : p (.fixed t) = true) {m : List Token} {ms : List (List Token)}
    (h : ∀ m' ∈ m :: ms, bracketDepth m' = 0 ∧ ∀ i, splitPoints p 0 i m' = []) (i : Nat) :
    splitPoints p 0 i (joined m (ms.map fun m => (t, m))) = joints i m (ms.map fun m => (t, m)) := by
  induction ms generalizing m i with
  | nil => exact (h m List.mem_cons_self).2 i
  | cons m' ms ih =>
    obtain ⟨hd, hm⟩ := h m List.mem_cons_self
    rw [List.map_cons, joined, joints, splitPoints_append, hm, hd, splitPoints, if_pos ⟨by omega, ht, hp⟩,
      Token.weight_of_plain ht, List.nil_append]
    exact congrArg _ (ih (fun m'' hm'' => h m'' (List.mem_cons_of_mem _ hm'')) _)

/-- Ascending indices outside of brackets, where tokens satisfy a test. The index that the first part begins at comes
first. -/
inductive CutPoints (p : Token → Bool) (ts : List Token) : Nat → List Nat → Prop
  | nil {start : Nat} : start ≤ ts.length → bracketDepth (ts.take start) = 0 → CutPoints p ts start []
  | cons {start i : Nat} {is : List Nat} {t : Token} : start ≤ i → bracketDepth (ts.take start) = 0 → ts[i]? = some t →
      p t = true → bracketDepth (ts.take i) = 0 → CutPoints p ts (i + 1) is → CutPoints p ts start (i :: is)

theorem cutPoints_splitPoints {p : Token → Bool} {ts done rest : List Token} {start : Nat} (h : ts = done ++ rest)
    (hle : start ≤ done.length) (hstart : bracketDepth (ts.take start) = 0) :
    CutPoints p ts start (splitPoints p (bracketDepth done) done.length rest) := by
  induction rest generalizing done start with
  | nil =>
    refine .nil ?_ hstart
    rw [h, List.length_append]
    omega
  | cons t rest ih =>
    have h' : ts = (done ++ [t]) ++ rest := by rw [h]; simp
    have hdepth : bracketDepth (done ++ [t]) = bracketDepth done + t.weight := by simp
    have hlength : (done ++ [t]).length = done.length + 1 := by simp
    rw [splitPoints, ← hdepth, ← hlength]
    split
    · next hc =>
      have htake : ts.take done.length = done := by rw [h, List.take_left]
      have htake' : ts.take (done.length + 1) = done ++ [t] := by rw [← hlength, h', List.take_left]
      have hnext : bracketDepth (ts.take (done ++ [t]).length) = 0 := by
        rw [hlength, htake', hdepth, hc.1, Token.weight_of_plain hc.2.1]
        rfl
      have hrest := ih h' (Nat.le_refl _) hnext
      rw [hlength] at hrest ⊢
      exact .cons hle hstart (by simp [h]) hc.2.2 (by rw [htake]; exact hc.1) hrest
    · exact ih h' (by omega) hstart

end TokenList

end Mixfix
