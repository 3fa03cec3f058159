import Mathlib.Data.List.Infix
import Mathlib.Logic.Relation
import Mixfix.Proofs.Splits
import Mixfix.Proofs.Tokenize
import Mixfix.TokenList.Split

/-!
# What the parts of a token list cover

A part of a token list is what one of the operations that slice or split lists gives (`TokenList.Part`). However many of
them follow one another, what comes out covers its place in the source (`TokenList.Covers`): its tokens and spaces write
its text, which stands in the source at its offset, and every token stands in the source at its position
(`TokenList.covers_of_tokenize`). This holds of the whole list to begin with, and each slice preserves it.
-/

namespace Mixfix

namespace TokenList

variable {l part : TokenList} {source : Text} {whole : List Token}

/-! ## Parts -/

/-- One operation on the list gives the part. -/
inductive Part (l : TokenList) : TokenList → Prop
  | subList {start stop : Int} {part : TokenList} : l.subList start stop = .ok part → Part l part
  | withoutFirst : Part l l.withoutFirst
  | withoutLast : Part l l.withoutLast
  | withoutFirstAndLast : Part l l.withoutFirstAndLast
  | splitBy {p : Token → Bool} {part : TokenList} : part ∈ l.splitBy p → Part l part
  | splitBySequence {sequence : List Token} {parts : List TokenList} {part : TokenList} :
      l.splitBySequence sequence = .ok (some parts) → part ∈ parts → Part l part
  | splitBySequenceInReverse {sequence : List Token} {parts : List TokenList} {part : TokenList} :
      l.splitBySequenceInReverse sequence = .ok (some parts) → part ∈ parts → Part l part
  | splitAtPoints {points : List Int} {parts : List TokenList} {part : TokenList} :
      l.splitAtPoints points = .ok parts → part ∈ parts → Part l part

/-- The part is a slice between indices in order, the list itself, or has neither tokens nor text. -/
inductive SliceOf (l : TokenList) : TokenList → Prop
  | slice {a b : Nat} : a ≤ b → SliceOf l (l.slice a b)
  | whole : SliceOf l l
  | empty : SliceOf l (TokenList.empty l.offset)

theorem sliceOf_splitByFrom {p : Token → Bool} (ts : List Token) : ∀ {start i : Nat} {depth : Int}, start ≤ i →
    ∀ part ∈ l.splitByFrom p start depth i ts, l.SliceOf part := by
  induction ts with
  | nil =>
    intro start i depth hle part hm
    rw [splitByFrom, List.mem_singleton] at hm
    exact hm ▸ .slice hle
  | cons t ts ih =>
    intro start i depth hle part hm
    rw [splitByFrom] at hm
    split at hm
    · exact ih (by omega) part hm
    · split at hm
      · exact ih (by omega) part hm
      · split at hm
        · rcases List.mem_cons.1 hm with rfl | hm
          · exact .slice hle
          · exact ih (Nat.le_refl _) part hm
        · exact ih (by omega) part hm

theorem sliceOf_splitBySequenceFrom (ts : List Token) : ∀ {ss : List Token} {start i : Nat} {depth : Int}
    {parts : List TokenList}, start ≤ i → i + ts.length = l.size →
    l.splitBySequenceFrom start depth i ts ss = some parts → ∀ part ∈ parts, l.SliceOf part := by
  induction ts with
  | nil =>
    intro ss start i depth parts hle hi h part hm
    cases ss with
    | nil =>
      rw [splitBySequenceFrom, Option.some.injEq] at h
      rw [← h, List.mem_singleton] at hm
      exact hm ▸ .slice (by simp at hi; omega)
    | cons s ss => cases h
  | cons t ts ih =>
    intro ss start i depth parts hle hi h part hm
    rw [List.length_cons] at hi
    cases ss with
    | nil =>
      rw [splitBySequenceFrom, Option.some.injEq] at h
      rw [← h, List.mem_singleton] at hm
      exact hm ▸ .slice (by omega)
    | cons s ss =>
      rw [splitBySequenceFrom] at h
      split at h
      · exact ih (by omega) (by omega) h part hm
      · split at h
        · exact ih (by omega) (by omega) h part hm
        · split at h
          · obtain ⟨rest, hrest, rfl⟩ := Option.map_eq_some_iff.1 h
            rcases List.mem_cons.1 hm with rfl | hm
            · exact .slice hle
            · exact ih (Nat.le_refl _) (by omega) hrest part hm
          · exact ih (by omega) (by omega) h part hm

theorem sliceOf_splitBySequenceBack (ts : List Token) : ∀ {ss : List Token} {stop : Nat} {depth : Int}
    {parts parts' : List TokenList}, ts.length ≤ stop → (∀ part ∈ parts, l.SliceOf part) →
    l.splitBySequenceBack stop depth parts ts ss = some parts' → ∀ part ∈ parts', l.SliceOf part := by
  induction ts with
  | nil =>
    intro ss stop depth parts parts' hle hparts h
    cases ss with
    | nil =>
      cases h
      exact List.forall_mem_cons.2 ⟨.slice (Nat.zero_le _), hparts⟩
    | cons s ss => cases h
  | cons t ts ih =>
    intro ss stop depth parts parts' hle hparts h
    rw [List.length_cons] at hle
    cases ss with
    | nil =>
      cases h
      exact List.forall_mem_cons.2 ⟨.slice (Nat.zero_le _), hparts⟩
    | cons s ss =>
      rw [splitBySequenceBack] at h
      split at h
      · exact ih (by omega) hparts h
      · split at h
        · exact ih (by omega) hparts h
        · split at h
          · exact ih (Nat.le_refl _) (List.forall_mem_cons.2 ⟨.slice hle, hparts⟩) h
          · exact ih (by omega) hparts h

theorem sliceOf_cutFrom {points : List Nat} : ∀ {start : Nat}, start ≤ l.size → (∀ p ∈ points, start ≤ p ∧ p < l.size) →
    points.Pairwise (· < ·) → ∀ part ∈ l.cutFrom start points, l.SliceOf part := by
  induction points with
  | nil =>
    intro start hle _ _ part hm
    rw [cutFrom, List.mem_singleton] at hm
    exact hm ▸ .slice hle
  | cons p points ih =>
    intro start hle hpoints hp part hm
    obtain ⟨⟨hstart, hsize⟩, hrest⟩ := List.forall_mem_cons.1 hpoints
    obtain ⟨hlt, hp⟩ := List.pairwise_cons.1 hp
    rw [cutFrom] at hm
    rcases List.mem_cons.1 hm with rfl | hm
    · exact .slice hstart
    · exact ih hsize (fun q hq => ⟨hlt q hq, (hrest q hq).2⟩) hp part hm

theorem sliceOf_splitAtPoints {points : List Int} {parts : List TokenList} (h : l.splitAtPoints points = .ok parts) :
    ∀ part ∈ parts, l.SliceOf part := by
  obtain ⟨inner, hinner, -, ⟨-, rfl⟩ | ⟨-, rfl⟩⟩ := exists_of_splitAtPoints h
  · exact List.forall_mem_singleton.2 .whole
  · exact sliceOf_cutFrom (Nat.zero_le _) (fun p hp => ⟨Nat.zero_le p, hinner.lt_size p hp⟩) hinner.pairwise

/-- Every part is a slice. -/
theorem Part.sliceOf (h : l.Part part) : l.SliceOf part := by
  cases h with
  | @subList start stop _ h =>
    rw [TokenList.subList] at h
    split at h
    · cases h
    · split at h
      · cases h
      · split at h
        · cases h
        · cases h
          exact .slice (by omega)
  | withoutFirst =>
    rw [TokenList.withoutFirst]
    split
    · exact .empty
    · next hne =>
      rw [TokenList.isEmpty, List.isEmpty_iff, ← List.length_eq_zero_iff] at hne
      exact .slice (by rw [size]; omega)
  | withoutLast =>
    rw [TokenList.withoutLast]
    split
    · exact .empty
    · exact .slice (Nat.zero_le _)
  | withoutFirstAndLast =>
    rw [TokenList.withoutFirstAndLast]
    split
    · exact .empty
    · exact .slice (by omega)
  | splitBy hm => exact sliceOf_splitByFrom _ (Nat.le_refl 0) part hm
  | @splitBySequence sequence parts _ h hm =>
    rw [TokenList.splitBySequence] at h
    split at h
    · cases h
    · exact sliceOf_splitBySequenceFrom _ (Nat.le_refl 0) (by rw [size_eq, Nat.zero_add]) (Except.ok.inj h) part hm
  | @splitBySequenceInReverse sequence parts _ h hm =>
    rw [TokenList.splitBySequenceInReverse] at h
    split at h
    · cases h
    · refine sliceOf_splitBySequenceBack _ ?_ (by simp) (Except.ok.inj h) part hm
      rw [List.length_reverse, size_eq]
  | splitAtPoints h hm => exact sliceOf_splitAtPoints h part hm

/-! ## Places in the source -/

/-- The list covers its place in the source, of which the whole list has the given tokens. -/
structure Covers (source : Text) (whole : List Token) (l : TokenList) : Prop where
  spacings_length : l.spacings.length = l.tokens.length + 1
  render : l.toRow.render = l.text
  text : ∃ n : Nat, l.offset = n ∧ n + l.text.length ≤ source.length ∧ l.text = (source.drop n).take l.text.length
  tokens : l.tokens <:+: whole
  position : ∀ (i : Nat) (t : Token), l.tokens[i]? = some t →
    ∃ n : Nat, l.tokenPosition i = .ok (n : Int) ∧ t.text = (source.drop n).take t.text.length

/-- What is said of a list to find its tokens in the source. -/
structure Lies (source : Text) (whole : List Token) (l : TokenList) : Prop where
  faithful : l.Faithful
  tokens : l.tokens <:+: whole
  text : ∃ n : Nat, l.offset = n ∧ n ≤ source.length ∧ l.text <+: source.drop n

/-- A token stands with its spaces behind the tokens before it, with theirs. -/
theorem Faithful.spaced_prefix_drop {i : Nat} {t : Token} (h : l.Faithful) (ht : l.tokens[i]? = some t) :
    Text.spaces (l.spacing i) ++ t.text <+: l.text.drop (l.boundary i) := by
  rw [Row.tokens, List.getElem?_map] at ht
  obtain ⟨s, hs, rfl⟩ := Option.map_eq_some_iff.1 ht
  have hlt := (List.getElem?_eq_some_iff.1 hs).1
  have hdrop : l.items.drop i = s :: l.items.drop (i + 1) := by
    rw [List.drop_eq_getElem_cons hlt, (List.getElem?_eq_some_iff.1 hs).2]
  have hspacing : l.spacing i = s.spaces := by rw [spacing, hs, Option.map_some, Option.getD_some]
  have htext : l.text = (l.items.take i).flatMap Spaced.render ++ ((Text.spaces s.spaces ++ s.token.text) ++
      ((l.items.drop (i + 1)).flatMap Spaced.render ++ Text.spaces l.trailing)) := by
    rw [h, Row.render]
    conv_lhs => rw [← List.take_append_drop i l.items, hdrop]
    simp [Spaced.render]
  rw [hspacing, htext, boundary, ← length_render_take, List.drop_left]
  exact List.prefix_append _ _

/-- A token begins behind the tokens before it, with their spaces, and its own spaces. -/
theorem Faithful.prefix_drop {i : Nat} {t : Token} (h : l.Faithful) (ht : l.tokens[i]? = some t) :
    t.text <+: l.text.drop (l.boundary i + l.spacing i) := by
  have hdrop := (h.spaced_prefix_drop ht).drop (l.spacing i)
  rwa [List.drop_left' (by simp [Text.spaces]), List.drop_drop] at hdrop

theorem boundary_le (h : l.Faithful) (a : Nat) : l.boundary a ≤ l.text.length := by
  rw [h, Row.render, ← List.take_append_drop a l.items, List.flatMap_append, boundary, ← length_render_take]
  simp only [List.length_append]
  omega

theorem Lies.sliceOf (h : l.Lies source whole) (hpart : l.SliceOf part) : part.Lies source whole := by
  obtain ⟨n, hoffset, hle, htext⟩ := h.text
  cases hpart with
  | @slice a b hab =>
    have hboundary := boundary_le h.faithful a
    refine ⟨h.faithful.slice hab, ?_, n + l.boundary a, ?_, ?_, ?_⟩
    · rw [tokens_slice]
      exact ((List.take_prefix _ _).isInfix.trans (List.drop_suffix _ _).isInfix).trans h.tokens
    · rw [TokenList.slice, hoffset]
      exact (Int.natCast_add _ _).symm
    · have := htext.length_le
      rw [List.length_drop] at this
      omega
    · rw [← List.drop_drop]
      exact (List.take_prefix _ _).trans (htext.drop _)
  | whole => exact h
  | empty => exact ⟨rfl, List.nil_infix, n, hoffset, hle, List.nil_prefix⟩

/-- A token of the list is read in the source at its position. -/
theorem Lies.exists_positionAt {i : Nat} {t : Token} (h : l.Lies source whole) (ht : l.tokens[i]? = some t) :
    ∃ p : Nat, l.positionAt i = p ∧ t.text <+: source.drop p := by
  obtain ⟨n, hoffset, -, htext⟩ := h.text
  refine ⟨n + (l.boundary i + l.spacing i), ?_, ?_⟩
  · rw [positionAt, hoffset]
    omega
  · rw [← List.drop_drop]
    exact (h.faithful.prefix_drop ht).trans (htext.drop _)

theorem Lies.covers (h : l.Lies source whole) : l.Covers source whole := by
  obtain ⟨n, hoffset, hle, htext⟩ := h.text
  refine ⟨l.toRow.spacings_length, h.faithful.symm, ⟨n, hoffset, ?_, List.prefix_iff_eq_take.1 htext⟩, h.tokens,
    fun i t ht => ?_⟩
  · have := htext.length_le
    rw [List.length_drop] at this
    omega
  · obtain ⟨p, hp, hprefix⟩ := h.exists_positionAt ht
    have hlt : i < l.size := by
      rw [size_eq]
      exact (List.getElem?_eq_some_iff.1 ht).1
    have hindex : resolveIndex (l.size + 1) i = some i := by
      rw [resolveIndex, if_pos (by omega), if_pos (by omega), Int.toNat_natCast]
    refine ⟨p, ?_, List.prefix_iff_eq_take.1 hprefix⟩
    rw [tokenPosition, hindex, ← hp]

/-- The list of a text has the whole text as its place. -/
theorem lies_ofText (splitters : List Text) (source : Text) :
    (ofText splitters source).Lies source (ofText splitters source).tokens where
  faithful := (tokenized_ofText splitters source).faithful
  tokens := List.infix_refl _
  text := ⟨0, rfl, Nat.zero_le _, List.prefix_refl _⟩

/-- The list of a text writes the text, and whatever parts are taken of it, one of the other, they cover their
places. -/
theorem covers_of_tokenize {splitters : List Text} {limits : Limits} (h : tokenize splitters limits source = .ok l) :
    l.toRow.render = source ∧ ∀ part, Relation.ReflTransGen Part l part → part.Covers source l.tokens := by
  have hl : l = ofText splitters source := by
    rw [tokenize] at h
    cases hlength : limits.checkLength source with
    | error e => rw [hlength] at h; cases h
    | ok u => rw [hlength] at h; exact (Except.ok.inj h).symm
  have hfaithful : l.Faithful := by
    rw [hl]
    exact (tokenized_ofText splitters source).faithful
  have htext : l.text = source := by rw [hl]; rfl
  have hlies : l.Lies source l.tokens := by
    refine ⟨hfaithful, List.infix_refl _, 0, by rw [hl]; rfl, Nat.zero_le _, ?_⟩
    rw [htext, List.drop_zero]
  refine ⟨hfaithful.symm.trans htext, fun part hparts => Lies.covers ?_⟩
  induction hparts with
  | refl => exact hlies
  | tail _ hpart ih => exact ih.sliceOf hpart.sliceOf

/-- From `f( 1 ,x )` to the argument `x`, which begins at the eighth character. -/
theorem covers_of_tokenize_sample : ∃ l part, tokenize [['('], [')'], [',']] {} " f( 1 ,x ) ".toList = .ok l ∧
    Relation.ReflTransGen Part l part ∧ part.tokens.map Token.text = [['x']] ∧ part.offset = 7 ∧
      l.toRow.render = " f( 1 ,x ) ".toList ∧ part.Covers " f( 1 ,x ) ".toList l.tokens := by
  let l := ofText [['('], [')'], [',']] " f( 1 ,x ) ".toList
  have hl : tokenize [['('], [')'], [',']] {} " f( 1 ,x ) ".toList = .ok l := rfl
  have hlast : ((l.withoutFirst.withoutFirstAndLast.splitAtPoints [1]).toOption.bind List.getLast?).map
      (fun part => (part.tokens.map Token.text, part.offset)) = some ([['x']], 7) := by decide +kernel
  cases hparts : l.withoutFirst.withoutFirstAndLast.splitAtPoints [1] with
  | error e =>
    rw [hparts] at hlast
    cases hlast
  | ok parts =>
    rw [hparts] at hlast
    obtain ⟨part, hpart, heq⟩ := Option.map_eq_some_iff.1 hlast
    obtain ⟨htext, hoffset⟩ := Prod.mk.inj heq
    have hsteps : Relation.ReflTransGen Part l part :=
      ((Relation.ReflTransGen.single .withoutFirst).tail .withoutFirstAndLast).tail
        (.splitAtPoints hparts (List.mem_of_getLast? hpart))
    obtain ⟨hrender, hcovers⟩ := covers_of_tokenize hl
    exact ⟨l, part, hl, hsteps, htext, hoffset, hrender, hcovers _ hsteps⟩

end TokenList

end Mixfix
