import Mathlib.Data.List.Forall2
import Mixfix.Proofs.Locality

/-!
# Spaces between tokens

A row is loosened by more spaces before, behind and between its tokens (`Row.Loosens`). The text that a loosened row
writes is the text of the row with spaces put in (`Text.Spread`), and no text without spaces occurs in it that did not
occur before (`Text.Spread.isInfix_of_spread`). So texts without spaces split it at the same places, and the tokens of a
text stay when spaces are put in between them (`TokenList.toRow_ofText_loosens`).
-/

namespace Mixfix

/-! ## Texts with spaces put in -/

namespace Text

variable {s t t' u u' : Text}

/-- The second text is the first one with spaces put in. -/
inductive Spread : Text → Text → Prop
  | nil : Spread [] []
  | keep {t t' : Text} (c : Char) : Spread t t' → Spread (c :: t) (c :: t')
  | space {t t' : Text} : Spread t t' → Spread t (' ' :: t')

namespace Spread

theorem refl (t : Text) : Spread t t := by
  induction t with
  | nil => exact .nil
  | cons c t ih => exact .keep c ih

theorem append (h : Spread t t') (hu : Spread u u') : Spread (t ++ u) (t' ++ u') := by
  induction h with
  | nil => exact hu
  | keep c _ ih => exact .keep c ih
  | space _ ih => exact .space ih

theorem spaces {m n : Nat} (h : m ≤ n) : Spread (spaces m) (spaces n) := by
  induction h with
  | refl => exact .refl _
  | step _ ih => exact .space ih

theorem isPrefix_of_spread (h : Spread t t') (hs : ' ' ∉ s) (hp : s <+: t') : s <+: t := by
  induction h generalizing s with
  | nil => exact hp
  | @keep t t' c _ ih =>
    match s with
    | [] => exact List.nil_prefix
    | x :: s =>
      obtain ⟨rfl, hrest⟩ := List.cons_prefix_cons.1 hp
      exact List.cons_prefix_cons.2 ⟨rfl, ih (fun hm => hs (List.mem_cons_of_mem _ hm)) hrest⟩
  | @space t t' _ _ =>
    match s with
    | [] => exact List.nil_prefix
    | x :: s =>
      obtain ⟨rfl, -⟩ := List.cons_prefix_cons.1 hp
      exact absurd List.mem_cons_self hs

/-- Text without spaces that occurs where spaces were put in occurred before. -/
theorem isInfix_of_spread (h : Spread t t') (hs : ' ' ∉ s) (hi : s <:+: t') : s <:+: t := by
  induction h with
  | nil => exact hi
  | @keep t t' c h ih =>
    rcases List.infix_cons_iff.1 hi with hp | hi
    · exact ((h.keep c).isPrefix_of_spread hs hp).isInfix
    · exact List.infix_cons_iff.2 (Or.inr (ih hi))
  | @space t t' h ih =>
    rcases List.infix_cons_iff.1 hi with hp | hi
    · exact (h.space.isPrefix_of_spread hs hp).isInfix
    · exact ih hi

theorem length_le (h : Spread t t') : t.length ≤ t'.length := by
  induction h with
  | nil => exact Nat.le_refl 0
  | keep c _ ih => exact Nat.succ_le_succ ih
  | space _ ih => exact Nat.le_succ_of_le ih

theorem isAllBlank_eq (h : Spread t t') : t'.isAllBlank = t.isAllBlank := by
  induction h with
  | nil => rfl
  | keep c _ ih => rw [isAllBlank, isAllBlank, List.all_cons, List.all_cons, ← isAllBlank, ih, isAllBlank]
  | space _ ih => rw [isAllBlank, List.all_cons, ← isAllBlank, ih]; rfl

end Spread

/-- Text without spaces that comes first still does when spaces are put in before it. -/
theorem Precedes.spread (h : Precedes s t) (hs : ' ' ∉ s) (ht : Spread t t') : Precedes s t' :=
  fun hi => h ((ht.append (.refl _)).isInfix_of_spread hs hi)

end Text

/-! ## Loosened rows -/

/-- The same token with as many spaces before it, or more. -/
structure Spaced.Loosens (s s' : Spaced) : Prop where
  token_eq : s'.token = s.token
  spaces_le : s.spaces ≤ s'.spaces

namespace Row

open Text

/-- The second row has the tokens of the first one, and as many spaces at each place, or more. -/
structure Loosens (r r' : Row) : Prop where
  items : List.Forall₂ Spaced.Loosens r.items r'.items
  trailing : r.trailing ≤ r'.trailing

variable {ss : List Text} {t : Text} {r r' left right : Row}

namespace Loosens

theorem tokens_eq (h : r.Loosens r') : r'.tokens = r.tokens := by
  rw [tokens, tokens, ← List.forall₂_eq_eq_eq, List.forall₂_map_left_iff, List.forall₂_map_right_iff]
  refine List.Forall₂.flip (h.items.imp fun s s' hs => ?_)
  exact hs.token_eq

/-- The text of a loosened row is that of the row with spaces put in. -/
theorem spread (h : r.Loosens r') : Spread r.render r'.render := by
  obtain ⟨items, n⟩ := r
  obtain ⟨items', n'⟩ := r'
  obtain ⟨hall, hn⟩ := h
  have hitem {s s' : Spaced} (hs : s.Loosens s') : Spread s.render s'.render := by
    rw [Spaced.render, Spaced.render, hs.token_eq]
    exact (Spread.spaces hs.spaces_le).append (.refl _)
  have hitems : Spread (items.flatMap Spaced.render) (items'.flatMap Spaced.render) := by
    clear hn
    simp only at hall
    induction hall with
    | nil => exact .nil
    | cons hs _ ih => exact (hitem hs).append ih
  exact hitems.append (.spaces hn)

/-- A loosened row of a join is a join of loosened rows. -/
theorem exists_join {a : Token} (h : (left.join a right).Loosens r') :
    ∃ left' right', r' = left'.join a right' ∧ left.Loosens left' ∧ right.Loosens right' := by
  obtain ⟨items, n⟩ := r'
  obtain ⟨hitems, htrailing⟩ := h
  simp only [join] at hitems htrailing
  obtain ⟨is, js, his, hjs, rfl⟩ : ∃ is js, List.Forall₂ Spaced.Loosens left.items is ∧
      List.Forall₂ Spaced.Loosens (⟨left.trailing, a⟩ :: right.items) js ∧ items = is ++ js := by
    refine ⟨items.take left.items.length, items.drop left.items.length, ?_, ?_, (List.take_append_drop _ _).symm⟩
    · simpa using List.forall₂_take left.items.length hitems
    · simpa using List.forall₂_drop left.items.length hitems
  obtain ⟨⟨m, b⟩, js, ⟨rfl, hm⟩, hright, rfl⟩ := List.forall₂_cons_left_iff.1 hjs
  exact ⟨⟨is, m⟩, ⟨js, n⟩, rfl, ⟨his, hm⟩, hright, htrailing⟩

end Loosens

/-! ## Tokens of loosened rows -/

theorem tokens_ofText_loosens_nil (h : (ofText [] t).Loosens r') :
    (ofText [] r'.render).tokens = (ofText [] t).tokens := by
  have hneat : Neat [] := by simp [Neat]
  obtain ⟨items, n⟩ := r'
  obtain ⟨hitems, -⟩ := h
  rw [show ofText [] t = ofPiece t from rfl, ofPiece] at hitems ⊢
  split at hitems
  · next he =>
    obtain rfl := List.forall₂_nil_left_iff.1 hitems
    have hspaces := tokens_ofText_spaces hneat n 0 []
    rw [List.append_nil, show spaces 0 = [] from rfl, List.append_nil] at hspaces
    rw [if_pos he]
    exact hspaces
  · next he =>
    obtain ⟨⟨m, a⟩, _, ⟨rfl, -⟩, hnil, rfl⟩ := List.forall₂_cons_left_iff.1 hitems
    obtain rfl := List.forall₂_nil_left_iff.1 hnil
    have hrender : (Row.mk [⟨m, .raw t.trimSpaces⟩] n).render = spaces m ++ t.trimSpaces ++ spaces n := by
      simp [render, Spaced.render, Token.text]
    have hclean := clean_trimSpaces t
    have htrim : t.trimSpaces.trimSpaces = t.trimSpaces := by
      have := trimBy_eq (p := isSpace) (u := []) (v := []) (by simp) (by simp) hclean
      simpa [trimSpaces] using this
    rw [hrender, tokens_ofText_spaces hneat, if_neg he, tokens_ofText hneat, tokens_ofPiece, htrim, if_neg he]
    rfl

/-- Texts without spaces split a loosened row at the same places. -/
theorem tokens_ofText_loosens (h : Neat ss) (hspace : ∀ s ∈ ss, ' ' ∉ s) (hr : (ofText ss t).Loosens r') :
    (ofText ss r'.render).tokens = (ofText ss t).tokens := by
  induction ss generalizing t r' with
  | nil => exact tokens_ofText_loosens_nil hr
  | cons s ss ih =>
    have hs := h s List.mem_cons_self
    have hno := hspace s List.mem_cons_self
    have ih {t : Text} {r' : Row} := @ih t r' h.tail fun s' hs' => hspace s' (List.mem_cons_of_mem _ hs')
    induction t using firstInduction hs.1 generalizing r' with
    | none t hnot =>
      have hspread := hr.spread
      rw [render_ofText] at hspread
      rw [ofText_of_absent h hnot] at hr ⊢
      rw [ofText_of_absent h fun hi => hnot (hspread.isInfix_of_spread hno hi)]
      exact ih hr
    | first p q hp ihq =>
      rw [ofText_first h hp] at hr ⊢
      obtain ⟨left, right, rfl, hleft, hright⟩ := hr.exists_join
      have hspread := hleft.spread
      rw [render_ofText] at hspread
      rw [render_join, Token.text, List.append_assoc, tokens_ofText_first h (hp.spread hno hspread), tokens_join,
        ih hleft, ihq hright]

/-- A loosened row of a text is the row of its own text. -/
theorem ofText_loosens (h : Neat ss) (hspace : ∀ s ∈ ss, ' ' ∉ s) (hr : (ofText ss t).Loosens r') :
    ofText ss r'.render = r' := by
  have htokens := tokens_ofText_loosens h hspace hr
  exact eq_of_tokens (htokens.trans hr.tokens_eq.symm) (render_ofText ss _) (clean_of_mem_ofText h)

/-- What loosens a row with numbers read is a loosened row with numbers read. -/
theorem Loosens.exists_readNumbers (h : r.readNumbers.Loosens r') : ∃ r'', r' = r''.readNumbers ∧ r.Loosens r'' := by
  obtain ⟨items, n⟩ := r
  obtain ⟨items', n'⟩ := r'
  obtain ⟨hitems, hn⟩ := h
  obtain ⟨items'', rfl, hitems''⟩ : ∃ items'' : List Spaced,
      items' = items''.map (fun s => { s with token := readToken s.token }) ∧
        List.Forall₂ Spaced.Loosens items items'' := by
    clear hn
    simp only [readNumbers, List.forall₂_map_left_iff] at hitems
    induction hitems with
    | nil => exact ⟨[], rfl, .nil⟩
    | @cons s s' _ _ hs _ ih =>
      obtain ⟨items'', rfl, hrest⟩ := ih
      obtain ⟨m, a⟩ := s'
      obtain ⟨rfl, hm⟩ := hs
      exact ⟨⟨m, s.token⟩ :: items'', rfl, .cons ⟨rfl, hm⟩ hrest⟩
  exact ⟨⟨items'', n'⟩, rfl, hitems'', hn⟩

end Row

namespace TokenList

variable {ss : List Text} {t : Text} {r : Row}

/-- Put between the tokens of a text, spaces leave its tokens as they are. -/
theorem toRow_ofText_loosens (h : Row.Neat ss) (hspace : ∀ s ∈ ss, ' ' ∉ s) (hr : (ofText ss t).toRow.Loosens r) :
    (ofText ss r.render).toRow = r := by
  rw [toRow_ofText] at hr ⊢
  obtain ⟨r', rfl, hr'⟩ := hr.exists_readNumbers
  rw [Row.render_readNumbers, Row.ofText_loosens h hspace hr']

end TokenList

end Mixfix
