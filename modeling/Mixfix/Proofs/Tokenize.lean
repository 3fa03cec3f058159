import Mathlib.Data.List.Chain
import Mixfix.Proofs.Names
import Mixfix.TokenList.OfText

/-!
# Token lists of texts

A text that is split by fixed texts is still what its tokens and spaces write (`Row.render_ofText`). Among the tokens,
fixed ones are some that the text is split by, of two that stand side by side one is fixed, and a token is a number
literal exactly if its text reads as one (`TokenList.tokenized_ofText`). All of this also holds of slices
(`TokenList.Tokenized.slice`).
-/

namespace Mixfix

/-! ## Texts between spaces -/

namespace Text

variable {t u c v : Text}

theorem eq_spaces_of_forall (h : ∀ x ∈ u, isSpace x = true) : u = spaces u.length :=
  List.eq_replicate_iff.2 ⟨rfl, fun x hx => eq_of_beq (h x hx)⟩

theorem trimSpaces_eq_nil_iff : t.trimSpaces = [] ↔ ∀ x ∈ t, isSpace x = true := by
  obtain ⟨u, c, v, ht, hu, hv, hc, htrim⟩ := exists_trimBy isSpace t
  rw [trimSpaces, htrim]
  constructor
  · rintro rfl x hx
    rw [ht, List.append_nil] at hx
    exact (List.mem_append.1 hx).elim (hu x) (hv x)
  · intro h
    match c with
    | [] => rfl
    | x :: c =>
      have hx := h x (by rw [ht]; simp)
      rw [hc.1 x rfl] at hx
      cases hx

theorem length_takeWhile_space (hu : ∀ x ∈ u, isSpace x = true) (hc : ∀ x, c.head? = some x → isSpace x = false)
    (hne : c ≠ []) : ((u ++ (c ++ v)).takeWhile isSpace).length = u.length := by
  obtain ⟨x, c, rfl⟩ := List.exists_cons_of_ne_nil hne
  rw [List.takeWhile_append_of_pos hu, List.cons_append, List.takeWhile_cons_of_neg (by simp [hc x rfl]),
    List.append_nil]

/-- A text is what is left without the spaces around it, between these spaces. -/
theorem spaces_trimSpaces (h : t.trimSpaces ≠ []) :
    spaces t.leadingSpaces ++ t.trimSpaces ++ spaces t.trailingSpaces = t := by
  obtain ⟨u, c, v, rfl, hu, hv, hc, htrim⟩ := exists_trimBy isSpace t
  rw [trimSpaces, htrim] at h ⊢
  have hleading : (u ++ c ++ v).leadingSpaces = u.length := by
    rw [leadingSpaces, List.append_assoc]
    exact length_takeWhile_space hu hc.1 h
  have htrailing : (u ++ c ++ v).trailingSpaces = v.length := by
    rw [trailingSpaces, List.reverse_append, List.reverse_append, ← @List.length_reverse _ v]
    exact length_takeWhile_space (fun x hx => hv x (List.mem_reverse.1 hx)) (by simpa [List.head?_reverse] using hc.2)
      (by simpa using h)
  rw [hleading, htrailing, ← eq_spaces_of_forall hu, ← eq_spaces_of_forall hv]

theorem clean_trimSpaces (t : Text) : Clean isSpace t.trimSpaces := by
  obtain ⟨u, c, v, -, -, -, hc, htrim⟩ := exists_trimBy isSpace t
  rw [trimSpaces, htrim]
  exact hc

/-- Clean text that begins or ends with spaces begins or ends with none. -/
theorem Clean.eq_zero_of_spaces {n : Nat} (h : Clean isSpace t) (ht : t = spaces n ++ u) : n = 0 := by
  match n with
  | 0 => rfl
  | n + 1 =>
    have := h.1 ' ' (by rw [ht]; rfl)
    cases this

theorem Clean.eq_zero_of_spaces_last {n : Nat} (h : Clean isSpace t) (ht : t = u ++ spaces n) : n = 0 := by
  match n with
  | 0 => rfl
  | n + 1 =>
    have := h.2 ' ' (by rw [ht, spaces, List.replicate_succ', ← List.append_assoc, List.getLast?_concat])
    cases this

end Text

/-! ## Rows write their texts -/

namespace Row

open Text

variable {splitter t : Text} {splitters : List Text}

theorem render_ofPiece (t : Text) : (ofPiece t).render = t := by
  rw [ofPiece]
  split
  · next h =>
    rw [List.isEmpty_iff, trimSpaces_eq_nil_iff] at h
    exact (eq_spaces_of_forall h).symm
  · next h =>
    rw [List.isEmpty_iff] at h
    rw [render, List.flatMap_singleton]
    exact spaces_trimSpaces h

theorem render_join (left right : Row) (t : Token) :
    (left.join t right).render = left.render ++ t.text ++ right.render := by
  simp [join, render, Spaced.render]

theorem render_ofPieces (splitter : Text) {ps : List Text} (h : ps ≠ []) :
    (ofPieces splitter ps).render = List.intercalate splitter ps := by
  induction ps with
  | nil => exact absurd rfl h
  | cons p ps ih =>
    match ps with
    | [] => rw [ofPieces, render_ofPiece, List.intercalate_singleton]
    | q :: ps =>
      rw [ofPieces, render_join, render_ofPiece, ih (List.cons_ne_nil _ _), List.intercalate_cons_cons, Token.text]

/-- A text that is split is what its row writes. -/
theorem render_splitText (h : splitter ≠ []) (t : Text) : (splitText splitter t).render = t := by
  rw [splitText, render_ofPieces _ (pieces_ne_nil splitter t), intercalate_pieces h]

/-- A clean text that is split has no spaces at its ends. -/
theorem splitText_clean (h : splitter ≠ []) (ht : Clean isSpace t) (hne : t ≠ []) :
    ∃ token rest, (splitText splitter t).items = ⟨0, token⟩ :: rest ∧ token.text ++ rest.flatMap Spaced.render = t := by
  have hrender := render_splitText h t
  rw [render] at hrender
  have htrailing := ht.eq_zero_of_spaces_last hrender.symm
  rw [htrailing, spaces, List.replicate_zero, List.append_nil] at hrender
  cases hitems : (splitText splitter t).items with
  | nil =>
    rw [hitems] at hrender
    exact absurd hrender.symm hne
  | cons s rest =>
    rw [hitems, List.flatMap_cons, Spaced.render, List.append_assoc] at hrender
    obtain ⟨n, token⟩ := s
    have hn : n = 0 := ht.eq_zero_of_spaces hrender.symm
    subst hn
    exact ⟨token, rest, rfl, hrender⟩

/-! ## Tokens of rows -/

/-- Of two tokens one is fixed. -/
def Beside (a b : Token) : Prop := a.fixed?.isSome = true ∨ b.fixed?.isSome = true

/-- Tokens of a text that is being split: raw texts have no spaces at their ends, no two of them stand side by side, and
fixed texts are among some given ones. -/
structure Tidy (splitters : List Text) (ts : List Token) : Prop where
  raw : ∀ t, .raw t ∈ ts → t ≠ [] ∧ Clean isSpace t
  fixed : ∀ t, .fixed t ∈ ts → t ∈ splitters
  number : ∀ t v, .number t v ∉ ts
  chain : ts.IsChain Beside

namespace Tidy

variable {ts us : List Token}

theorem nil : Tidy splitters [] := ⟨by simp, by simp, by simp, List.isChain_nil⟩

theorem singleton_fixed (h : t ∈ splitters) : Tidy splitters [.fixed t] :=
  ⟨by simp, by simpa using h, by simp, List.isChain_singleton _⟩

theorem append (ht : Tidy splitters ts) (hu : Tidy splitters us)
    (h : ∀ a ∈ ts.getLast?, ∀ b ∈ us.head?, Beside a b) : Tidy splitters (ts ++ us) where
  raw t hm := (List.mem_append.1 hm).elim (ht.raw t) (hu.raw t)
  fixed t hm := (List.mem_append.1 hm).elim (ht.fixed t) (hu.fixed t)
  number t v hm := (List.mem_append.1 hm).elim (ht.number t v) (hu.number t v)
  chain := List.isChain_append.2 ⟨ht.chain, hu.chain, h⟩

theorem ofPiece (t : Text) : Tidy splitters (Row.ofPiece t).tokens := by
  rw [Row.ofPiece]
  split
  · exact .nil
  · next h =>
    rw [List.isEmpty_iff] at h
    refine ⟨fun t' ht' => ?_, by simp [Row.tokens], by simp [Row.tokens], List.isChain_singleton _⟩
    cases List.mem_singleton.1 ht'
    exact ⟨h, clean_trimSpaces t⟩

theorem join {left right : Row} (hl : Tidy splitters left.tokens) (hr : Tidy splitters right.tokens)
    (h : t ∈ splitters) : Tidy splitters (left.join (.fixed t) right).tokens := by
  have htokens : (left.join (.fixed t) right).tokens = left.tokens ++ ([.fixed t] ++ right.tokens) := by
    simp [Row.tokens, Row.join]
  rw [htokens]
  refine hl.append ((singleton_fixed h).append hr ?_) ?_
  · intro a ha b _
    cases ha
    exact Or.inl rfl
  · intro a _ b hb
    cases hb
    exact Or.inr rfl

theorem splitText (h : splitter ∈ splitters) (t : Text) : Tidy splitters (Row.splitText splitter t).tokens := by
  rw [Row.splitText]
  induction pieces splitter t with
  | nil => exact .nil
  | cons p ps ih =>
    match ps with
    | [] => exact .ofPiece p
    | q :: ps => exact (ofPiece p).join ih h

/-- The tokens of a token that is split. -/
def splitToken (splitter : Text) : Token → List Token
  | .raw t => (Row.splitText splitter t).tokens
  | t => [t]

theorem tokens_withSpaces (n : Nat) (ss : List Spaced) : (withSpaces n ss).map Spaced.token = ss.map Spaced.token := by
  cases ss <;> rfl

theorem tokens_splitBy (r : Row) (splitter : Text) :
    (r.splitBy splitter).tokens = r.tokens.flatMap (splitToken splitter) := by
  have hitem (s : Spaced) : (splitItem splitter s).map Spaced.token = splitToken splitter s.token := by
    rw [splitItem]
    match htoken : s.token with
    | .raw t => exact tokens_withSpaces _ _
    | .fixed t | .number t v => simp [splitToken, htoken]
  simp only [tokens, splitBy, List.map_flatMap, List.flatMap_map, hitem]

theorem flatMap (h : splitter ∈ splitters) (hne : splitter ≠ []) (ht : Tidy splitters ts) :
    Tidy splitters (ts.flatMap (splitToken splitter)) := by
  have hsplit (a : Token) (ha : a ∈ ts) : Tidy splitters (splitToken splitter a) ∧ splitToken splitter a ≠ [] ∧
      (a.fixed?.isSome = true → splitToken splitter a = [a]) := by
    cases a with
    | raw t =>
      obtain ⟨token, rest, hitems, -⟩ := splitText_clean hne (ht.raw t ha).2 (ht.raw t ha).1
      refine ⟨splitText h t, ?_, fun hf => by cases hf⟩
      rw [splitToken, tokens, hitems]
      exact List.cons_ne_nil _ _
    | fixed t => exact ⟨singleton_fixed (ht.fixed t ha), List.cons_ne_nil _ _, fun _ => rfl⟩
    | number t v => exact absurd ha (ht.number t v)
  have hchain := ht.chain
  clear ht
  induction ts with
  | nil => exact .nil
  | cons a ts ih =>
    have hrest := ih (fun b hb => hsplit b (List.mem_cons_of_mem _ hb)) (List.isChain_cons.1 hchain).2
    obtain ⟨ha, -, hfixed⟩ := hsplit a List.mem_cons_self
    rw [List.flatMap_cons]
    refine ha.append hrest fun x hx y hy => ?_
    cases ts with
    | nil => cases hy
    | cons b ts =>
      obtain ⟨-, hbne, hbfixed⟩ := hsplit b (List.mem_cons_of_mem _ List.mem_cons_self)
      rcases (List.isChain_cons.1 hchain).1 b rfl with hf | hf
      · rw [hfixed hf] at hx
        cases hx
        exact Or.inl hf
      · rw [List.flatMap_cons, List.head?_append_of_ne_nil _ hbne, hbfixed hf] at hy
        cases hy
        exact Or.inr hf

end Tidy

/-- Splitting the raw tokens of a row keeps the text that the row writes. -/
theorem render_splitBy {r : Row} (h : splitter ≠ []) (hr : ∀ t, .raw t ∈ r.tokens → t ≠ [] ∧ Clean isSpace t) :
    (r.splitBy splitter).render = r.render := by
  rw [render, render, splitBy, List.flatMap_assoc]
  congr 1
  refine List.flatMap_congr fun s hs => ?_
  rw [splitItem]
  cases htoken : s.token with
  | raw t =>
    obtain ⟨hne, hclean⟩ := hr t (List.mem_map.2 ⟨s, hs, htoken⟩)
    obtain ⟨token, rest, hitems, htext⟩ := splitText_clean h hclean hne
    have htext' : (Token.raw t).text = t := rfl
    simp only [hitems, withSpaces, List.flatMap_cons, Spaced.render, List.append_assoc, htext, htoken, htext']
  | fixed t | number t v => simp

theorem foldl_splitBy {r : Row} {ss : List Text} (hss : ∀ s ∈ ss, s ≠ [] ∧ s ∈ splitters)
    (hr : Tidy splitters r.tokens) :
    (ss.foldl splitBy r).render = r.render ∧ Tidy splitters (ss.foldl splitBy r).tokens := by
  induction ss generalizing r with
  | nil => exact ⟨rfl, hr⟩
  | cons s ss ih =>
    obtain ⟨hne, hs⟩ := hss s List.mem_cons_self
    have hsplit : Tidy splitters (r.splitBy s).tokens := by
      rw [Tidy.tokens_splitBy]
      exact hr.flatMap hs hne
    obtain ⟨hrender, htidy⟩ := ih (fun s' hs' => hss s' (List.mem_cons_of_mem _ hs')) hsplit
    exact ⟨hrender.trans (render_splitBy hne hr.raw), htidy⟩

/-- The texts that are not empty, so that texts can be split by them. -/
def splittersOf (splitters : List Text) : List Text := splitters.filter fun s => !s.isEmpty

theorem mem_splittersOf {s : Text} : s ∈ splittersOf splitters ↔ s ∈ splitters ∧ s ≠ [] := by
  simp [splittersOf]

theorem ofText_splittersOf (splitters : List Text) (t : Text) :
    ofText (splittersOf splitters) t = ofText splitters t := by
  rw [ofText, ofText, splittersOf, List.filter_filter]
  simp

theorem ofText_spec (splitters : List Text) (t : Text) :
    (ofText splitters t).render = t ∧ Tidy (splittersOf splitters) (ofText splitters t).tokens := by
  obtain ⟨hrender, htidy⟩ := foldl_splitBy
    (fun s hs => ⟨(mem_splittersOf.1 hs).2, hs⟩) (Tidy.ofPiece t)
  exact ⟨hrender.trans (render_ofPiece t), htidy⟩

/-- The row of a text writes the text. -/
theorem render_ofText (splitters : List Text) (t : Text) : (ofText splitters t).render = t :=
  (ofText_spec splitters t).1

theorem text_readToken (t : Token) : (readToken t).text = t.text := by
  cases t with
  | raw t => rw [readToken]; split <;> rfl
  | fixed t | number t v => rfl

theorem render_readNumbers (r : Row) : r.readNumbers.render = r.render := by
  simp only [render, readNumbers, List.flatMap_map, Spaced.render, text_readToken]
  rfl

end Row

/-! ## Tokens of lists -/

theorem Limits.checkLength_of_le {limits : Limits} {t : Text} (h : t.length ≤ limits.expressionLength) :
    limits.checkLength t = .ok () := by
  rw [checkLength, check, if_neg]
  exact Int.not_lt.2 h

namespace TokenList

variable {l : TokenList} {splitters : List Text} {a b : Nat}

/-- A text that is not too long has a list. -/
theorem tokenize_of_le {limits : Limits} {t : Text} (h : t.length ≤ limits.expressionLength) :
    tokenize splitters limits t = .ok (ofText splitters t) := by
  rw [tokenize, Limits.checkLength_of_le h]
  rfl

/-- The list is one of a text that is split by some texts, or a part of such a list. -/
structure Tokenized (splitters : List Text) (l : TokenList) : Prop where
  faithful : l.Faithful
  fixed : ∀ t, .fixed t ∈ l.tokens → t ∈ splitters
  number : ∀ t v, .number t v ∈ l.tokens → readNumber? t = some v
  raw : ∀ t, .raw t ∈ l.tokens → readNumber? t = none
  ne_nil : ∀ t ∈ l.tokens, t.text ≠ []
  chain : l.tokens.IsChain Row.Beside

theorem tokenized_ofText (splitters : List Text) (t : Text) : (ofText splitters t).Tokenized splitters := by
  obtain ⟨hrender, htidy⟩ := Row.ofText_spec splitters t
  have htokens : (ofText splitters t).tokens = (Row.ofText splitters t).tokens.map Row.readToken := by
    simp [ofText, Row.readNumbers, Row.tokens]
  have hread (s s' : Token) (h : Row.readToken s = s') : s = s' ∧ (∀ t, s = .raw t → readNumber? t = none) ∨
      ∃ t v, s = .raw t ∧ s' = .number t v ∧ readNumber? t = some v := by
    cases s with
    | raw t =>
      rw [Row.readToken] at h
      cases hn : readNumber? t with
      | none => rw [hn] at h; exact Or.inl ⟨h, fun t' ht' => by cases ht'; exact hn⟩
      | some v => rw [hn] at h; exact Or.inr ⟨t, v, rfl, h.symm, hn⟩
    | fixed t | number t v => exact Or.inl ⟨h, fun t' ht' => by cases ht'⟩
  refine ⟨?_, fun t ht => ?_, fun t v ht => ?_, fun t ht => ?_, fun t ht => ?_, ?_⟩
  · exact (Row.render_readNumbers _).trans hrender |>.symm
  · rw [htokens] at ht
    obtain ⟨s, hs, heq⟩ := List.mem_map.1 ht
    rcases hread s _ heq with ⟨rfl, -⟩ | ⟨t', v, -, h, -⟩
    · exact (Row.mem_splittersOf.1 (htidy.fixed t hs)).1
    · cases h
  · rw [htokens] at ht
    obtain ⟨s, hs, heq⟩ := List.mem_map.1 ht
    rcases hread s _ heq with ⟨rfl, -⟩ | ⟨t', v', -, h, hn⟩
    · exact absurd hs (htidy.number t v)
    · cases h
      exact hn
  · rw [htokens] at ht
    obtain ⟨s, hs, heq⟩ := List.mem_map.1 ht
    rcases hread s _ heq with ⟨rfl, hn⟩ | ⟨t', v, -, h, -⟩
    · exact hn t rfl
    · cases h
  · rw [htokens] at ht
    obtain ⟨s, hs, rfl⟩ := List.mem_map.1 ht
    rw [Row.text_readToken]
    cases s with
    | raw t => exact (htidy.raw t hs).1
    | fixed t => exact (Row.mem_splittersOf.1 (htidy.fixed t hs)).2
    | number t v => exact absurd hs (htidy.number t v)
  · rw [htokens, List.isChain_map]
    refine htidy.chain.imp fun s s' h => ?_
    have hfixed (s : Token) (h : s.fixed?.isSome = true) : (Row.readToken s).fixed?.isSome = true := by
      cases s with
      | fixed t => rfl
      | raw t | number t v => cases h
    exact h.imp (hfixed s) (hfixed s')

theorem Tokenized.slice (h : l.Tokenized splitters) (hab : a ≤ b) : (l.slice a b).Tokenized splitters := by
  have hsub : (l.slice a b).tokens <:+: l.tokens := by
    rw [tokens_slice]
    exact (List.take_prefix _ _).isInfix.trans (List.drop_suffix _ _).isInfix
  exact ⟨h.faithful.slice hab, fun t ht => h.fixed t (hsub.subset ht), fun t v ht => h.number t v (hsub.subset ht),
    fun t ht => h.raw t (hsub.subset ht), fun t ht => h.ne_nil t (hsub.subset ht), h.chain.infix hsub⟩

/-- There are no more tokens than characters. -/
theorem Tokenized.size_le (h : l.Tokenized splitters) : l.size ≤ l.text.length := by
  have hitems (ss : List Spaced) (hss : ∀ s ∈ ss, s.token.text ≠ []) :
      ss.length ≤ (ss.flatMap Spaced.render).length := by
    induction ss with
    | nil => exact Nat.le_refl 0
    | cons s ss ih =>
      have hs := List.length_pos_iff.2 (hss s List.mem_cons_self)
      have hrest := ih fun s' hs' => hss s' (List.mem_cons_of_mem _ hs')
      rw [List.flatMap_cons, List.length_append, List.length_cons, Spaced.render, List.length_append]
      omega
  have hle := hitems l.items fun s hs => h.ne_nil s.token (List.mem_map_of_mem hs)
  rw [h.faithful, Row.render, List.length_append]
  exact Nat.le_trans hle (Nat.le_add_right _ _)

end TokenList

end Mixfix
