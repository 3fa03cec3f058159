import Mixfix.Proofs.Tokenize

/-!
# Tokens of parts of a text

A text is cut at the first occurrence of a fixed text, and what stands behind it is cut in turn
(`Text.firstInduction`), so the tokens of a text are those of what stands before the first occurrence, the fixed text,
and those of the rest (`Row.tokens_ofText_first`). From this it follows where a text may be taken apart:

* cut between two of its tokens, it falls into parts with the tokens before and behind the cut
  (`Row.tokens_ofText_parts`);
* a fixed text that overlaps with no other one cuts a text at its first occurrence, even if others go first
  (`Row.tokens_ofText_apart`), and one of a single character cuts it wherever it is put in (`Row.tokens_ofText_mark`).
-/

namespace Mixfix

/-! ## The first occurrence -/

namespace Text

variable {sep t p q : Text}

/-- No occurrence of the separator begins before the end of the text, if the separator follows it. -/
def Precedes (sep p : Text) : Prop := ¬ sep <:+: p ++ sep.dropLast

theorem Precedes.absent (h : Precedes sep p) : ¬ sep <:+: p := fun hp => h (hp.trans (List.prefix_append p _).isInfix)

/-- What the text ends with precedes the separator as well. -/
theorem Precedes.of_suffix (h : Precedes sep p) (hq : q <:+ p) : Precedes sep q := by
  obtain ⟨u, rfl⟩ := hq
  intro hs
  refine h (hs.trans ⟨u, [], ?_⟩)
  simp

theorem pieces_of_absent (h : ¬ sep <:+: t) : pieces sep t = [t] := by
  rw [pieces]
  induction t with
  | nil => rfl
  | cons x t ih =>
    rw [List.infix_cons_iff, not_or] at h
    rw [piecesFrom, if_neg fun hp => h.1 (List.isPrefixOf_iff_prefix.1 hp), ih h.2]
    rfl

theorem piecesFrom_append (u : Text) : piecesFrom sep u.length (u ++ q) = pieces sep q := by
  induction u with
  | nil => rfl
  | cons x u ih => rw [List.cons_append, List.length_cons, piecesFrom, ih]

/-- The first piece stands before the first occurrence. -/
theorem pieces_first (hne : sep ≠ []) (h : Precedes sep p) : pieces sep (p ++ (sep ++ q)) = p :: pieces sep q := by
  induction p with
  | nil =>
    obtain ⟨x, u, rfl⟩ := List.exists_cons_of_ne_nil hne
    have hprefix : (x :: u).isPrefixOf (x :: (u ++ q)) = true := List.isPrefixOf_iff_prefix.2 (List.prefix_append _ q)
    have hinside := @piecesFrom_append (x :: u) q u
    rw [List.nil_append, List.cons_append, pieces, piecesFrom, if_pos hprefix]
    exact congrArg _ hinside
  | cons x p ih =>
    have hnot : ¬ sep <+: x :: p ++ (sep ++ q) := by
      intro hp
      have hfront : x :: p ++ sep.dropLast <+: x :: p ++ (sep ++ q) :=
        (List.prefix_append_right_inj (x :: p)).2 ((List.dropLast_prefix sep).trans (List.prefix_append sep q))
      refine h (List.prefix_of_prefix_length_le hp hfront ?_).isInfix
      simp
      omega
    have hrest := ih (h.of_suffix (List.suffix_cons x p))
    rw [← List.isPrefixOf_iff_prefix, List.cons_append] at hnot
    rw [List.cons_append, pieces, piecesFrom, if_neg hnot, ← pieces, hrest]
    rfl

theorem exists_first (h : sep <:+: t) (hne : sep ≠ []) : ∃ p q, t = p ++ (sep ++ q) ∧ Precedes sep p := by
  induction t with
  | nil => exact absurd (List.infix_nil.1 h) hne
  | cons x t ih =>
    by_cases hp : sep <+: x :: t
    · obtain ⟨q, hq⟩ := hp
      refine ⟨[], q, hq.symm, fun hs => ?_⟩
      have hlength := hs.length_le
      have hpos := List.length_pos_iff.2 hne
      rw [List.nil_append, List.length_dropLast] at hlength
      omega
    · obtain ⟨p, q, rfl, hfirst⟩ := ih ((List.infix_cons_iff.1 h).resolve_left hp)
      refine ⟨x :: p, q, rfl, fun hs => ?_⟩
      rcases List.infix_cons_iff.1 hs with hs | hs
      · refine hp (hs.trans ?_)
        exact (List.prefix_append_right_inj (x :: p)).2 ((List.dropLast_prefix sep).trans (List.prefix_append sep q))
      · exact hfirst hs

/-- A text either has no occurrence of the separator, or one that comes first. -/
@[elab_as_elim]
theorem firstInduction {motive : Text → Prop} (hne : sep ≠ []) (none : ∀ t, ¬ sep <:+: t → motive t)
    (first : ∀ p q, Precedes sep p → motive q → motive (p ++ (sep ++ q))) (t : Text) : motive t := by
  induction hn : t.length using Nat.strong_induction_on generalizing t with
  | _ n ih =>
    by_cases h : sep <:+: t
    · obtain ⟨p, q, rfl, hfirst⟩ := exists_first h hne
      refine first p q hfirst (ih q.length ?_ q rfl)
      have := List.length_pos_iff.2 hne
      simp only [List.length_append] at hn
      omega
    · exact none t h

theorem Clean.infix_of_spaces {m n : Nat} (hs : Clean isSpace sep) (h : sep <:+: spaces m ++ t ++ spaces n) :
    sep <:+: t := by
  obtain ⟨u, c, v, ht, -, -, -, htrim⟩ := exists_trimBy isSpace t
  have hspace (n : Nat) : ∀ x ∈ spaces n, isSpace x = true := fun x hx => by rw [List.eq_of_mem_replicate hx]; rfl
  have hinside := infix_trimBy hs h
  rw [trimBy_append (hspace m) (hspace n), htrim] at hinside
  exact hinside.trans ⟨u, v, ht.symm⟩

theorem trimSpaces_spaces (m n : Nat) (t : Text) : trimSpaces (spaces m ++ t ++ spaces n) = t.trimSpaces :=
  trimBy_append (fun x hx => by rw [List.eq_of_mem_replicate hx]; rfl)
    (fun x hx => by rw [List.eq_of_mem_replicate hx]; rfl) t

theorem Precedes.spaces_append (h : Precedes sep p) (hs : Clean isSpace sep) (hne : sep ≠ []) (m : Nat) :
    Precedes sep (spaces m ++ p) := by
  intro hp
  obtain ⟨x, u, rfl⟩ := List.exists_cons_of_ne_nil hne
  induction m with
  | zero => exact h hp
  | succ m ih =>
    rcases List.infix_cons_iff.1 hp with hp | hp
    · have hx := hs.1 x rfl
      rw [(List.cons_prefix_cons.1 hp).1] at hx
      cases hx
    · exact ih hp

theorem spaces_append_inj {m n : Nat} {c d : Text} (hc : ∀ x, c.head? = some x → isSpace x = false)
    (hd : ∀ x, d.head? = some x → isSpace x = false) (h : spaces m ++ c = spaces n ++ d) : m = n ∧ c = d := by
  induction m generalizing n with
  | zero =>
    match n with
    | 0 => exact ⟨rfl, h⟩
    | n + 1 =>
      have := hc ' ' (by rw [show c = spaces (n + 1) ++ d from h]; rfl)
      cases this
  | succ m ih =>
    match n with
    | 0 =>
      have := hd ' ' (by rw [show d = spaces (m + 1) ++ c from h.symm]; rfl)
      cases this
    | n + 1 =>
      obtain ⟨rfl, heq⟩ := ih (List.cons.inj h).2
      exact ⟨rfl, heq⟩

end Text

/-! ## Rows of tokens without spaces at their ends -/

namespace Row

open Text

variable {ss : List Text} {s t p q : Text} {r r' : Row}

/-- Rows with the same tokens that write the same text are equal. -/
theorem eq_of_tokens (h : r.tokens = r'.tokens) (hrender : r.render = r'.render)
    (hclean : ∀ t ∈ r.tokens, t.text ≠ [] ∧ Clean isSpace t.text) : r = r' := by
  obtain ⟨items, n⟩ := r
  obtain ⟨items', n'⟩ := r'
  simp only [tokens] at h hclean
  simp only [render] at hrender
  induction items generalizing items' with
  | nil =>
    obtain rfl := List.map_eq_nil_iff.1 h.symm
    obtain ⟨rfl, -⟩ := @spaces_append_inj n n' [] [] (by simp) (by simp) (by simpa using hrender)
    rfl
  | cons x items ih =>
    obtain ⟨x', rest, rfl, htoken, hrest⟩ := List.map_eq_cons_iff.1 h.symm
    obtain ⟨k, token⟩ := x
    obtain ⟨k', token'⟩ := x'
    obtain rfl : token' = token := htoken
    obtain ⟨hne, hc⟩ := hclean token' List.mem_cons_self
    have hhead (u : Text) : ∀ x, (token'.text ++ u).head? = some x → isSpace x = false := by
      intro x hx
      rw [List.head?_append_of_ne_nil _ hne] at hx
      exact hc.1 x hx
    simp only [List.flatMap_cons, Spaced.render, List.append_assoc] at hrender
    obtain ⟨rfl, heq⟩ := spaces_append_inj (hhead _) (hhead _) hrender
    have := ih (fun t ht => hclean t (List.mem_cons_of_mem _ ht)) rest hrest.symm (List.append_cancel_left heq)
    simp only [mk.injEq] at this
    rw [this.1, this.2]

/-! ## Texts split by several texts -/

/-- Texts to split by that are not empty and have no spaces at their ends. -/
def Neat (ss : List Text) : Prop := ∀ s ∈ ss, s ≠ [] ∧ Clean isSpace s

theorem Neat.tail (h : Neat (s :: ss)) : Neat ss := fun s' hs' => h s' (List.mem_cons_of_mem _ hs')

theorem neat_splittersOf (h : ∀ s ∈ ss, Clean isSpace s) : Neat (splittersOf ss) := by
  intro s hs
  obtain ⟨hmem, hne⟩ := mem_splittersOf.1 hs
  exact ⟨hne, h s hmem⟩

theorem clean_of_mem_ofText (h : Neat ss) : ∀ a ∈ (ofText ss t).tokens, a.text ≠ [] ∧ Clean isSpace a.text := by
  intro a ha
  have htidy := (ofText_spec ss t).2
  match a with
  | .raw u => exact htidy.raw u ha
  | .fixed u => exact h u (mem_splittersOf.1 (htidy.fixed u ha)).1
  | .number u v => exact absurd ha (htidy.number u v)

/-- The tokens that tokens become when they are split by texts, one after the other. -/
def splitTokens (ss : List Text) (ts : List Token) : List Token :=
  ss.foldl (fun ts s => ts.flatMap (Tidy.splitToken s)) ts

theorem splitTokens_append (us vs : List Token) :
    splitTokens ss (us ++ vs) = splitTokens ss us ++ splitTokens ss vs := by
  induction ss generalizing us vs with
  | nil => rfl
  | cons s ss ih =>
    have hstep := ih (us.flatMap (Tidy.splitToken s)) (vs.flatMap (Tidy.splitToken s))
    rw [← List.flatMap_append] at hstep
    exact hstep

theorem splitTokens_fixed (u : Text) : splitTokens ss [.fixed u] = [.fixed u] := by
  induction ss with
  | nil => rfl
  | cons s ss ih => exact ih

theorem tokens_ofText (h : Neat ss) (t : Text) : (ofText ss t).tokens = splitTokens ss (ofPiece t).tokens := by
  have hfold (r : Row) : (ss.foldl splitBy r).tokens = splitTokens ss r.tokens := by
    clear h
    induction ss generalizing r with
    | nil => rfl
    | cons s ss ih => rw [List.foldl_cons, ih, Tidy.tokens_splitBy]; rfl
  rw [ofText, List.filter_eq_self.2 fun s hs => by simp [(h s hs).1], hfold]

theorem tokens_ofPiece (t : Text) :
    (ofPiece t).tokens = if t.trimSpaces.isEmpty then [] else [.raw t.trimSpaces] := by
  rw [ofPiece]
  split <;> rfl

/-- Spaces around a text are no part of its tokens. -/
theorem tokens_ofText_spaces (h : Neat ss) (m n : Nat) (t : Text) :
    (ofText ss (spaces m ++ t ++ spaces n)).tokens = (ofText ss t).tokens := by
  rw [tokens_ofText h, tokens_ofText h, tokens_ofPiece, trimSpaces_spaces, ← tokens_ofPiece]

theorem tokens_join (left right : Row) (a : Token) : (left.join a right).tokens = left.tokens ++ a :: right.tokens := by
  simp [join, tokens]

theorem splitText_of_absent (h : ¬ s <:+: t) : splitText s t = ofPiece t := by
  rw [splitText, pieces_of_absent h, ofPieces]

theorem splitText_first (hne : s ≠ []) (h : Precedes s p) :
    splitText s (p ++ (s ++ q)) = (ofPiece p).join (.fixed s) (splitText s q) := by
  obtain ⟨x, xs, hx⟩ := List.exists_cons_of_ne_nil (pieces_ne_nil s q)
  rw [splitText, pieces_first hne h, splitText, hx, ofPieces]

theorem tokens_splitText_spaces (hs : s ≠ [] ∧ Clean isSpace s) (m n : Nat) (t : Text) :
    (splitText s (spaces m ++ t ++ spaces n)).tokens = (splitText s t).tokens := by
  induction t using firstInduction hs.1 generalizing m with
  | none t h =>
    rw [splitText_of_absent fun hinside => h (hs.2.infix_of_spaces hinside), splitText_of_absent h, tokens_ofPiece,
      trimSpaces_spaces, ← tokens_ofPiece]
  | first p q hp ih =>
    have hq := ih 0
    have hp' := trimSpaces_spaces m 0 p
    rw [spaces, List.replicate_zero, List.nil_append] at hq
    rw [show spaces 0 = [] from rfl, List.append_nil] at hp'
    rw [List.append_assoc, List.append_assoc, List.append_assoc, ← List.append_assoc,
      splitText_first hs.1 (hp.spaces_append hs.2 hs.1 m), splitText_first hs.1 hp, tokens_join, tokens_join, hq,
      tokens_ofPiece, hp', ← tokens_ofPiece]

theorem flatMap_ofPiece (hs : s ≠ [] ∧ Clean isSpace s) (t : Text) :
    (ofPiece t).tokens.flatMap (Tidy.splitToken s) = (splitText s t).tokens := by
  obtain ⟨u, c, v, rfl, hu, hv, -, htrim⟩ := exists_trimBy isSpace t
  rw [tokens_ofPiece, trimSpaces, htrim, eq_spaces_of_forall hu, eq_spaces_of_forall hv, tokens_splitText_spaces hs]
  cases c with
  | nil => rfl
  | cons _ _ => simp [Tidy.splitToken]

theorem tokens_ofText_cons (h : Neat (s :: ss)) (t : Text) :
    (ofText (s :: ss) t).tokens = splitTokens ss (splitText s t).tokens := by
  rw [tokens_ofText h, ← flatMap_ofPiece (h s List.mem_cons_self)]
  rfl

/-- A text without the first of the texts is split by the others. -/
theorem ofText_of_absent (h : Neat (s :: ss)) (hs : ¬ s <:+: t) : ofText (s :: ss) t = ofText ss t := by
  refine eq_of_tokens ?_ (by rw [render_ofText, render_ofText]) (clean_of_mem_ofText h)
  rw [tokens_ofText_cons h, splitText_of_absent hs, tokens_ofText h.tail]

/-- A text with none of the texts to split by in it is one piece. -/
theorem ofText_of_forall_absent (h : Neat ss) (ht : ∀ s ∈ ss, ¬ s <:+: t) : ofText ss t = ofPiece t := by
  induction ss with
  | nil => rfl
  | cons s ss ih =>
    rw [ofText_of_absent h (ht s List.mem_cons_self)]
    exact ih h.tail fun s' hs' => ht s' (List.mem_cons_of_mem _ hs')

/-- A text is split at the first occurrence of the first of the texts. -/
theorem ofText_first (h : Neat (s :: ss)) (hp : Precedes s p) :
    ofText (s :: ss) (p ++ (s ++ q)) = (ofText ss p).join (.fixed s) (ofText (s :: ss) q) := by
  refine eq_of_tokens ?_ ?_ (clean_of_mem_ofText h)
  · rw [tokens_ofText_cons h, splitText_first (h s List.mem_cons_self).1 hp, tokens_join, tokens_join,
      tokens_ofText_cons h, tokens_ofText h.tail, splitTokens_append, ← List.singleton_append, splitTokens_append,
      splitTokens_fixed, List.singleton_append]
  · rw [render_join, render_ofText, render_ofText, render_ofText, Token.text, List.append_assoc]

theorem tokens_ofText_first (h : Neat (s :: ss)) (hp : Precedes s p) : (ofText (s :: ss) (p ++ (s ++ q))).tokens =
    (ofText ss p).tokens ++ .fixed s :: (ofText (s :: ss) q).tokens := by
  rw [ofText_first h hp, tokens_join]

/-! ## Cuts between tokens -/

/-- A text with no texts to split by has at most one token, so that a cut is before or behind all of it. -/
theorem tokens_ofText_parts_nil {is js : List Spaced} {n : Nat} (hrow : ofText [] t = ⟨is ++ js, n⟩) :
    (ofText [] (is.flatMap Spaced.render)).tokens = is.map Spaced.token ∧
      (ofText [] (js.flatMap Spaced.render ++ spaces n)).tokens = js.map Spaced.token := by
  have hneat : Neat [] := by simp [Neat]
  have hrender := render_ofText [] t
  have htokens : (ofText [] t).tokens = is.map Spaced.token ++ js.map Spaced.token := by
    rw [hrow, tokens, List.map_append]
  have hlength : is.length + js.length ≤ 1 := by
    have hcount := congrArg List.length htokens
    rw [List.length_append, List.length_map, List.length_map, tokens_ofText hneat, splitTokens, List.foldl_nil,
      tokens_ofPiece] at hcount
    rw [← hcount]
    split <;> simp
  rw [hrow, render, List.flatMap_append, List.append_assoc] at hrender
  rcases is with _ | ⟨i, is⟩
  · refine ⟨rfl, ?_⟩
    rw [← hrender] at htokens
    simpa using htokens
  rcases js with _ | ⟨j, js⟩
  · have hspaces := tokens_ofText_spaces hneat n 0 []
    have htrailing := tokens_ofText_spaces hneat 0 n ((i :: is).flatMap Spaced.render)
    rw [List.append_nil, show spaces 0 = [] from rfl, List.append_nil] at hspaces
    rw [List.flatMap_nil, List.nil_append] at hrender
    rw [show spaces 0 = [] from rfl, List.nil_append, hrender, htokens] at htrailing
    exact ⟨by simpa using htrailing.symm, by simpa using hspaces.trans (show (ofText [] []).tokens = [] from rfl)⟩
  · simp at hlength
    omega

/-- A cut before the first occurrence of a text, or directly at it, cuts what is before the occurrence. -/
theorem tokens_ofText_parts_first (h : Neat (s :: ss)) (hp : Precedes s p) {is js bs : List Spaced} {m k : Nat}
    (hrender : (is ++ js).flatMap Spaced.render ++ spaces m = p) (hq : ofText (s :: ss) q = ⟨bs, k⟩)
    (hi : (ofText ss (is.flatMap Spaced.render)).tokens = is.map Spaced.token)
    (hj : (ofText ss (js.flatMap Spaced.render ++ spaces m)).tokens = js.map Spaced.token) :
    (ofText (s :: ss) (is.flatMap Spaced.render)).tokens = is.map Spaced.token ∧
      (ofText (s :: ss) ((js ++ ⟨m, .fixed s⟩ :: bs).flatMap Spaced.render ++ spaces k)).tokens =
        (js ++ ⟨m, .fixed s⟩ :: bs).map Spaced.token := by
  have hqrender := render_ofText (s :: ss) q
  rw [hq, render] at hqrender
  rw [List.flatMap_append, List.append_assoc] at hrender
  have htext : (js ++ ⟨m, .fixed s⟩ :: bs).flatMap Spaced.render ++ spaces k =
      (js.flatMap Spaced.render ++ spaces m) ++ (s ++ q) := by
    have hfixed : Spaced.render ⟨m, .fixed s⟩ = spaces m ++ s := rfl
    rw [List.flatMap_append, List.flatMap_cons, hfixed, ← hqrender]
    simp
  have hnot : ¬ s <:+: is.flatMap Spaced.render := fun hinside => hp.absent (hinside.trans ⟨[], _, hrender⟩)
  constructor
  · rw [ofText_of_absent h hnot, hi]
  · rw [htext, tokens_ofText_first h (hp.of_suffix ⟨_, hrender⟩), hj, hq]
    simp [tokens]

/-- A text that is cut between two of its tokens falls into parts with the tokens before and behind the cut. -/
theorem tokens_ofText_parts (h : Neat ss) {is js : List Spaced} {n : Nat} (hrow : ofText ss t = ⟨is ++ js, n⟩) :
    (ofText ss (is.flatMap Spaced.render)).tokens = is.map Spaced.token ∧
      (ofText ss (js.flatMap Spaced.render ++ spaces n)).tokens = js.map Spaced.token := by
  induction ss generalizing t is js n with
  | nil => exact tokens_ofText_parts_nil hrow
  | cons s ss ih =>
    have hs := h s List.mem_cons_self
    induction t using firstInduction hs.1 generalizing is js n with
    | none t hnot =>
      have hrender := render_ofText (s :: ss) t
      rw [hrow, render, List.flatMap_append, List.append_assoc] at hrender
      rw [ofText_of_absent h hnot] at hrow
      have hi : ¬ s <:+: is.flatMap Spaced.render := fun hi => hnot (hi.trans ⟨[], _, hrender⟩)
      have hj : ¬ s <:+: js.flatMap Spaced.render ++ spaces n :=
        fun hj => hnot (hj.trans ⟨_, [], by rw [List.append_nil]; exact hrender⟩)
      rw [ofText_of_absent h hi, ofText_of_absent h hj]
      exact ih h.tail hrow
    | first p q hp ihq =>
      obtain ⟨as, m, has⟩ : ∃ as m, ofText ss p = ⟨as, m⟩ := ⟨_, _, rfl⟩
      obtain ⟨bs, k, hbs⟩ : ∃ bs k, ofText (s :: ss) q = ⟨bs, k⟩ := ⟨_, _, rfl⟩
      have hprender := render_ofText ss p
      rw [has, render] at hprender
      rw [ofText_first h hp, has, hbs, join, mk.injEq] at hrow
      obtain ⟨hitems, rfl⟩ := hrow
      rcases List.append_eq_append_iff.1 hitems with ⟨zs, rfl, hz⟩ | ⟨zs, rfl, rfl⟩
      · cases zs with
        | nil =>
          obtain rfl : js = ⟨m, .fixed s⟩ :: bs := by simpa using hz.symm
          obtain ⟨hi, hj⟩ := @ih p h.tail as [] m (by rw [List.append_nil]; exact has)
          rw [List.append_nil]
          exact @tokens_ofText_parts_first _ _ _ _ h hp as [] bs m k (by rw [List.append_nil]; exact hprender) hbs hi hj
        | cons z zs =>
          -- the cut is behind the first occurrence
          obtain ⟨rfl, rfl⟩ := List.cons.inj hz
          obtain ⟨hi, hj⟩ := ihq hbs
          have his : (as ++ ⟨m, .fixed s⟩ :: zs).flatMap Spaced.render = p ++ (s ++ zs.flatMap Spaced.render) := by
            have hfixed : Spaced.render ⟨m, .fixed s⟩ = spaces m ++ s := rfl
            rw [List.flatMap_append, List.flatMap_cons, hfixed, ← hprender]
            simp
          refine ⟨?_, hj⟩
          rw [his, tokens_ofText_first h hp, hi, has]
          simp [tokens]
      · obtain ⟨hi, hj⟩ := ih h.tail has
        exact tokens_ofText_parts_first h hp hprender hbs hi hj

/-- A text that is cut between two of its tokens falls into parts whose rows are the parts of its row. -/
theorem ofText_parts (h : Neat ss) {is js : List Spaced} {n : Nat} (hrow : ofText ss t = ⟨is ++ js, n⟩) :
    ofText ss (is.flatMap Spaced.render) = ⟨is, 0⟩ ∧ ofText ss (js.flatMap Spaced.render ++ spaces n) = ⟨js, n⟩ := by
  obtain ⟨hi, hj⟩ := tokens_ofText_parts h hrow
  refine ⟨eq_of_tokens hi ?_ (clean_of_mem_ofText h), eq_of_tokens hj ?_ (clean_of_mem_ofText h)⟩
  · rw [render_ofText, render, spaces, List.replicate_zero, List.append_nil]
  · rw [render_ofText, render]

/-! ## Texts that do not overlap -/

/-- The texts share no characters of a text that both occur in, unless they are equal: neither contains the other, and
what one of them ends with, the other does not begin with. -/
structure Apart (s u : Text) : Prop where
  not_infix : ¬ s <:+: u
  not_infix' : ¬ u <:+: s
  ends : ∀ v, v <:+ s → v ≠ [] → v ≠ s → ¬ v <+: u
  ends' : ∀ v, v <:+ u → v ≠ [] → v ≠ u → ¬ v <+: s

instance (s u : Text) : Decidable (Apart s u) :=
  decidable_of_iff (¬ s <:+: u ∧ ¬ u <:+: s ∧ (∀ v ∈ s.tails, v ≠ [] → v ≠ s → ¬ v <+: u) ∧
      ∀ v ∈ u.tails, v ≠ [] → v ≠ u → ¬ v <+: s) <| by
    simp only [List.mem_tails]
    exact ⟨fun h => ⟨h.1, h.2.1, h.2.2.1, h.2.2.2⟩, fun h => ⟨h.not_infix, h.not_infix', h.ends, h.ends'⟩⟩

theorem Apart.symm {u : Text} (h : Apart s u) : Apart u s := ⟨h.not_infix', h.not_infix, h.ends', h.ends⟩

theorem Apart.eq_nil {u v : Text} (h : Apart s u) (hs : v <:+ s) (hu : v <+: u) : v = [] := by
  by_contra hne
  by_cases heq : v = s
  · exact h.not_infix (heq ▸ hu.isInfix)
  · exact h.ends v hs hne heq hu

/-- A text stands before or behind an occurrence of another one that it does not overlap with. -/
theorem Apart.infix_or {u : Text} (h : Apart s u) (hs : s <:+: p ++ (u ++ q)) : s <:+: p ∨ s <:+: q := by
  obtain ⟨a, b, hab⟩ := hs
  rw [List.append_assoc] at hab
  rcases List.append_eq_append_iff.1 hab with ⟨z, rfl, hz⟩ | ⟨z, -, hz⟩
  · -- it begins before the other one, and cannot reach into it
    rcases List.append_eq_append_iff.1 hz with ⟨w, rfl, -⟩ | ⟨w, rfl, hw⟩
    · exact .inl ⟨a, w, by simp⟩
    rcases List.append_eq_append_iff.1 hw with ⟨v, rfl, -⟩ | ⟨v, rfl, -⟩
    · exact absurd ⟨z, v, by simp⟩ h.not_infix'
    · obtain rfl := h.eq_nil (List.suffix_append z w) (List.prefix_append w v)
      exact .inl ⟨a, [], by simp⟩
  · -- it begins where the other one begins or behind that, and cannot begin within it
    rcases List.append_eq_append_iff.1 hz with ⟨w, rfl, hw⟩ | ⟨w, rfl, hw⟩
    · exact .inr ⟨w, b, by rw [hw, List.append_assoc]⟩
    rcases List.append_eq_append_iff.1 hw with ⟨v, rfl, -⟩ | ⟨v, rfl, -⟩
    · exact absurd ⟨z, v, by simp⟩ h.not_infix
    · obtain rfl := h.symm.eq_nil (List.suffix_append z w) (List.prefix_append w v)
      exact .inr ⟨[], b, by simpa using hw⟩

/-- If one of the texts overlaps with none of the others, a text is cut at its first occurrence, wherever it comes among
them. -/
theorem tokens_ofText_apart (h : Neat ss) (hmem : s ∈ ss) (hapart : ∀ u ∈ ss, u ≠ s → Apart u s) (hp : Precedes s p)
    (q : Text) :
    (ofText ss (p ++ (s ++ q))).tokens = (ofText ss p).tokens ++ .fixed s :: (ofText ss q).tokens := by
  induction ss generalizing p q with
  | nil => cases hmem
  | cons u ss ih =>
    have hu := h u List.mem_cons_self
    by_cases heq : u = s
    · subst heq
      rw [tokens_ofText_first h hp, ofText_of_absent h hp.absent]
    have hus := hapart u List.mem_cons_self heq
    have hrest {p : Text} (hp : Precedes s p) (q : Text) := ih h.tail (List.mem_of_ne_of_mem (Ne.symm heq) hmem)
      (fun u' hu' => hapart u' (List.mem_cons_of_mem _ hu')) hp q
    induction p using firstInduction hu.1 with
    | none p hup =>
      induction q using firstInduction hu.1 with
      | none q huq =>
        have hnot : ¬ u <:+: p ++ (s ++ q) := fun hinside => (hus.infix_or hinside).elim hup huq
        rw [ofText_of_absent h hnot, ofText_of_absent h hup, ofText_of_absent h huq, hrest hp]
      | first p' q' hp' _ =>
        have hfirst : Precedes u (p ++ (s ++ p')) := by
          intro hinside
          rw [List.append_assoc, List.append_assoc] at hinside
          exact (hus.infix_or hinside).elim hup hp'
        have hsplit : p ++ (s ++ (p' ++ (u ++ q'))) = p ++ (s ++ p') ++ (u ++ q') := by simp
        rw [hsplit, tokens_ofText_first h hfirst, tokens_ofText_first h hp', ofText_of_absent h hup, hrest hp,
          List.append_assoc, List.cons_append]
    | first p' q' hp' ihq' =>
      have hq' : Precedes s q' := hp.of_suffix ⟨p' ++ u, by simp⟩
      have hsplit : p' ++ (u ++ q') ++ (s ++ q) = p' ++ (u ++ (q' ++ (s ++ q))) := by simp
      rw [hsplit, tokens_ofText_first h hp', tokens_ofText_first h hp', ihq' hq', List.append_assoc, List.cons_append]

/-! ## Marks that are put in -/

/-- Of the texts, only the one of this character contains it. -/
def Marks (ss : List Text) (c : Char) : Prop := ∀ s ∈ ss, c ∈ s → s = [c]

/-- Texts without common characters do not overlap. -/
theorem apart_of_disjoint {u : Text} (hs : s ≠ []) (hu : u ≠ []) (h : List.Disjoint s u) : Apart s u where
  not_infix hinside := by
    obtain ⟨x, hx⟩ := List.exists_mem_of_ne_nil s hs
    exact h hx (hinside.subset hx)
  not_infix' hinside := by
    obtain ⟨x, hx⟩ := List.exists_mem_of_ne_nil u hu
    exact h (hinside.subset hx) hx
  ends v hend hv _ hstart := by
    obtain ⟨x, hx⟩ := List.exists_mem_of_ne_nil v hv
    exact h (hend.subset hx) (hstart.subset hx)
  ends' v hend hv _ hstart := by
    obtain ⟨x, hx⟩ := List.exists_mem_of_ne_nil v hv
    exact h (hstart.subset hx) (hend.subset hx)

/-- A character that only one of the texts contains, and makes up, cuts a text wherever it stands. -/
theorem tokens_ofText_mark {c : Char} (h : Neat ss) (hmarks : Marks ss c) (hc : [c] ∈ ss) (p q : Text) :
    (ofText ss (p ++ c :: q)).tokens = (ofText ss p).tokens ++ .fixed [c] :: (ofText ss q).tokens := by
  have hne : [c] ≠ [] := List.cons_ne_nil c []
  have hcut {p : Text} (hp : Precedes [c] p) (q : Text) := tokens_ofText_apart h hc
    (fun u hu hne' => apart_of_disjoint (h u hu).1 hne fun x hx hxc =>
      hne' (hmarks u hu (List.mem_singleton.1 hxc ▸ hx)))
    hp q
  induction p using firstInduction hne with
  | none p hp => exact hcut (by simpa [Precedes] using hp) q
  | first p' q' hp' ih =>
    rw [List.append_assoc, List.append_assoc, hcut hp', hcut hp', ih, List.append_assoc, List.cons_append]

end Row

/-! ## Token lists of texts -/

namespace TokenList

open Row

variable {ss : List Text} {t : Text}

theorem toRow_ofText (ss : List Text) (t : Text) : (ofText ss t).toRow = (Row.ofText ss t).readNumbers := rfl

theorem tokens_ofText (ss : List Text) (t : Text) : (ofText ss t).tokens = (Row.ofText ss t).tokens.map readToken := by
  simp [ofText, readNumbers, Row.tokens]

theorem tokens_ofText_spaces (h : Neat ss) (m n : Nat) (t : Text) :
    (ofText ss (Text.spaces m ++ t ++ Text.spaces n)).tokens = (ofText ss t).tokens := by
  rw [tokens_ofText, Row.tokens_ofText_spaces h, tokens_ofText]

theorem tokens_ofText_mark {c : Char} (h : Neat ss) (hmarks : Marks ss c) (hc : [c] ∈ ss) (p q : Text) :
    (ofText ss (p ++ c :: q)).tokens = (ofText ss p).tokens ++ .fixed [c] :: (ofText ss q).tokens := by
  rw [tokens_ofText, Row.tokens_ofText_mark h hmarks hc, List.map_append, List.map_cons, tokens_ofText, tokens_ofText]
  rfl

theorem flatMap_render_readToken (items : List Spaced) :
    (items.map fun s => { s with token := readToken s.token }).flatMap Spaced.render = items.flatMap Spaced.render := by
  simp only [List.flatMap_map, Spaced.render, text_readToken]
  rfl

/-- A text that is cut between two of its tokens falls into parts whose rows are the parts of its row. -/
theorem ofText_parts (h : Neat ss) {is js : List Spaced} {n : Nat} (hrow : (ofText ss t).toRow = ⟨is ++ js, n⟩) :
    (ofText ss (is.flatMap Spaced.render)).toRow = ⟨is, 0⟩ ∧
      (ofText ss (js.flatMap Spaced.render ++ Text.spaces n)).toRow = ⟨js, n⟩ := by
  obtain ⟨items, n', hitems⟩ : ∃ items n', Row.ofText ss t = ⟨items, n'⟩ := ⟨_, _, rfl⟩
  rw [toRow_ofText, hitems, readNumbers, Row.mk.injEq] at hrow
  obtain ⟨hmap, rfl⟩ := hrow
  obtain ⟨is, js, rfl, rfl, rfl⟩ := List.map_eq_append_iff.1 hmap
  obtain ⟨hi, hj⟩ := Row.ofText_parts h hitems
  rw [flatMap_render_readToken, flatMap_render_readToken, toRow_ofText, toRow_ofText, hi, hj]
  exact ⟨rfl, rfl⟩

end TokenList

end Mixfix
