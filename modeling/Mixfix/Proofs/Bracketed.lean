import Mixfix.Proofs.Calculator

/-!
# Redundant brackets

Every node of a tree has a section: the part of the token list that the parser built the node from
(`Grammar.SectionAt`, `Grammar.exists_sectionAt`). In place of the tokens of a section, others of the same meaning may
be put, if they are brackets in place of operands (`Grammar.Inside`): one step of this goes from a root to a section
directly below it (`Grammar.inside_of_read`), and steps go together (`Grammar.Inside.trans`). So brackets around a
section do not change the tree of the text (`Builder.build_bracketed`).
-/

namespace Mixfix

variable {α : Type}

/-! ## Nodes of trees -/

namespace Tree

/-- The trees directly below the root. -/
def children : Tree α → List (Tree α)
  | call _ _ args => args
  | operation _ _ operands => operands
  | number _ _ | reference _ _ | unknown _ _ => []

/-- The tree at a path: the places, among the trees below each root, of the trees on the way. -/
def at? : Tree α → List Nat → Option (Tree α)
  | t, [] => some t
  | t, i :: path => (t.children[i]?).bind fun t => at? t path

end Tree

namespace TokenList

/-- The text with brackets around the tokens of a section of it. -/
def bracketIn (s : TokenList) (text : Text) : Text :=
  let start := s.position.toNat
  let stop := (s.offset + s.boundary s.size).toNat
  text.take start ++ '(' :: ((text.drop start).take (stop - start) ++ ')' :: text.drop stop)

end TokenList

namespace Grammar

open TokenList

variable {g : Grammar α} {source : Text} {l s s' : TokenList} {path : List Nat} {t u u' : Tree α}

/-! ## Sections of nodes -/

/-- The parser has the section for that of the node at a path, or for what is in the brackets of that section. -/
inductive SectionAt (g : Grammar α) (source : Text) : TokenList → List Nat → TokenList → Prop
  | here {l : TokenList} : SectionAt g source l [] l
  | brackets {l inner s : TokenList} {path : List Nat} : g.read source g.operators.groups.1 l = .ok (.brackets inner) →
      SectionAt g source inner path s → SectionAt g source l path s
  | child {l s s' : TokenList} {reading : Reading α} {i : Nat} {path : List Nat} :
      g.read source g.operators.groups.1 l = .ok reading → (∀ inner, reading ≠ .brackets inner) →
      (sections reading)[i]? = some s → SectionAt g source s path s' → SectionAt g source l (i :: path) s'

/-- What goes from each section to those below its root goes to every section that the parser has. -/
theorem SectionAt.preserves {P : TokenList → Prop} (hP : ∀ {l : TokenList} {reading : Reading α}, P l →
    g.read source g.operators.groups.1 l = .ok reading → ∀ s ∈ sections reading, P s)
    (hs : g.SectionAt source l path s) (h : P l) : P s := by
  induction hs with
  | here => exact h
  | brackets hread _ ih => exact ih (hP h hread _ (List.mem_singleton_self _))
  | child hread _ hi _ ih => exact ih (hP h hread _ (List.mem_of_getElem? hi))

/-- The trees below a root that is not brackets are built from the sections below it. -/
theorem forall₂_children {gs : List (Group α)} {levels : Nat} {reading : Reading α}
    (hb : ∀ inner, reading ≠ .brackets inner)
    (h : @treeOf α source (g.build source gs levels) l reading = .ok t) :
    List.Forall₂ (fun s u => g.build source gs levels s = .ok u) (sections reading) t.children := by
  cases reading with
  | brackets inner => exact absurd rfl (hb inner)
  | reference name | number value =>
    cases h
    exact .nil
  | call name args =>
    obtain ⟨ts, hts, rfl⟩ := treeOf_call_eq_ok_iff.1 h
    exact hts.imp fun _ _ h => h.2
  | operation position o operands =>
    obtain ⟨ts, hts, rfl⟩ := treeOf_operation_eq_ok_iff.1 h
    exact hts

/-- Every node of a tree that is built has a section, from which it is built. -/
theorem exists_sectionAt {levels : Nat} (h : g.build source g.operators.groups.1 levels l = .ok t)
    (hu : t.at? path = some u) :
    ∃ s levels', g.SectionAt source l path s ∧ g.build source g.operators.groups.1 levels' s = .ok u := by
  induction levels generalizing l t path with
  | zero => cases h
  | succ levels ih =>
    match path with
    | [] =>
      cases hu
      exact ⟨l, _, .here, h⟩
    | i :: path =>
      obtain ⟨reading, hread, h⟩ := build_succ_eq_ok_iff.1 h
      by_cases hb : ∃ inner, reading = .brackets inner
      · obtain ⟨inner, rfl⟩ := hb
        obtain ⟨s, levels', hs, hbuilt⟩ := ih h hu
        exact ⟨s, levels', .brackets hread hs, hbuilt⟩
      · rw [not_exists] at hb
        rw [Tree.at?] at hu
        obtain ⟨t', ht', hu⟩ := Option.bind_eq_some_iff.1 hu
        obtain ⟨hi, rfl⟩ := List.getElem?_eq_some_iff.1 ht'
        have hbelow := forall₂_children hb h
        have hi' : i < (sections reading).length := by rwa [hbelow.length_eq]
        obtain ⟨s, levels', hs, hbuilt⟩ := ih (hbelow.get hi' hi) hu
        exact ⟨s, levels', .child hread hb (List.getElem?_eq_getElem hi') hs, hbuilt⟩

/-! ## Tokens in place of those of a section -/

/-- The section is a slice of the list, and the list keeps its tree if other tokens with the tree of the section are put
in place of those of the section, with brackets in place of operands. -/
structure Inside (g : Grammar α) (l : TokenList) (t : Tree α) (s : TokenList) (u : Tree α) : Prop where
  means : Means g s.tokens u
  slice : ∃ a b, a ≤ b ∧ b ≤ l.size ∧ s = l.slice a b ∧ ∀ ts, Wraps g.operators s.tokens ts → Means g ts u →
    Wraps g.operators l.tokens (l.tokens.take a ++ (ts ++ l.tokens.drop b)) ∧
      Means g (l.tokens.take a ++ (ts ++ l.tokens.drop b)) t

namespace Inside

theorem refl (hl : l.Faithful) (ht : Means g l.tokens t) : Inside g l t l t where
  means := ht
  slice := by
    refine ⟨0, l.size, Nat.zero_le _, Nat.le_refl _, hl.slice_size.symm, fun ts hw hts => ?_⟩
    rw [List.take_zero, List.nil_append, size_eq, List.drop_length, List.append_nil]
    exact ⟨hw, hts⟩

theorem trans (hl : l.Faithful) (h : Inside g l t s u) (h' : Inside g s u s' u') : Inside g l t s' u' where
  means := h'.means
  slice := by
    obtain ⟨a, b, hab, hb, rfl, hput⟩ := h.slice
    obtain ⟨a', b', hab', hb', rfl, hput'⟩ := h'.slice
    rw [size_slice hb] at hb'
    refine ⟨a + a', a + b', by omega, by omega, hl.slice_slice hb hab' (by omega), fun ts hw hts => ?_⟩
    obtain ⟨hw', hts'⟩ := hput' ts hw hts
    have hfront : (l.slice a b).tokens.take a' = (l.tokens.drop a).take a' := by
      rw [tokens_slice, List.take_take, Nat.min_eq_left (by omega)]
    have hback : (l.slice a b).tokens.drop b' ++ l.tokens.drop b = l.tokens.drop (a + b') := by
      have hdrop : l.tokens.drop b = (l.tokens.drop (a + b')).drop (b - a - b') := by
        rw [List.drop_drop]
        congr 1
        omega
      rw [tokens_slice, List.drop_take, List.drop_drop, hdrop, List.take_append_drop]
    have htokens : l.tokens.take (a + a') ++ (ts ++ l.tokens.drop (a + b')) = l.tokens.take a ++
        ((l.slice a b).tokens.take a' ++ (ts ++ (l.slice a b).tokens.drop b') ++ l.tokens.drop b) := by
      rw [hfront, ← hback, List.take_add]
      simp
    rw [htokens]
    exact hput _ hw' hts'

end Inside

variable {q c : Text} {o : Operator α} {splitters : List Text} {reading : Reading α}

/-- A section directly below the root is inside of the list. -/
theorem inside_of_read (hr : g.operators.Conditional q c o) (hn : g.NamesApart) (hl : l.Tokenized splitters)
    (ht : Means g l.tokens t) (hread : g.read source g.operators.groups.1 l = .ok reading) (hs : s ∈ sections reading) :
    ∃ u, Inside g l t s u := by
  generalize htokens : l.tokens = ts at ht
  cases ht with
  | @intro frames node ps hform hps =>
    have hd (qs : List (List Token × Tree α)) (hqs : ∀ p ∈ qs, Means g p.1 p.2) :
        ∀ m ∈ qs.map Prod.fst, Derivable g m :=
      List.forall_mem_map.2 fun p hp => (hqs p hp).derivable hr
    -- the section is one of the parts of the form
    have hbetween : sections reading = l.between 0 frames (ps.map Prod.fst) := by
      rcases read_of_form hr hn hl hform htokens (hd ps hps) with ⟨reading', hread', h, -⟩ | ⟨e, he, -⟩
      · rw [hread] at hread'
        cases hread'
        exact h
      · rw [hread] at he
        cases he
    rw [hbetween] at hs
    obtain ⟨ps₁, p, ps₂, v, w, hsplit, rfl, hput⟩ := @exists_of_mem_between l s [] _ _ hs
    obtain ⟨qs₁, rest, rfl, rfl, hrest⟩ := List.map_eq_append_iff.1 hsplit
    obtain ⟨⟨p, u⟩, qs₂, rfl, rfl, rfl⟩ := List.map_eq_cons_iff.1 hrest
    simp only [List.nil_append] at hput
    have hl' : l.tokens = v ++ (p ++ w) := by rw [htokens, ← hput p]; simp
    have hpart : (l.slice v.length (v.length + p.length)).tokens = p :=
      tokens_slice_mid (by rw [hl', List.append_assoc])
    have hp : Means g p u := hps (p, u) (by simp)
    refine ⟨u, by rwa [hpart], v.length, v.length + p.length, Nat.le_add_right _ _, ?_, rfl, fun ts hw hts => ?_⟩
    · rw [size_eq, hl', List.length_append, List.length_append]
      omega
    · rw [hpart] at hw
      have hqs : ∀ p ∈ qs₁ ++ (ts, u) :: qs₂, Means g p.1 p.2 := by
        rw [List.forall_mem_append, List.forall_mem_cons] at hps ⊢
        exact ⟨hps.1, hts, hps.2.2⟩
      have hparts : List.Forall₂ (Wraps g.operators) ((qs₁ ++ (p, u) :: qs₂).map Prod.fst)
          ((qs₁ ++ (ts, u) :: qs₂).map Prod.fst) := by
        have hsame (qs : List (List Token)) : List.Forall₂ (Wraps g.operators) qs qs :=
          List.forall₂_same.2 fun m _ => .refl m
        rw [List.map_append, List.map_append]
        exact List.rel_append (hsame _) (.cons hw (hsame _))
      have hmeans := Means.intro (hform.wraps hr (hd _ hps) hparts (hd _ hqs)) hqs
      have htake : l.tokens.take v.length = v := by rw [hl', List.take_left]
      have hdrop : l.tokens.drop (v.length + p.length) = w := by
        rw [hl', ← List.append_assoc, ← List.length_append, List.drop_left]
      rw [List.map_append, List.map_cons, hput ts, List.map_append, List.map_cons] at hmeans
      rw [htake, hdrop, hl', List.map_append, List.map_cons]
      exact ⟨(Wraps.refl v).append (hw.append (.refl w)), hmeans⟩

/-- Every section that the parser has is inside of the list. -/
theorem SectionAt.inside (hr : g.operators.Conditional q c o) (hn : g.NamesApart) (hl : l.Tokenized splitters)
    (ht : Means g l.tokens t) (hs : g.SectionAt source l path s) : ∃ u, Inside g l t s u := by
  have hstep {l s s' : TokenList} {t : Tree α} {reading : Reading α} (hl : l.Tokenized splitters)
      (ht : Means g l.tokens t) (hread : g.read source g.operators.groups.1 l = .ok reading) (hs : s ∈ sections reading)
      (ih : ∀ {u : Tree α}, s.Tokenized splitters → Means g s.tokens u → ∃ u', Inside g s u s' u') :
      ∃ u', Inside g l t s' u' := by
    obtain ⟨u, hu⟩ := inside_of_read hr hn hl ht hread hs
    obtain ⟨a, b, hab, -, rfl, -⟩ := hu.slice
    obtain ⟨u', hu'⟩ := ih (hl.slice hab) hu.means
    exact ⟨u', .trans hl.faithful hu hu'⟩
  induction hs generalizing t with
  | here => exact ⟨t, .refl hl.faithful ht⟩
  | brackets hread _ ih => exact hstep hl ht hread (List.mem_singleton_self _) ih
  | child hread _ hs _ ih => exact hstep hl ht hread (List.mem_of_getElem? hs) ih

end Grammar

/-! ## Texts with brackets -/

namespace TokenList

variable {ss : List Text} {l : TokenList} {text p m q : Text} {i j : Nat}

theorem bracketIn_eq {s : TokenList} (hposition : s.position = p.length)
    (hend : s.offset + s.boundary s.size = (p ++ m).length) :
    s.bracketIn (p ++ (m ++ q)) = p ++ '(' :: (m ++ ')' :: q) := by
  have hstop : (p ++ (m ++ q)).drop (p ++ m).length = q := by rw [← List.append_assoc, List.drop_left]
  rw [bracketIn, hposition, hend]
  simp only [Int.toNat_natCast, hstop, List.take_left, List.drop_left]
  rw [List.length_append, Nat.add_sub_cancel_left, List.take_left]

/-- The items of a list fall into those before, in and behind a section of it. -/
theorem exists_items (hij : i < j) (hj : j ≤ l.size) : ∃ as x xs bs, l.items = (as ++ x :: xs) ++ bs ∧ i = as.length ∧
    j = (as ++ x :: xs).length := by
  rw [size] at hj
  obtain ⟨x, xs, hmid⟩ := List.exists_cons_of_length_pos (l := (l.items.take j).drop i)
    (by rw [List.length_drop, List.length_take]; omega)
  have hfront : l.items.take i ++ x :: xs = l.items.take j := by
    have htake : l.items.take i = (l.items.take j).take i := by rw [List.take_take, Nat.min_eq_left hij.le]
    rw [htake, ← hmid, List.take_append_drop]
  refine ⟨l.items.take i, x, xs, l.items.drop j, ?_, ?_, ?_⟩
  · rw [hfront, List.take_append_drop]
  · rw [List.length_take]
    omega
  · rw [hfront, List.length_take]
    omega

section Items

variable {as xs bs : List Spaced} {x : Spaced}

/-- A section begins behind what is before it and the spaces before its first token. -/
theorem position_slice_items (h : l.items = (as ++ x :: xs) ++ bs) :
    (l.slice as.length (as ++ x :: xs).length).position =
      l.offset + (as.flatMap Spaced.render ++ Text.spaces x.spaces).length := by
  have hsize : (as ++ x :: xs).length ≤ l.size := by rw [size, h]; simp
  rw [position_eq, positionAt_slice hsize (by simp), positionAt, Nat.add_zero, boundary, spacing,
    ← length_render_take, h]
  simp [Text.spaces, Int.add_assoc]

/-- A section ends behind its last token. -/
theorem end_slice_items (h : l.items = (as ++ x :: xs) ++ bs) :
    (l.slice as.length (as ++ x :: xs).length).offset + (l.slice as.length (as ++ x :: xs).length).boundary
      (l.slice as.length (as ++ x :: xs).length).size = l.offset +
        (as.flatMap Spaced.render ++ Text.spaces x.spaces ++ (x.token.text ++ xs.flatMap Spaced.render)).length := by
  have hsize : (as ++ x :: xs).length ≤ l.size := by rw [size, h]; simp
  have hlength : (as ++ x :: xs).length - as.length = (x :: xs).length := by simp
  have hoffset : (l.slice as.length (as ++ x :: xs).length).offset = l.offset + l.boundary as.length := rfl
  rw [size_slice hsize, hlength, hoffset, Int.add_assoc, boundary_slice (by simp), ← List.length_append, boundary,
    ← length_render_take, h, List.take_left]
  simp [Spaced.render]

end Items

/-- Brackets around a section of a text cut it into texts with the tokens before, in and behind the section. -/
theorem exists_bracketIn (h : Row.Neat ss) (hij : i < j) (hj : j ≤ (ofText ss text).size) :
    ∃ p m q, ((ofText ss text).slice i j).bracketIn text = p ++ '(' :: (m ++ ')' :: q) ∧
      (ofText ss p).tokens = (ofText ss text).tokens.take i ∧
      (ofText ss m).tokens = ((ofText ss text).slice i j).tokens ∧
      (ofText ss q).tokens = (ofText ss text).tokens.drop j := by
  obtain ⟨as, x, xs, bs, hitems, rfl, rfl⟩ := exists_items hij hj
  have hrow : (ofText ss text).toRow = ⟨(as ++ x :: xs) ++ bs, (ofText ss text).trailing⟩ := congrArg₂ Row.mk hitems rfl
  have htokens : (ofText ss text).tokens = (as ++ x :: xs).map Spaced.token ++ bs.map Spaced.token := by
    rw [hrow, Row.tokens, List.map_append]
  obtain ⟨hfront, hback⟩ := ofText_parts h hrow
  obtain ⟨hbefore, hinner⟩ := @ofText_parts _ _ h as (x :: xs) 0 hfront
  have hspaces := tokens_ofText_spaces h 0 x.spaces (as.flatMap Spaced.render)
  have hspaces' := tokens_ofText_spaces h x.spaces 0 (x.token.text ++ xs.flatMap Spaced.render)
  simp only [Text.spaces, List.replicate_zero, List.nil_append, List.append_nil] at hspaces hspaces' hinner
  refine ⟨as.flatMap Spaced.render ++ Text.spaces x.spaces, x.token.text ++ xs.flatMap Spaced.render,
    bs.flatMap Spaced.render ++ Text.spaces (ofText ss text).trailing, ?_, ?_, ?_, ?_⟩
  · have htext : text = as.flatMap Spaced.render ++ Text.spaces x.spaces ++
        ((x.token.text ++ xs.flatMap Spaced.render) ++
          (bs.flatMap Spaced.render ++ Text.spaces (ofText ss text).trailing)) := by
      have hfaithful : text = (ofText ss text).toRow.render := (tokenized_ofText ss text).faithful
      rw [hrow, Row.render] at hfaithful
      refine hfaithful.trans ?_
      simp [Spaced.render]
    exact (congrArg _ htext).trans (bracketIn_eq ((position_slice_items hitems).trans (Int.zero_add _))
      ((end_slice_items hitems).trans (Int.zero_add _)))
  · rw [Text.spaces, hspaces, hbefore, htokens, List.map_append, List.append_assoc, List.take_left' (by simp)]
    rfl
  · have hrender : List.replicate x.spaces ' ' ++ (x.token.text ++ xs.flatMap Spaced.render) =
        (x :: xs).flatMap Spaced.render := by simp [Spaced.render, Text.spaces]
    have hslice := @tokens_slice_mid (ofText ss text) (as.map Spaced.token) ((x :: xs).map Spaced.token)
      (bs.map Spaced.token) (by rw [htokens, List.map_append])
    rw [List.length_map, List.length_map, ← List.length_append] at hslice
    rw [← hspaces', hrender, hinner, hslice]
    rfl
  · rw [hback, htokens, List.drop_left' (by simp)]
    rfl

end TokenList

namespace Builder

open TokenList Grammar

variable {κ : Type} {b : Builder κ} {text : Text}

/-- Brackets around the section of an operand or argument do not change the tree of a text. -/
theorem build_bracketed (h : b.IsCalculator) {e : Expression κ} (he : b.build text = .ok e) {path : List Nat}
    {u : Tree (Action κ)} (hu : e.tree.at? path = some u) :
    (∃ s levels, b.grammar.SectionAt text (b.tokenList text) path s ∧
      b.grammar.build text b.operators.groups.1 levels s = .ok u) ∧
    ∀ s, b.grammar.SectionAt text (b.tokenList text) path s → b.BuildsTo (s.bracketIn text) e.tree.strip := by
  have hbuilt := Grammar.build_of_parse (parse_of_build he).2.2
  refine ⟨exists_sectionAt hbuilt hu, fun s hs => ?_⟩
  obtain ⟨u', hinside⟩ := hs.inside h.conditional h.namesApart (b.tokenized_tokenList text) (h.means_of_build he)
  have hoperand := (hinside.means.derivable h.conditional).operand h.conditional.toSeparate
  obtain ⟨i, j, hij, hj, rfl, hput⟩ := hinside.slice
  have hlt : i < j := by
    have hpos := List.length_pos_iff.2 hoperand.ne_nil
    rw [← size_eq, size_slice hj] at hpos
    omega
  have hbrackets := @Means.intro _ b.grammar _ _ [(((b.tokenList text).slice i j).tokens, u')] (.brackets _)
    (by simpa using hinside.means)
  obtain ⟨before, inner, behind, htext, hbefore, hinner, hbehind⟩ := exists_bracketIn h.neat hlt hj
  rw [tokenList, htext]
  refine h.buildsTo_of_means ?_ ?_
  · rw [← Bool.not_eq_true, Text.isAllBlank, List.all_eq_true]
    intro hblank
    cases hblank '(' (by simp)
  · rw [h.tokens_enclosed, tokenList, hbefore, tokenList, hinner, tokenList, hbehind, List.append_assoc]
    refine (hput _ (.whole hoperand hoperand.balanced) ?_).2
    simpa [weave] using hbrackets

/-- A text in which an argument has signs that might be of other operators. -/
def argumentSample : Text := "√ -4% ? max( e, - 2 % -1 ) : (π)".toList

theorem build_bracketed_sample : ∃ (b : Builder Unit) (e : Expression Unit) (u : Tree (Action Unit)), b.IsCalculator ∧
    b.build argumentSample = .ok e ∧ e.tree.at? [1, 1] = some u ∧
    (∃ s levels, b.grammar.SectionAt argumentSample (b.tokenList argumentSample) [1, 1] s ∧
      b.grammar.build argumentSample b.operators.groups.1 levels s = .ok u) ∧
    ∀ s, b.grammar.SectionAt argumentSample (b.tokenList argumentSample) [1, 1] s →
      b.BuildsTo (s.bracketIn argumentSample) e.tree.strip := by
  have hok : ((standard (κ := Unit) {}).build argumentSample).isOk = true := by
    simp only [build, parse_eq, Grammar.parse, groups_standard]
    decide +kernel
  obtain ⟨e, he⟩ := exists_of_isOk hok
  have hnode : (((standard (κ := Unit) {}).build argumentSample).toOption.bind (·.tree.at? [1, 1])).isSome = true := by
    simp only [build, parse_eq, Grammar.parse, groups_standard]
    decide +kernel
  rw [he] at hnode
  obtain ⟨u, hu⟩ := Option.isSome_iff_exists.1 hnode
  exact ⟨_, e, u, isCalculator_standard, he, hu, build_bracketed isCalculator_standard he hu⟩

end Builder

end Mixfix
