import Mixfix.Proofs.Bracketed
import Mixfix.Proofs.Parts
import Mixfix.Proofs.Roots

/-!
# Positions of nodes

Every node of a tree that is built stands in the text: at its position the text reads the token of the operator, or,
behind white space, the name or the literal (`Tree.ReadBy`). The nodes from left to right (`Tree.inOrder`) have
ascending positions (`Builder.ascending_of_build`), so that no two nodes share one.

The nodes of a section stand at tokens of the whole list, at ascending indices within the section (`Ascending`). This
holds of the root and of the sections below it, which the root keeps apart, and so of the whole tree by induction on the
levels (`Grammar.standsIn_build`).
-/

namespace Mixfix

/-! ## Nodes from left to right -/

namespace Tree

variable {α : Type}

mutual

/-- The nodes of a tree from left to right. A call and a prefix operation come before what is below them; an operation
that is infix or postfix comes behind its first operand. -/
def inOrder : Tree α → List (Tree α)
  | call p name args => call p name args :: inOrderAll args
  | operation p o [] => [operation p o []]
  | operation p o (first :: rest) =>
    match o.fixity with
    | .infixed _ | .postfixed => inOrder first ++ operation p o (first :: rest) :: inOrderAll rest
    | .prefixed | .unplaced => operation p o (first :: rest) :: (inOrder first ++ inOrderAll rest)
  | number p v => [number p v]
  | reference p name => [reference p name]
  | unknown p kind => [unknown p kind]

/-- The nodes of some trees, one tree after the other. -/
def inOrderAll : List (Tree α) → List (Tree α)
  | [] => []
  | t :: ts => inOrder t ++ inOrderAll ts

end

theorem inOrderAll_eq (ts : List (Tree α)) : inOrderAll ts = ts.flatMap inOrder := by
  induction ts with
  | nil => rfl
  | cons t ts ih => rw [inOrderAll, ih, List.flatMap_cons]

/-- The nodes are the root and those of the trees below it. -/
theorem perm_inOrder (t : Tree α) : t.inOrder.Perm (t :: inOrderAll t.children) := by
  match t with
  | number p v | reference p name | unknown p kind | operation p o [] => exact .refl _
  | call p name args =>
    rw [inOrder]
    exact .refl _
  | operation p o (first :: rest) =>
    rw [inOrder]
    cases o.fixity with
    | prefixed | unplaced => exact .refl _
    | infixed _ | postfixed => exact List.perm_middle

theorem self_mem_inOrder (t : Tree α) : t ∈ t.inOrder := t.perm_inOrder.mem_iff.2 List.mem_cons_self

theorem mem_inOrder_of_child {t u v : Tree α} (hu : u ∈ t.children) (hv : v ∈ u.inOrder) :
    v ∈ inOrderAll t.children := by
  rw [inOrderAll_eq]
  exact List.mem_flatMap.2 ⟨u, hu, hv⟩

/-- Every node of a tree is among its nodes from left to right. -/
theorem mem_inOrder_of_at? {t u : Tree α} {path : List Nat} (h : t.at? path = some u) : u ∈ t.inOrder := by
  induction path generalizing t with
  | nil =>
    cases h
    exact self_mem_inOrder _
  | cons i path ih =>
    rw [at?] at h
    obtain ⟨c, hc, h⟩ := Option.bind_eq_some_iff.1 h
    exact t.perm_inOrder.mem_iff.2 (List.mem_cons_of_mem _ (mem_inOrder_of_child (List.mem_of_getElem? hc) (ih h)))

/-- Where no position comes twice from left to right, a node below the root has another position than the root. -/
theorem position_ne_of_below {t u : Tree α} {i : Nat} {path : List Nat} (h : (t.inOrder.map position).Nodup)
    (hu : t.at? (i :: path) = some u) : t.position ≠ u.position := by
  rw [(t.perm_inOrder.map position).nodup_iff, List.map_cons, List.nodup_cons] at h
  rw [at?] at hu
  obtain ⟨c, hc, hu⟩ := Option.bind_eq_some_iff.1 hu
  intro heq
  rw [heq] at h
  exact h.1 (List.mem_map_of_mem (mem_inOrder_of_child (List.mem_of_getElem? hc) (mem_inOrder_of_at? hu)))

/-- There, nodes of different trees below the root have different positions. -/
theorem position_ne_of_lt {t c c' u u' : Tree α} {i j : Nat} {path path' : List Nat}
    (h : t.children.Pairwise fun c c' => (c.inOrder.map position).Disjoint (c'.inOrder.map position)) (hij : i < j)
    (hc : t.children[i]? = some c) (hc' : t.children[j]? = some c') (hu : c.at? path = some u)
    (hu' : c'.at? path' = some u') : u.position ≠ u'.position := by
  obtain ⟨hi, rfl⟩ := List.getElem?_eq_some_iff.1 hc
  obtain ⟨hj, rfl⟩ := List.getElem?_eq_some_iff.1 hc'
  intro heq
  have hmem := List.mem_map_of_mem (f := position) (mem_inOrder_of_at? hu)
  have hmem' := List.mem_map_of_mem (f := position) (mem_inOrder_of_at? hu')
  rw [← heq] at hmem'
  exact List.pairwise_iff_getElem.1 h i j hi hj hij hmem hmem'

/-- There, a position belongs to one node. -/
theorem eq_of_position {t u u' : Tree α} {path path' : List Nat} (h : (t.inOrder.map position).Nodup)
    (hu : t.at? path = some u) (hu' : t.at? path' = some u') (heq : u.position = u'.position) : path = path' := by
  induction path generalizing t path' with
  | nil =>
    cases hu
    match path' with
    | [] => rfl
    | i :: path' => exact absurd heq (position_ne_of_below h hu')
  | cons i path ih =>
    match path' with
    | [] =>
      cases hu'
      exact absurd heq.symm (position_ne_of_below h hu)
    | j :: path' =>
      rw [(t.perm_inOrder.map position).nodup_iff, List.map_cons, List.nodup_cons, inOrderAll_eq, List.map_flatMap,
        List.nodup_flatMap] at h
      obtain ⟨-, hnodup, hdisjoint⟩ := h
      rw [at?] at hu hu'
      obtain ⟨c, hc, hu⟩ := Option.bind_eq_some_iff.1 hu
      obtain ⟨c', hc', hu'⟩ := Option.bind_eq_some_iff.1 hu'
      rcases Nat.lt_trichotomy i j with hij | rfl | hij
      · exact absurd heq (position_ne_of_lt hdisjoint hij hc hc' hu hu')
      · rw [hc] at hc'
        cases hc'
        rw [ih (hnodup c (List.mem_of_getElem? hc)) hu hu']
      · exact absurd heq.symm (position_ne_of_lt hdisjoint hij hc' hc hu' hu)

/-! ## What stands at a position -/

/-- What a text begins with, where a node stands: the first token of its operator, or, behind white space, its name or a
literal of its value. -/
def ReadBy (rest : Text) : Tree α → Prop
  | number _ v => ∃ w, w <+: rest.dropWhile Text.isBlank ∧ readNumber? w = some v
  | reference _ name => name <+: rest.dropWhile Text.isBlank
  | call _ name _ => name <+: rest.dropWhile Text.isBlank
  | operation _ o _ => o.token <+: rest
  | unknown _ _ => False

/-- The node has a position of the text, at which it stands. -/
structure StandsAt (text : Text) (p : Nat) (t : Tree α) : Prop where
  position : t.position = p
  reads : t.ReadBy (text.drop p)

end Tree

/-! ## Ascending places -/

/-- Things that stand at ascending indices, from an index up to another one. -/
inductive Ascending {β : Type} (P : Nat → β → Prop) : Nat → Nat → List β → Prop
  | nil {a b : Nat} : Ascending P a b []
  | cons {a b k : Nat} {x : β} {xs : List β} : a ≤ k → k < b → P k x → Ascending P (k + 1) b xs →
      Ascending P a b (x :: xs)

namespace Ascending

variable {β : Type} {P : Nat → β → Prop} {a a' b b' k m : Nat} {x : β} {xs ys : List β}

theorem single (ha : a ≤ k) (hb : k < b) (hx : P k x) : Ascending P a b [x] := .cons ha hb hx .nil

theorem mono (h : Ascending P a b xs) (ha : a' ≤ a) (hb : b ≤ b') : Ascending P a' b' xs := by
  induction h generalizing a' with
  | nil => exact .nil
  | cons hk hlt hx _ ih => exact .cons (by omega) (by omega) hx (ih (Nat.le_refl _) hb)

theorem append (h : Ascending P a m xs) (h' : Ascending P m b ys) (ha : a ≤ m) (hb : m ≤ b) :
    Ascending P a b (xs ++ ys) := by
  induction h with
  | nil => exact h'.mono ha (Nat.le_refl _)
  | cons hk hlt hx _ ih => exact .cons hk (by omega) hx (ih h' (by omega) hb)

theorem exists_of_mem (h : Ascending P a b xs) (hx : x ∈ xs) : ∃ k, a ≤ k ∧ k < b ∧ P k x := by
  induction h with
  | nil => cases hx
  | cons hk hlt hx' _ ih =>
    rcases List.mem_cons.1 hx with rfl | hx
    · exact ⟨_, hk, hlt, hx'⟩
    · obtain ⟨k, hk', hlt', hP⟩ := ih hx
      exact ⟨k, by omega, hlt', hP⟩

/-- Where later indices have greater values, the values ascend. -/
theorem pairwise (h : Ascending P a b xs) {f : β → Int}
    (hf : ∀ i j x y, i < j → j < b → P i x → P j y → f x < f y) : (xs.map f).Pairwise (· < ·) := by
  induction h with
  | nil => exact List.Pairwise.nil
  | cons hk hlt hx hxs ih =>
    rw [List.map_cons, List.pairwise_cons]
    refine ⟨fun y hy => ?_, ih hf⟩
    obtain ⟨z, hz, rfl⟩ := List.mem_map.1 hy
    obtain ⟨j, hj, hjb, hP⟩ := hxs.exists_of_mem hz
    exact hf _ j _ z (by omega) hjb hx hP

end Ascending

/-! ## Texts of sections -/

namespace Text

/-- A trimmed text is what the text begins with behind white space. -/
theorem trim_isPrefix (t : Text) : t.trim <+: t.dropWhile isBlank := by
  have hsuffix : (t.dropWhile isBlank).reverse.dropWhile isBlank <:+ (t.dropWhile isBlank).reverse :=
    List.dropWhile_suffix _
  rw [← List.reverse_prefix, List.reverse_reverse] at hsuffix
  exact hsuffix

theorem dropWhile_isPrefix {p : Char → Bool} {s t : Text} (h : s <+: t) (hs : s.dropWhile p ≠ []) :
    s.dropWhile p <+: t.dropWhile p := by
  obtain ⟨u, rfl⟩ := h
  rw [List.dropWhile_append, if_neg (by simpa using hs)]
  exact List.prefix_append _ _

/-- What a text begins with is, trimmed, what it begins with behind white space. -/
theorem trim_isPrefix_of_isPrefix {s t : Text} (h : s <+: t) : s.trim <+: t.dropWhile isBlank := by
  by_cases hs : s.dropWhile isBlank = []
  · have hnil := s.trim_isPrefix
    rw [hs, List.prefix_nil] at hnil
    rw [hnil]
    exact List.nil_prefix
  · exact s.trim_isPrefix.trans (dropWhile_isPrefix h hs)

end Text

namespace TokenList

variable {full : TokenList} {a b i k : Nat} {t : Token}

/-- The index, in the text that the list covers, of the token at an index. -/
def place (l : TokenList) (k : Nat) : Nat := l.boundary k + l.spacing k

theorem positionAt_eq_place (h : full.offset = 0) (k : Nat) : full.positionAt k = full.place k := by
  rw [positionAt, place, h]
  omega

theorem getElem?_of_slice (h : (full.slice a b).tokens[i]? = some t) : full.tokens[a + i]? = some t := by
  rw [tokens_slice, List.getElem?_take] at h
  split at h
  · rwa [List.getElem?_drop] at h
  · cases h

/-- Behind the spaces before it, the text of a section stands at the place of its first token. -/
theorem Faithful.exists_text_slice (h : full.Faithful) (hab : a ≤ b) (hb : b ≤ full.size) :
    ∃ n rest, (full.slice a b).text = Text.spaces n ++ rest ∧ rest <+: full.text.drop (full.place a) := by
  obtain ⟨rest, hrest⟩ := exists_render_drop (full.slice a b) 0
  have htext : (full.slice a b).text = Text.spaces (full.spacing a) ++ rest := by
    rw [h.slice hab, Row.render, ← List.drop_zero (l := (full.slice a b).items), hrest,
      spacing_slice hb (by omega), Nat.add_zero]
  have hpre : (full.slice a b).text <+: full.text.drop (full.boundary a) := List.take_prefix _ _
  refine ⟨_, rest, htext, ?_⟩
  rw [place, ← List.drop_drop]
  have hdrop := hpre.drop (full.spacing a)
  rwa [htext, List.drop_left' (by simp [Text.spaces])] at hdrop

/-- The trimmed text of a section is read at the place of its first token, behind white space. -/
theorem Faithful.trim_slice (h : full.Faithful) (hab : a ≤ b) (hb : b ≤ full.size) :
    (full.slice a b).text.trim <+: (full.text.drop (full.place a)).dropWhile Text.isBlank := by
  obtain ⟨n, rest, htext, hrest⟩ := h.exists_text_slice hab hb
  have htrim := Text.trim_spaces n 0 rest
  rw [Text.spaces, Text.spaces, List.replicate_zero, List.append_nil] at htrim
  rw [htext, Text.spaces, htrim]
  exact Text.trim_isPrefix_of_isPrefix hrest

end TokenList

/-! ## Trees of sections -/

namespace Grammar

open TokenList Mixfix.Tree

variable {α : Type} {g : Grammar α} {source text : Text} {full : TokenList} {a b i : Nat} {t : Tree α}
  {buildSection : TokenList → Except ExprError (Tree α)}

/-- The list covers the whole text. -/
structure Whole (text : Text) (full : TokenList) : Prop where
  faithful : full.Faithful
  text_eq : full.text = text
  offset_eq : full.offset = 0

/-- Nodes stand in the text at ascending tokens of the whole list. -/
abbrev Stand (text : Text) (full : TokenList) : Nat → Nat → List (Tree α) → Prop :=
  Ascending fun k u => u.StandsAt text (full.place k)

/-- The nodes of a tree that is built of a section stand within the section. One without tokens has the place of the
token behind it. -/
def StandsIn (text : Text) (full : TokenList) (buildSection : TokenList → Except ExprError (Tree α)) : Prop :=
  ∀ a b t, a ≤ b → b ≤ full.size → buildSection (full.slice a b) = .ok t → Stand text full a (max b (a + 1)) t.inOrder

theorem Whole.position_slice (h : Whole text full) (hab : a ≤ b) (hb : b ≤ full.size) :
    (full.slice a b).position = full.place a := by
  rw [position_eq, positionAt_slice hb (by omega), Nat.add_zero, positionAt_eq_place h.offset_eq]

theorem Whole.positionAt_slice (h : Whole text full) (hi : a + i ≤ b) (hb : b ≤ full.size) :
    (full.slice a b).positionAt i = full.place (a + i) := by
  rw [TokenList.positionAt_slice hb hi, positionAt_eq_place h.offset_eq]

/-- A fixed token of a section is read at its place. -/
theorem Whole.token_isPrefix (h : Whole text full) {x : Text} (hx : (full.slice a b).tokens[i]? = some (.fixed x)) :
    x <+: text.drop (full.place (a + i)) := by
  rw [← h.text_eq]
  exact h.faithful.prefix_drop (getElem?_of_slice hx)

theorem Whole.trim_isPrefix (h : Whole text full) (hab : a ≤ b) (hb : b ≤ full.size) :
    (full.slice a b).text.trim <+: (text.drop (full.place a)).dropWhile Text.isBlank := by
  rw [← h.text_eq]
  exact h.faithful.trim_slice hab hb

/-- The trees of the parts of a section stand one behind the other, since a token is left out between two parts. -/
theorem stand_cutFrom (hfull : full.Faithful) (hs : StandsIn text full buildSection) (hab : a ≤ b) (hb : b ≤ full.size)
    {points : List Nat} : ∀ {start : Nat} {ts : List (Tree α)}, (full.slice a b).Cuts points → start < b - a →
      (∀ p ∈ points, start ≤ p) →
      List.Forall₂ (fun s t => buildSection s = .ok t) ((full.slice a b).cutFrom start points) ts →
      Stand text full (a + start) b (inOrderAll ts) := by
  induction points with
  | nil =>
    intro start ts _ hstart _ hts
    rw [cutFrom, size_slice hb] at hts
    cases hts with
    | cons ht hnil =>
      cases hnil
      rw [hfull.slice_slice hb (by omega) (by omega)] at ht
      rw [inOrderAll, inOrderAll, List.append_nil]
      exact (hs _ _ _ (by omega) (by omega) ht).mono (Nat.le_refl _) (by omega)
  | cons p points ih =>
    intro start ts hcuts hstart hle hts
    have hp := hle p List.mem_cons_self
    have hpsize := hcuts.inner p List.mem_cons_self
    rw [size_slice hb] at hpsize
    rw [cutFrom] at hts
    cases hts with
    | cons ht hts =>
      rw [hfull.slice_slice hb hp (by omega)] at ht
      have hfirst : Stand text full (a + start) (a + (p + 1)) (inOrder _) :=
        (hs _ _ _ (by omega) (by omega) ht).mono (Nat.le_refl _) (by omega)
      have hrest := ih hcuts.tail (by omega) (fun q hq => (List.pairwise_cons.1 hcuts.ascending).1 q hq) hts
      exact hfirst.append hrest (by omega) (by omega)

/-- The operator of a root stands where its first token does. -/
theorem standsAt_operation (h : Whole text full) (hi : a + i ≤ b) (hb : b ≤ full.size) {o : Operator α} {x : Text}
    {xs : List Text} (ho : o.tokens = x :: xs) (hx : (full.slice a b).tokens[i]? = some (.fixed x))
    (operands : List (Tree α)) :
    (Tree.operation ((full.slice a b).positionAt i) o operands).StandsAt text (full.place (a + i)) where
  position := h.positionAt_slice hi hb
  reads := by
    rw [ReadBy, Operator.token, ho]
    exact h.token_isPrefix hx

/-- The nodes of an infix operation: those of the first operand, the operation, and those of the other operands. -/
theorem stand_infixed (h : Whole text full) (hs : StandsIn text full buildSection) (hab : a ≤ b) (hb : b ≤ full.size)
    {o : Operator α} {c : Associativity} (hf : o.fixity = .infixed c) {own : List Site}
    (ho : o.tokens = own.map Site.text) (hown : Site.Among own (full.slice a b).tokens)
    {position : Int} (hposition : position = (full.slice a b).positionAt ((own.map Site.index).headD 0))
    {ts : List (Tree α)} (hts : List.Forall₂ (fun s t => buildSection s = .ok t)
      ((full.slice a b).cutAt (own.map Site.index)) ts) :
    Stand text full a b (Tree.operation position o ts).inOrder := by
  have hcuts := cuts_of_among hown
  match own, hown.ne_nil with
  | s :: own, _ =>
    rw [List.map_cons] at hposition hts hcuts ho
    have hinner := hcuts.inner s.index List.mem_cons_self
    have hpos := (hown.inner s List.mem_cons_self).1
    rw [size_slice hb] at hinner
    rw [cutAt, cutFrom] at hts
    cases hts with
    | cons ht hts =>
      rw [h.faithful.slice_slice hb (Nat.zero_le _) (by omega), Nat.add_zero] at ht
      have hfirst : Stand text full a (a + s.index) (inOrder _) :=
        (hs _ _ _ (by omega) (by omega) ht).mono (Nat.le_refl _) (by omega)
      have hrest := stand_cutFrom h.faithful hs hab hb hcuts.tail (by omega)
        (fun q hq => (List.pairwise_cons.1 hcuts.ascending).1 q hq) hts
      have hnode := standsAt_operation h (a := a) (b := b) (i := s.index) (by omega) hb ho
        (hown.token s List.mem_cons_self)
      rw [inOrder, hf, hposition]
      exact hfirst.append (.cons (Nat.le_refl _) (by omega) (hnode _) hrest) (by omega) (by omega)

/-- The nodes of a prefix operation: the operation, and those of the operand. -/
theorem stand_prefixed (h : Whole text full) (hs : StandsIn text full buildSection) (hb : b ≤ full.size)
    {o : Operator α} (hf : o.fixity = .prefixed) {x : Text} (ho : o.tokens = [x]) {xs : List Token}
    (hl : (full.slice a b).tokens = .fixed x :: xs) (hne : xs ≠ []) {ts : List (Tree α)}
    (hts : List.Forall₂ (fun s t => buildSection s = .ok t) [(full.slice a b).slice 1 (full.slice a b).size] ts) :
    Stand text full a b (Tree.operation (full.slice a b).position o ts).inOrder := by
  have hsize := size_slice (a := a) hb
  have hpos := List.length_pos_iff.2 hne
  have hlength : b - a = xs.length + 1 := by rw [← hsize, size_eq, hl, List.length_cons]
  cases hts with
  | cons hu hnil =>
    cases hnil
    rw [hsize, h.faithful.slice_slice hb (by omega) (by omega)] at hu
    have hnode := standsAt_operation h (a := a) (b := b) (i := 0) (by omega) hb ho (by rw [hl]; rfl)
    have hoperand := hs _ _ _ (by omega) (by omega) hu
    rw [inOrder, hf, inOrderAll, List.append_nil, position_eq]
    exact .cons (Nat.le_refl _) (by omega) (hnode _) (hoperand.mono (by omega) (by omega))

/-- The nodes of a postfix operation: those of the operand, and the operation. -/
theorem stand_postfixed (h : Whole text full) (hs : StandsIn text full buildSection) (hb : b ≤ full.size)
    {o : Operator α} (hf : o.fixity = .postfixed) {x : Text} (ho : o.tokens = [x]) {xs : List Token}
    (hl : (full.slice a b).tokens = xs ++ [.fixed x]) (hne : xs ≠ []) {ts : List (Tree α)}
    (hts : List.Forall₂ (fun s t => buildSection s = .ok t)
      [(full.slice a b).slice 0 ((full.slice a b).size - 1)] ts) :
    Stand text full a b
      (Tree.operation ((full.slice a b).positionAt ((full.slice a b).size - 1)) o ts).inOrder := by
  have hsize := size_slice (a := a) hb
  have hpos := List.length_pos_iff.2 hne
  have hlength : b - a = xs.length + 1 := by rw [← hsize, size_eq, hl, List.length_append, List.length_singleton]
  cases hts with
  | cons hu hnil =>
    cases hnil
    rw [hsize, h.faithful.slice_slice hb (by omega) (by omega)] at hu
    have hnode := standsAt_operation h (a := a) (b := b) (i := b - a - 1) (by omega) hb ho (by
      rw [hl, hlength]
      simp)
    have hoperand : Stand text full a (a + (b - a - 1)) (inOrder _) :=
      (hs _ _ _ (by omega) (by omega) hu).mono (by omega) (by omega)
    rw [inOrder, hf, inOrderAll, hsize]
    exact hoperand.append (.single (Nat.le_refl _) (by omega) (hnode _)) (by omega) (by omega)

/-- A call stands at its name, which is the text of the tokens before the brackets. -/
theorem standsAt_call (h : Whole text full) (hb : b ≤ full.size) (hi : a + i ≤ b) (args : List (Tree α)) :
    (Tree.call (full.slice a b).position ((full.slice a b).slice 0 i).trimmedText args).StandsAt text
      (full.place a) where
  position := h.position_slice (by omega) hb
  reads := by
    rw [ReadBy, trimmedText, h.faithful.slice_slice hb (Nat.zero_le _) hi, Nat.add_zero]
    exact h.trim_isPrefix (by omega) (by omega)

/-- The nodes of a root stand within its section if those of the sections below do. -/
theorem stand_of_reads (h : Whole text full) (hs : StandsIn text full buildSection) (hab : a ≤ b) (hb : b ≤ full.size)
    {reading : Reading α} (hreads : Reads g (full.slice a b) reading)
    (ht : @treeOf α source buildSection (full.slice a b) reading = .ok t) :
    Stand text full a (max b (a + 1)) t.inOrder := by
  have hsize := size_slice (a := a) hb
  cases hreads with
  | brackets htwo =>
    rw [hsize] at htwo ht
    rw [treeOf, h.faithful.slice_slice hb (by omega) (by omega)] at ht
    exact (hs _ _ _ (by omega) (by omega) ht).mono (by omega) (by omega)
  | reference =>
    cases ht
    exact .single (Nat.le_refl _) (by omega) ⟨h.position_slice hab hb, h.trim_isPrefix hab hb⟩
  | number hv =>
    cases ht
    refine .single (Nat.le_refl _) (by omega) ⟨h.position_slice hab hb, _, h.trim_isPrefix hab hb, ?_⟩
    rw [readNumber?_trim, hv]
  | callEmpty _ hi =>
    obtain ⟨ts, hts, rfl⟩ := treeOf_call_eq_ok_iff.1 ht
    cases hts
    rw [hsize] at hi
    exact .single (Nat.le_refl _) (by omega) (standsAt_call h hb (by omega) _)
  | call _ hi hcuts _ =>
    obtain ⟨ts, hts, rfl⟩ := treeOf_call_eq_ok_iff.1 ht
    rw [hsize] at hi hcuts hts
    rw [h.faithful.slice_slice hb (by omega) (by omega)] at hcuts hts
    have hpos := hcuts.pos
    rw [size_slice (by omega)] at hpos
    have hargs := stand_cutFrom h.faithful hs (by omega) (by omega) hcuts hpos (fun p _ => Nat.zero_le p)
      (hts.imp fun _ _ h => h.2)
    exact .cons (Nat.le_refl _) (by omega) (standsAt_call h hb (by omega) _) (hargs.mono (by omega) (by omega))
  | infixed _ hf ho hown =>
    obtain ⟨ts, hts, rfl⟩ := treeOf_operation_eq_ok_iff.1 ht
    exact (stand_infixed h hs hab hb hf ho hown rfl hts).mono (Nat.le_refl _) (by omega)
  | prefixed _ hf ho hl hne =>
    obtain ⟨ts, hts, rfl⟩ := treeOf_operation_eq_ok_iff.1 ht
    exact (stand_prefixed h hs hb hf ho hl hne hts).mono (Nat.le_refl _) (by omega)
  | postfixed _ hf ho hl hne =>
    obtain ⟨ts, hts, rfl⟩ := treeOf_operation_eq_ok_iff.1 ht
    exact (stand_postfixed h hs hb hf ho hl hne hts).mono (Nat.le_refl _) (by omega)

/-- The nodes of a tree stand within the section that it is built of. -/
theorem standsIn_build (hr : g.operators.WellFormed) (h : Whole text full) (levels : Nat) :
    StandsIn text full (g.build source g.operators.groups.1 levels) := by
  induction levels with
  | zero =>
    intro a b t _ _ ht
    cases ht
  | succ levels ih =>
    intro a b t hab hb ht
    obtain ⟨reading, hread, ht⟩ := build_succ_eq_ok_iff.1 ht
    exact stand_of_reads h ih hab hb (reads_of_read hr hread) ht

end Grammar

/-! ## Trees of texts -/

namespace TokenList

variable {full : TokenList} {text : Text} {splitters : List Text} {k j : Nat}

/-- A token that is not empty begins within the text. -/
theorem Tokenized.place_lt (h : full.Tokenized splitters) (hk : k < full.size) : full.place k < full.text.length := by
  rw [size_eq] at hk
  have htoken := List.getElem?_eq_getElem hk
  have hpre := (h.faithful.prefix_drop htoken).length_le
  have hpos := List.length_pos_iff.2 (h.ne_nil _ (List.getElem_mem hk))
  rw [List.length_drop] at hpre
  rw [place]
  omega

theorem Tokenized.place_lt_place (h : full.Tokenized splitters) (hkj : k < j) (hj : j < full.size) :
    (full.place k : Int) < full.place j := by
  have hk : k < full.tokens.length := by
    rw [← size_eq]
    omega
  have hlt := positionAt_lt (List.getElem?_eq_getElem hk) (h.ne_nil _ (List.getElem_mem hk)) (Nat.le_refl k) hkj
  rw [positionAt, positionAt] at hlt
  rw [place, place]
  omega

/-- A text that is not blank has a token. -/
theorem size_pos_of_not_blank (h : (ofText splitters text).text.isAllBlank = false) :
    0 < (ofText splitters text).size := by
  rw [Nat.pos_iff_ne_zero]
  intro hsize
  rw [size, List.length_eq_zero_iff] at hsize
  rw [(tokenized_ofText splitters text).faithful, Row.render, hsize, List.flatMap_nil, List.nil_append,
    Text.isAllBlank, List.all_eq_false] at h
  obtain ⟨x, hx, hblank⟩ := h
  exact hblank (Text.isBlank_of_mem_spaces hx)

end TokenList

namespace Builder

variable {κ : Type} {b : Builder κ} {text : Text}

theorem whole_tokenList (b : Builder κ) (text : Text) : Grammar.Whole text (b.tokenList text) where
  faithful := (b.tokenized_tokenList text).faithful
  text_eq := rfl
  offset_eq := rfl

/-- Every node of the tree of a text stands in the text at its position, from left to right the positions ascend, and so
each of them belongs to one node. -/
theorem ascending_of_build (hr : b.operators.Reachable) {e : Expression κ} (h : b.build text = .ok e) :
    (∀ path u, e.tree.at? path = some u → ∃ p, p < text.length ∧ u.StandsAt text p) ∧
      (e.tree.inOrder.map Tree.position).Pairwise (· < ·) ∧
      ∀ path path' u u', e.tree.at? path = some u → e.tree.at? path' = some u' → u.position = u'.position →
        path = path' := by
  have htokenized := b.tokenized_tokenList text
  obtain ⟨hblank, -, hparse⟩ := parse_of_build h
  have hsize := @TokenList.size_pos_of_not_blank text b.operators.tokens.reverse hblank
  have hbuild := Grammar.build_of_parse hparse
  rw [← htokenized.faithful.slice_size] at hbuild
  have hstand := Grammar.standsIn_build (g := b.grammar) hr.wellFormed (b.whole_tokenList text) _ _ _ _ (Nat.zero_le _)
    (Nat.le_refl _) hbuild
  have hend : max (b.tokenList text).size (0 + 1) = (b.tokenList text).size := max_eq_left hsize
  rw [hend] at hstand
  have hascending : (e.tree.inOrder.map Tree.position).Pairwise (· < ·) := by
    refine hstand.pairwise fun i j u v hij hj hu hv => ?_
    rw [hu.position, hv.position]
    exact htokenized.place_lt_place hij hj
  refine ⟨fun path u hu => ?_, hascending, fun path path' u u' hu hu' heq => ?_⟩
  · obtain ⟨k, -, hk, hstands⟩ := hstand.exists_of_mem (Tree.mem_inOrder_of_at? hu)
    exact ⟨_, htokenized.place_lt hk, hstands⟩
  · exact Tree.eq_of_position (hascending.imp fun hlt => Int.ne_of_lt hlt) hu hu' heq

theorem reachable_standard : (standard (κ := Unit) {}).operators.Reachable :=
  Registry.Reachable.empty.addAll fun o ho => (Standard.formed_ofStandard (fun _ => List.mem_append_left _) o ho).1

/-- From left to right: `-`, `max`, `e`, `1`, `%`, `?`, `2` and `3`. -/
theorem ascending_of_build_sample : (standard (κ := Unit) {}).operators.Reachable ∧ ∃ e : Expression Unit,
    (standard (κ := Unit) {}).build "-max(e , 1)% ? 2 : 3".toList = .ok e ∧
      e.tree.inOrder.map Tree.position = [0, 1, 5, 9, 11, 13, 15, 19] ∧
      (e.tree.inOrder.map Tree.position).Pairwise (· < ·) := by
  have hpositions : ((standard (κ := Unit) {}).build "-max(e , 1)% ? 2 : 3".toList).toOption.map
      (fun e => e.tree.inOrder.map Tree.position) = some [0, 1, 5, 9, 11, 13, 15, 19] := by
    simp only [build, parse_eq, Grammar.parse, groups_standard]
    decide +kernel
  cases he : (standard (κ := Unit) {}).build "-max(e , 1)% ? 2 : 3".toList with
  | error e =>
    rw [he] at hpositions
    cases hpositions
  | ok e =>
    rw [he] at hpositions
    exact ⟨reachable_standard, e, rfl, Option.some.inj hpositions, (ascending_of_build reachable_standard he).2.1⟩

end Builder

end Mixfix
