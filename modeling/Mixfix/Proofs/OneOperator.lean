import Mixfix.Proofs.Sentence

/-!
# One infix operator parses its grammar

A registry with a single infix operator parses exactly the sentences of the grammar of this operator, each to the tree
of its one derivation, unless a limit is below the number of tokens (`Grammar.parse_sentence`). Names and number
literals take tokens together that the grammar takes one by one. So no part of the list may be named
(`Grammar.Tokenwise`), and a list that is no sentence may be parsed if a part of more than one token is a number literal
(`TokenList.NumbersApart`).

* A scan finds the operator at the root of a sentence, since it comes to its sites before all others
  (`Grammar.foundBy_operation`); so the tokens tell the derivation (`Sentence.eq_of_tokens`).
* The trees of a derivation are built of its sections, by induction on it (`Grammar.build_sections`).
* What is built has a derivation, by induction on the levels (`Grammar.exists_sentence_of_build`). The operands have one
  by induction; the one that the scan comes to first is an atom, as a scan that comes to an operation finds its tokens
  (`Sentence.exists_first`, `Sentence.exists_last`).
-/

namespace Mixfix

variable {α : Type}

/-! ## Scans -/

namespace Grammar

variable {g : Grammar α} {source : Text} {o : Operator α} {a : Associativity} {l : TokenList} {group : Group α}
  {points : List Nat} {ss : List Site}

/-- The indices of the operator of an associativity that a scan of sites finds. -/
def foundBy (a : Associativity) (group : Group α) (ss : List Site) : Option (List Nat) :=
  match a with
  | .right => rightFound group ss
  | .left => leftFound group ss

/-- A scan finds the operator that it comes to first. -/
theorem foundBy_beside (h : g.operators.HasOnly o a) (hg : g.operators.OnlyGroup o a group) {w own : List Site}
    (hs : Scan.Spelled (fun p => (g.operators.infixOps.get? p).isSome = true) o.tokens w own) (x : List Site) :
    foundBy a group (a.beside w x) = some (own.map Site.index) := by
  have hheld := hg.held
  cases a with
  | right => exact rightFound_append h.separate hg.mem hs (Option.isSome_iff_exists.2 ⟨o, hheld⟩) x
  | left => exact leftFound_append h.separate hg.mem hs (Option.isSome_iff_exists.2 ⟨o, hheld⟩) x

/-- What a scan finds are sites that spell the operator. -/
theorem exists_own_of_foundBy (h : g.operators.HasOnly o a) (hg : g.operators.OnlyGroup o a group)
    (hf : foundBy a group ss = some points) :
    ∃ own : List Site, own.Sublist ss ∧ own.map Site.text = o.tokens ∧ points = own.map Site.index := by
  have hsound := h.separate.sound hg.mem
  cases a with
  | right =>
    rw [foundBy, rightFound, sitesFound, Option.map_map] at hf
    obtain ⟨f, hseek, rfl⟩ := Option.map_eq_some_iff.1 hf
    obtain ⟨hsub, -, hsome⟩ := Scan.seek_sound 0 _ hseek
    obtain ⟨o', ho'⟩ := Option.isSome_iff_exists.1 hsome
    exact ⟨f.sites, hsub, (hg.only (.infixed .right) _ o' ho').2.1, rfl⟩
  | left =>
    rw [foundBy, leftFound, sitesFound, Option.map_map] at hf
    obtain ⟨f, hseek, rfl⟩ := Option.map_eq_some_iff.1 hf
    obtain ⟨hsub, -, hsome⟩ := Scan.seek_sound 0 _ hseek
    rw [hsound.reversed] at hsome
    obtain ⟨o', ho'⟩ := Option.isSome_iff_exists.1 hsome
    refine ⟨f.sites.reverse, ?_, ?_, ?_⟩
    · rw [← List.reverse_reverse ss]
      exact hsub.reverse
    · rw [List.map_reverse]
      exact (hg.only (.infixed .left) _ o' ho').2.1
    · exact List.map_reverse.symm

/-- What a scan finds in an operation is the operator of it, and stands in the operation if this is what the scan comes
to first. -/
theorem foundBy_operation (h : g.operators.HasOnly o a) (hg : g.operators.OnlyGroup o a group)
    (x : Sentence a o.tokens a.first) (rest : Sentence a o.tokens (.rest o.tokens)) {before behind : List Token}
    {k : Nat} (z : List Site) :
    foundBy a group (a.beside (Site.inTokens g.operators before behind k 0 (Sentence.operation x rest).tokens) z) =
        some (TokenList.joints k x.tokens rest.parts) ∧
      ∀ p ∈ TokenList.joints k x.tokens rest.parts, k ≤ p ∧ p < k + (Sentence.operation x rest).tokens.length := by
  obtain ⟨w, y, own, hsites, hspelled, hown⟩ :=
    @Sentence.exists_beside _ g.operators o a before behind k h x rest
  constructor
  · rw [hsites, a.beside_beside, foundBy_beside h hg hspelled, hown]
  · intro p hp
    rw [← hown] at hp
    obtain ⟨s, hs, rfl⟩ := List.mem_map.1 hp
    refine @Site.bounds_of_mem _ g.operators before behind k 0 s _ ?_
    rw [hsites]
    have hmem := hspelled.sublist.subset hs
    cases a with
    | right => exact List.mem_append_left _ hmem
    | left => exact List.mem_append_right _ hmem

/-- What a scan finds is looked up as the operator. -/
theorem infixOperation?_of_foundBy (h : g.operators.HasOnly o a) (hg : g.operators.OnlyGroup o a group)
    {t : Trie Text (Operator α)} (ht : t.get? o.tokens = some o)
    (hf : foundBy a group (Site.ofTokens g.operators l.tokens) = some points) :
    infixOperation? l t points = some (.operation (l.positionAt (points.headD 0)) o (l.cutAt points)) := by
  obtain ⟨own, hsub, htexts, rfl⟩ := exists_own_of_foundBy h hg hf
  rw [infixOperation?, Site.filterMap_fixed? fun s hs => Site.getElem?_of_mem (hsub.subset hs), htexts, ht]
  rfl

theorem readPrefix?_of_onlyGroup (hg : g.operators.OnlyGroup o a group) : readPrefix? l group = none := by
  refine readPrefix?_eq_none_iff.2 fun t _ _ _ => Option.eq_none_iff_forall_ne_some.2 fun o' ho' => ?_
  cases (hg.only .prefixed [t] o' ho').1

theorem readPostfix?_of_onlyGroup (hg : g.operators.OnlyGroup o a group) : readPostfix? l group = none := by
  refine readPostfix?_eq_none_iff.2 fun t _ _ _ => Option.eq_none_iff_forall_ne_some.2 fun o' ho' => ?_
  cases (hg.only .postfixed [t] o' ho').1

/-- The operation of a section is that of the operator that a scan finds, which no other operator is there to
enclose. -/
theorem readOperation?_eq_foundBy (h : g.operators.HasOnly o a) (hg : g.operators.OnlyGroup o a group)
    (hb : Balanced l.tokens) : g.readOperation? l (Mark.ofTokens g.operators l.tokens) g.operators.groups.1 =
      (foundBy a group (Site.ofTokens g.operators l.tokens)).map fun points =>
        .operation (l.positionAt (points.headD 0)) o (l.cutAt points) := by
  have hsound := h.separate.sound hg.mem
  have hheld := hg.held
  rw [hg.groups_eq]
  simp only [readOperation?, readPrefix?_of_onlyGroup hg, readPostfix?_of_onlyGroup hg, readRight?, readLeft?]
  cases a with
  | right =>
    have hempty : group.left.isEmpty = true :=
      (Trie.isEmpty_iff hsound.left_distinct).2 (hg.get?_eq_none (f := .infixed .left) (by simp))
    have hscan : scanRight group (Mark.ofTokens g.operators l.tokens) (fun _ => false) =
        foundBy .right group (Site.ofTokens g.operators l.tokens) := scanRight_ofTokens hsound
    rw [hscan, scanLeft_of_isEmpty hempty]
    cases hf : foundBy .right group (Site.ofTokens g.operators l.tokens) with
    | none => rfl
    | some points =>
      have hnot : g.isEnclosed l.tokens (Mark.ofTokens g.operators l.tokens) points (some group) [] = false :=
        isEnclosed_of_isEmpty (fun group' hm => by cases hm; exact hempty) (by simp)
      simp [hnot, infixOperation?_of_foundBy h hg hheld hf]
  | left =>
    have hempty : group.right.isEmpty = true :=
      (Trie.isEmpty_iff hsound.right_distinct).2 (hg.get?_eq_none (f := .infixed .right) (by simp))
    have hscan : scanLeft group (Mark.ofTokens g.operators l.tokens) (fun _ => false) =
        foundBy .left group (Site.ofTokens g.operators l.tokens) := scanLeft_ofTokens hsound hb
    rw [hscan, scanRight_of_isEmpty hempty]
    cases hf : foundBy .left group (Site.ofTokens g.operators l.tokens) with
    | none => rfl
    | some points =>
      have hnot : g.isEnclosed l.tokens (Mark.ofTokens g.operators l.tokens) points none [] = false :=
        isEnclosed_of_isEmpty (by simp) (by simp)
      simp [hnot, infixOperation?_of_foundBy h hg hheld hf]

end Grammar

/-! ## Unique derivations -/

namespace Sentence

open Grammar

variable {g : Grammar α} {o : Operator α} {a : Associativity} {c : Category}

/-- An atom is no operation. -/
theorem atom_ne_operation (h : g.operators.HasOnly o a) (x : Sentence a o.tokens .atom)
    (y : Sentence a o.tokens a.first)
    (rest : Sentence a o.tokens (.rest o.tokens)) : x.tokens ≠ (operation y rest).tokens := by
  intro heq
  obtain ⟨group, hg⟩ := h.exists_group
  obtain ⟨hfound, -⟩ := @foundBy_operation _ g o a group h hg y rest [] [] 0 []
  rw [← heq, sites_atom h x rfl, a.beside_nil] at hfound
  obtain ⟨own, hsub, htexts, -⟩ := exists_own_of_foundBy h hg hfound
  rw [List.sublist_nil.1 hsub] at htexts
  exact h.tokens_ne_nil htexts.symm

/-- Operations of the same tokens have the same operands. -/
theorem operands_eq (h : g.operators.HasOnly o a) {x y : Sentence a o.tokens a.first}
    {rest rest' : Sentence a o.tokens (.rest o.tokens)} (heq : (operation x rest).tokens = (operation y rest').tokens) :
    x.tokens = y.tokens ∧ rest.parts = rest'.parts := by
  obtain ⟨group, hg⟩ := h.exists_group
  obtain ⟨hfound, -⟩ := @foundBy_operation _ g o a group h hg x rest [] [] 0 []
  obtain ⟨hfound', -⟩ := @foundBy_operation _ g o a group h hg y rest' [] [] 0 []
  rw [heq, hfound'] at hfound
  rw [tokens, tokens, ← joined_parts, ← joined_parts] at heq
  exact TokenList.joined_inj heq (Option.some.inj hfound).symm

/-- The parts of a derivation tell it. -/
theorem eq_of_parts (h : g.operators.HasOnly o a) (d d' : Sentence a o.tokens c) (heq : d.parts = d'.parts) :
    d = d' := by
  induction d with
  | @number t v ht w =>
    have heq := (parts_eq_iff rfl).1 heq
    cases d' with
    | @number t' v' ht' w' =>
      obtain ⟨rfl, rfl⟩ := Token.number.inj (List.cons.inj heq).1
      obtain rfl : v = v' := Option.some.inj (ht.symm.trans ht')
      rfl
    | brackets d' => cases (List.cons.inj heq).1
  | brackets d ih =>
    have heq := (parts_eq_iff rfl).1 heq
    cases d' with
    | number ht' w' => cases (List.cons.inj heq).1
    | brackets d' => rw [ih d' ((parts_eq_iff rfl).2 (List.append_inj_left' (List.cons.inj heq).2 rfl))]
  | atom x ih =>
    have heq := (parts_eq_iff rfl).1 heq
    cases d' with
    | atom x' => rw [ih x' ((parts_eq_iff rfl).2 heq)]
    | operation y rest => exact absurd heq (atom_ne_operation h x y rest)
  | operation x rest ihx ihrest =>
    have heq := (parts_eq_iff rfl).1 heq
    cases d' with
    | atom x' => exact absurd heq.symm (atom_ne_operation h x' x rest)
    | operation y rest' =>
      obtain ⟨hx, hrest⟩ := operands_eq h heq
      rw [ihx y ((parts_eq_iff a.isOperand_first).2 hx), ihrest rest' hrest]
  | last t y ih =>
    cases d' with
    | last _ y' => rw [ih y' ((parts_eq_iff a.isOperand_last).2 (congrArg Prod.snd (List.cons.inj heq).1))]
    | next _ s rest => exact absurd (List.cons.inj heq).2.symm rest.parts_ne_nil
  | next t s rest ihs ihrest =>
    cases d' with
    | last _ y' => exact absurd (List.cons.inj heq).2 rest.parts_ne_nil
    | next _ s' rest' =>
      obtain ⟨hs, hrest⟩ := List.cons.inj heq
      rw [ihs s' ((parts_eq_iff rfl).2 (congrArg Prod.snd hs)), ihrest rest' hrest]

/-- A list of tokens has at most one derivation. -/
theorem eq_of_tokens (h : g.operators.HasOnly o a) {d d' : Sentence a o.tokens .expr} (heq : d.tokens = d'.tokens) :
    d = d' := eq_of_parts h d d' ((parts_eq_iff rfl).2 heq)

end Sentence

/-! ## Tokens that are read one by one -/

/-- Whether a token is a number token, a bracket or a token of the operator. -/
def Operator.hasWord (o : Operator α) : Token → Bool
  | .number t _ => (readNumber? t).isSome
  | .fixed t => t == Token.openText || t == Token.closeText || o.tokens.contains t
  | .raw _ => false

/-- No part of more than one token is a number literal. -/
def TokenList.NumbersApart (l : TokenList) : Prop :=
  ∀ i j, i + 2 ≤ j → j ≤ l.size → readNumber? (l.slice i j).text = none

theorem TokenList.NumbersApart.slice {l : TokenList} (h : l.NumbersApart) (hl : l.Faithful) {i j : Nat}
    (hj : j ≤ l.size) : (l.slice i j).NumbersApart := by
  intro i' j' hij' hj'
  rw [TokenList.size_slice hj] at hj'
  rw [hl.slice_slice hj (by omega) (by omega)]
  exact h _ _ (by omega) (by omega)

namespace Grammar

/-- The list has tokens of the operator, number tokens and brackets only, and no part of it is named. -/
structure Tokenwise (g : Grammar α) (o : Operator α) (l : TokenList) : Prop where
  faithful : l.Faithful
  words : ∀ t ∈ l.tokens, o.hasWord t = true
  not_named : ∀ i j, i ≤ j → j ≤ l.size →
    (l.slice i j).trimmedText ∉ g.vars ∧ (l.slice i j).trimmedText ∉ g.functions

variable {g : Grammar α} {source : Text} {o : Operator α} {a : Associativity} {l full : TokenList}

theorem Tokenwise.slice (h : g.Tokenwise o l) {i j : Nat} (hij : i ≤ j) (hj : j ≤ l.size) :
    g.Tokenwise o (l.slice i j) where
  faithful := h.faithful.slice hij
  words t ht := by
    rw [TokenList.tokens_slice] at ht
    exact h.words t (List.mem_of_mem_drop (List.mem_of_mem_take ht))
  not_named i' j' hij' hj' := by
    rw [TokenList.size_slice hj] at hj'
    rw [h.faithful.slice_slice hj hij' (by omega)]
    exact h.not_named _ _ (by omega) (by omega)

theorem Tokenwise.not_var (h : g.Tokenwise o l) : l.trimmedText ∉ g.vars := by
  have hnot := (h.not_named 0 l.size (Nat.zero_le _) (Nat.le_refl _)).1
  rwa [h.faithful.slice_size] at hnot

end Grammar

/-! ## Trees of derivations -/

namespace Grammar

variable {g : Grammar α} {source : Text} {o : Operator α} {a : Associativity} {l full : TokenList}

/-- A sentence is read as the operation at its root. -/
theorem read_operation (h : g.operators.HasOnly o a) (hl : g.Tokenwise o l) (x : Sentence a o.tokens a.first)
    (rest : Sentence a o.tokens (.rest o.tokens)) (htokens : l.tokens = (Sentence.operation x rest).tokens) :
    g.read source g.operators.groups.1 l =
      .ok (.operation (l.positionAt x.tokens.length) o (l.cutAt (TokenList.joints 0 x.tokens rest.parts))) := by
  obtain ⟨group, hg⟩ := h.exists_group
  have hop : g.operators.Operand l.tokens := by
    rw [htokens]
    exact (Sentence.nests h _ rfl).operand
  obtain ⟨p, ps, hp⟩ := List.exists_cons_of_ne_nil rest.parts_ne_nil
  have hfirst : p.1 ∈ o.tokens := by
    rw [← rest.map_fst_parts, hp]
    exact List.mem_cons_self
  have hsplit : l.tokens = x.tokens ++ .fixed p.1 :: TokenList.joined p.2 ps := by
    rw [htokens, Sentence.tokens, ← rest.joined_parts, hp]
    rfl
  obtain ⟨hbuiltin, hinfix⟩ := h.infix_token hfirst
  have hx := (Sentence.nests h x a.isOperand_first).operand.balanced
  obtain ⟨hfound, -⟩ := @foundBy_operation _ g o a group h hg x rest [] [] 0 []
  rw [a.beside_nil, ← htokens] at hfound
  have hread := readOperation?_eq_foundBy h hg hop.balanced
  rw [show foundBy a group (Site.ofTokens g.operators l.tokens) = _ from hfound] at hread
  refine read_of_readOperation? hop ?_ hl.not_var (readCall?_of_unnamed (fun i hi =>
    (hl.not_named 0 i (Nat.zero_le _) hi).2) ?_) ?_
  · rw [hsplit]
    exact TokenList.areInBrackets_eq_false hx.depth_eq (Token.isPlain_of_not_builtin hbuiltin)
  · rw [List.any_eq_true]
    exact ⟨.fixed p.1, by rw [hsplit]; simp, h.separate.isOperatorToken h.avoids h.mem hfirst⟩
  · rw [hread, hp]
    simp [TokenList.joints]

/-- The trees of a derivation are built of its sections, unless the levels are fewer than the tokens of these. -/
theorem build_sections (h : g.operators.HasOnly o a) (hfull : g.Tokenwise o full) {c : Category}
    (d : Sentence a o.tokens c) {i : Nat} (hd : d.StandsAt full i) :
    List.Forall₂ (fun s t => s.isEmpty = false ∧ ∀ levels, Within (levels < s.size) (· = t)
      (g.build source g.operators.groups.1 levels s)) (d.sections full i) (d.trees o full i) := by
  have htokenwise {c : Category} {d : Sentence a o.tokens c} {i : Nat} (hd : d.StandsAt full i) :
      g.Tokenwise o (full.slice i (i + d.tokens.length)) := hfull.slice (Nat.le_add_right _ _) hd.le_size
  induction d generalizing i with
  | @number t v ht w =>
    have hl := htokenwise hd
    have hread : g.read source g.operators.groups.1 _ = .ok (.number v) :=
      read_number_of_unnamed (fun group hm => h.separate.sound hm) hl.faithful hl.not_var hd.tokens_slice ht
    refine .cons ⟨hd.isEmpty_slice, fun levels => ?_⟩ .nil
    rw [← hd.position_slice]
    exact within_build_of_read hd.size_slice_pos hread .nil
  | brackets d ih =>
    have hread : g.read source g.operators.groups.1 _ = _ := read_brackets h.separate.toWellFormed.sparesBrackets
      (Sentence.nests h d rfl).operand.balanced hd.tokens_slice
    have hlength : (Sentence.brackets d).tokens.length = d.tokens.length + 2 := by simp [Sentence.tokens]
    have hinner : i + ((Sentence.brackets d).tokens.length - 1) = i + 1 + d.tokens.length := by omega
    rw [hd.size_slice, hfull.faithful.slice_slice hd.le_size (by omega) (by omega), hinner] at hread
    obtain ⟨t, htree⟩ := d.exists_tree rfl o full (i + 1)
    have hbelow := ih hd.brackets
    rw [htree, d.sections_eq rfl, List.forall₂_cons] at hbelow
    rw [Sentence.trees, htree]
    refine .cons ⟨hd.isEmpty_slice, fun levels => ?_⟩ .nil
    refine within_build_of_read hd.size_slice_pos hread (.cons ⟨hbelow.1.1, ?_, hbelow.1.2⟩ .nil)
    rw [hd.size_slice, hd.brackets.size_slice, hlength]
    omega
  | atom x ih =>
    have hx := ih hd
    rwa [x.sections_eq rfl] at hx
  | operation x rest ihx ihrest =>
    obtain ⟨hx, hrest⟩ := hd.operation
    have hall := List.rel_append (ihx hx) (ihrest hrest)
    have hread : g.read source g.operators.groups.1 _ = _ := read_operation h (htokenwise hd) x rest hd.tokens_slice
    have hlength : (Sentence.operation x rest).tokens.length = x.tokens.length + rest.tokens.length :=
      List.length_append
    have hsmaller : ∀ s ∈ x.sections full i ++ rest.sections full (i + x.tokens.length),
        s.size < (full.slice i (i + (Sentence.operation x rest).tokens.length)).size := by
      intro s hs
      rw [hd.size_slice]
      exact Sentence.size_lt_of_mem_operands hs
    rw [Sentence.cutAt_joints hfull.faithful x rest hd.le_size (by rw [hlength]),
      TokenList.positionAt_slice hd.le_size (by omega)] at hread
    refine .cons ⟨hd.isEmpty_slice, fun levels => ?_⟩ .nil
    exact within_build_of_read hd.size_slice_pos hread (((List.forall₂_and_left _ _).2 ⟨hsmaller, hall⟩).imp
      fun s t hs => ⟨hs.2.1, hs.1, hs.2.2⟩)
  | last t y ih => exact ih hd.last
  | next t d rest ihd ihrest => exact List.rel_append (ihd hd.next.1) (ihrest hd.next.2)

end Grammar

/-! ## Derivations of trees -/

namespace Sentence

open Grammar

variable {g : Grammar α} {source : Text} {o : Operator α} {a : Associativity} {group : Group α} {t : Text}
  {points : List Nat} {u v : List Token}

/-- An operand before a token of the operator that a scan finds first is the first operand. -/
theorem exists_first (h : g.operators.HasOnly o a) (hg : g.operators.OnlyGroup o a group)
    (d : Sentence a o.tokens .expr) (ht : t ∈ o.tokens) (hv : g.operators.Operand v)
    (hfound : foundBy a group (Site.ofTokens g.operators (d.tokens ++ .fixed t :: v)) = some points)
    (hmem : d.tokens.length ∈ points) : ∃ x : Sentence a o.tokens a.first, x.tokens = d.tokens := by
  cases a with
  | left => exact ⟨d, rfl⟩
  | right =>
    cases d with
    | atom x => exact ⟨x, rfl⟩
    | operation x rest =>
      -- the scan would come to the tokens of this operation before
      obtain ⟨hbuiltin, hinfix⟩ := h.infix_token ht
      rw [Site.ofTokens, Site.inTokens_infix (nests h _ rfl).operand hv (Token.isPlain_of_not_builtin hbuiltin) hinfix]
        at hfound
      obtain ⟨hother, hbounds⟩ := foundBy_operation h hg x rest _
      rw [Associativity.beside, hfound] at hother
      obtain rfl := Option.some.inj hother
      have := (hbounds _ hmem).2
      omega

/-- An operand behind a token of the operator that a scan finds first is the last operand. -/
theorem exists_last (h : g.operators.HasOnly o a) (hg : g.operators.OnlyGroup o a group)
    (d : Sentence a o.tokens .expr) (ht : t ∈ o.tokens) (hu : g.operators.Operand u)
    (hfound : foundBy a group (Site.ofTokens g.operators (u ++ .fixed t :: d.tokens)) = some points)
    (hmem : u.length ∈ points) : ∃ y : Sentence a o.tokens a.last, y.tokens = d.tokens := by
  cases a with
  | right => exact ⟨d, rfl⟩
  | left =>
    cases d with
    | atom x => exact ⟨x, rfl⟩
    | operation x rest =>
      obtain ⟨hbuiltin, hinfix⟩ := h.infix_token ht
      rw [Site.ofTokens, Site.inTokens_infix hu (nests h _ rfl).operand (Token.isPlain_of_not_builtin hbuiltin) hinfix,
        List.append_cons] at hfound
      obtain ⟨hother, hbounds⟩ := foundBy_operation h hg x rest _
      rw [Associativity.beside, hfound] at hother
      obtain rfl := Option.some.inj hother
      have := (hbounds _ hmem).1
      omega

/-- Operands around the tokens of the operator that a scan finds are those of an operation. -/
theorem exists_operation (h : g.operators.HasOnly o a) (hg : g.operators.OnlyGroup o a group) {m : List Token}
    {rest : List (Text × List Token)} (htexts : rest.map Prod.fst = o.tokens)
    (hfound : foundBy a group (Site.ofTokens g.operators (TokenList.joined m rest)) = some (TokenList.joints 0 m rest))
    (hparts : ∀ m' ∈ m :: rest.map Prod.snd, ∃ d : Sentence a o.tokens .expr, d.tokens = m') :
    ∃ d : Sentence a o.tokens .expr, d.tokens = TokenList.joined m rest := by
  have hmem {p : Text × List Token} (hp : p ∈ rest) : p.1 ∈ o.tokens := by
    rw [← htexts]
    exact List.mem_map_of_mem hp
  have hoperand {m' : List Token} (hm' : m' ∈ m :: rest.map Prod.snd) : g.operators.Operand m' := by
    obtain ⟨d, rfl⟩ := hparts m' hm'
    exact (nests h d rfl).operand
  have hrest {p : Text × List Token} (hp : p ∈ rest) :
      (Token.fixed p.1).isBuiltin = false ∧ g.operators.Operand p.2 :=
    ⟨(h.infix_token (hmem hp)).1, hoperand (List.mem_cons_of_mem _ (List.mem_map_of_mem hp))⟩
  have hne : rest ≠ [] := by
    rintro rfl
    exact h.tokens_ne_nil htexts.symm
  have hfirst : ∃ x : Sentence a o.tokens a.first, x.tokens = m := by
    obtain ⟨d, rfl⟩ := hparts m List.mem_cons_self
    obtain ⟨p, ps, rfl⟩ := List.exists_cons_of_ne_nil hne
    refine exists_first h hg d (hmem List.mem_cons_self) ?_ hfound (by simp [TokenList.joints])
    exact operand_joined (hrest List.mem_cons_self).2 fun q hq => hrest (List.mem_cons_of_mem _ hq)
  have hlast : ∃ y : Sentence a o.tokens a.last, y.tokens = (rest.getLast hne).2 := by
    have hsplit := List.dropLast_append_getLast hne
    obtain ⟨d, hd⟩ := hparts _ (List.mem_cons_of_mem _ (List.mem_map_of_mem (List.getLast_mem hne)))
    rw [← hsplit, TokenList.joined_concat, TokenList.joints_concat, ← hd] at hfound
    rw [← hd]
    refine exists_last h hg d (hmem (List.getLast_mem hne)) ?_ hfound (by simp)
    exact operand_joined (hoperand List.mem_cons_self) fun q hq => hrest (List.mem_of_mem_dropLast hq)
  obtain ⟨x, rfl⟩ := hfirst
  obtain ⟨r, rfl⟩ := exists_rest hne htexts
    (fun p hp => hparts p.2 (List.mem_cons_of_mem _ (List.mem_map_of_mem hp))) hlast
  exact ⟨operation x r, (r.joined_parts x.tokens).symm⟩

end Sentence

namespace Grammar

variable {g : Grammar α} {source : Text} {o : Operator α} {a : Associativity} {l : TokenList}

/-- A number is read off a number token only. -/
theorem exists_sentence_of_number (h : g.operators.HasOnly o a) (hl : g.Tokenwise o l) (hn : l.NumbersApart)
    (hb : Balanced l.tokens) (hends : g.checkEnds source l = .ok ()) {v : Float} (hv : readNumber? l.text = some v) :
    ∃ d : Sentence a o.tokens .expr, d.tokens = l.tokens := by
  match htokens : l.tokens with
  | [] =>
    rw [← readNumber?_trim, show l.text.trim = [] from hl.faithful.trimmedText_nil htokens] at hv
    cases hv
  | [t] =>
    rw [htokens] at hb
    have hword := hl.words t (by rw [htokens]; exact List.mem_singleton_self t)
    cases t with
    | raw t => cases hword
    | number t w =>
      obtain ⟨x, hx⟩ := Option.isSome_iff_exists.1 hword
      exact ⟨.atom (.number hx w), rfl⟩
    | fixed t =>
      simp only [Operator.hasWord, Bool.or_eq_true, beq_iff_eq, List.contains_iff_mem] at hword
      rcases hword with (rfl | rfl) | ht
      · cases hb.depth_eq
      · cases hb.depth_eq
      · -- no section begins with a token of the operator
        have hprefix := (checkEnds_eq_ok_iff.1 hends).1 (.fixed t) (by rw [htokens]; rfl)
          (h.separate.isOperatorToken h.avoids h.mem ht)
        rw [h.own.unmixed.not_prefix _ (h.infix_token ht).2] at hprefix
        cases hprefix
  | t :: t' :: ts =>
    have hnot := hn 0 l.size (by rw [TokenList.size_eq, htokens]; simp) (Nat.le_refl _)
    rw [hl.faithful.slice_size, hv] at hnot
    cases hnot

/-- Only sentences have a tree. -/
theorem exists_sentence_of_build (h : g.operators.HasOnly o a) (hl : g.Tokenwise o l) (hn : l.NumbersApart)
    (hb : Balanced l.tokens) {levels : Nat} {t : Tree α} (ht : g.build source g.operators.groups.1 levels l = .ok t) :
    ∃ d : Sentence a o.tokens .expr, d.tokens = l.tokens := by
  induction levels generalizing l t with
  | zero => cases ht
  | succ levels ih =>
    obtain ⟨reading, hread, ht⟩ := build_succ_eq_ok_iff.1 ht
    obtain ⟨hends, hcases⟩ := read_cases hread
    rcases hcases with ⟨hin, rfl⟩ | ⟨-, ⟨hvar, -⟩ | ⟨-, hcall | ⟨-, hop | ⟨-, v, hv, -⟩⟩⟩⟩
    · obtain ⟨m, htokens, hm, hinner⟩ := exists_of_isInBrackets hb hin
      rw [hinner] at ht
      have hmid := tokens_inner htokens
      have hsize : 2 ≤ l.size := by
        rw [TokenList.size_eq, htokens]
        simp
      obtain ⟨d, hd⟩ := ih (hl.slice (by omega) (by omega)) (hn.slice hl.faithful (by omega))
        (by rw [hmid]; exact hm) ht
      exact ⟨.atom (.brackets d), by rw [Sentence.tokens, Sentence.tokens, hd, hmid, htokens]⟩
    · exact absurd hvar hl.not_var
    · obtain ⟨pre, m, _, -, -, -, -, htokens, hname, -⟩ := exists_of_readCall? hb hcall
      refine absurd hname (hl.not_named 0 pre.length (Nat.zero_le _) ?_).2
      rw [TokenList.size_eq, htokens, List.length_append]
      omega
    · obtain ⟨group, hg⟩ := h.exists_group
      rw [readOperation?_eq_foundBy h hg hb, Option.map_eq_some_iff] at hop
      obtain ⟨points, hfound, rfl⟩ := hop
      obtain ⟨own, hsub, htexts, rfl⟩ := exists_own_of_foundBy h hg hfound
      obtain ⟨m, rest, htokens, hfst, hjoints, hbalanced⟩ := exists_joined_of_sublist hb hsub
      obtain ⟨ts, hts, -⟩ := treeOf_operation_eq_ok_iff.1 ht
      rw [← hjoints] at hts hfound
      rw [htokens] at hfound ⊢
      refine Sentence.exists_operation h hg (hfst.trans htexts) hfound fun m' hm' => ?_
      obtain ⟨s, t', ⟨htokens', i, j, hij, hj, rfl⟩, ht'⟩ :=
        TokenList.exists_of_isPart (TokenList.cutAt_joints htokens) hts m' hm'
      obtain ⟨d, hd⟩ := ih (hl.slice hij hj) (hn.slice hl.faithful hj) (by rw [htokens']; exact hbalanced m' hm') ht'
      exact ⟨d, hd.trans htokens'⟩
    · exact exists_sentence_of_number h hl hn hb hends hv

end Grammar

/-! ## Results -/

namespace Grammar

variable {g : Grammar α} {source : Text} {o : Operator α} {a : Associativity} {l : TokenList}

/-- A registry with a single infix operator parses each sentence of its grammar to the tree of its one derivation,
unless a limit is below the number of tokens. It parses sentences only, unless tokens that stand together are a number
literal. -/
theorem parse_sentence (h : g.operators.HasOnly o a) (hl : g.Tokenwise o l) (hb : Balanced l.tokens) :
    (l.NumbersApart → ∀ t, g.parse source l = .ok t →
      ∃ d : Sentence a o.tokens .expr, d.tokens = l.tokens ∧ d.trees o l 0 = [t]) ∧
    ∀ d : Sentence a o.tokens .expr, d.tokens = l.tokens →
      (∀ d' : Sentence a o.tokens .expr, d'.tokens = l.tokens → d' = d) ∧
      ((∃ t, g.parse source l = .ok t ∧ d.trees o l 0 = [t]) ∨
        ∃ e, g.parse source l = .error e ∧ e.code = .limitExceeded ∧ ∃ limit, g.limits.bound limit < l.size) := by
  -- what is built of a sentence
  have hbuild (d : Sentence a o.tokens .expr) (hd : d.tokens = l.tokens) : ∃ t, d.trees o l 0 = [t] ∧
      t.nodeCount ≤ l.size ∧ Within (g.limits.treeDepth.toNat < l.size) (· = t)
        (g.build source g.operators.groups.1 g.limits.treeDepth.toNat l) := by
    obtain ⟨t, htree⟩ := d.exists_tree rfl o l 0
    have hlength : d.tokens.length = l.size := by rw [hd, TokenList.size_eq]
    have hsections := @build_sections _ g source o a l h hl _ d 0 ⟨[], [], by rw [hd]; simp, rfl⟩
    have hcount := d.nodeCountAll_trees_le o l 0
    rw [htree, d.sections_eq rfl, Nat.zero_add, hlength, hl.faithful.slice_size, List.forall₂_cons] at hsections
    rw [htree, hlength] at hcount
    simp only [Tree.nodeCountAll, Category.isOperand_expr, cond_true] at hcount
    exact ⟨t, htree, by omega, hsections.1.2 _⟩
  refine ⟨fun hn t ht => ?_, fun d hd => ⟨fun d' hd' => Sentence.eq_of_tokens h (hd'.trans hd.symm), ?_⟩⟩
  · obtain ⟨d, hd⟩ := exists_sentence_of_build h hl hn hb (build_of_parse ht)
    obtain ⟨t', htree, -, hwithin⟩ := hbuild d hd
    refine ⟨d, hd, ?_⟩
    rw [build_of_parse ht] at hwithin
    rcases hwithin with ⟨_, heq, rfl⟩ | ⟨_, herror, -⟩
    · rw [htree, Except.ok.inj heq]
    · cases herror
  · obtain ⟨t, htree, hcount, hwithin⟩ := hbuild d hd
    have hcount' (t' : Tree α) (ht' : t' = t) : t'.nodeCount ≤ l.size := by
      rw [ht']
      exact hcount
    rcases within_parse (hwithin.imp Or.inl fun _ ht' => ht') hcount' with ⟨t', hparse, rfl⟩ | he
    · exact Or.inl ⟨t', hparse, htree⟩
    · exact Or.inr he

/-- A right-associative operator with a token that number literals have, too. -/
def soleSample : Operator Unit := ⟨.infixed .right, [['e'], ['q']], 0.0, ()⟩

/-- A grammar with this operator only. -/
def soleGrammar (vars functions : List Text) : Grammar Unit where
  operators := Registry.empty.addAll [soleSample]
  vars := vars
  functions := functions
  limits := {}

theorem hasOnly_soleGrammar (vars functions : List Text) :
    (soleGrammar vars functions).operators.HasOnly soleSample .right where
  reachable := Registry.Reachable.empty.addAll (by
    simp only [List.forall_mem_cons]
    exact ⟨⟨by decide, fun h => absurd rfl (h .right)⟩, by simp⟩)
  operators_eq := rfl
  infixed := rfl
  avoids := by
    rw [Registry.AvoidsBuiltins, show (soleGrammar vars functions).operators.operators = [soleSample] from rfl]
    decide
  nodup := by decide

theorem readNumber?_getD {t : Text} (h : (readNumber? t).isNone = false) (w : Float) :
    readNumber? t = some ((readNumber? t).getD w) := by
  cases hv : readNumber? t with
  | none =>
    rw [hv] at h
    cases h
  | some v => rfl

/-- A number as an atom. -/
def numeralAtom (t : Text) (w : Float) (h : (readNumber? t).isNone = false) : Sentence .right soleSample.tokens .atom :=
  .number (t := t) (v := (readNumber? t).getD w) (readNumber?_getD h w) w

/-- The sentence `(1)e(2)e3q4q5`. -/
def sentenceSample : Sentence .right soleSample.tokens .expr :=
  .operation (.brackets (.atom (numeralAtom ['1'] 1.0 (by decide +kernel)))) (.next ['e']
    (.operation (.brackets (.atom (numeralAtom ['2'] 2.0 (by decide +kernel)))) (.next ['e']
      (.atom (numeralAtom ['3'] 3.0 (by decide +kernel)))
      (.last ['q'] (.atom (numeralAtom ['4'] 4.0 (by decide +kernel))))))
    (.last ['q'] (.atom (numeralAtom ['5'] 5.0 (by decide +kernel)))))

theorem tokenwise_sentenceSample :
    (soleGrammar [] []).Tokenwise soleSample (TokenList.adjoining sentenceSample.tokens) where
  faithful := TokenList.faithful_adjoining _
  words := by
    rw [TokenList.tokens_adjoining]
    decide +kernel
  not_named _ _ _ _ := ⟨List.not_mem_nil, List.not_mem_nil⟩

theorem numbersApart_sentenceSample : (TokenList.adjoining sentenceSample.tokens).NumbersApart := by
  have hnot : ∀ j ≤ 13, ∀ i ≤ j, i + 2 ≤ j →
      (readNumber? ((TokenList.adjoining sentenceSample.tokens).slice i j).text).isNone = true := by decide +kernel
  intro i j hij hj
  exact Option.isNone_iff_eq_none.1 (hnot j hj i (by omega) hij)

theorem parse_sentence_sample : ∃ l, (soleGrammar [] []).operators.HasOnly soleSample .right ∧
    (soleGrammar [] []).Tokenwise soleSample l ∧ Balanced l.tokens ∧ l.NumbersApart ∧
      sentenceSample.tokens = l.tokens ∧
        ∃ t, (soleGrammar [] []).parse [] l = .ok t ∧ sentenceSample.trees soleSample l 0 = [t] := by
  have hr := hasOnly_soleGrammar [] []
  have htokens := TokenList.tokens_adjoining sentenceSample.tokens
  have hb : Balanced (TokenList.adjoining sentenceSample.tokens).tokens := by
    rw [htokens]
    exact (Sentence.nests hr sentenceSample rfl).operand.balanced
  refine ⟨_, hr, tokenwise_sentenceSample, hb, numbersApart_sentenceSample, htokens.symm, ?_⟩
  obtain ⟨-, hsentence⟩ := @parse_sentence _ (soleGrammar [] []) [] _ _ _ hr tokenwise_sentenceSample hb
  rcases (hsentence sentenceSample htokens.symm).2 with ht | ⟨e, -, -, limit, hlt⟩
  · exact ht
  · exact absurd hlt (by cases limit <;> decide +kernel)

/-- The tokens of `1e5`. -/
def exponentTokens : List Token := [.number ['1'] 1.0, .fixed ['e'], .number ['5'] 5.0]

/-- The tokens of `1(5)`. -/
def calledTokens : List Token := [.number ['1'] 1.0, .fixed Token.openText, .number ['5'] 5.0, .fixed Token.closeText]

theorem parse_exponentTokens : (match (soleGrammar [] []).parse [] (TokenList.adjoining exponentTokens) with
    | .ok (.number _ _) => true
    | _ => false) = true := by
  rw [parse, (hasOnly_soleGrammar [] []).reachable.wellFormed.groups_eq_foldl (by decide +kernel)]
  decide +kernel

theorem parse_calledTokens : (match (soleGrammar [] [['1']]).parse [] (TokenList.adjoining calledTokens) with
    | .ok (.call _ _ _) => true
    | _ => false) = true := by
  rw [parse, (hasOnly_soleGrammar [] [['1']]).reachable.wellFormed.groups_eq_foldl (by decide +kernel)]
  decide +kernel

theorem parse_namedTokens : (match (soleGrammar [['1']] []).parse [] (TokenList.adjoining [.number ['1'] 1.0]) with
    | .ok (.reference _ _) => true
    | _ => false) = true := by
  rw [parse, (hasOnly_soleGrammar [['1']] []).reachable.wellFormed.groups_eq_foldl (by decide +kernel)]
  decide +kernel

/-- Tokens that are read together as a number literal or as a call are no sentence but have a tree, and a sentence that
is named as a variable has another tree than its derivation. -/
theorem parse_not_tokenwise :
    (∀ vars functions, (soleGrammar vars functions).operators.HasOnly soleSample .right) ∧
    (∀ ts ∈ [exponentTokens, calledTokens, [.number ['1'] 1.0]], (TokenList.adjoining ts).Faithful ∧
      (TokenList.adjoining ts).tokens = ts ∧ Balanced ts ∧ ∀ t ∈ ts, soleSample.hasWord t = true) ∧
    ((∃ t, (soleGrammar [] []).parse [] (TokenList.adjoining exponentTokens) = .ok t) ∧
      ∀ d : Sentence .right soleSample.tokens .expr, d.tokens ≠ exponentTokens) ∧
    ((∃ t, (soleGrammar [] [['1']]).parse [] (TokenList.adjoining calledTokens) = .ok t) ∧
      ∀ d : Sentence .right soleSample.tokens .expr, d.tokens ≠ calledTokens) ∧
    ∃ d : Sentence .right soleSample.tokens .expr, d.tokens = [.number ['1'] 1.0] ∧
      ∃ t, (soleGrammar [['1']] []).parse [] (TokenList.adjoining [.number ['1'] 1.0]) = .ok t ∧
        d.trees soleSample (TokenList.adjoining [.number ['1'] 1.0]) 0 ≠ [t] := by
  have hnone {t : Text} {v : Float} {ts : List Token} (hts : ts ≠ []) (hlacks : .fixed ['q'] ∉ Token.number t v :: ts)
      (d : Sentence .right soleSample.tokens .expr) : d.tokens ≠ .number t v :: ts := by
    intro hd
    refine hts (Sentence.eq_nil_of_lacks hd (s := ['q']) (by decide) ?_)
    rw [hd]
    exact hlacks
  refine ⟨hasOnly_soleGrammar, fun ts hts => ⟨TokenList.faithful_adjoining ts, TokenList.tokens_adjoining ts, ?_, ?_⟩,
    ⟨?_, hnone (by simp) (by simp)⟩, ⟨?_, hnone (by simp) (by simp [Token.openText, Token.closeText])⟩,
    .atom (numeralAtom ['1'] 1.0 (by decide +kernel)), rfl, ?_⟩
  · simp only [List.mem_cons, List.not_mem_nil, or_false] at hts
    rcases hts with rfl | rfl | rfl
    · exact .of_plain (by decide)
    · exact .append (.singleton rfl) (.wrap (.singleton rfl))
    · exact .singleton rfl
  · revert ts
    decide +kernel
  · have hparse := parse_exponentTokens
    split at hparse
    · next t v h => exact ⟨_, h⟩
    · cases hparse
  · have hparse := parse_calledTokens
    split at hparse
    · next p name args h => exact ⟨_, h⟩
    · cases hparse
  · have hparse := parse_namedTokens
    split at hparse
    · next p name h => exact ⟨_, h, by simp [numeralAtom, Sentence.trees]⟩
    · cases hparse

end Grammar

end Mixfix
