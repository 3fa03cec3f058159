import Mixfix.Proofs.Flat
import Mixfix.Proofs.Operations
import Mixfix.Proofs.Spelled
import Mixfix.Proofs.Within

/-!
# A ternary operator that binds tighter than a binary one

The tokens of the unambiguous grammar `S → T | S b T`, `T → A | A q S c T`, `A → number | ( S )` for a left-associative
operator `b` and a right-associative one `(q, c)` that binds tighter (`Phrase`). The last `b` outside of brackets is
passed over if it stands in the first operator `(q, c)` of the section, and only then. So the tree of a phrase is built
exactly if it is *regular*: no right operand, of either operator, has a `b` outside of brackets
(`Grammar.parse_phrase`). In `1 b 2 q 3 b 4 c 5` the right operand of the first `b` has one.
-/

namespace Mixfix

variable {α : Type}

open Priority

/-! ## The operators -/

/-- A binary and a ternary operator, and their tokens. -/
structure Duo (α : Type) where
  binary : Operator α
  ternary : Operator α
  b : Text
  q : Text
  c : Text

/-- The infix operators of the registry are a left-associative binary one and a right-associative ternary one that binds
tighter, and no other operator has their tokens. -/
structure Duo.In (d : Duo α) (r : Registry α) : Prop where
  reachable : r.Reachable
  avoids : r.AvoidsBuiltins
  binary : d.binary ∈ r.operators ∧ d.binary.fixity = .infixed .left ∧ d.binary.tokens = [d.b]
  ternary : d.ternary ∈ r.operators ∧ d.ternary.fixity = .infixed .right ∧ d.ternary.tokens = [d.q, d.c]
  distinct : [d.b, d.q, d.c].Nodup
  tighter : d.binary.priority < d.ternary.priority
  others : ∀ o ∈ r.operators, o = d.binary ∨ o = d.ternary ∨
    (∀ a, o.fixity ≠ .infixed a) ∧ o.priority.isNaN = false ∧ ∀ t ∈ o.tokens, t ∉ [d.b, d.q, d.c]

/-- The sites of a ternary operator around others spell it. -/
theorem Duo.spelled (d : Duo α) {P : List Text → Prop} {w : List Site} (hw : Scan.Nested P w) (i j : Nat) :
    Scan.Spelled P [d.q, d.c] (⟨i, d.q⟩ :: (w ++ [⟨j, d.c⟩])) [⟨i, d.q⟩, ⟨j, d.c⟩] :=
  Scan.Spelled.next (s := ⟨i, d.q⟩) hw (Scan.Spelled.last ⟨j, d.c⟩)

namespace Duo.In

variable {d : Duo α} {r : Registry α} {o : Operator α}

theorem wellFormed (h : d.In r) : r.WellFormed := h.reachable.wellFormed

theorem own (h : d.In r) : r.Own where
  reachable := h.reachable
  avoids := h.avoids
  nodup o ho hf := by
    have hn := h.distinct
    rcases h.others o ho with rfl | rfl | ⟨hno, -⟩
    · rw [h.binary.2.2]
      exact List.nodup_singleton d.b
    · rw [h.ternary.2.2]
      exact (List.nodup_cons.1 hn).2
    · obtain ⟨a, ha⟩ := hf
      exact absurd ha (hno a)
  own o ho hf o' ho' t ht ht' := by
    have hn := h.distinct
    simp only [List.nodup_cons, List.mem_cons, List.not_mem_nil, or_false, not_or] at hn
    have hinfix : o = d.binary ∨ o = d.ternary := (h.others o ho).imp id fun ho' => ho'.resolve_right fun hno => by
      obtain ⟨a, ha⟩ := hf
      exact hno.1 a ha
    have hmem : t ∈ [d.b, d.q, d.c] := by
      rcases hinfix with rfl | rfl
      · rw [h.binary.2.2] at ht
        exact List.mem_cons.2 (Or.inl (List.mem_singleton.1 ht))
      · rw [h.ternary.2.2] at ht
        exact List.mem_cons_of_mem _ ht
    have hinfix' : o' = d.binary ∨ o' = d.ternary :=
      (h.others o' ho').imp id fun ho => ho.resolve_right fun hno => hno.2.2 t ht' hmem
    have happart (ht : t ∈ d.binary.tokens) (ht' : t ∈ d.ternary.tokens) : False := by
      rw [h.binary.2.2, List.mem_singleton] at ht
      rw [h.ternary.2.2, ht] at ht'
      simp [hn.1] at ht'
    rcases hinfix with rfl | rfl
    · rcases hinfix' with rfl | rfl
      · rfl
      · exact (happart ht ht').elim
    · rcases hinfix' with rfl | rfl
      · exact (happart ht' ht).elim
      · rfl

theorem binary_ne_ternary (h : d.In r) : d.binary ≠ d.ternary := fun heq => by
  have hf := h.binary.2.1
  rw [heq, h.ternary.2.1] at hf
  cases hf

theorem q_ne (h : d.In r) : d.q ≠ d.b := by
  have := h.distinct
  grind

theorem c_ne (h : d.In r) : d.c ≠ d.b := by
  have := h.distinct
  grind

theorem unmixed (h : d.In r) : r.Unmixed := h.own.unmixed

theorem get?_binary (h : d.In r) : r.infixOps.get? [d.b] = some d.binary := by
  rw [← h.binary.2.2]
  exact h.wellFormed.get?_infix h.binary.1 h.binary.2.1

theorem get?_ternary (h : d.In r) : r.infixOps.get? [d.q, d.c] = some d.ternary := by
  rw [← h.ternary.2.2]
  exact h.wellFormed.get?_infix h.ternary.1 h.ternary.2.1

/-- The tokens of the two operators are no brackets, and stand between operands. -/
theorem infix_token (h : d.In r) {t : Text} (ht : t ∈ [d.b, d.q, d.c]) :
    (Token.fixed t).isBuiltin = false ∧ r.isInfixToken (.fixed t) = true := by
  have hr := h.unmixed.toSeparate
  rcases List.mem_cons.1 ht with rfl | ht
  · exact hr.infix_token h.binary.1 ⟨_, h.binary.2.1⟩ (by rw [h.binary.2.2]; exact List.mem_singleton_self d.b)
  · exact hr.infix_token h.ternary.1 ⟨_, h.ternary.2.1⟩ (by rw [h.ternary.2.2]; exact ht)

theorem notNaN (h : d.In r) (o : Operator α) (ho : o ∈ r.operators) : o.priority.isNaN = false := by
  have hnot := not_isNaN_of_lt h.tighter
  rcases h.others o ho with rfl | rfl | ⟨-, hno, -⟩
  · exact hnot.1
  · exact hnot.2
  · exact hno

/-- An infix operator is one of the two. -/
theorem eq_of_infixed (h : d.In r) (ho : o ∈ r.operators) {a : Associativity} (hf : o.fixity = .infixed a) :
    (a = .left ∧ o = d.binary) ∨ (a = .right ∧ o = d.ternary) := by
  rcases h.others o ho with rfl | rfl | ⟨hno, -⟩
  · have := hf.symm.trans h.binary.2.1
    cases this
    exact Or.inl ⟨rfl, rfl⟩
  · have := hf.symm.trans h.ternary.2.1
    cases this
    exact Or.inr ⟨rfl, rfl⟩
  · exact absurd hf (hno a)

/-! ### Sites -/

section Sites

variable {w w' : List Site}

theorem nested_ternary (h : d.In r) (hw : Scan.Nested (fun p => (r.infixOps.get? p).isSome = true) w)
    (hw' : Scan.Nested (fun p => (r.infixOps.get? p).isSome = true) w') (i j : Nat) :
    Scan.Nested (fun p => (r.infixOps.get? p).isSome = true) (⟨i, d.q⟩ :: (w ++ ⟨j, d.c⟩ :: w')) := by
  have := Scan.Nested.whole (by rw [h.get?_ternary]; rfl) (d.spelled hw i j) hw'
  rwa [List.cons_append, List.append_assoc] at this

theorem nested_binary (h : d.In r) (hw : Scan.Nested (fun p => (r.infixOps.get? p).isSome = true) w)
    (hw' : Scan.Nested (fun p => (r.infixOps.get? p).isSome = true) w') (i : Nat) :
    Scan.Nested (fun p => (r.infixOps.get? p).isSome = true) (w ++ ⟨i, d.b⟩ :: w') :=
  hw.append (.whole (by rw [h.get?_binary]; rfl) (Scan.Spelled.last ⟨i, d.b⟩) hw')

end Sites

end Duo.In

/-! ## The groups -/

namespace Duo.In

variable {d : Duo α} {r : Registry α} {group : Group α} {path : List Text} {o : Operator α}

/-- A group holds no left-associative operator but the binary one. -/
theorem eq_of_left (h : d.In r) (hm : group ∈ r.groups.1) (ho : group.left.get? path = some o) :
    path = [d.b] ∧ o = d.binary := by
  obtain ⟨hmem, hf, htokens⟩ := h.wellFormed.consistent hm (.infixed .left) path o ho
  rcases h.eq_of_infixed hmem hf with ⟨-, rfl⟩ | ⟨heq, -⟩
  · exact ⟨htokens.symm.trans h.binary.2.2, rfl⟩
  · cases heq

/-- A group holds no right-associative operator but the ternary one. -/
theorem eq_of_right (h : d.In r) (hm : group ∈ r.groups.1) (ho : group.right.get? path = some o) :
    path = [d.q, d.c] ∧ o = d.ternary := by
  obtain ⟨hmem, hf, htokens⟩ := h.wellFormed.consistent hm (.infixed .right) path o ho
  rcases h.eq_of_infixed hmem hf with ⟨heq, -⟩ | ⟨-, rfl⟩
  · cases heq
  · exact ⟨htokens.symm.trans h.ternary.2.2, rfl⟩

/-- Left-associative operators are in the group of the binary operator only. -/
theorem left_isEmpty (h : d.In r) (hm : group ∈ r.groups.1) (hne : rank group.priority ≠ rank d.binary.priority) :
    group.left.isEmpty = true := by
  have hr := h.wellFormed
  refine (Trie.isEmpty_iff (hr.sound hm).left_distinct).2 fun path => ?_
  cases ho : group.left.get? path with
  | none => rfl
  | some o =>
    obtain ⟨rfl, rfl⟩ := h.eq_of_left hm ho
    have hholds : group.Holds d.binary := by
      rw [Group.Holds, h.binary.2.1, h.binary.2.2]
      exact ho
    exact absurd (hr.rank_eq_of_holds h.notNaN hm hholds).symm hne

/-- Right-associative operators are in the group of the ternary operator only. -/
theorem right_isEmpty (h : d.In r) (hm : group ∈ r.groups.1) (hne : rank group.priority ≠ rank d.ternary.priority) :
    group.right.isEmpty = true := by
  have hr := h.wellFormed
  refine (Trie.isEmpty_iff (hr.sound hm).right_distinct).2 fun path => ?_
  cases ho : group.right.get? path with
  | none => rfl
  | some o =>
    obtain ⟨rfl, rfl⟩ := h.eq_of_right hm ho
    have hholds : group.Holds d.ternary := by
      rw [Group.Holds, h.ternary.2.1, h.ternary.2.2]
      exact ho
    exact absurd (hr.rank_eq_of_holds h.notNaN hm hholds).symm hne

end Duo.In

/-- The group of the binary operator comes before that of the ternary one, and no other holds an infix operator. -/
structure Duo.Leads (d : Duo α) (r : Registry α) (pre mid post : List (Group α)) (gb gq : Group α) : Prop where
  groups_eq : r.groups.1 = pre ++ gb :: (mid ++ gq :: post)
  binary : gb.left.get? [d.b] = some d.binary
  ternary : gq.right.get? [d.q, d.c] = some d.ternary
  left_empty : ∀ group ∈ pre ++ (mid ++ gq :: post), group.left.isEmpty = true
  right_empty : ∀ group ∈ pre ++ gb :: (mid ++ post), group.right.isEmpty = true

theorem Duo.In.exists_leads {d : Duo α} {r : Registry α} (h : d.In r) :
    ∃ pre mid post gb gq, d.Leads r pre mid post gb gq := by
  have hr := h.wellFormed
  have hpair := hr.pairwise_groups h.notNaN
  have hlt : rank d.binary.priority < rank d.ternary.priority :=
    (lt_iff (h.notNaN _ h.binary.1) (h.notNaN _ h.ternary.1)).1 h.tighter
  obtain ⟨gb, hgb, hbinary⟩ := hr.exists_holds h.binary.1
  obtain ⟨gq, hgq, hternary⟩ := hr.exists_holds h.ternary.1
  have hrank := hr.rank_eq_of_holds h.notNaN hgb hbinary
  have hrank' := hr.rank_eq_of_holds h.notNaN hgq hternary
  rw [hrank, hrank'] at hlt
  obtain ⟨pre, rest, hgroups⟩ := List.append_of_mem hgb
  have hmem : gq ∈ rest := by
    rw [hgroups] at hgq hpair
    obtain ⟨-, -, hpre⟩ := List.pairwise_append.1 hpair
    rcases List.mem_append.1 hgq with hm | hm
    · exact absurd (hpre gq hm gb List.mem_cons_self) (lt_asymm hlt)
    · rcases List.mem_cons.1 hm with rfl | hm
      · exact absurd hlt (lt_irrefl _)
      · exact hm
  obtain ⟨mid, post, rfl⟩ := List.append_of_mem hmem
  rw [Group.Holds, h.binary.2.1, h.binary.2.2] at hbinary
  rw [Group.Holds, h.ternary.2.1, h.ternary.2.2] at hternary
  rw [hgroups] at hpair
  obtain ⟨-, hrest, hpre⟩ := List.pairwise_append.1 hpair
  obtain ⟨hgb, hrest⟩ := List.pairwise_cons.1 hrest
  obtain ⟨-, hpost, hmid⟩ := List.pairwise_append.1 hrest
  obtain ⟨hpost, -⟩ := List.pairwise_cons.1 hpost
  refine ⟨pre, mid, post, gb, gq, hgroups, hbinary, hternary, fun group hm => ?_, fun group hm => ?_⟩
  · refine h.left_isEmpty (by rw [hgroups]; exact ((List.sublist_cons_self _ _).append_left _).subset hm) ?_
    rw [hrank]
    rcases List.mem_append.1 hm with hm | hm
    · exact ne_of_lt (hpre group hm gb List.mem_cons_self)
    · exact ne_of_gt (hgb group hm)
  · refine h.right_isEmpty ?_ ?_
    · rw [hgroups, List.append_cons, ← List.append_assoc]
      rw [List.append_cons, ← List.append_assoc] at hm
      exact ((List.sublist_cons_self _ _).append_left _).subset hm
    · rw [hrank']
      rcases List.mem_append.1 hm with hm | hm
      · exact ne_of_lt (hpre group hm gq (List.mem_cons_of_mem _ hmem))
      rcases List.mem_cons.1 hm with rfl | hm
      · exact ne_of_lt hlt
      rcases List.mem_append.1 hm with hm | hm
      · exact ne_of_lt (hmid group hm gq List.mem_cons_self)
      · exact ne_of_gt (hpost group hm)

namespace Duo.Leads

variable {d : Duo α} {r : Registry α} {pre mid post : List (Group α)} {gb gq group : Group α} {path : List Text}
  {o : Operator α}

theorem mem_groups (h : d.Leads r pre mid post gb gq) (hm : group ∈ pre ++ gb :: (mid ++ gq :: post)) :
    group ∈ r.groups.1 := by
  rwa [h.groups_eq]

theorem mem_binary (h : d.Leads r pre mid post gb gq) : gb ∈ r.groups.1 := h.mem_groups (by simp)

theorem mem_ternary (h : d.Leads r pre mid post gb gq) : gq ∈ r.groups.1 := h.mem_groups (by simp)

end Duo.Leads

namespace Duo.In

variable {d : Duo α} {r : Registry α} {group : Group α} {path : List Text} {o : Operator α}

theorem flat_left (h : d.In r) (hm : group ∈ r.groups.1) : Scan.Flat group.left := by
  intro path hp
  obtain ⟨o, ho⟩ := Option.isSome_iff_exists.1 hp
  exact ⟨d.b, (h.eq_of_left hm ho).1⟩

end Duo.In

/-! ## The operation that is read -/

namespace Grammar

variable {g : Grammar α} {l : TokenList} {ts : List Token} {marks : List Mark} {group : Group α} {gs : List (Group α)}
  {same : Option (Group α)} {points : List Nat} {d : Duo α} {pre mid post : List (Group α)} {gb gq : Group α}
  {u m w x : List Site} {e : Site}

/-- Groups without infix operators are passed over where no operator token stands at the ends. -/
theorem readOperation?_append (hr : g.operators.Separate)
    (hpre : ∀ group ∈ pre, group ∈ g.operators.groups.1 ∧ group.right.isEmpty = true ∧ group.left.isEmpty = true)
    (hstart : ∀ t, l.tokens.head? = some t → g.operators.isOperatorToken t = false)
    (hend : ∀ t, l.tokens.getLast? = some t → g.operators.isOperatorToken t = false) :
    g.readOperation? l marks (pre ++ gs) = g.readOperation? l marks gs := by
  induction pre with
  | nil => rfl
  | cons group pre ih =>
    obtain ⟨hm, hright, hleft⟩ := hpre group List.mem_cons_self
    rw [List.cons_append, readOperation?, readRight?, scanRight_of_isEmpty hright, readLeft?, scanLeft_of_isEmpty hleft,
      readPrefix?_of_head hr hm hstart, readPostfix?_of_last hr hm hend]
    exact ih fun group' hm' => hpre group' (List.mem_cons_of_mem _ hm')

/-- The operation is a binary one if one is found, and else a ternary one. -/
theorem readOperation?_eq (hd : d.In g.operators) (hl : d.Leads g.operators pre mid post gb gq)
    (hstart : ∀ t, l.tokens.head? = some t → g.operators.isOperatorToken t = false)
    (hend : ∀ t, l.tokens.getLast? = some t → g.operators.isOperatorToken t = false) :
    g.readOperation? l marks g.operators.groups.1 =
      (g.readLeft? l marks gb (mid ++ gq :: post)).orElse fun _ => g.readRight? l marks gq post := by
  have hr := hd.unmixed.toSeparate
  have hempty (group : Group α) (hm : group ∈ pre ++ (mid ++ post)) :
      group ∈ g.operators.groups.1 ∧ group.right.isEmpty = true ∧ group.left.isEmpty = true := by
    simp only [List.mem_append] at hm
    exact ⟨hl.mem_groups (by simp only [List.mem_append, List.mem_cons]; tauto),
      hl.right_empty group (by simp only [List.mem_append, List.mem_cons]; tauto),
      hl.left_empty group (by simp only [List.mem_append, List.mem_cons]; tauto)⟩
  have hnone := @readOperation?_append _ g l marks [] post hr
    (fun group hm => hempty group (by simp [hm])) hstart hend
  have hright : g.readRight? l marks gb (mid ++ gq :: post) = none := by
    rw [readRight?, scanRight_of_isEmpty (hl.right_empty gb (by simp))]
    rfl
  have hleft : g.readLeft? l marks gq post = none := by
    rw [readLeft?, scanLeft_of_isEmpty (hl.left_empty gq (by simp))]
    rfl
  rw [List.append_nil, readOperation?] at hnone
  rw [hl.groups_eq, readOperation?_append hr (fun group hm => hempty group (by simp [hm])) hstart hend, readOperation?,
    hright, readPrefix?_of_head hr hl.mem_binary hstart, readPostfix?_of_last hr hl.mem_binary hend,
    readOperation?_append hr (fun group hm => hempty group (by simp [hm])) hstart hend, readOperation?, hleft,
    readPrefix?_of_head hr hl.mem_ternary hstart, readPostfix?_of_last hr hl.mem_ternary hend, hnone]
  cases g.readRight? l marks gq post <;> rfl

/-- Whether a binary operator lies within another is decided by the first ternary one around it. -/
theorem isEnclosed_binary (hd : d.In g.operators) (hl : d.Leads g.operators pre mid post gb gq) (hb : Balanced ts)
    (hsites : Site.ofTokens g.operators ts = u ++ e :: x) :
    g.isEnclosed ts (Mark.ofTokens g.operators ts) [e.index] none (mid ++ gq :: post) =
      encloses e.index e.index (rightFound gq (u ++ x)) := by
  have hr := hd.wellFormed
  have hpoints : PointsAt g.operators ts [e.index] e e u x :=
    ⟨⟨[e], by rw [hsites, List.append_assoc]; rfl, rfl, rfl⟩, rfl, rfl⟩
  have hmem (group : Group α) (hm : group ∈ mid ++ gq :: post) : group ∈ g.operators.groups.1 := hl.mem_groups (by
    simp only [List.mem_append, List.mem_cons] at hm ⊢
    tauto)
  have hright (group : Group α) (hm : group ∈ mid ++ post) (ss : List Site) : rightFound group ss = none := by
    have hm' : group ∈ mid ++ gq :: post := by
      simp only [List.mem_append, List.mem_cons] at hm ⊢
      tauto
    rw [rightFound, sitesFound_of_isEmpty (hr.sound (hmem group hm')).right_distinct
      (hl.right_empty group (by simp [hm]))]
    rfl
  have hleft (group : Group α) (hm : group ∈ mid ++ gq :: post) (ss : List Site) : leftFound group ss = none := by
    have hsound := hr.sound (hmem group hm)
    rw [leftFound, sitesFound_of_isEmpty hsound.reversed_distinct
      (isEmpty_leftReversed hsound (hl.left_empty group (by simp [hm])))]
    rfl
  have hsilent (gs : List (Group α)) (hgs : ∀ group ∈ gs, group ∈ mid ++ post) :
      (gs.any fun group => encloses e.index e.index (rightFound group (u ++ x)) ||
        encloses e.index e.index (leftFound group (u ++ x))) = false :=
    List.any_eq_false.2 fun group hm => by
      have hm' := hgs group hm
      rw [hright group hm', hleft group (by simp only [List.mem_append, List.mem_cons] at hm' ⊢; tauto)]
      simp [encloses]
  rw [isEnclosed_eq hd.unmixed.toDisjoint hb hpoints (by simp) fun group hm => hr.sound (hmem group hm),
    List.any_append, List.any_cons, hsilent mid fun group hm => List.mem_append_left _ hm,
    hsilent post fun group hm => List.mem_append_right _ hm, hleft gq (by simp)]
  simp [encloses]

/-- The last binary operator is read unless a ternary one is found around it. -/
theorem readLeft?_binary (hd : d.In g.operators) (hl : d.Leads g.operators pre mid post gb gq) (hb : Balanced l.tokens)
    (hsites : Site.ofTokens g.operators l.tokens = u ++ e :: x) (he : e.text = d.b) (hx : ∀ s ∈ x, s.text ≠ d.b) :
    g.readLeft? l (Mark.ofTokens g.operators l.tokens) gb (mid ++ gq :: post) =
      if encloses e.index e.index (rightFound gq (u ++ x)) then none
      else some (.operation (l.positionAt e.index) d.binary (l.cutAt [e.index])) := by
  have hr := hd.wellFormed
  have hfind : (Site.ofTokens g.operators l.tokens).reverse.find? (fun s => (gb.left.get? [s.text]).isSome) =
      some e := by
    rw [hsites, List.reverse_append, List.reverse_cons, List.append_assoc, List.find?_append, List.find?_eq_none.2,
      Option.none_or]
    · simp [he, hl.binary]
    · intro s hs hsome
      obtain ⟨o, ho⟩ := Option.isSome_iff_exists.1 hsome
      exact hx s (List.mem_reverse.1 hs) (List.singleton_inj.1 (hd.eq_of_left hl.mem_binary ho).1)
  rw [readLeft?, scanLeft_of_flat (hr.sound hl.mem_binary) (hd.flat_left hl.mem_binary),
    Site.backward_ofTokens hb, hfind]
  have henclosed := isEnclosed_binary hd hl hb hsites
  simp only [Option.map_some, Option.bind_some, bind, henclosed]
  split
  · rfl
  · rw [infixOperation?_singleton (r := g.operators) (by rw [hsites]; simp), operationAt?, he, hl.binary]
    rfl

/-- No binary operator is read where there is none. -/
theorem readLeft?_eq_none_of_ne (hd : d.In g.operators) (hl : d.Leads g.operators pre mid post gb gq)
    (hb : Balanced l.tokens)
    (hx : ∀ s ∈ Site.ofTokens g.operators l.tokens, s.text ≠ d.b) :
    g.readLeft? l (Mark.ofTokens g.operators l.tokens) gb gs = none := by
  have hfind : (Site.ofTokens g.operators l.tokens).reverse.find? (fun s => (gb.left.get? [s.text]).isSome) = none := by
    refine List.find?_eq_none.2 fun s hs hsome => ?_
    obtain ⟨o, ho⟩ := Option.isSome_iff_exists.1 hsome
    exact hx s (List.mem_reverse.1 hs) (List.singleton_inj.1 (hd.eq_of_left hl.mem_binary ho).1)
  rw [readLeft?, scanLeft_of_flat (hd.wellFormed.sound hl.mem_binary) (hd.flat_left hl.mem_binary),
    Site.backward_ofTokens hb, hfind]
  rfl

/-- A scan finds the ternary operator that the sites begin with. -/
theorem rightFound_ternary (hd : d.In g.operators) (hl : d.Leads g.operators pre mid post gb gq) {i j : Nat}
    (hm : Scan.Nested (fun p => (g.operators.infixOps.get? p).isSome = true) m) (w : List Site) :
    rightFound gq (⟨i, d.q⟩ :: (m ++ ⟨j, d.c⟩ :: w)) = some [i, j] := by
  have hfound := rightFound_append hd.unmixed.toSeparate hl.mem_ternary (d.spelled hm i j)
    (Option.isSome_iff_exists.2 ⟨_, hl.ternary⟩) w
  rwa [List.cons_append, List.append_assoc] at hfound

/-- A ternary operator that is found before or behind an index stands not around it. -/
theorem encloses_rightFound (hd : d.In g.operators) (hl : d.Leads g.operators pre mid post gb gq) {i : Nat}
    (hu : Scan.Nested (fun p => (g.operators.infixOps.get? p).isSome = true) u) (hlt : ∀ s ∈ u, s.index < i)
    (hgt : ∀ s ∈ x, i < s.index) : encloses i i (rightFound gq (u ++ x)) = false := by
  have hsome (own : List Site) (h : (∀ s ∈ own, s.index < i) ∨ ∀ s ∈ own, i < s.index) :
      encloses i i (some (own.map Site.index)) = false := by
    cases hfirst : own.head? with
    | none => simp [encloses, hfirst]
    | some s =>
      obtain ⟨e, he⟩ : ∃ e, own.getLast? = some e := by
        rw [List.head?_eq_some_iff] at hfirst
        obtain ⟨rest, rfl⟩ := hfirst
        exact ⟨_, List.getLast?_eq_some_getLast (List.cons_ne_nil s rest)⟩
      have hs := List.mem_of_head? hfirst
      have hm := List.mem_of_getLast? he
      simp only [encloses, List.head?_map, List.getLast?_map, hfirst, he, Option.map_some, Option.any_some]
      rcases h with h | h
      · have := h e hm
        simp
        omega
      · have := h s hs
        simp
        omega
  rw [rightFound, sitesFound]
  rcases Scan.seek_nested_or (hd.unmixed.toSeparate.holdsOnly_right hl.mem_ternary) hu x with
    hpass | ⟨u', p, v, own, x', f, rfl, hv, -, -, hf, rfl⟩
  · rw [hpass]
    cases hseek : Scan.seek gq.right gq.right 0 x with
    | none => rfl
    | some f =>
      have hsub := (Scan.seek_sound 0 x hseek).1
      exact hsome f.sites (Or.inr fun s hs => hgt s (hsub.subset hs))
  · rw [hf]
    exact hsome f.sites (Or.inl fun s hs => hlt s (by simp [hv.sublist.subset hs]))

/-- The ternary operator that the sites begin with is read. -/
theorem readRight?_ternary (hd : d.In g.operators) (hl : d.Leads g.operators pre mid post gb gq) {i j : Nat}
    (hm : Scan.Nested (fun p => (g.operators.infixOps.get? p).isSome = true) m)
    (hsites : Site.ofTokens g.operators l.tokens = ⟨i, d.q⟩ :: (m ++ ⟨j, d.c⟩ :: w)) :
    g.readRight? l (Mark.ofTokens g.operators l.tokens) gq post =
      some (.operation (l.positionAt i) d.ternary (l.cutAt [i, j])) := by
  have hfound := rightFound_ternary hd hl (i := i) (j := j) hm w
  have hnot : g.isEnclosed l.tokens (Mark.ofTokens g.operators l.tokens) [i, j] (some gq) post = false :=
    isEnclosed_of_isEmpty (fun group hm => by cases hm; exact hl.left_empty gq (by simp)) fun group hm =>
      ⟨hl.right_empty group (by simp [hm]), hl.left_empty group (by simp [hm])⟩
  have hi : l.tokens[i]? = some (.fixed d.q) :=
    Site.getElem?_of_mem (r := g.operators) (s := ⟨i, d.q⟩) (by simp [hsites])
  have hj : l.tokens[j]? = some (.fixed d.c) :=
    Site.getElem?_of_mem (r := g.operators) (s := ⟨j, d.c⟩) (by simp [hsites])
  rw [← hsites, rightFound] at hfound
  rw [readRight?, scanRight_ofTokens (hd.wellFormed.sound hl.mem_ternary), hfound]
  simp only [Option.bind_some, bind, hnot]
  simp [infixOperation?, hi, hj, Token.fixed?, hl.ternary]

/-- A right-associative operation that is read is a ternary one. -/
theorem readRight?_cases (hd : d.In g.operators) (hl : d.Leads g.operators pre mid post gb gq) {op : Reading α}
    (h : g.readRight? l marks gq gs = some op) : ∃ position operands, op = .operation position d.ternary operands := by
  rw [readRight?] at h
  obtain ⟨points, -, h⟩ := Option.bind_eq_some_iff.1 h
  split at h
  · cases h
  · obtain ⟨o, ho, h⟩ := Option.bind_eq_some_iff.1 h
    cases h
    exact ⟨_, _, by rw [(hd.eq_of_right hl.mem_ternary ho).2]⟩

end Grammar

/-! ## Phrases -/

/-- The symbols of the grammar `S → T | S b T`, `T → A | A q S c T`, `A → number | ( S )`. -/
inductive Symbol where
  | sum
  | term
  | atom

/-- A derivation of the grammar. -/
inductive Phrase : Symbol → Type
  | number {t : Text} {v : Float} : readNumber? t = some v → Float → Phrase .atom
  | brackets : Phrase .sum → Phrase .atom
  | atom : Phrase .atom → Phrase .term
  | choice : Phrase .atom → Phrase .sum → Phrase .term → Phrase .term
  | term : Phrase .term → Phrase .sum
  | more : Phrase .sum → Phrase .term → Phrase .sum

namespace Phrase

variable {k : Symbol} (d : Duo α)

/-- The tokens of a phrase. -/
def tokens : {k : Symbol} → Phrase k → List Token
  | _, number (t := t) _ w => [.number t w]
  | _, brackets s => .fixed Token.openText :: (tokens s ++ [.fixed Token.closeText])
  | _, atom a => tokens a
  | _, choice a m t => tokens a ++ .fixed d.q :: (tokens m ++ .fixed d.c :: tokens t)
  | _, term t => tokens t
  | _, more s t => tokens s ++ .fixed d.b :: tokens t

/-- The tree of a phrase whose tokens stand in a list from an index on. -/
def tree (full : TokenList) : {k : Symbol} → Phrase k → Nat → Tree α
  | _, number (v := v) _ _, i => .number (full.positionAt i) v
  | _, brackets s, i => tree full s (i + 1)
  | _, atom a, i => tree full a i
  | _, choice a m t, i =>
    let j := i + (a.tokens d).length
    let k := j + 1 + (m.tokens d).length
    .operation (full.positionAt j) d.ternary [tree full a i, tree full m (j + 1), tree full t (k + 1)]
  | _, term t, i => tree full t i
  | _, more s t, i =>
    let j := i + (s.tokens d).length
    .operation (full.positionAt j) d.binary [tree full s i, tree full t (j + 1)]

/-- Whether the phrase has a binary operator outside of brackets. -/
def hasBinary : {k : Symbol} → Phrase k → Bool
  | _, number _ _ => false
  | _, brackets _ => false
  | _, atom _ => false
  | _, choice _ m t => m.hasBinary || t.hasBinary
  | _, term t => t.hasBinary
  | _, more _ _ => true

/-- Whether no right operand in the phrase has a binary operator outside of brackets. -/
def regular : {k : Symbol} → Phrase k → Bool
  | _, number _ _ => true
  | _, brackets s => s.regular
  | _, atom a => a.regular
  | _, choice a m t => a.regular && m.regular && t.regular && !t.hasBinary
  | _, term t => t.regular
  | _, more s t => s.regular && t.regular && !t.hasBinary

/-- The sites of a phrase whose tokens stand in a list from an index on. -/
def sites : {k : Symbol} → Phrase k → Nat → List Site
  | _, number _ _, _ => []
  | _, brackets _, _ => []
  | _, atom _, _ => []
  | _, choice a m t, i =>
    let j := i + (a.tokens d).length
    let k := j + 1 + (m.tokens d).length
    ⟨j, d.q⟩ :: (m.sites (j + 1) ++ ⟨k, d.c⟩ :: t.sites (k + 1))
  | _, term t, i => t.sites i
  | _, more s t, i =>
    let j := i + (s.tokens d).length
    s.sites i ++ ⟨j, d.b⟩ :: t.sites (j + 1)

variable {d} {r : Registry α} {before behind : List Token} {i : Nat}

/-- The tokens of a phrase are an operand. -/
theorem operand (hd : d.In r) (p : Phrase k) : r.Operand (p.tokens d) := by
  induction p with
  | number h w => exact .singleton rfl rfl
  | brackets s ih => exact .brackets hd.wellFormed.sparesBrackets ih.balanced
  | atom a ih => exact ih
  | choice a m t iha ihm iht =>
    have hq := (hd.infix_token (t := d.q) (by simp)).1
    have hc := (hd.infix_token (t := d.c) (by simp)).1
    exact iha.infixed (ihm.infixed iht hc) hq
  | term t ih => exact ih
  | more s t ihs iht => exact ihs.infixed iht (hd.infix_token (t := d.b) (by simp)).1

theorem size_pos (hd : d.In r) {l : TokenList} {p : Phrase k} (hl : l.tokens = p.tokens d) : 0 < l.size := by
  rw [TokenList.size_eq, List.length_pos_iff, hl]
  exact (p.operand hd).ne_nil

/-- No operator token stands at the ends of a phrase. -/
theorem ends (hd : d.In r) (p : Phrase k) :
    (∃ s v, p.tokens d = s :: v ∧ s.text ≠ [] ∧ r.isOperatorToken s = false) ∧
      ∃ u s, p.tokens d = u ++ [s] ∧ r.isOperatorToken s = false := by
  have hopen := hd.wellFormed.sparesBrackets.opening
  have hclose := hd.wellFormed.sparesBrackets.closing
  induction p with
  | @number t v h w =>
    refine ⟨⟨_, [], rfl, ?_, rfl⟩, [], _, rfl, rfl⟩
    rintro ht
    rw [show t = [] from ht] at h
    cases h
  | brackets s _ => exact ⟨⟨_, _, rfl, List.cons_ne_nil _ _, hopen⟩, _ :: _, _, rfl, hclose⟩
  | atom a ih => exact ih
  | choice a m t iha _ iht =>
    obtain ⟨⟨s, v, hs, hne, hstart⟩, -⟩ := iha
    obtain ⟨-, u, e, he, hend⟩ := iht
    exact ⟨⟨s, _, by rw [tokens, hs, List.cons_append], hne, hstart⟩,
      a.tokens d ++ .fixed d.q :: (m.tokens d ++ .fixed d.c :: u), e, by simp [tokens, he], hend⟩
  | term t ih => exact ih
  | more s t ihs iht =>
    obtain ⟨⟨x, v, hx, hne, hstart⟩, -⟩ := ihs
    obtain ⟨-, u, e, he, hend⟩ := iht
    exact ⟨⟨x, _, by rw [tokens, hx, List.cons_append], hne, hstart⟩, s.tokens d ++ .fixed d.b :: u, e,
      by simp [tokens, he], hend⟩

theorem sites_atom (a : Phrase .atom) : a.sites d i = [] := by
  cases a <;> rfl

/-- The sites of a phrase are where its operators stand outside of brackets. -/
theorem inTokens_tokens (hd : d.In r) (p : Phrase k) :
    Site.inTokens r before behind i 0 (p.tokens d) = p.sites d i := by
  have hinfix {t : Text} (ht : t ∈ [d.b, d.q, d.c]) :
      (Token.fixed t).isPlain = true ∧ r.isInfixToken (.fixed t) = true :=
    ⟨Token.isPlain_of_not_builtin (hd.infix_token ht).1, (hd.infix_token ht).2⟩
  induction p generalizing before behind i with
  | number h w => exact Site.inTokens_singleton rfl
  | brackets s _ => exact Site.inTokens_brackets (s.operand hd).balanced
  | atom a ih => exact ih.trans a.sites_atom
  | choice a m t iha ihm iht =>
    obtain ⟨hq, hqi⟩ := hinfix (t := d.q) (by simp)
    obtain ⟨hc, hci⟩ := hinfix (t := d.c) (by simp)
    have hrest := (m.operand hd).infixed (t.operand hd) (hd.infix_token (t := d.c) (by simp)).1
    rw [tokens, Site.inTokens_infix (a.operand hd) hrest hq hqi,
      Site.inTokens_infix (m.operand hd) (t.operand hd) hc hci, iha, ihm, iht, a.sites_atom]
    rfl
  | term t ih => exact ih
  | more s t ihs iht =>
    obtain ⟨hb, hbi⟩ := hinfix (t := d.b) (by simp)
    rw [tokens, Site.inTokens_infix (s.operand hd) (t.operand hd) hb hbi, ihs, iht]
    rfl

theorem bounds_of_mem (hd : d.In r) {p : Phrase k} {s : Site} (hs : s ∈ p.sites d i) :
    i ≤ s.index ∧ s.index < i + (p.tokens d).length := by
  rw [← @inTokens_tokens _ _ _ _ [] [] i hd p] at hs
  exact Site.bounds_of_mem hs

/-- No phrase begins with a site. -/
theorem lt_of_mem (hd : d.In r) {p : Phrase k} {s : Site} (hs : s ∈ p.sites d i) : i < s.index := by
  have hpos {k : Symbol} (p : Phrase k) : 0 < (p.tokens d).length := List.length_pos_iff.2 (p.operand hd).ne_nil
  induction p generalizing i with
  | number _ _ | brackets _ _ | atom _ _ => cases hs
  | choice a m t _ _ _ =>
    have := hpos a
    simp only [sites, List.mem_cons, List.mem_append] at hs
    rcases hs with rfl | hs | rfl | hs
    · exact Nat.lt_add_of_pos_right this
    · have := (bounds_of_mem hd hs).1
      omega
    · dsimp only
      omega
    · have := (bounds_of_mem hd hs).1
      omega
  | term t ih => exact ih hs
  | more s t ih _ =>
    have := hpos s
    simp only [sites, List.mem_cons, List.mem_append] at hs
    rcases hs with hs | rfl | hs
    · exact ih hs
    · exact Nat.lt_add_of_pos_right this
    · have := (bounds_of_mem hd hs).1
      omega

/-- The sites of a phrase are those of whole operators. -/
theorem nested_sites (hd : d.In r) (p : Phrase k) :
    Scan.Nested (fun p => (r.infixOps.get? p).isSome = true) (p.sites d i) := by
  induction p generalizing i with
  | number _ _ | brackets _ _ | atom _ _ => exact .nil
  | choice a m t _ ihm iht => exact hd.nested_ternary ihm iht _ _
  | term t ih => exact ih
  | more s t ihs iht => exact hd.nested_binary ihs iht _

/-- Where there is no binary operator outside of brackets, no site is one of its token. -/
theorem text_ne_of_not_hasBinary (hd : d.In r) {p : Phrase k} (h : p.hasBinary = false) :
    ∀ s ∈ p.sites d i, s.text ≠ d.b := by
  induction p generalizing i with
  | number _ _ | brackets _ _ | atom _ _ => simp [sites]
  | choice a m t _ ihm iht =>
    rw [hasBinary, Bool.or_eq_false_iff] at h
    simp only [sites, List.forall_mem_cons, List.forall_mem_append]
    exact ⟨hd.q_ne, ihm h.1, hd.c_ne, iht h.2⟩
  | term t ih => exact ih h
  | more s t _ _ => cases h

/-- The last site of a binary operator splits the sites, and without it they are still those of whole operators. -/
theorem exists_last_binary (hd : d.In r) {p : Phrase k} (h : p.hasBinary = true) :
    ∃ u e x, p.sites d i = u ++ e :: x ∧ e.text = d.b ∧ (∀ s ∈ x, s.text ≠ d.b) ∧
      Scan.Nested (fun p => (r.infixOps.get? p).isSome = true) (u ++ x) := by
  induction p generalizing i with
  | number _ _ | brackets _ _ | atom _ _ => cases h
  | choice a m t _ ihm iht =>
    rw [hasBinary, Bool.or_eq_true] at h
    rw [sites]
    generalize i + (a.tokens d).length = j
    generalize j + 1 + (m.tokens d).length = k
    cases ht : t.hasBinary with
    | true =>
      obtain ⟨u, e, x, hu, he, hx, hux⟩ := iht (i := k + 1) ht
      refine ⟨⟨j, d.q⟩ :: (m.sites d (j + 1) ++ ⟨k, d.c⟩ :: u), e, x, ?_, he, hx, ?_⟩
      · simp only [hu, List.cons_append, List.append_assoc]
      · rw [List.cons_append, List.append_assoc, List.cons_append]
        exact hd.nested_ternary (m.nested_sites hd) hux _ _
    | false =>
      obtain ⟨u, e, x, hu, he, hx, hux⟩ := ihm (i := j + 1) (h.resolve_right (by simp [ht]))
      refine ⟨⟨j, d.q⟩ :: u, e, x ++ ⟨k, d.c⟩ :: t.sites d (k + 1), ?_, he, ?_, ?_⟩
      · simp only [hu, List.cons_append, List.append_assoc]
      · rw [List.forall_mem_append, List.forall_mem_cons]
        exact ⟨hx, hd.c_ne, text_ne_of_not_hasBinary hd ht⟩
      · rw [List.cons_append, ← List.append_assoc]
        exact hd.nested_ternary hux (t.nested_sites hd) _ _
  | term t ih => exact ih h
  | more s t _ iht =>
    rw [sites]
    generalize i + (s.tokens d).length = j
    cases ht : t.hasBinary with
    | true =>
      obtain ⟨u, e, x, hu, he, hx, hux⟩ := iht (i := j + 1) ht
      refine ⟨s.sites d i ++ ⟨j, d.b⟩ :: u, e, x, ?_, he, hx, ?_⟩
      · simp only [hu, List.cons_append, List.append_assoc]
      · rw [List.append_assoc, List.cons_append]
        exact hd.nested_binary (s.nested_sites hd) hux _
    | false =>
      exact ⟨s.sites d i, ⟨j, d.b⟩, t.sites d (j + 1), rfl, rfl, text_ne_of_not_hasBinary hd ht,
        (s.nested_sites hd).append (t.nested_sites hd)⟩

end Phrase

namespace Grammar

variable {g : Grammar α} {source : Text} {l : TokenList} {d : Duo α} {pre mid post : List (Group α)} {gb gq : Group α}
  {k : Symbol} {p : Phrase k} {a : Phrase .atom} {m s : Phrase .sum} {t : Phrase .term}

/-! ## The roots of phrases -/

theorem ofTokens_phrase (hd : d.In g.operators) (hl : l.tokens = p.tokens d) :
    Site.ofTokens g.operators l.tokens = p.sites d 0 := by
  rw [hl]
  exact p.inTokens_tokens hd

theorem balanced_phrase (hd : d.In g.operators) (hl : l.tokens = p.tokens d) : Balanced l.tokens := by
  rw [hl]
  exact (p.operand hd).balanced

/-- The operation of a phrase is a binary one if one is found, and else a ternary one. -/
theorem readOperation?_phrase (hd : d.In g.operators) (hlead : d.Leads g.operators pre mid post gb gq)
    (hl : l.tokens = p.tokens d) : g.readOperation? l (Mark.ofTokens g.operators l.tokens) g.operators.groups.1 =
      (g.readLeft? l (Mark.ofTokens g.operators l.tokens) gb (mid ++ gq :: post)).orElse fun _ =>
        g.readRight? l (Mark.ofTokens g.operators l.tokens) gq post := by
  obtain ⟨⟨x, v, hx, -, hstart⟩, u, e, he, hend⟩ := p.ends hd
  refine readOperation?_eq hd hlead (fun y hy => ?_) fun y hy => ?_
  · rw [hl, hx] at hy
    cases hy
    exact hstart
  · rw [hl, he, List.getLast?_concat] at hy
    cases hy
    exact hend

/-- A ternary operator is read if its last operand has no binary operator outside of brackets. -/
theorem readOperation?_choice (hd : d.In g.operators) (hl : l.tokens = (a.choice m t).tokens d)
    (ht : t.hasBinary = false) : g.readOperation? l (Mark.ofTokens g.operators l.tokens) g.operators.groups.1 =
      some (.operation (l.positionAt (a.tokens d).length) d.ternary
        (l.cutAt [(a.tokens d).length, (a.tokens d).length + 1 + (m.tokens d).length])) := by
  obtain ⟨pre, mid, post, gb, gq, hlead⟩ := hd.exists_leads
  have hb := balanced_phrase hd hl
  have hsites := ofTokens_phrase hd hl
  have hne (hm : m.hasBinary = false) : ∀ s ∈ Site.ofTokens g.operators l.tokens, s.text ≠ d.b := by
    rw [hsites]
    exact Phrase.text_ne_of_not_hasBinary hd (by rw [Phrase.hasBinary, hm, ht]; rfl)
  have hbounds {e : Site} (he : e ∈ m.sites d ((a.tokens d).length + 1)) := Phrase.bounds_of_mem hd he
  rw [Phrase.sites, Nat.zero_add] at hsites
  rw [readOperation?_phrase hd hlead hl, readRight?_ternary hd hlead (m.nested_sites hd) hsites]
  generalize (a.tokens d).length = i at hsites hbounds
  generalize i + 1 + (m.tokens d).length = j at hsites hbounds
  have hleft : g.readLeft? l (Mark.ofTokens g.operators l.tokens) gb (mid ++ gq :: post) = none := by
    cases hm : m.hasBinary with
    | false => exact readLeft?_eq_none_of_ne hd hlead hb (hne hm)
    | true =>
      -- the last binary operator stands in the middle operand
      obtain ⟨u, e, x, hu, he, hx, hux⟩ := Phrase.exists_last_binary hd hm (i := i + 1)
      obtain ⟨hlt, hgt⟩ := hbounds (e := e) (by rw [hu]; simp)
      have hsplit : Site.ofTokens g.operators l.tokens =
          ⟨i, d.q⟩ :: u ++ e :: (x ++ ⟨j, d.c⟩ :: t.sites d (j + 1)) := by
        rw [hsites, hu, List.append_assoc]
        rfl
      have hlast : ∀ s ∈ x ++ ⟨j, d.c⟩ :: t.sites d (j + 1), s.text ≠ d.b := by
        rw [List.forall_mem_append, List.forall_mem_cons]
        exact ⟨hx, hd.c_ne, Phrase.text_ne_of_not_hasBinary hd ht⟩
      have hfound : rightFound gq (⟨i, d.q⟩ :: u ++ (x ++ ⟨j, d.c⟩ :: t.sites d (j + 1))) = some [i, j] := by
        rw [List.cons_append, ← List.append_assoc]
        exact rightFound_ternary hd hlead hux _
      rw [readLeft?_binary hd hlead hb hsplit he hlast, hfound, if_pos]
      rw [encloses, List.head?_cons, List.getLast?_cons_cons, List.getLast?_singleton]
      simp [hgt]
      omega
  rw [hleft]
  rfl

/-- A binary operator in the last operand of a ternary one is read in its place. -/
theorem readOperation?_choice_of_hasBinary (hd : d.In g.operators) (hl : l.tokens = (a.choice m t).tokens d)
    (ht : t.hasBinary = true) : ∃ position operands,
      g.readOperation? l (Mark.ofTokens g.operators l.tokens) g.operators.groups.1 =
        some (.operation position d.binary operands) := by
  obtain ⟨pre, mid, post, gb, gq, hlead⟩ := hd.exists_leads
  have hb := balanced_phrase hd hl
  have hsites := ofTokens_phrase hd hl
  rw [Phrase.sites, Nat.zero_add] at hsites
  rw [readOperation?_phrase hd hlead hl]
  generalize (a.tokens d).length = i at hsites
  generalize i + 1 + (m.tokens d).length = j at hsites
  obtain ⟨u, e, x, hu, he, hx, hux⟩ := Phrase.exists_last_binary hd ht (i := j + 1)
  obtain ⟨hlt, -⟩ := Phrase.bounds_of_mem hd (p := t) (s := e) (i := j + 1) (by rw [hu]; simp)
  have hsplit : Site.ofTokens g.operators l.tokens =
      ⟨i, d.q⟩ :: (m.sites d (i + 1) ++ ⟨j, d.c⟩ :: u) ++ e :: x := by
    rw [hsites, hu, List.cons_append, List.append_assoc]
    rfl
  have hfound : rightFound gq (⟨i, d.q⟩ :: (m.sites d (i + 1) ++ ⟨j, d.c⟩ :: u) ++ x) = some [i, j] := by
    rw [List.cons_append, List.append_assoc, List.cons_append]
    exact rightFound_ternary hd hlead (m.nested_sites hd) (u ++ x)
  rw [readLeft?_binary hd hlead hb hsplit he hx, hfound, if_neg]
  · exact ⟨_, _, rfl⟩
  · rw [encloses, List.head?_cons, List.getLast?_cons_cons, List.getLast?_singleton]
    simp
    omega

/-- A binary operator is read if its last operand has no other outside of brackets. -/
theorem readOperation?_more (hd : d.In g.operators) (hl : l.tokens = (s.more t).tokens d) (ht : t.hasBinary = false) :
    g.readOperation? l (Mark.ofTokens g.operators l.tokens) g.operators.groups.1 =
      some (.operation (l.positionAt (s.tokens d).length) d.binary (l.cutAt [(s.tokens d).length])) := by
  obtain ⟨pre, mid, post, gb, gq, hlead⟩ := hd.exists_leads
  have hb := balanced_phrase hd hl
  have hsites := ofTokens_phrase hd hl
  have hlt {e : Site} (he : e ∈ s.sites d 0) := (Phrase.bounds_of_mem hd he).2
  rw [Phrase.sites] at hsites
  simp only [Nat.zero_add] at hsites hlt
  have hnot : encloses (s.tokens d).length (s.tokens d).length
      (rightFound gq (s.sites d 0 ++ t.sites d ((s.tokens d).length + 1))) = false :=
    encloses_rightFound hd hlead (s.nested_sites hd) (fun e he => hlt he) fun e he => (Phrase.bounds_of_mem hd he).1
  rw [readOperation?_phrase hd hlead hl,
    readLeft?_binary hd hlead hb hsites rfl (Phrase.text_ne_of_not_hasBinary hd ht), hnot]
  rfl

/-- A binary operator in the last operand of another one is read in its place, if any is. -/
theorem readOperation?_more_of_hasBinary (hd : d.In g.operators) (hl : l.tokens = (s.more t).tokens d)
    (ht : t.hasBinary = true) {position : Int} {operands : List TokenList}
    (h : g.readOperation? l (Mark.ofTokens g.operators l.tokens) g.operators.groups.1 =
      some (.operation position d.binary operands)) : l.positionAt (s.tokens d).length < position := by
  obtain ⟨pre, mid, post, gb, gq, hlead⟩ := hd.exists_leads
  have hb := balanced_phrase hd hl
  have hsites := ofTokens_phrase hd hl
  rw [Phrase.sites] at hsites
  simp only [Nat.zero_add] at hsites
  obtain ⟨u, e, x, hu, he, hx, -⟩ := Phrase.exists_last_binary hd ht (i := (s.tokens d).length + 1)
  have hsplit : Site.ofTokens g.operators l.tokens = s.sites d 0 ++ ⟨(s.tokens d).length, d.b⟩ :: u ++ e :: x := by
    rw [hsites, hu, List.append_assoc]
    rfl
  rw [readOperation?_phrase hd hlead hl, readLeft?_binary hd hlead hb hsplit he hx] at h
  split at h
  · obtain ⟨_, _, heq⟩ := readRight?_cases hd hlead h
    exact absurd (Reading.operation.inj heq).2.1 hd.binary_ne_ternary
  · cases h
    -- the first token of the last operand stands between the two
    obtain ⟨⟨y, v, hy, hne, -⟩, -⟩ := t.ends hd
    refine TokenList.positionAt_lt (k := (s.tokens d).length + 1) (t := y) ?_ hne (Nat.le_succ _)
      (Phrase.lt_of_mem hd (p := t) (by rw [hu]; simp))
    rw [hl, Phrase.tokens, hy, List.getElem?_append_right (Nat.le_succ _)]
    simp

end Grammar

/-! ## Sections of phrases -/

namespace Phrase

/-- A section shows the tokens of a phrase, from an index of a list on. -/
structure Stands (d : Duo α) {k : Symbol} (p : Phrase k) (full l : TokenList) (start : Nat) : Prop where
  faithful : l.Faithful
  shows : l.Shows full start
  tokens_eq : l.tokens = p.tokens d

variable {d : Duo α} {full l : TokenList} {start : Nat} {k : Symbol} {p : Phrase k} {a : Phrase .atom}
  {m s : Phrase .sum} {t : Phrase .term}

theorem Stands.size_eq (h : p.Stands d full l start) : l.size = (p.tokens d).length := by
  rw [TokenList.size_eq, h.tokens_eq]

theorem Stands.brackets (h : (brackets s).Stands d full l start) :
    s.Stands d full (l.slice 1 (l.size - 1)) (start + 1) := by
  have hsize := h.size_eq
  rw [tokens, List.length_cons, List.length_append, List.length_singleton] at hsize
  exact ⟨h.faithful.slice (by omega), h.shows.slice (by omega) (by omega), Grammar.tokens_inner h.tokens_eq⟩

/-- The tree of a phrase has no more nodes than the phrase has tokens. -/
theorem nodeCount_tree_le {i : Nat} : (p.tree d full i).nodeCount ≤ (p.tokens d).length := by
  induction p generalizing i with
  | number _ _ => exact Nat.le_refl 1
  | atom a ih => exact ih
  | term t ih => exact ih
  | brackets s ih =>
    rw [tree, tokens, List.length_cons, List.length_append]
    exact ih.trans (by omega)
  | choice a m t iha ihm iht =>
    simp only [tree, tokens, Tree.nodeCount, Tree.nodeCountAll, List.length_append, List.length_cons]
    have ha := iha (i := i)
    have hm := ihm (i := i + (a.tokens d).length + 1)
    have ht := iht (i := i + (a.tokens d).length + 1 + (m.tokens d).length + 1)
    omega
  | more s t ihs iht =>
    simp only [tree, tokens, Tree.nodeCount, Tree.nodeCountAll, List.length_append, List.length_cons]
    have hs := ihs (i := i)
    have ht := iht (i := i + (s.tokens d).length + 1)
    omega

/-- The sections around the tokens of a ternary operator show its operands. -/
theorem Stands.choice (h : (a.choice m t).Stands d full l start) : ∃ i j, i = (a.tokens d).length ∧
    j = i + 1 + (m.tokens d).length ∧ j < l.size ∧ a.Stands d full (l.slice 0 i) start ∧
      m.Stands d full (l.slice (i + 1) j) (start + (a.tokens d).length + 1) ∧
      t.Stands d full (l.slice (j + 1) l.size) (start + (a.tokens d).length + 1 + (m.tokens d).length + 1) := by
  have hparts := @TokenList.cutAt_joints l (a.tokens d) [(d.q, m.tokens d), (d.c, t.tokens d)] h.tokens_eq
  have hsize := h.size_eq
  rw [tokens, List.length_append, List.length_cons, List.length_append, List.length_cons] at hsize
  simp only [TokenList.joints, TokenList.cutAt, TokenList.cutFrom, Nat.zero_add, List.map_cons, List.map_nil,
    List.forall₂_cons] at hparts
  obtain ⟨ha, hm, ht, -⟩ := hparts
  refine ⟨_, _, rfl, rfl, by omega, ⟨h.faithful.slice (Nat.zero_le _), h.shows.slice (by omega) (Nat.zero_le _), ha.1⟩,
    ⟨h.faithful.slice (by omega), h.shows.slice (by omega) (by omega), hm.1⟩,
    ⟨h.faithful.slice (by omega), ?_, ht.1⟩⟩
  have hstart : start + (a.tokens d).length + 1 + (m.tokens d).length + 1 =
      start + ((a.tokens d).length + 1 + (m.tokens d).length + 1) := by omega
  rw [hstart]
  exact h.shows.slice (Nat.le_refl _) (by omega)

/-- The sections around the token of a binary operator show its operands. -/
theorem Stands.more (h : (s.more t).Stands d full l start) : ∃ i, i = (s.tokens d).length ∧ i < l.size ∧
    s.Stands d full (l.slice 0 i) start ∧
      t.Stands d full (l.slice (i + 1) l.size) (start + (s.tokens d).length + 1) := by
  have hparts := @TokenList.cutAt_joints l (s.tokens d) [(d.b, t.tokens d)] h.tokens_eq
  have hsize := h.size_eq
  rw [tokens, List.length_append, List.length_cons] at hsize
  simp only [TokenList.joints, TokenList.cutAt, TokenList.cutFrom, Nat.zero_add, List.map_cons, List.map_nil,
    List.forall₂_cons] at hparts
  obtain ⟨hs, ht, -⟩ := hparts
  exact ⟨_, rfl, by omega, ⟨h.faithful.slice (Nat.zero_le _), h.shows.slice (by omega) (Nat.zero_le _), hs.1⟩,
    ⟨h.faithful.slice (by omega), h.shows.slice (Nat.le_refl _) (by omega), ht.1⟩⟩

end Phrase

namespace Grammar

variable {g : Grammar α} {source : Text} {d : Duo α} {full l : TokenList} {start levels : Nat}
  {k : Symbol} {p : Phrase k}

/-! ## Trees of phrases -/

/-- An operation that is found in a section with a token of the operators outside of brackets is read. -/
theorem read_phrase (hd : d.In g.operators) (hn : g.NamesApart) (h : p.Stands d full l start) {t : Text}
    (ht : t ∈ [d.b, d.q, d.c]) {u v : List Token} (huv : l.tokens = u ++ .fixed t :: v) (hu : Balanced u)
    {op : Reading α} (hop : g.readOperation? l (Mark.ofTokens g.operators l.tokens) g.operators.groups.1 = some op) :
    g.read source g.operators.groups.1 l = .ok op := by
  obtain ⟨hbuiltin, hinfix⟩ := hd.infix_token ht
  refine read_of_operatorToken hn h.faithful ?_ huv hu.depth_eq (Token.isPlain_of_not_builtin hbuiltin)
    (hd.wellFormed.isOperatorToken_of_infix hd.avoids hinfix).1 hop
  rw [h.tokens_eq]
  exact p.operand hd

theorem isEmpty_of_stands (hd : d.In g.operators) (h : p.Stands d full l start) : l.isEmpty = false :=
  TokenList.isEmpty_of_size_pos (Phrase.size_pos hd h.tokens_eq)

/-- A root and the trees of the sections below it give the tree one level further up. -/
theorem build_of_root {k : Symbol} {p : Phrase k} (hd : d.In g.operators) (h : p.Stands d full l start)
    {reading : Reading α} {ts : List (Tree α)} (hread : g.read source g.operators.groups.1 l = .ok reading)
    (htree : nodeOf l reading ts = p.tree d full start)
    (hts : List.Forall₂ (fun s t => s.isEmpty = false ∧ s.size < l.size ∧ ∀ levels,
      Within (levels < s.size) (· = t) (g.build source g.operators.groups.1 levels s)) (sections reading) ts) :
    Within (levels < l.size) (· = p.tree d full start) (g.build source g.operators.groups.1 levels l) := by
  rw [← htree]
  exact within_build_of_read (Phrase.size_pos hd h.tokens_eq) hread hts

/-- The tree of a regular phrase is built, unless the levels are fewer than the tokens. -/
theorem build_of_regular (hd : d.In g.operators) (hn : g.NamesApart) (h : p.Stands d full l start)
    (hp : p.regular = true) :
    Within (levels < l.size) (· = p.tree d full start) (g.build source g.operators.groups.1 levels l) := by
  have hgroups (group : Group α) (hm : group ∈ g.operators.groups.1) : group.Sound := hd.wellFormed.sound hm
  induction p generalizing l start levels with
  | atom a ih => exact ih ⟨h.faithful, h.shows, h.tokens_eq⟩ hp
  | term t ih => exact ih ⟨h.faithful, h.shows, h.tokens_eq⟩ hp
  | @number t v ht w =>
    refine build_of_root hd h (read_number hgroups hn h.faithful h.tokens_eq ht) ?_ .nil
    rw [nodeOf, Phrase.tree, TokenList.position_eq, h.shows.position_eq 0 (Nat.zero_le _), Nat.add_zero]
  | brackets s ih =>
    have hs := h.brackets
    have hlt : (l.slice 1 (l.size - 1)).size < l.size := by
      have := Phrase.size_pos hd h.tokens_eq
      rw [TokenList.size_slice (by omega)]
      omega
    exact build_of_root hd h (read_brackets hd.wellFormed.sparesBrackets (s.operand hd).balanced h.tokens_eq) rfl
      (.cons ⟨isEmpty_of_stands hd hs, hlt, fun _ => ih hs hp⟩ .nil)
  | choice a m t iha ihm iht =>
    simp only [Phrase.regular, Bool.and_eq_true, Bool.not_eq_true'] at hp
    obtain ⟨⟨⟨ha, hm⟩, ht⟩, hbinary⟩ := hp
    have hread : g.read source g.operators.groups.1 l = _ :=
      read_phrase hd hn h (t := d.q) (by simp) h.tokens_eq (a.operand hd).balanced
      (readOperation?_choice hd h.tokens_eq hbinary)
    obtain ⟨i, j, hi, hj, hlt, hsa, hsm, hst⟩ := h.choice
    rw [← hi, ← hj] at hread
    have hsizes : (l.slice 0 i).size < l.size ∧ (l.slice (i + 1) j).size < l.size ∧
        (l.slice (j + 1) l.size).size < l.size := by
      rw [TokenList.size_slice (by omega), TokenList.size_slice (by omega), TokenList.size_slice (Nat.le_refl _)]
      omega
    refine build_of_root hd h hread ?_ (.cons ⟨isEmpty_of_stands hd hsa, hsizes.1, fun _ => iha hsa ha⟩
      (.cons ⟨isEmpty_of_stands hd hsm, hsizes.2.1, fun _ => ihm hsm hm⟩
        (.cons ⟨isEmpty_of_stands hd hst, hsizes.2.2, fun _ => iht hst ht⟩ .nil)))
    rw [nodeOf, Phrase.tree, h.shows.position_eq i (by omega), hi]
  | more s t ihs iht =>
    simp only [Phrase.regular, Bool.and_eq_true, Bool.not_eq_true'] at hp
    obtain ⟨⟨hs, ht⟩, hbinary⟩ := hp
    have hread : g.read source g.operators.groups.1 l = _ :=
      read_phrase hd hn h (t := d.b) (by simp) h.tokens_eq (s.operand hd).balanced
      (readOperation?_more hd h.tokens_eq hbinary)
    obtain ⟨i, hi, hlt, hss, hst⟩ := h.more
    have hsizes : (l.slice 0 i).size < l.size ∧ (l.slice (i + 1) l.size).size < l.size := by
      rw [TokenList.size_slice (by omega), TokenList.size_slice (Nat.le_refl _)]
      omega
    rw [← hi] at hread
    refine build_of_root hd h hread ?_ (.cons ⟨isEmpty_of_stands hd hss, hsizes.1, fun _ => ihs hss hs⟩
      (.cons ⟨isEmpty_of_stands hd hst, hsizes.2, fun _ => iht hst ht⟩ .nil))
    rw [nodeOf, Phrase.tree, h.shows.position_eq i (by omega), hi]

/-- An operation that is built of a phrase with a token of the operators outside of brackets was found in it, and its
operands are built of the sections. -/
theorem readOperation?_of_phrase (hd : d.In g.operators) (h : l.tokens = p.tokens d) {t : Text}
    (ht : t ∈ [d.b, d.q, d.c]) {u v : List Token} (huv : l.tokens = u ++ .fixed t :: v) (hu : Balanced u)
    {position : Int} {o : Operator α} {ts : List (Tree α)}
    (hb : g.build source g.operators.groups.1 levels l = .ok (.operation position o ts)) : ∃ levels' operands,
    g.readOperation? l (Mark.ofTokens g.operators l.tokens) g.operators.groups.1 =
      some (.operation position o operands) ∧
      List.Forall₂ (fun s t => g.build source g.operators.groups.1 levels' s = .ok t) operands ts := by
  have hbalanced : Balanced l.tokens := by
    rw [h]
    exact (p.operand hd).balanced
  refine readOperation?_of_build hd.wellFormed hd.avoids hbalanced ?_ hb
  rw [huv]
  exact TokenList.areInBrackets_eq_false hu.depth_eq (Token.isPlain_of_not_builtin (hd.infix_token ht).1)

/-- Only a regular phrase can have its tree built. -/
theorem regular_of_build (hd : d.In g.operators) (h : p.Stands d full l start)
    (hb : g.build source g.operators.groups.1 levels l = .ok (p.tree d full start)) : p.regular = true := by
  induction p generalizing l start levels with
  | number _ _ => rfl
  | atom a ih => exact ih ⟨h.faithful, h.shows, h.tokens_eq⟩ hb
  | term t ih => exact ih ⟨h.faithful, h.shows, h.tokens_eq⟩ hb
  | brackets s ih =>
    cases levels with
    | zero => cases hb
    | succ levels =>
      rw [build_succ, read_brackets hd.wellFormed.sparesBrackets (s.operand hd).balanced h.tokens_eq] at hb
      exact ih h.brackets hb
  | choice a m t iha ihm iht =>
    rw [Phrase.tree] at hb
    obtain ⟨levels', operands, hread, hts⟩ :=
      readOperation?_of_phrase hd h.tokens_eq (t := d.q) (by simp) h.tokens_eq (a.operand hd).balanced hb
    cases hbinary : t.hasBinary with
    | true =>
      obtain ⟨_, _, hread'⟩ := readOperation?_choice_of_hasBinary hd h.tokens_eq hbinary
      rw [hread] at hread'
      exact absurd (Reading.operation.inj (Option.some.inj hread')).2.1 hd.binary_ne_ternary.symm
    | false =>
      obtain ⟨i, j, hi, hj, -, hsa, hsm, hst⟩ := h.choice
      rw [readOperation?_choice hd h.tokens_eq hbinary, ← hi, ← hj] at hread
      rw [← (Reading.operation.inj (Option.some.inj hread)).2.2] at hts
      simp only [TokenList.cutAt, TokenList.cutFrom, List.forall₂_cons] at hts
      simp only [Phrase.regular, hbinary, iha hsa hts.1, ihm hsm hts.2.1, iht hst hts.2.2.1]
      rfl
  | more s t ihs iht =>
    rw [Phrase.tree] at hb
    obtain ⟨levels', operands, hread, hts⟩ :=
      readOperation?_of_phrase hd h.tokens_eq (t := d.b) (by simp) h.tokens_eq (s.operand hd).balanced hb
    obtain ⟨i, hi, hilt, hss, hst⟩ := h.more
    cases hbinary : t.hasBinary with
    | true =>
      have hlt := readOperation?_more_of_hasBinary hd h.tokens_eq hbinary hread
      rw [h.shows.position_eq _ (by omega)] at hlt
      exact absurd hlt (lt_irrefl _)
    | false =>
      rw [readOperation?_more hd h.tokens_eq hbinary, ← hi] at hread
      rw [← (Reading.operation.inj (Option.some.inj hread)).2.2] at hts
      simp only [TokenList.cutAt, TokenList.cutFrom, List.forall₂_cons] at hts
      simp only [Phrase.regular, hbinary, ihs hss hts.1, iht hst hts.2.1]
      rfl

/-- The tree of a phrase is built if the phrase is regular, unless a limit is below the number of tokens, and is not
built otherwise. -/
theorem parse_phrase (hd : d.In g.operators) (hn : g.NamesApart) (hl : l.Faithful) {p : Phrase .sum}
    (htokens : l.tokens = p.tokens d) :
    (p.regular = true → g.parse source l = .ok (p.tree d l 0) ∨
      ∃ e, g.parse source l = .error e ∧ e.code = .limitExceeded ∧ ∃ limit, g.limits.bound limit < l.size) ∧
      (p.regular = false → g.parse source l ≠ .ok (p.tree d l 0)) := by
  have h : p.Stands d l l 0 := ⟨hl, .refl l, htokens⟩
  refine ⟨fun hp => ?_, fun hp hparse => ?_⟩
  · have hbuild := @build_of_regular _ g source d l l 0 g.limits.treeDepth.toNat _ p hd hn h hp
    have hcount (t : Tree α) (ht : t = p.tree d l 0) : t.nodeCount ≤ l.size := by
      rw [ht, h.size_eq]
      exact p.nodeCount_tree_le
    rcases within_parse (hbuild.imp Or.inl fun _ ht => ht) hcount with ⟨t, ht, rfl⟩ | he
    · exact Or.inl ht
    · exact Or.inr he
  · rw [regular_of_build hd h (build_of_parse hparse)] at hp
    cases hp

/-- A binary and a ternary operator. -/
def duoSample : Duo Unit where
  binary := ⟨.infixed .left, [['b']], 0.0, ()⟩
  ternary := ⟨.infixed .right, [['q'], ['c']], 1.0, ()⟩
  b := ['b']
  q := ['q']
  c := ['c']

/-- A grammar with these operators only, and with no names. -/
def ternarySample : Grammar Unit where
  operators := Registry.empty.addAll [duoSample.binary, duoSample.ternary]
  vars := []
  functions := []
  limits := {}

theorem operators_ternarySample : ternarySample.operators.operators = [duoSample.binary, duoSample.ternary] := rfl

theorem in_ternarySample : duoSample.In ternarySample.operators where
  reachable := Registry.Reachable.empty.addAll (by
    simp only [List.forall_mem_cons]
    exact ⟨⟨by decide, fun h => absurd rfl (h .left)⟩, ⟨by decide, fun h => absurd rfl (h .right)⟩, by simp⟩)
  avoids := by
    rw [Registry.AvoidsBuiltins, operators_ternarySample]
    decide
  binary := ⟨by simp [operators_ternarySample], rfl, rfl⟩
  ternary := ⟨by simp [operators_ternarySample], rfl, rfl⟩
  distinct := by decide
  tighter := by decide +kernel
  others o ho := by
    rw [operators_ternarySample] at ho
    simp only [List.mem_cons, List.not_mem_nil, or_false] at ho
    exact ho.imp id Or.inl

/-- A number as a phrase. -/
def numeral (t : Text) (h : (readNumber? t).isSome = true) : Phrase .atom :=
  .number (t := t) (v := (readNumber? t).get h) (Option.some_get h).symm 0.0

/-- The phrase `1 q 2 b 3 c 4`. -/
def regularSample : Phrase .sum :=
  .term (.choice (numeral ['1'] (by decide +kernel))
    (.more (.term (.atom (numeral ['2'] (by decide +kernel)))) (.atom (numeral ['3'] (by decide +kernel))))
    (.atom (numeral ['4'] (by decide +kernel))))

theorem parse_phrase_sample : ∃ l, ternarySample.NamesApart ∧ duoSample.In ternarySample.operators ∧ l.Faithful ∧
    l.tokens = regularSample.tokens duoSample ∧ regularSample.regular = true ∧
      ((regularSample.regular = true → ternarySample.parse [] l = .ok (regularSample.tree duoSample l 0) ∨
        ∃ e, ternarySample.parse [] l = .error e ∧ e.code = .limitExceeded ∧
          ∃ limit, ternarySample.limits.bound limit < l.size) ∧
        (regularSample.regular = false → ternarySample.parse [] l ≠ .ok (regularSample.tree duoSample l 0))) := by
  have hn : ternarySample.NamesApart := ⟨by decide, by decide⟩
  have hl := TokenList.faithful_adjoining (regularSample.tokens duoSample)
  have htokens := TokenList.tokens_adjoining (regularSample.tokens duoSample)
  exact ⟨_, hn, in_ternarySample, hl, htokens, rfl, parse_phrase in_ternarySample hn hl htokens⟩

/-- The phrase `1 b 2 q 3 b 4 c 5`. -/
def irregularSample : Phrase .sum :=
  .more (.term (.atom (numeral ['1'] (by decide +kernel)))) (.choice (numeral ['2'] (by decide +kernel))
    (.more (.term (.atom (numeral ['3'] (by decide +kernel)))) (.atom (numeral ['4'] (by decide +kernel))))
    (.atom (numeral ['5'] (by decide +kernel))))

theorem parse_irregularTokens :
    (match ternarySample.parse [] (TokenList.adjoining (irregularSample.tokens duoSample)) with
    | .ok (.operation _ o _) => o.tokens == duoSample.ternary.tokens
    | _ => false) = true := by
  rw [parse, in_ternarySample.wellFormed.groups_eq_foldl (by decide +kernel)]
  decide +kernel

/-- An operation of the ternary operator is built of a phrase with a binary operator before it and in its middle
operand, where the tree of the phrase is one of the binary operator. -/
theorem parse_irregularSample : duoSample.In ternarySample.operators ∧
    (∃ p o operands, ternarySample.parse [] (TokenList.adjoining (irregularSample.tokens duoSample)) =
      .ok (.operation p o operands) ∧ o.tokens = duoSample.ternary.tokens) ∧
    ∃ p operands, irregularSample.tree duoSample (TokenList.adjoining (irregularSample.tokens duoSample)) 0 =
      .operation p duoSample.binary operands := by
  refine ⟨in_ternarySample, ?_, _, _, rfl⟩
  have hparse := parse_irregularTokens
  split at hparse
  · next p o operands h => exact ⟨p, o, operands, h, beq_iff_eq.1 hparse⟩
  · cases hparse

end Grammar

end Mixfix
