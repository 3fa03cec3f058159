import Mixfix.Proofs.Derivable
import Mixfix.Proofs.Enclosure

/-!
# Sections that an operator is spelled in

Where the sites of a section spell an infix operator, with whole operators between its tokens, and infix operators share
no token, this operator is the root (`Grammar.readOperation?_of_spelled`), whatever the priorities of the others. A scan
for another group may find an operator between its tokens, but the root is spelled around that one, so it is enclosed;
and nothing is left around the root itself.
-/

namespace Mixfix

variable {α : Type}

/-! ## Operators with tokens of their own -/

/-- Infix operators share no token, and none of their tokens is prefix or postfix. -/
structure Registry.Unmixed (r : Registry α) : Prop extends r.Separate, r.Disjoint

namespace Registry.Unmixed

variable {r : Registry α} {t : Text}

theorem not_infix_of_prefix (hr : r.Unmixed) (ht : r.isPrefixToken (.fixed t) = true) :
    (Token.fixed t).isBuiltin = false ∧ r.isInfixToken (.fixed t) = false := by
  refine ⟨(hr.of_prefix ht).1, ?_⟩
  rw [Bool.eq_false_iff]
  intro hi
  rw [hr.not_prefix _ hi] at ht
  cases ht

theorem not_infix_of_postfix (hr : r.Unmixed) (ht : r.isPostfixToken (.fixed t) = true) :
    (Token.fixed t).isBuiltin = false ∧ r.isInfixToken (.fixed t) = false := by
  refine ⟨(hr.of_postfix ht).1, ?_⟩
  rw [Bool.eq_false_iff]
  intro hi
  rw [hr.not_postfix _ hi] at ht
  cases ht

end Registry.Unmixed

/-- A registry that grows by registrations, whose infix operators have distinct tokens that no other operator has. -/
structure Registry.Own (r : Registry α) : Prop where
  reachable : r.Reachable
  avoids : r.AvoidsBuiltins
  nodup : ∀ o ∈ r.operators, (∃ a, o.fixity = .infixed a) → o.tokens.Nodup
  own : ∀ o ∈ r.operators, (∃ a, o.fixity = .infixed a) → ∀ o' ∈ r.operators, ∀ t ∈ o.tokens, t ∈ o'.tokens → o' = o

theorem Registry.Own.unmixed {r : Registry α} (h : r.Own) : r.Unmixed := by
  have hr := h.reachable.wellFormed
  have hinfix {p : List Text} (hp : (r.infixOps.get? p).isSome = true) :
      ∃ o ∈ r.operators, (∃ a, o.fixity = .infixed a) ∧ o.tokens = p := by
    obtain ⟨o, ho⟩ := Option.isSome_iff_exists.1 hp
    obtain ⟨hf, hts⟩ := hr.infix_eq _ _ ho
    exact ⟨o, hr.mem_of_infix ho, hf, hts.1⟩
  have hother {t : Text} (ht : r.isInfixToken (.fixed t) = true) {o' : Operator α} (ho' : o' ∈ r.operators)
      (hts : o'.tokens = [t]) : ∃ a, o'.fixity = .infixed a := by
    obtain ⟨o, ho, hf, hmem⟩ := hr.isInfixToken_iff.1 ht
    rw [h.own o ho hf o' ho' t hmem (by rw [hts]; exact List.mem_singleton_self t)]
    exact hf
  refine ⟨⟨hr, h.avoids, ⟨fun p hp => ?_, fun p q t hp hq htp htq => ?_⟩⟩, fun t ht => ?_, fun t ht => ?_⟩
  · obtain ⟨o, ho, hf, rfl⟩ := hinfix hp
    exact h.nodup o ho hf
  · obtain ⟨o, ho, hf, rfl⟩ := hinfix hp
    obtain ⟨o', ho', -, rfl⟩ := hinfix hq
    rw [h.own o ho hf o' ho' t htp htq]
  · match t with
    | .raw _ | .number _ _ => cases ht
    | .fixed t =>
      rw [Bool.eq_false_iff, Ne, hr.isPrefixToken_iff]
      rintro ⟨o', ho', hf', hts⟩
      obtain ⟨a, ha⟩ := hother ht ho' hts
      cases hf'.symm.trans ha
  · match t with
    | .raw _ | .number _ _ => cases ht
    | .fixed t =>
      rw [Bool.eq_false_iff, Ne, hr.isPostfixToken_iff]
      rintro ⟨o', ho', hf', hts⟩
      obtain ⟨a, ha⟩ := hother ht ho' hts
      cases hf'.symm.trans ha

/-! ## Sites that spell an operator -/

namespace Scan

variable {P : List Text → Prop} {p : List Text} {v own : List Site}

theorem Spelled.head?_eq (h : Spelled P p v own) : own.head? = v.head? := by
  cases h <;> rfl

theorem Spelled.of_reverse (h : Spelled (fun p => P p.reverse) p v own) :
    Spelled P p.reverse v.reverse own.reverse := by
  have := Spelled.reverse h
  simpa only [List.reverse_reverse] using this

theorem Spelled.getLast?_eq (h : Spelled P p v own) : own.getLast? = v.getLast? := by
  have := (Spelled.reverse h).head?_eq
  rwa [List.head?_reverse, List.head?_reverse] at this

end Scan

/-! ## Operands with tokens between them -/

/-- Joined operands are an operand. -/
theorem operand_joined {r : Registry α} {m : List Token} {rest : List (Text × List Token)} (hm : r.Operand m)
    (hrest : ∀ p ∈ rest, (Token.fixed p.1).isBuiltin = false ∧ r.Operand p.2) :
    r.Operand (TokenList.joined m rest) := by
  induction rest generalizing m with
  | nil => exact hm
  | cons p rest ih =>
    obtain ⟨hp, hop⟩ := hrest p List.mem_cons_self
    exact hm.infixed (ih hop fun p' hp' => hrest p' (List.mem_cons_of_mem _ hp')) hp

/-- The sites of joined operands behind those of the first, and before those of the last, are those of the tokens
between them, with nested sites in between. -/
theorem exists_spelled_joined {r : Registry α} {P : List Text → Prop} {before behind : List Token} {index : Nat}
    {m : List Token} {rest : List (Text × List Token)} (hne : rest ≠ []) (hm : r.Operand m)
    (hrest : ∀ p ∈ rest, ((Token.fixed p.1).isBuiltin = false ∧ r.isInfixToken (.fixed p.1) = true) ∧ r.Operand p.2 ∧
      ∀ before behind index, Scan.Nested P (Site.inTokens r before behind index 0 p.2)) :
    ∃ behind' before' index' w own, Site.inTokens r before behind index 0 (TokenList.joined m rest) =
        Site.inTokens r before behind' index 0 m ++
          (w ++ Site.inTokens r before' behind index' 0 (rest.getLast hne).2) ∧
      Scan.Spelled P (rest.map Prod.fst) w own ∧ own.map Site.index = TokenList.joints index m rest := by
  induction rest generalizing m before index with
  | nil => exact absurd rfl hne
  | cons p rest ih =>
    obtain ⟨t, m'⟩ := p
    obtain ⟨⟨hb, hi⟩, hop, hnested⟩ := hrest (t, m') List.mem_cons_self
    have hrest' (p : Text × List Token) (hp : p ∈ rest) := hrest p (List.mem_cons_of_mem _ hp)
    have hoperand : r.Operand (TokenList.joined m' rest) :=
      operand_joined hop fun p hp => ⟨(hrest' p hp).1.1, (hrest' p hp).2.1⟩
    have hsplit := @Site.inTokens_infix _ r before behind index _ _ _ hm hoperand (Token.isPlain_of_not_builtin hb) hi
    cases rest with
    | nil =>
      exact ⟨_, _, _, [⟨index + m.length, t⟩], [⟨index + m.length, t⟩], hsplit, .last ⟨index + m.length, t⟩, rfl⟩
    | cons p rest =>
      obtain ⟨behind', before', index', w, own, hw, hspelled, hown⟩ := ih (List.cons_ne_nil p rest) hop hrest'
      rw [hw, ← List.append_assoc, ← List.cons_append (a := (⟨index + m.length, t⟩ : Site))] at hsplit
      refine ⟨_, before', index', _, ⟨index + m.length, t⟩ :: own, hsplit, ?_, ?_⟩
      · exact Scan.Spelled.next (s := ⟨index + m.length, t⟩) (hnested _ _ _) hspelled
      · rw [List.map_cons, hown]
        rfl

/-! ## Tries that hold a part of the operators -/

namespace Registry.Separate

variable {r : Registry α} {group : Group α} {o o' : Operator α} {a : Associativity}

/-- What a group holds as an infix operator is what is filed under the tokens. -/
theorem infixOps_of_group (hr : r.Separate) (hm : group ∈ r.groups.1) {ts : List Text}
    (h : group.get? (.infixed a) ts = some o') : r.infixOps.get? ts = some o' := by
  obtain ⟨hmem, hf, htokens⟩ := hr.consistent hm _ _ _ h
  rw [← htokens]
  exact hr.get?_infix hmem hf

theorem holdsOnly_right (hr : r.Separate) (hm : group ∈ r.groups.1) :
    Scan.HoldsOnly (fun p => (r.infixOps.get? p).isSome = true) group.right where
  apart := hr.apart
  distinct := (hr.sound hm).right_distinct
  mem p hp := by
    obtain ⟨o', ho'⟩ := Option.isSome_iff_exists.1 hp
    rw [hr.infixOps_of_group hm (a := .right) ho']
    rfl

theorem holdsOnly_left (hr : r.Separate) (hm : group ∈ r.groups.1) :
    Scan.HoldsOnly (fun p => (r.infixOps.get? p.reverse).isSome = true) group.leftReversed where
  apart := hr.apart.reverse
  distinct := (hr.sound hm).reversed_distinct
  mem p hp := by
    rw [(hr.sound hm).reversed] at hp
    obtain ⟨o', ho'⟩ := Option.isSome_iff_exists.1 hp
    rw [hr.infixOps_of_group hm (a := .left) ho']
    rfl

/-- The first group that holds an operator. -/
theorem exists_first_holds (hr : r.Separate) (ho : o ∈ r.operators) : ∃ pre group post,
    r.groups.1 = pre ++ group :: post ∧ group.Holds o ∧ ∀ group' ∈ pre, ¬ group'.Holds o := by
  classical
  obtain ⟨group, hm, hholds⟩ := hr.exists_holds ho
  cases h : r.groups.1.find? fun group => decide (group.Holds o) with
  | none =>
    have := List.find?_eq_none.1 h group hm
    simp [hholds] at this
  | some group =>
    obtain ⟨hg, pre, post, hgs, hpre⟩ := List.find?_eq_some_iff_append.1 h
    exact ⟨pre, group, post, hgs, by simpa using hg, fun group' hm' => by simpa using hpre group' hm'⟩

/-- A group that does not hold an infix operator holds none with its tokens. -/
theorem get?_eq_none_of_not_holds (hr : r.Separate) (ho : o ∈ r.operators) (hf : ∃ a, o.fixity = .infixed a)
    (hm : group ∈ r.groups.1) (h : ¬ group.Holds o) (a : Associativity) : group.get? (.infixed a) o.tokens = none := by
  obtain ⟨a', hf⟩ := hf
  refine Option.eq_none_iff_forall_ne_some.2 fun o' ho' => ?_
  have heq := hr.infixOps_of_group hm ho'
  rw [hr.get?_infix ho hf] at heq
  cases heq
  obtain ⟨-, hf', -⟩ := hr.consistent hm _ _ _ ho'
  exact h (by rw [Group.Holds, hf']; exact ho')

/-- A group holds an infix operator with its own associativity only. -/
theorem get?_eq_none_of_ne (hr : r.Separate) (ho : o ∈ r.operators) (hf : o.fixity = .infixed a)
    (hm : group ∈ r.groups.1) {a' : Associativity} (hne : a' ≠ a) : group.get? (.infixed a') o.tokens = none := by
  refine Option.eq_none_iff_forall_ne_some.2 fun o' ho' => ?_
  have heq := hr.infixOps_of_group hm ho'
  rw [hr.get?_infix ho hf] at heq
  cases heq
  obtain ⟨-, hf', -⟩ := hr.consistent hm _ _ _ ho'
  rw [hf] at hf'
  cases hf'
  exact hne rfl

end Registry.Separate

/-! ## The root -/

namespace Grammar

variable {g : Grammar α} {l : TokenList} {group : Group α} {gs pre post : List (Group α)} {same : Option (Group α)}
  {p : List Text} {own : List Site} {o : Operator α}

/-- No prefix operator is read where no operator token comes first. -/
theorem readPrefix?_of_head (hr : g.operators.Separate) (hm : group ∈ g.operators.groups.1)
    (h : ∀ t, l.tokens.head? = some t → g.operators.isOperatorToken t = false) : readPrefix? l group = none := by
  refine readPrefix?_eq_none_iff.2 fun t ts htokens _ => Option.eq_none_iff_forall_ne_some.2 fun o' ho' => ?_
  obtain ⟨hmem, hf, hts⟩ := hr.consistent hm .prefixed [t] o' ho'
  have ht := (hr.of_prefix (hr.isPrefixToken_iff.2 ⟨o', hmem, hf, hts⟩)).2
  rw [h (.fixed t) (by rw [htokens]; rfl)] at ht
  cases ht

/-- No postfix operator is read where no operator token comes last. -/
theorem readPostfix?_of_last (hr : g.operators.Separate) (hm : group ∈ g.operators.groups.1)
    (h : ∀ t, l.tokens.getLast? = some t → g.operators.isOperatorToken t = false) : readPostfix? l group = none := by
  refine readPostfix?_eq_none_iff.2 fun t ts htokens _ => Option.eq_none_iff_forall_ne_some.2 fun o' ho' => ?_
  obtain ⟨hmem, hf, hts⟩ := hr.consistent hm .postfixed [t] o' ho'
  have ht := (hr.of_postfix (hr.isPostfixToken_iff.2 ⟨o', hmem, hf, hts⟩)).2
  rw [h (.fixed t) (by rw [htokens, List.getLast?_concat])] at ht
  cases ht

/-- A section with balanced tokens whose sites spell an operator. -/
structure Spells (g : Grammar α) (l : TokenList) (o : Operator α) (own : List Site) : Prop where
  balanced : Balanced l.tokens
  mem : o ∈ g.operators.operators
  infixed : ∃ a, o.fixity = .infixed a
  spelled : Scan.Spelled (fun p => (g.operators.infixOps.get? p).isSome = true) o.tokens
    (Site.ofTokens g.operators l.tokens) own
  starts : ∀ t, l.tokens.head? = some t → g.operators.isOperatorToken t = false
  ends : ∀ t, l.tokens.getLast? = some t → g.operators.isOperatorToken t = false

theorem Spells.isSome (hr : g.operators.Separate) (h : Spells g l o own) :
    (g.operators.infixOps.get? o.tokens).isSome = true := by
  obtain ⟨a, hf⟩ := h.infixed
  rw [hr.get?_infix h.mem hf]
  rfl

/-- The points of an operator that is spelled by some of the sites. -/
theorem pointsAt {u v x : List Site} {p : List Text} {own : List Site}
    (hsites : Site.ofTokens g.operators l.tokens = u ++ v ++ x)
    (hs : Scan.Spelled (fun p => (g.operators.infixOps.get? p).isSome = true) p v own) :
    ∃ s e, s ∈ v ∧ e ∈ v ∧ PointsAt g.operators l.tokens (own.map Site.index) s e u x := by
  obtain ⟨-, hv, -⟩ := hs.ne_nil
  obtain ⟨s, hsv⟩ := Option.isSome_iff_exists.1 (List.isSome_head?.2 hv)
  obtain ⟨e, hev⟩ : ∃ e, v.getLast? = some e := ⟨_, List.getLast?_eq_some_getLast hv⟩
  refine ⟨s, e, List.mem_of_head? hsv, List.mem_of_getLast? hev, ⟨v, hsites, hsv, hev⟩, ?_, ?_⟩
  · rw [List.head?_map, hs.head?_eq, hsv]
    rfl
  · rw [List.getLast?_map, hs.getLast?_eq, hev]
    rfl

/-- A scan finds the operator that the sites begin with, if the group holds it. -/
theorem rightFound_append (hr : g.operators.Separate) (hm : group ∈ g.operators.groups.1) {p : List Text}
    {w : List Site} (hs : Scan.Spelled (fun p => (g.operators.infixOps.get? p).isSome = true) p w own)
    (h : (group.get? (.infixed .right) p).isSome = true) (x : List Site) :
    rightFound group (w ++ x) = some (own.map Site.index) := by
  rw [rightFound, sitesFound, Scan.seek_spelled (hr.holdsOnly_right hm) hs h x]
  rfl

/-- A scan from the right finds the operator that the sites end with, if the group holds it. -/
theorem leftFound_append (hr : g.operators.Separate) (hm : group ∈ g.operators.groups.1) {p : List Text}
    {w : List Site} (hs : Scan.Spelled (fun p => (g.operators.infixOps.get? p).isSome = true) p w own)
    (h : (group.get? (.infixed .left) p).isSome = true) (x : List Site) :
    leftFound group (x ++ w) = some (own.map Site.index) := by
  have hseek := Scan.seek_spelled (hr.holdsOnly_left hm) (Scan.Spelled.reverse hs)
    (by rw [(hr.sound hm).reversed, List.reverse_reverse]; exact h) x.reverse
  rw [leftFound, sitesFound, List.reverse_append, hseek]
  simp

/-- A scan finds the operator that sites spell, if the group holds it. -/
theorem rightFound_of_spelled (hr : g.operators.Separate) (hm : group ∈ g.operators.groups.1) {p : List Text}
    {w : List Site} (hs : Scan.Spelled (fun p => (g.operators.infixOps.get? p).isSome = true) p w own)
    (h : (group.get? (.infixed .right) p).isSome = true) : rightFound group w = some (own.map Site.index) := by
  rw [← List.append_nil w]
  exact rightFound_append hr hm hs h []

theorem leftFound_of_spelled (hr : g.operators.Separate) (hm : group ∈ g.operators.groups.1) {p : List Text}
    {w : List Site} (hs : Scan.Spelled (fun p => (g.operators.infixOps.get? p).isSome = true) p w own)
    (h : (group.get? (.infixed .left) p).isSome = true) : leftFound group w = some (own.map Site.index) := by
  rw [← List.nil_append w]
  exact leftFound_append hr hm hs h []

/-- An operator that is found between the tokens of the one that the sites spell is enclosed by it. -/
theorem isEnclosed_of_spelled (hr : g.operators.Unmixed) (h : Spells g l o own) {u v x own' : List Site} {p : List Text}
    (hsites : Site.ofTokens g.operators l.tokens = u ++ v ++ x) (hu : u ≠ []) (hx : x ≠ [])
    (hv : Scan.Spelled (fun p => (g.operators.infixOps.get? p).isSome = true) p v own')
    (hux : Scan.Spelled (fun p => (g.operators.infixOps.get? p).isSome = true) o.tokens (u ++ x) own)
    (hsame : ∀ group ∈ same, group ∈ g.operators.groups.1) (hgs : ∀ group ∈ gs, group ∈ g.operators.groups.1)
    (hholds : (∃ group ∈ gs, group.Holds o) ∨ ∃ group ∈ same, group.Holds o ∧ o.fixity = .infixed .left) :
    g.isEnclosed l.tokens (Mark.ofTokens g.operators l.tokens) (own'.map Site.index) same gs = true := by
  obtain ⟨s, e, hs, he, hpoints⟩ := pointsAt hsites hv
  have hsome {group : Group α} {a : Associativity} (hg : group.Holds o) (hf : o.fixity = .infixed a) :
      (group.get? (.infixed a) o.tokens).isSome = true := by
    rw [Group.Holds, hf] at hg
    rw [hg]
    rfl
  have hencloses := encloses_of_ends hsites hs he hu hx hux.head?_eq hux.getLast?_eq
  rw [isEnclosed_eq hr.toDisjoint h.balanced hpoints (fun group hm => hr.sound (hsame group hm))
    fun group hm => hr.sound (hgs group hm)]
  rcases hholds with ⟨group, hm, hg⟩ | ⟨group, hm, hg, hf⟩
  · refine Bool.or_eq_true_iff.2 (Or.inr (List.any_eq_true.2 ⟨group, hm, Bool.or_eq_true_iff.2 ?_⟩))
    obtain ⟨a, hf⟩ := h.infixed
    cases a with
    | right =>
      refine Or.inl ?_
      rw [rightFound_of_spelled hr.toSeparate (hgs group hm) hux (hsome hg hf)]
      exact hencloses
    | left =>
      refine Or.inr ?_
      rw [leftFound_of_spelled hr.toSeparate (hgs group hm) hux (hsome hg hf)]
      exact hencloses
  · refine Bool.or_eq_true_iff.2 (Or.inl ?_)
    have hleft := leftFound_of_spelled hr.toSeparate (hsame group hm) hux (hsome hg hf)
    cases hm
    rw [Option.any_some, hleft]
    exact hencloses

/-- The operator that the sites spell is in no other. -/
theorem isEnclosed_root (hr : g.operators.Unmixed) (h : Spells g l o own)
    (hsame : ∀ group ∈ same, group ∈ g.operators.groups.1) (hgs : ∀ group ∈ gs, group ∈ g.operators.groups.1) :
    g.isEnclosed l.tokens (Mark.ofTokens g.operators l.tokens) (own.map Site.index) same gs = false := by
  obtain ⟨s, e, -, -, hpoints⟩ :=
    pointsAt (l := l) (u := []) (x := []) (v := Site.ofTokens g.operators l.tokens) (by simp) h.spelled
  exact isEnclosed_eq_false hr.toDisjoint h.balanced hpoints (fun group hm => hr.sound (hsame group hm))
    fun group hm => hr.sound (hgs group hm)

/-- A group that does not hold the operator as a right-associative one has no right-associative root, if a tighter group
holds it or the group itself does as a left-associative one. -/
theorem readRight?_eq_none (hr : g.operators.Unmixed) (h : Spells g l o own) (hm : group ∈ g.operators.groups.1)
    (hgs : ∀ group ∈ gs, group ∈ g.operators.groups.1) (hnone : group.get? (.infixed .right) o.tokens = none)
    (hholds : (∃ group ∈ gs, group.Holds o) ∨ (group.Holds o ∧ o.fixity = .infixed .left)) :
    g.readRight? l (Mark.ofTokens g.operators l.tokens) group gs = none := by
  rw [readRight?, scanRight_ofTokens (hr.sound hm), sitesFound]
  rcases @Scan.seek_spelled_or _ _ _ (hr.holdsOnly_right hm) [] _ _ _ h.spelled (h.isSome hr.toSeparate) hnone [] with
    hseek | ⟨u, p, v, own', x, f, hsites, hu, hx, hv, hp, hux, hseek, rfl⟩
  · rw [List.append_nil, Scan.seek_nil] at hseek
    rw [hseek]
    rfl
  · rw [List.append_nil] at hseek
    have henclosed := @isEnclosed_of_spelled _ g l gs (some group) _ _ hr h _ _ _ _ _ hsites hu hx hv hux
      (fun group' hm' => by cases hm'; exact hm) hgs (hholds.imp id fun hg => ⟨group, rfl, hg⟩)
    rw [hseek]
    simp only [Option.map_some, Option.bind_some, bind, henclosed, if_true]

theorem readLeft?_eq_none (hr : g.operators.Unmixed) (h : Spells g l o own) (hm : group ∈ g.operators.groups.1)
    (hgs : ∀ group ∈ gs, group ∈ g.operators.groups.1) (hnone : group.get? (.infixed .left) o.tokens = none)
    (hholds : ∃ group ∈ gs, group.Holds o) :
    g.readLeft? l (Mark.ofTokens g.operators l.tokens) group gs = none := by
  have hreversed : group.leftReversed.get? ([] ++ o.tokens.reverse) = none := by
    rw [List.nil_append, (hr.sound hm).reversed, List.reverse_reverse]
    exact hnone
  rw [readLeft?, scanLeft_ofTokens (hr.sound hm) h.balanced, sitesFound]
  rcases @Scan.seek_spelled_or _ _ _ (hr.holdsOnly_left hm) [] _ _ _ (Scan.Spelled.reverse h.spelled)
      (by rw [List.nil_append, List.reverse_reverse]; exact h.isSome hr.toSeparate) hreversed [] with
    hseek | ⟨u, p, v, own', x, f, hsites, hu, hx, hv, hp, hux, hseek, rfl⟩
  · rw [List.append_nil, Scan.seek_nil] at hseek
    rw [hseek]
    rfl
  · rw [List.append_nil] at hseek
    have hsites' : Site.ofTokens g.operators l.tokens = x.reverse ++ v.reverse ++ u.reverse := by
      rw [← List.reverse_reverse (Site.ofTokens g.operators l.tokens), hsites]
      simp
    have hux' := Scan.Spelled.of_reverse (P := fun p => (g.operators.infixOps.get? p).isSome = true) hux
    have hv' := Scan.Spelled.of_reverse (P := fun p => (g.operators.infixOps.get? p).isSome = true) hv
    rw [List.reverse_append, List.reverse_reverse, List.reverse_reverse] at hux'
    have henclosed := @isEnclosed_of_spelled _ g l gs none _ _ hr h _ _ _ _ _ hsites' (by simpa using hx)
      (by simpa using hu) hv' hux' (by simp) hgs (Or.inl hholds)
    rw [hseek]
    simp only [List.map_reverse] at henclosed
    simp only [Option.map_some, Option.bind_some, bind, henclosed, if_true]

/-- The operation of sites that spell an operator, from a trie that holds it. -/
theorem infixOperation?_of_spelled (h : Spells g l o own) {t : Trie Text (Operator α)} (ht : t.get? o.tokens = some o) :
    infixOperation? l t (own.map Site.index) =
      some (.operation (l.positionAt ((own.map Site.index).headD 0)) o (l.cutAt (own.map Site.index))) := by
  rw [infixOperation?, Site.filterMap_fixed? fun s hs => Site.getElem?_of_mem (h.spelled.sublist.subset hs),
    h.spelled.texts, ht]
  rfl

/-- The operator that the sites of a section spell is found in the first group that holds it. -/
theorem readRight?_of_spelled (hr : g.operators.Unmixed) (h : Spells g l o own) (hm : group ∈ g.operators.groups.1)
    (hgs : ∀ group ∈ gs, group ∈ g.operators.groups.1) (hget : group.get? (.infixed .right) o.tokens = some o) :
    g.readRight? l (Mark.ofTokens g.operators l.tokens) group gs =
      some (.operation (l.positionAt ((own.map Site.index).headD 0)) o (l.cutAt (own.map Site.index))) := by
  have hfound := rightFound_of_spelled hr.toSeparate hm h.spelled (by rw [hget]; rfl)
  have hnot := @isEnclosed_root _ g l gs (some group) _ _ hr h (fun group' hm' => by cases hm'; exact hm) hgs
  rw [rightFound] at hfound
  rw [readRight?, scanRight_ofTokens (hr.sound hm), hfound]
  simp only [Option.bind_some, bind, hnot]
  exact infixOperation?_of_spelled h hget

theorem readLeft?_of_spelled (hr : g.operators.Unmixed) (h : Spells g l o own) (hm : group ∈ g.operators.groups.1)
    (hgs : ∀ group ∈ gs, group ∈ g.operators.groups.1) (hget : group.get? (.infixed .left) o.tokens = some o) :
    g.readLeft? l (Mark.ofTokens g.operators l.tokens) group gs =
      some (.operation (l.positionAt ((own.map Site.index).headD 0)) o (l.cutAt (own.map Site.index))) := by
  have hfound := leftFound_of_spelled hr.toSeparate hm h.spelled (by rw [hget]; rfl)
  have hnot := @isEnclosed_root _ g l gs none _ _ hr h (by simp) hgs
  rw [leftFound] at hfound
  rw [readLeft?, scanLeft_ofTokens (hr.sound hm) h.balanced, hfound]
  simp only [Option.bind_some, bind, hnot]
  exact infixOperation?_of_spelled h hget

/-- The operator that the sites of a section spell is its root. -/
theorem readOperation?_of_spelled (hr : g.operators.Unmixed) (h : Spells g l o own) :
    g.readOperation? l (Mark.ofTokens g.operators l.tokens) g.operators.groups.1 =
      some (.operation (l.positionAt ((own.map Site.index).headD 0)) o (l.cutAt (own.map Site.index))) := by
  obtain ⟨pre, group, post, hgroups, hholds, hpre⟩ := hr.exists_first_holds h.mem
  have hmem (group' : Group α) (hm : group' ∈ pre ++ group :: post) : group' ∈ g.operators.groups.1 := by
    rw [hgroups]
    exact hm
  rw [hgroups]
  clear hgroups
  induction pre with
  | nil =>
    have hm := hmem group List.mem_cons_self
    have hpost (group' : Group α) (hm' : group' ∈ post) := hmem group' (List.mem_cons_of_mem _ hm')
    obtain ⟨a, hf⟩ := h.infixed
    have hget := hholds
    rw [Group.Holds, hf] at hget
    rw [List.nil_append, readOperation?]
    cases a with
    | right =>
      rw [readRight?_of_spelled hr h hm hpost hget]
      rfl
    | left =>
      have hright := readRight?_eq_none hr h hm hpost (hr.get?_eq_none_of_ne h.mem hf hm (by simp))
        (Or.inr ⟨hholds, hf⟩)
      rw [hright, readLeft?_of_spelled hr h hm hpost hget]
      rfl
  | cons group' pre ih =>
    have hm := hmem group' List.mem_cons_self
    have hrest (group'' : Group α) (hm' : group'' ∈ pre ++ group :: post) := hmem group'' (List.mem_cons_of_mem _ hm')
    have hheld : ∃ group'' ∈ pre ++ group :: post, group''.Holds o :=
      ⟨group, List.mem_append_right _ List.mem_cons_self, hholds⟩
    have hnone := hr.get?_eq_none_of_not_holds h.mem h.infixed hm (hpre group' List.mem_cons_self)
    rw [List.cons_append, readOperation?, readRight?_eq_none hr h hm hrest (hnone .right) (Or.inl hheld),
      readLeft?_eq_none hr h hm hrest (hnone .left) hheld, readPrefix?_of_head hr.toSeparate hm h.starts,
      readPostfix?_of_last hr.toSeparate hm h.ends]
    exact ih (fun group'' hm' => hpre group'' (List.mem_cons_of_mem _ hm')) hrest

end Grammar

end Mixfix
