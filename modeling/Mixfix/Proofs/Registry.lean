import Mathlib.Data.List.Basic
import Mixfix.Operator.Registry

/-!
# Registries that registrations make

A registry that starts empty and grows by registrations (`Registry.Reachable`) is well-formed (`Registry.WellFormed`,
`Registry.Reachable.wellFormed`): each operator is filed under its own tokens, which are registered, and groups that are
kept are those of the operators. So no two operators of a well-formed registry have one fixity and the same tokens
(`Registry.WellFormed.eq_of_tokens`).
-/

namespace Mixfix

/-! ## Tables with distinct keys -/

namespace Table

variable {κ α : Type} [BEq κ] [LawfulBEq κ]

theorem mem_keys_insertEntry {k k' : κ} {v : α} {es : List (κ × α)} :
    k' ∈ (insertEntry k v es).map Prod.fst ↔ k' = k ∨ k' ∈ es.map Prod.fst := by
  induction es with
  | nil => simp [insertEntry]
  | cons e es ih =>
    rw [insertEntry]
    split
    · next h => cases eq_of_beq h; simp
    · simp only [List.map_cons, List.mem_cons, ih]
      tauto

theorem nodup_keys_insertEntry (k : κ) (v : α) {es : List (κ × α)} (h : (es.map Prod.fst).Nodup) :
    ((insertEntry k v es).map Prod.fst).Nodup := by
  induction es with
  | nil => simp [insertEntry]
  | cons e es ih =>
    rw [List.map_cons, List.nodup_cons] at h
    rw [insertEntry]
    split
    · rw [List.map_cons, List.nodup_cons]
      exact h
    · next hk =>
      rw [List.map_cons, List.nodup_cons, mem_keys_insertEntry]
      refine ⟨fun hmem => ?_, ih h.2⟩
      rcases hmem with rfl | hmem
      · exact hk (beq_self_eq_true _)
      · exact h.1 hmem

/-- A binding repeats no key. -/
theorem nodup_keys_insert {t : Table κ α} (h : t.keys.Nodup) (k : κ) (v : α) : (t.insert k v).keys.Nodup :=
  nodup_keys_insertEntry k v h

theorem lookup_eq_some_iff {es : List (κ × α)} (h : (es.map Prod.fst).Nodup) {k : κ} {v : α} :
    es.lookup k = some v ↔ (k, v) ∈ es := by
  induction es with
  | nil => simp
  | cons e es ih =>
    obtain ⟨k₀, v₀⟩ := e
    rw [List.map_cons, List.nodup_cons] at h
    by_cases hk : k = k₀
    · subst hk
      have hno : (k, v) ∉ es := fun hm => h.1 (List.mem_map.2 ⟨(k, v), hm, rfl⟩)
      simp [hno, eq_comm]
    · rw [List.lookup_cons, beq_false_of_ne hk, ih h.2, List.mem_cons]
      simp [hk]

/-- With distinct keys, the values are what the keys are bound to. -/
theorem mem_values_iff {t : Table κ α} (h : t.keys.Nodup) {v : α} : v ∈ t.values ↔ ∃ k, t.get? k = some v := by
  simp only [values, List.mem_map, Prod.exists, get?, lookup_eq_some_iff h]
  constructor
  · rintro ⟨k, v', hm, rfl⟩
    exact ⟨k, hm⟩
  · rintro ⟨k, hm⟩
    exact ⟨k, v, hm, rfl⟩

end Table

/-! ## Operators -/

namespace Operator

variable {α : Type}

/-- The operator has a token, and just one if it stands before or behind its operand. -/
structure Formed (o : Operator α) : Prop where
  tokens_ne : o.tokens ≠ []
  single : (∀ a, o.fixity ≠ .infixed a) → o.tokens = [o.token]

/-- An operator with tokens is refused only if it has no place. -/
theorem Formed.refusal?_eq_none {o : Operator α} (h : o.Formed) (hp : o.fixity ≠ .unplaced) : o.refusal? = none := by
  have hne := h.tokens_ne
  rw [refusal?]
  split <;> simp_all

theorem refusal?_eq_unplaced_iff {o : Operator α} : o.refusal? = some .unplaced ↔ o.fixity = .unplaced := by
  rw [refusal?]
  split <;> simp_all

theorem fixity_ne_of_refusal? {o : Operator α} (h : o.refusal? = none) : o.fixity ≠ .unplaced := by
  intro hf
  rw [refusal?_eq_unplaced_iff.2 hf] at h
  cases h

end Operator

/-! ## Well-formed registries -/

namespace Registry

variable {α : Type} {r : Registry α} {o : Operator α}

/-- Operators are filed under their own tokens. -/
structure Filed (r : Registry α) : Prop where
  nodup_prefix : r.prefixOps.keys.Nodup
  nodup_postfix : r.postfixOps.keys.Nodup
  nodup_infix : r.infixOps.keys.Nodup
  prefix_eq : ∀ t o, r.prefixOps.get? t = some o → o.fixity = .prefixed ∧ o.tokens = [t]
  postfix_eq : ∀ t o, r.postfixOps.get? t = some o → o.fixity = .postfixed ∧ o.tokens = [t]
  infix_eq : ∀ ts o, r.infixOps.get? ts = some o → (∃ a, o.fixity = .infixed a) ∧ o.tokens = ts ∧ ts ≠ []

/-- Operators are filed under their own tokens, which are registered, and groups that are kept are up to date. -/
structure WellFormed (r : Registry α) : Prop extends Filed r where
  known : ∀ o ∈ r.operators, ∀ t ∈ o.tokens, t ∈ r.tokens
  not_builtin : ∀ t ∈ r.operatorTokens, t ∉ Token.builtinTexts
  kept : ∀ gs, r.cached = some gs → gs = r.priorityGroups

namespace Filed

theorem mem_operators (h : r.Filed) :
    o ∈ r.operators ↔ (∃ t, r.prefixOps.get? t = some o) ∨ (∃ t, r.postfixOps.get? t = some o) ∨
      ∃ ts, r.infixOps.get? ts = some o := by
  simp only [operators, List.mem_append, Table.mem_values_iff h.nodup_prefix, Table.mem_values_iff h.nodup_postfix,
    Table.mem_values_iff h.nodup_infix]
  tauto

theorem mem_of_prefix (h : r.Filed) {t : Text} (hg : r.prefixOps.get? t = some o) : o ∈ r.operators :=
  h.mem_operators.2 (Or.inl ⟨t, hg⟩)

theorem mem_of_postfix (h : r.Filed) {t : Text} (hg : r.postfixOps.get? t = some o) : o ∈ r.operators :=
  h.mem_operators.2 (Or.inr (Or.inl ⟨t, hg⟩))

theorem mem_of_infix (h : r.Filed) {ts : List Text} (hg : r.infixOps.get? ts = some o) : o ∈ r.operators :=
  h.mem_operators.2 (Or.inr (Or.inr ⟨ts, hg⟩))

/-- A prefix operator is what its token is bound to. -/
theorem get?_prefix (h : r.Filed) (ho : o ∈ r.operators) (hf : o.fixity = .prefixed) :
    r.prefixOps.get? o.token = some o := by
  rcases h.mem_operators.1 ho with ⟨t, ht⟩ | ⟨t, ht⟩ | ⟨ts, ht⟩
  · rw [Operator.token, (h.prefix_eq t o ht).2]
    exact ht
  · rw [(h.postfix_eq t o ht).1] at hf
    cases hf
  · obtain ⟨a, ha⟩ := (h.infix_eq ts o ht).1
    rw [ha] at hf
    cases hf

/-- A postfix operator is what its token is bound to. -/
theorem get?_postfix (h : r.Filed) (ho : o ∈ r.operators) (hf : o.fixity = .postfixed) :
    r.postfixOps.get? o.token = some o := by
  rcases h.mem_operators.1 ho with ⟨t, ht⟩ | ⟨t, ht⟩ | ⟨ts, ht⟩
  · rw [(h.prefix_eq t o ht).1] at hf
    cases hf
  · rw [Operator.token, (h.postfix_eq t o ht).2]
    exact ht
  · obtain ⟨a, ha⟩ := (h.infix_eq ts o ht).1
    rw [ha] at hf
    cases hf

/-- An infix operator is what its tokens are bound to. -/
theorem get?_infix (h : r.Filed) (ho : o ∈ r.operators) {a : Associativity} (hf : o.fixity = .infixed a) :
    r.infixOps.get? o.tokens = some o := by
  rcases h.mem_operators.1 ho with ⟨t, ht⟩ | ⟨t, ht⟩ | ⟨ts, ht⟩
  · rw [(h.prefix_eq t o ht).1] at hf
    cases hf
  · rw [(h.postfix_eq t o ht).1] at hf
    cases hf
  · rw [(h.infix_eq ts o ht).2.1]
    exact ht

theorem placed (h : r.Filed) (ho : o ∈ r.operators) : o.fixity ≠ .unplaced := by
  rcases h.mem_operators.1 ho with ⟨t, ht⟩ | ⟨t, ht⟩ | ⟨ts, ht⟩
  · simp [(h.prefix_eq t o ht).1]
  · simp [(h.postfix_eq t o ht).1]
  · obtain ⟨a, ha⟩ := (h.infix_eq ts o ht).1
    simp [ha]

theorem formed (h : r.Filed) (ho : o ∈ r.operators) : o.Formed := by
  rcases h.mem_operators.1 ho with ⟨t, ht⟩ | ⟨t, ht⟩ | ⟨ts, ht⟩
  · obtain ⟨-, he⟩ := h.prefix_eq t o ht
    exact ⟨by simp [he], fun _ => by simp [Operator.token, he]⟩
  · obtain ⟨-, he⟩ := h.postfix_eq t o ht
    exact ⟨by simp [he], fun _ => by simp [Operator.token, he]⟩
  · obtain ⟨⟨a, ha⟩, he, hne⟩ := h.infix_eq ts o ht
    exact ⟨by rw [he]; exact hne, fun hno => absurd ha (hno a)⟩

/-- No two operators have one fixity and the same tokens. -/
theorem eq_of_tokens (h : r.Filed) {o' : Operator α} (ho : o ∈ r.operators) (ho' : o' ∈ r.operators)
    (hf : o.fixity = o'.fixity) (ht : o.tokens = o'.tokens) : o = o' := by
  have htoken : o.token = o'.token := by rw [Operator.token, Operator.token, ht]
  refine Option.some.inj ?_
  match hfix : o.fixity with
  | .prefixed => rw [← h.get?_prefix ho hfix, htoken, h.get?_prefix ho' (hf ▸ hfix)]
  | .postfixed => rw [← h.get?_postfix ho hfix, htoken, h.get?_postfix ho' (hf ▸ hfix)]
  | .infixed a => rw [← h.get?_infix ho hfix, ht, h.get?_infix ho' (hf ▸ hfix)]
  | .unplaced => exact absurd hfix (h.placed ho)

end Filed

/-! ## Registrations -/

theorem mem_tokens_addToken {t t' : Text} : t' ∈ (r.addToken t).tokens ↔ t' = t ∨ t' ∈ r.tokens := by
  rw [addToken]
  split
  · next h =>
    constructor
    · exact Or.inr
    · rintro (rfl | hm)
      · simpa using h
      · exact hm
  · simp only [tokens, List.mem_append, List.mem_singleton]
    tauto

/-- Registering a token changes nothing but the tokens. -/
theorem addToken_eq (t : Text) : ∃ ts, r.addToken t = { r with operatorTokens := ts } := by
  rw [addToken]
  split
  · exact ⟨r.operatorTokens, rfl⟩
  · exact ⟨_, rfl⟩

theorem addTokens_eq (ts : List Text) : ∃ us, ts.foldl addToken r = { r with operatorTokens := us } := by
  induction ts generalizing r with
  | nil => exact ⟨r.operatorTokens, rfl⟩
  | cons t ts ih =>
    obtain ⟨us, hus⟩ := addToken_eq (r := r) t
    obtain ⟨us', hus'⟩ := ih (r := r.addToken t)
    exact ⟨us', by rw [List.foldl_cons, hus', hus]⟩

theorem mem_tokens_addTokens {t : Text} {ts : List Text} :
    t ∈ (ts.foldl Registry.addToken r).tokens ↔ t ∈ ts ∨ t ∈ r.tokens := by
  induction ts generalizing r with
  | nil => simp
  | cons t' ts ih =>
    rw [List.foldl_cons, ih, mem_tokens_addToken, List.mem_cons]
    tauto

theorem not_builtin_addTokens (h : ∀ t ∈ r.operatorTokens, t ∉ Token.builtinTexts) (ts : List Text) :
    ∀ t ∈ (ts.foldl addToken r).operatorTokens, t ∉ Token.builtinTexts := by
  induction ts generalizing r with
  | nil => exact h
  | cons t ts ih =>
    refine ih fun t' ht' hb => ?_
    rw [addToken] at ht'
    split at ht'
    · exact h t' ht' hb
    · next hno =>
      rcases List.mem_append.1 ht' with ht' | ht'
      · exact h t' ht' hb
      · rw [List.mem_singleton.1 ht'] at hb
        exact hno (by simpa [tokens] using Or.inl hb)

/-! ### Filing operators -/

/-- An operator that is refused is not registered, and only the groups are dropped. -/
theorem add_of_refusal? {e : Refusal} (h : o.refusal? = some e) : r.add o = (.error e, r.dropGroups) := by
  rw [add, file, h]

theorem add_of_not_refused (h : o.refusal? = none) :
    r.add o = (.ok (), o.tokens.foldl addToken (r.dropGroups.put o)) := by
  rw [add, file, h]

/-- An operator that is put into a registry binds its tokens and no others. -/
theorem Filed.put (h : r.Filed) (ho : o.Formed) : (r.put o).Filed := by
  rw [Registry.put]
  split
  · next hf =>
    refine ⟨Table.nodup_keys_insert h.nodup_prefix _ _, h.nodup_postfix, h.nodup_infix, fun t o' hg => ?_, h.postfix_eq,
      h.infix_eq⟩
    rcases Table.eq_or_of_get?_insert hg with ⟨rfl, rfl⟩ | hg
    · exact ⟨hf, ho.single fun a => by rw [hf]; exact Fixity.noConfusion⟩
    · exact h.prefix_eq t o' hg
  · next hf =>
    refine ⟨h.nodup_prefix, Table.nodup_keys_insert h.nodup_postfix _ _, h.nodup_infix, h.prefix_eq, fun t o' hg => ?_,
      h.infix_eq⟩
    rcases Table.eq_or_of_get?_insert hg with ⟨rfl, rfl⟩ | hg
    · exact ⟨hf, ho.single fun a => by rw [hf]; exact Fixity.noConfusion⟩
    · exact h.postfix_eq t o' hg
  · next a hf =>
    refine ⟨h.nodup_prefix, h.nodup_postfix, Table.nodup_keys_insert h.nodup_infix _ _, h.prefix_eq, h.postfix_eq,
      fun ts o' hg => ?_⟩
    rcases Table.eq_or_of_get?_insert hg with ⟨rfl, rfl⟩ | hg
    · exact ⟨⟨a, hf⟩, rfl, ho.tokens_ne⟩
    · exact h.infix_eq ts o' hg
  · exact h

/-- A registry has the operators that it had before, and the one that is put into it. -/
theorem mem_operators_put (h : r.Filed) (ho : o.Formed) {o' : Operator α} (ho' : o' ∈ (r.put o).operators) :
    o' = o ∨ o' ∈ r.operators := by
  rw [(h.put ho).mem_operators, put] at ho'
  split at ho'
  · rcases ho' with ⟨t, ht⟩ | ⟨t, ht⟩ | ⟨ts, ht⟩
    · exact (Table.eq_or_of_get?_insert ht).imp And.right h.mem_of_prefix
    · exact Or.inr (h.mem_of_postfix ht)
    · exact Or.inr (h.mem_of_infix ht)
  · rcases ho' with ⟨t, ht⟩ | ⟨t, ht⟩ | ⟨ts, ht⟩
    · exact Or.inr (h.mem_of_prefix ht)
    · exact (Table.eq_or_of_get?_insert ht).imp And.right h.mem_of_postfix
    · exact Or.inr (h.mem_of_infix ht)
  · rcases ho' with ⟨t, ht⟩ | ⟨t, ht⟩ | ⟨ts, ht⟩
    · exact Or.inr (h.mem_of_prefix ht)
    · exact Or.inr (h.mem_of_postfix ht)
    · exact (Table.eq_or_of_get?_insert ht).imp And.right h.mem_of_infix
  · exact Or.inr (h.mem_operators.2 ho')

theorem cached_put : (r.put o).cached = r.cached := by
  rw [put]
  split <;> rfl

theorem operatorTokens_put : (r.put o).operatorTokens = r.operatorTokens := by
  rw [put]
  split <;> rfl

theorem wellFormed_empty : (empty : Registry α).WellFormed where
  nodup_prefix := List.nodup_nil
  nodup_postfix := List.nodup_nil
  nodup_infix := List.nodup_nil
  prefix_eq _ _ h := by cases h
  postfix_eq _ _ h := by cases h
  infix_eq _ _ h := by cases h
  known _ h := by cases h
  not_builtin _ h := by cases h
  kept _ h := by cases h

/-- Registering tokens completes a registry in which they were missing. -/
theorem Filed.addTokens (h : r.Filed) {ts : List Text}
    (hknown : ∀ o ∈ r.operators, ∀ t ∈ o.tokens, t ∈ ts ∨ t ∈ r.tokens)
    (hb : ∀ t ∈ r.operatorTokens, t ∉ Token.builtinTexts) (hkept : ∀ gs, r.cached = some gs → gs = r.priorityGroups) :
    (ts.foldl addToken r).WellFormed := by
  have hbuiltin := not_builtin_addTokens hb ts
  have hmem (t : Text) : t ∈ (ts.foldl addToken r).tokens ↔ t ∈ ts ∨ t ∈ r.tokens := mem_tokens_addTokens
  obtain ⟨us, hus⟩ := addTokens_eq (r := r) ts
  rw [hus] at hbuiltin hmem ⊢
  exact ⟨⟨h.nodup_prefix, h.nodup_postfix, h.nodup_infix, h.prefix_eq, h.postfix_eq, h.infix_eq⟩,
    fun o ho t ht => (hmem t).2 (hknown o ho t ht), hbuiltin, hkept⟩

theorem WellFormed.addToken (h : r.WellFormed) (t : Text) : (r.addToken t).WellFormed :=
  @Filed.addTokens _ _ h.toFiled [t] (fun o ho t' ht' => Or.inr (h.known o ho t' ht')) h.not_builtin h.kept

/-- Registering an operator, or refusing it, keeps a registry well-formed. -/
theorem WellFormed.add (h : r.WellFormed) (ho : o.Formed) : (r.add o).2.WellFormed := by
  have hdrop : r.dropGroups.Filed :=
    ⟨h.nodup_prefix, h.nodup_postfix, h.nodup_infix, h.prefix_eq, h.postfix_eq, h.infix_eq⟩
  cases hrefusal : o.refusal? with
  | some e =>
    rw [add_of_refusal? hrefusal]
    exact ⟨hdrop, h.known, h.not_builtin, fun _ hgs => by cases hgs⟩
  | none =>
    rw [add_of_not_refused hrefusal]
    refine (hdrop.put ho).addTokens (fun o' ho' t ht => ?_) ?_ fun gs hgs => by rw [cached_put] at hgs; cases hgs
    · rcases mem_operators_put hdrop ho ho' with rfl | ho'
      · exact Or.inl ht
      · rw [tokens, operatorTokens_put]
        exact Or.inr (h.known o' ho' t ht)
    · rw [operatorTokens_put]
      exact h.not_builtin

/-! ### Groups that are kept -/

theorem tokens_eq_of_dropGroups {r' : Registry α} (h : r.dropGroups = r'.dropGroups) : r.tokens = r'.tokens := by
  show r.dropGroups.tokens = r'.dropGroups.tokens
  rw [h]

theorem operators_eq_of_dropGroups {r' : Registry α} (h : r.dropGroups = r'.dropGroups) :
    r.operators = r'.operators := by
  show r.dropGroups.operators = r'.dropGroups.operators
  rw [h]

/-- Keeping the groups changes nothing else. -/
theorem dropGroups_groups : r.groups.2.dropGroups = r.dropGroups := by
  rw [groups]
  split <;> rfl

/-- Keeping the groups keeps a registry well-formed. -/
theorem WellFormed.groups (h : r.WellFormed) : r.groups.2.WellFormed := by
  rw [Registry.groups]
  split
  · exact h
  · refine ⟨⟨h.nodup_prefix, h.nodup_postfix, h.nodup_infix, h.prefix_eq, h.postfix_eq, h.infix_eq⟩, h.known,
      h.not_builtin, fun gs hgs => ?_⟩
    cases hgs
    rfl

/-- The groups of a well-formed registry are those of its operators. -/
theorem WellFormed.groups_eq (h : r.WellFormed) : r.groups.1 = r.priorityGroups := by
  rw [Registry.groups]
  split
  · next gs hgs => exact h.kept gs hgs
  · rfl

/-- A registry that starts empty and grows by registrations. -/
inductive Reachable : Registry α → Prop
  | empty : Reachable empty
  | addToken {r : Registry α} (t : Text) : Reachable r → Reachable (r.addToken t)
  | add {r : Registry α} {o : Operator α} : o.Formed → Reachable r → Reachable (r.add o).2
  | groups {r : Registry α} : Reachable r → Reachable r.groups.2

/-- Registrations make registries that are well-formed. -/
theorem Reachable.wellFormed (h : r.Reachable) : r.WellFormed := by
  induction h with
  | empty => exact wellFormed_empty
  | addToken t _ ih => exact ih.addToken t
  | add ho _ ih => exact ih.add ho
  | groups _ ih => exact ih.groups

/-! ## Tokens of operators -/

/-- No operator has a bracket or the separator among its tokens. -/
def AvoidsBuiltins (r : Registry α) : Prop := ∀ o ∈ r.operators, ∀ t ∈ o.tokens, t ∉ Token.builtinTexts

theorem isOperatorToken_fixed {t : Text} : r.isOperatorToken (.fixed t) = true ↔ t ∈ r.operatorTokens := by
  simp [isOperatorToken, Token.isFixed]

namespace WellFormed

variable {t : Text}

theorem isOperatorToken_builtin (h : r.WellFormed) (ht : t ∈ Token.builtinTexts) :
    r.isOperatorToken (.fixed t) = false := by
  rw [Bool.eq_false_iff, Ne, isOperatorToken_fixed]
  exact fun hm => h.not_builtin t hm ht

theorem mem_tokens (h : r.isOperatorToken (.fixed t) = true) : t ∈ r.tokens :=
  List.mem_append_right _ (isOperatorToken_fixed.1 h)

/-- The tokens of operators are operator tokens. -/
theorem isOperatorToken (h : r.WellFormed) (hb : r.AvoidsBuiltins) (ho : o ∈ r.operators) (ht : t ∈ o.tokens) :
    r.isOperatorToken (.fixed t) = true := by
  rw [isOperatorToken_fixed]
  exact (List.mem_append.1 (h.known o ho t ht)).resolve_left (hb o ho t ht)

theorem isPrefixToken_iff (h : r.WellFormed) : r.isPrefixToken (.fixed t) = true ↔
    ∃ o ∈ r.operators, o.fixity = .prefixed ∧ o.tokens = [t] := by
  rw [isPrefixToken, Token.isFixed, Table.contains, Option.isSome_iff_exists]
  constructor
  · rintro ⟨o, ho⟩
    exact ⟨o, h.mem_of_prefix ho, h.prefix_eq t o ho⟩
  · rintro ⟨o, ho, hf, ht⟩
    have := h.get?_prefix ho hf
    rw [Operator.token, ht] at this
    exact ⟨o, this⟩

theorem isPostfixToken_iff (h : r.WellFormed) : r.isPostfixToken (.fixed t) = true ↔
    ∃ o ∈ r.operators, o.fixity = .postfixed ∧ o.tokens = [t] := by
  rw [isPostfixToken, Token.isFixed, Table.contains, Option.isSome_iff_exists]
  constructor
  · rintro ⟨o, ho⟩
    exact ⟨o, h.mem_of_postfix ho, h.postfix_eq t o ho⟩
  · rintro ⟨o, ho, hf, ht⟩
    have := h.get?_postfix ho hf
    rw [Operator.token, ht] at this
    exact ⟨o, this⟩

theorem isInfixToken_iff (h : r.WellFormed) : r.isInfixToken (.fixed t) = true ↔
    ∃ o ∈ r.operators, (∃ a, o.fixity = .infixed a) ∧ t ∈ o.tokens := by
  simp only [isInfixToken, Token.isFixed, List.any_eq_true, List.contains_iff_mem]
  constructor
  · rintro ⟨e, he, ht⟩
    have hg : r.infixOps.get? e.1 = some e.2 := (Table.lookup_eq_some_iff h.nodup_infix).2 he
    obtain ⟨hf, htokens, -⟩ := h.infix_eq _ _ hg
    exact ⟨e.2, h.mem_of_infix hg, hf, by rw [htokens]; exact ht⟩
  · rintro ⟨o, ho, ⟨a, hf⟩, ht⟩
    exact ⟨(o.tokens, o), (Table.lookup_eq_some_iff h.nodup_infix).1 (h.get?_infix ho hf), ht⟩

/-- What an infix token is, an operator token apart from brackets and separators. -/
theorem isOperatorToken_of_infix (h : r.WellFormed) (hb : r.AvoidsBuiltins) (ht : r.isInfixToken (.fixed t) = true) :
    r.isOperatorToken (.fixed t) = true ∧ t ∉ Token.builtinTexts := by
  obtain ⟨o, ho, -, hmem⟩ := h.isInfixToken_iff.1 ht
  exact ⟨h.isOperatorToken hb ho hmem, hb o ho t hmem⟩

end WellFormed

/-! ## Registering many operators -/

/-- The operators have the same tokens and stand in the same place, so a registry keeps one of them. -/
def Rivals (o o' : Operator α) : Prop :=
  o.tokens = o'.tokens ∧ (o.fixity = o'.fixity ∨ (∃ a, o.fixity = .infixed a) ∧ ∃ a, o'.fixity = .infixed a)

theorem Rivals.refl (o : Operator α) : Rivals o o := ⟨rfl, Or.inl rfl⟩

theorem Rivals.trans {o₁ o₂ o₃ : Operator α} (h : Rivals o₁ o₂) (h' : Rivals o₂ o₃) : Rivals o₁ o₃ := by
  obtain ⟨ht, hf⟩ := h
  obtain ⟨ht', hf'⟩ := h'
  refine ⟨ht.trans ht', ?_⟩
  rcases hf with hf | ⟨hf, ⟨a, ha⟩⟩
  · rw [hf]
    exact hf'
  · rcases hf' with hf' | ⟨-, hf'⟩
    · exact Or.inr ⟨hf, a, hf' ▸ ha⟩
    · exact Or.inr ⟨hf, hf'⟩

/-- A registry keeps the operator that is put into it, and of the others those that are no rivals of it. -/
theorem Filed.put_mem (h : r.Filed) (ho : o.Formed) (hp : o.fixity ≠ .unplaced) :
    o ∈ (r.put o).operators ∧ ∀ o' ∈ r.operators, o' ∈ (r.put o).operators ∨ Rivals o' o := by
  have hfiled := h.put ho
  rw [Registry.put] at hfiled ⊢
  split at hfiled
  · next hf =>
    refine ⟨hfiled.mem_of_prefix (t := o.token) (by simp [Table.get?_insert]), fun o' ho' => ?_⟩
    rcases h.mem_operators.1 ho' with ⟨t, ht⟩ | ⟨t, ht⟩ | ⟨ts, ht⟩
    · by_cases heq : t = o.token
      · obtain ⟨hf', ht'⟩ := h.prefix_eq t o' ht
        exact Or.inr ⟨by rw [ht', ho.single (by simp [hf]), heq], Or.inl (hf'.trans hf.symm)⟩
      · exact Or.inl (hfiled.mem_of_prefix (t := t) (by simp [Table.get?_insert, heq, ht]))
    · exact Or.inl (hfiled.mem_of_postfix ht)
    · exact Or.inl (hfiled.mem_of_infix ht)
  · next hf =>
    refine ⟨hfiled.mem_of_postfix (t := o.token) (by simp [Table.get?_insert]), fun o' ho' => ?_⟩
    rcases h.mem_operators.1 ho' with ⟨t, ht⟩ | ⟨t, ht⟩ | ⟨ts, ht⟩
    · exact Or.inl (hfiled.mem_of_prefix ht)
    · by_cases heq : t = o.token
      · obtain ⟨hf', ht'⟩ := h.postfix_eq t o' ht
        exact Or.inr ⟨by rw [ht', ho.single (by simp [hf]), heq], Or.inl (hf'.trans hf.symm)⟩
      · exact Or.inl (hfiled.mem_of_postfix (t := t) (by simp [Table.get?_insert, heq, ht]))
    · exact Or.inl (hfiled.mem_of_infix ht)
  · next a hf =>
    have hself : (r.infixOps.insert o.tokens o).get? o.tokens = some o := by simp [Table.get?_insert]
    refine ⟨hfiled.mem_of_infix hself, fun o' ho' => ?_⟩
    rcases h.mem_operators.1 ho' with ⟨t, ht⟩ | ⟨t, ht⟩ | ⟨ts, ht⟩
    · exact Or.inl (hfiled.mem_of_prefix ht)
    · exact Or.inl (hfiled.mem_of_postfix ht)
    · by_cases heq : ts = o.tokens
      · obtain ⟨hf', ht', -⟩ := h.infix_eq ts o' ht
        exact Or.inr ⟨by rw [ht', heq], Or.inr ⟨hf', a, hf⟩⟩
      · have hold : (r.infixOps.insert o.tokens o).get? ts = some o' := by simp [Table.get?_insert, heq, ht]
        exact Or.inl (hfiled.mem_of_infix hold)
  · next hf => exact absurd hf hp

/-- Registering an operator that is not refused puts it into the registry. -/
theorem operators_add (h : o.refusal? = none) : (r.add o).2.operators = (r.put o).operators := by
  obtain ⟨us, hus⟩ := addTokens_eq (r := r.dropGroups.put o) o.tokens
  rw [add_of_not_refused h, hus, put, put]
  cases o.fixity <;> rfl

namespace WellFormed

variable {o' : Operator α} {os : List (Operator α)}

theorem mem_operators_add (h : r.WellFormed) (ho : o.Formed) (hp : o.fixity ≠ .unplaced)
    (ho' : o' ∈ (r.add o).2.operators) : o' = o ∨ o' ∈ r.operators := by
  rw [operators_add (ho.refusal?_eq_none hp)] at ho'
  exact mem_operators_put h.toFiled ho ho'

theorem add_mem (h : r.WellFormed) (ho : o.Formed) (hp : o.fixity ≠ .unplaced) : o ∈ (r.add o).2.operators ∧
    ∀ o' ∈ r.operators, o' ∈ (r.add o).2.operators ∨ Rivals o' o := by
  rw [operators_add (ho.refusal?_eq_none hp)]
  exact h.put_mem ho hp

/-- Registering operators adds no others. -/
theorem mem_operators_addAll (h : r.WellFormed) (hos : ∀ o ∈ os, o.Formed ∧ o.fixity ≠ .unplaced)
    (ho' : o' ∈ (r.addAll os).operators) : o' ∈ os ∨ o' ∈ r.operators := by
  induction os generalizing r with
  | nil => exact Or.inr ho'
  | cons o os ih =>
    obtain ⟨ho, hp⟩ := hos o List.mem_cons_self
    rcases ih (h.add ho) (fun o' hm => hos o' (List.mem_cons_of_mem _ hm)) ho' with hm | hm
    · exact Or.inl (List.mem_cons_of_mem _ hm)
    · rcases h.mem_operators_add ho hp hm with rfl | hm
      · exact Or.inl List.mem_cons_self
      · exact Or.inr hm

/-- For each operator that is registered the registry has the operator or a rival of it. -/
theorem exists_rival (h : r.WellFormed) (hos : ∀ o ∈ os, o.Formed ∧ o.fixity ≠ .unplaced)
    (ho' : o' ∈ r.operators ∨ o' ∈ os) : ∃ o ∈ (r.addAll os).operators, Rivals o' o := by
  induction os generalizing r o' with
  | nil => exact ⟨o', ho'.resolve_right (by simp), .refl o'⟩
  | cons o os ih =>
    obtain ⟨ho, hp⟩ := hos o List.mem_cons_self
    obtain ⟨hself, hold⟩ := h.add_mem ho hp
    have ih := fun {o'} => @ih _ o' (h.add ho) fun o' hm => hos o' (List.mem_cons_of_mem _ hm)
    rcases ho' with hm | hm
    · rcases hold o' hm with hm | hr
      · exact ih (Or.inl hm)
      · obtain ⟨o'', hm, hr'⟩ := ih (Or.inl hself)
        exact ⟨o'', hm, hr.trans hr'⟩
    · rcases List.mem_cons.1 hm with rfl | hm
      · exact ih (Or.inl hself)
      · exact ih (Or.inr hm)

end WellFormed

theorem mem_tokens_add {t : Text} (ht : t ∈ (r.add o).2.tokens) : t ∈ o.tokens ∨ t ∈ r.tokens := by
  cases hrefusal : o.refusal? with
  | some e =>
    rw [add_of_refusal? hrefusal] at ht
    exact Or.inr ht
  | none =>
    rw [add_of_not_refused hrefusal] at ht
    rcases mem_tokens_addTokens.1 ht with ht | ht
    · exact Or.inl ht
    · rw [tokens, operatorTokens_put] at ht
      exact Or.inr ht

theorem mem_tokens_addAll {t : Text} {os : List (Operator α)} (ht : t ∈ (r.addAll os).tokens) :
    (∃ o ∈ os, t ∈ o.tokens) ∨ t ∈ r.tokens := by
  induction os generalizing r with
  | nil => exact Or.inr ht
  | cons o os ih =>
    rcases ih ht with ⟨o', ho', ht⟩ | ht
    · exact Or.inl ⟨o', List.mem_cons_of_mem _ ho', ht⟩
    · exact (mem_tokens_add ht).imp (fun ht => ⟨o, List.mem_cons_self, ht⟩) id

theorem Reachable.addAll (h : r.Reachable) {os : List (Operator α)} (hos : ∀ o ∈ os, o.Formed) :
    (r.addAll os).Reachable := by
  induction os generalizing r with
  | nil => exact h
  | cons o os ih => exact ih (h.add (hos o List.mem_cons_self)) fun o' ho' => hos o' (List.mem_cons_of_mem _ ho')

end Registry

end Mixfix
