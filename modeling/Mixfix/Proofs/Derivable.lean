import Mixfix.Proofs.Reading

/-!
# Derivable token lists

The grammar of expressions with prefix and postfix operators, infix operators of one token and infix operators of two
(`Derivable`). It is ambiguous, and a token may be that of several operators.

Where no operator of two tokens stands outside of brackets (`Simple`), every site of an infix operator may be taken for
the root: what stands before and behind it is derivable whatever the derivation of the whole was (`Simple.cut`). A
prefix token at the start and a postfix token at the end may be taken away (`Simple.lead`, `Simple.trail`). Otherwise
the first operator of two tokens may be taken for the root (`Derivable.simple_or`).
-/

namespace Mixfix

variable {α : Type}

/-- The tokens are derivable from `E`, for the grammar

`E → number | variable | ( E ) | f ( ) | f ( E , … , E ) | prefix E | E postfix | E infix E | E infix E infix E`. -/
inductive Derivable (g : Grammar α) : List Token → Prop
  | number (t : Text) (v : Float) : Derivable g [.number t v]
  | reference {t : Text} : t.trim ∈ g.vars → Derivable g [.raw t]
  | brackets {m : List Token} : Derivable g m → Derivable g (.fixed Token.openText :: (m ++ [.fixed Token.closeText]))
  | callEmpty {t : Text} : t.trim ∈ g.functions →
      Derivable g [.raw t, .fixed Token.openText, .fixed Token.closeText]
  | call {t : Text} {m : List Token} {ms : List (List Token)} : t.trim ∈ g.functions →
      (∀ m' ∈ m :: ms, Derivable g m') → Derivable g (.raw t :: .fixed Token.openText ::
        (TokenList.joined m (ms.map fun m => (Token.separatorText, m)) ++ [.fixed Token.closeText]))
  | prefixed {t : Text} {u : List Token} : g.operators.isPrefixToken (.fixed t) = true → Derivable g u →
      Derivable g (.fixed t :: u)
  | postfixed {t : Text} {u : List Token} : g.operators.isPostfixToken (.fixed t) = true → Derivable g u →
      Derivable g (u ++ [.fixed t])
  | binary {t : Text} {u v : List Token} : (g.operators.infixOps.get? [t]).isSome = true → Derivable g u →
      Derivable g v → Derivable g (u ++ .fixed t :: v)
  | ternary {s t : Text} {u m v : List Token} : (g.operators.infixOps.get? [s, t]).isSome = true → Derivable g u →
      Derivable g m → Derivable g v → Derivable g (u ++ .fixed s :: (m ++ .fixed t :: v))

/-! ## Registries with operators of one or two tokens -/

namespace Registry

/-- No operator uses a bracket or the separator, and infix operators share no token. -/
structure Separate (r : Registry α) : Prop extends r.WellFormed where
  avoids : r.AvoidsBuiltins
  apart : Scan.Apart fun p => (r.infixOps.get? p).isSome = true

namespace Separate

variable {r : Registry α} {t : Text}

theorem isBuiltin_of_mem (h : r.Separate) {o : Operator α} (ho : o ∈ r.operators) (ht : t ∈ o.tokens) :
    (Token.fixed t).isBuiltin = false :=
  Token.isBuiltin_fixed (h.avoids o ho t ht)

/-- The tokens of infix operators are infix tokens, and no brackets or separators. -/
theorem infix_token (h : r.Separate) {o : Operator α} (ho : o ∈ r.operators) (hf : ∃ a, o.fixity = .infixed a)
    (ht : t ∈ o.tokens) : (Token.fixed t).isBuiltin = false ∧ r.isInfixToken (.fixed t) = true :=
  ⟨h.isBuiltin_of_mem ho ht, h.isInfixToken_iff.2 ⟨o, ho, hf, ht⟩⟩

theorem of_prefix (h : r.Separate) (ht : r.isPrefixToken (.fixed t) = true) :
    (Token.fixed t).isBuiltin = false ∧ r.isOperatorToken (.fixed t) = true := by
  obtain ⟨o, ho, -, htokens⟩ := h.isPrefixToken_iff.1 ht
  have hmem : t ∈ o.tokens := by rw [htokens]; exact List.mem_singleton_self t
  exact ⟨h.isBuiltin_of_mem ho hmem, h.isOperatorToken h.avoids ho hmem⟩

theorem of_postfix (h : r.Separate) (ht : r.isPostfixToken (.fixed t) = true) :
    (Token.fixed t).isBuiltin = false ∧ r.isOperatorToken (.fixed t) = true := by
  obtain ⟨o, ho, -, htokens⟩ := h.isPostfixToken_iff.1 ht
  have hmem : t ∈ o.tokens := by rw [htokens]; exact List.mem_singleton_self t
  exact ⟨h.isBuiltin_of_mem ho hmem, h.isOperatorToken h.avoids ho hmem⟩

theorem of_infix (h : r.Separate) {ts : List Text} (hts : (r.infixOps.get? ts).isSome = true) (ht : t ∈ ts) :
    (Token.fixed t).isBuiltin = false ∧ r.isOperatorToken (.fixed t) = true ∧ r.isInfixToken (.fixed t) = true := by
  obtain ⟨o, ho⟩ := Option.isSome_iff_exists.1 hts
  obtain ⟨hf, htokens, -⟩ := h.infix_eq ts o ho
  have hmem : t ∈ o.tokens := by rw [htokens]; exact ht
  exact ⟨h.isBuiltin_of_mem (h.mem_of_infix ho) hmem, h.isOperatorToken h.avoids (h.mem_of_infix ho) hmem,
    h.isInfixToken_iff.2 ⟨o, h.mem_of_infix ho, hf, hmem⟩⟩

theorem exists_of_infixToken (h : r.Separate) (ht : r.isInfixToken (.fixed t) = true) :
    ∃ ts, (r.infixOps.get? ts).isSome = true ∧ t ∈ ts := by
  obtain ⟨o, ho, ⟨a, hf⟩, hmem⟩ := h.isInfixToken_iff.1 ht
  exact ⟨o.tokens, by rw [h.get?_infix ho hf]; rfl, hmem⟩

end Separate

end Registry

/-! ## Derivable tokens are operands -/

theorem balanced_joined {m : List Token} {rest : List (Text × List Token)} (hm : Balanced m)
    (hrest : ∀ p ∈ rest, (Token.fixed p.1).isPlain = true ∧ Balanced p.2) : Balanced (TokenList.joined m rest) := by
  induction rest generalizing m with
  | nil => exact hm
  | cons p rest ih =>
    obtain ⟨hp, hb⟩ := hrest p List.mem_cons_self
    exact hm.append ((Balanced.singleton hp).append (ih hb fun p' hp' => hrest p' (List.mem_cons_of_mem _ hp')))

theorem balanced_arguments {m : List Token} {ms : List (List Token)} (h : ∀ m' ∈ m :: ms, Balanced m') :
    Balanced (TokenList.joined m (ms.map fun m => (Token.separatorText, m))) := by
  refine balanced_joined (h m List.mem_cons_self) fun p hp => ?_
  obtain ⟨m', hm', rfl⟩ := List.mem_map.1 hp
  exact ⟨rfl, h m' (List.mem_cons_of_mem _ hm')⟩

variable {g : Grammar α} {ts u v : List Token}

/-- Derivable tokens are an operand of infix operators. -/
theorem Derivable.operand (hr : g.operators.Separate) (h : Derivable g ts) : g.operators.Operand ts := by
  have hspares := hr.toWellFormed.sparesBrackets
  induction h with
  | number t v => exact .singleton rfl rfl
  | reference _ => exact .singleton rfl rfl
  | brackets _ ih => exact .brackets hspares ih.balanced
  | callEmpty _ => exact .called (m := []) hspares rfl rfl .nil
  | call _ _ ih => exact .called hspares rfl rfl (balanced_arguments fun m' hm' => (ih m' hm').balanced)
  | prefixed ht _ ih => exact .prefixed ih (hr.of_prefix ht).1 ht
  | postfixed ht _ ih => exact .postfixed ih (hr.of_postfix ht).1 ht
  | binary ht _ _ ihu ihv => exact .infixed ihu ihv (hr.of_infix ht List.mem_cons_self).1
  | ternary ht _ _ _ ihu ihm ihv =>
    exact .infixed ihu (.infixed ihm ihv (hr.of_infix ht (List.mem_cons_of_mem _ List.mem_cons_self)).1)
      (hr.of_infix ht List.mem_cons_self).1

/-! ## Simple tokens -/

/-- Derivable tokens that no operator is outside of brackets of. -/
inductive Atom (g : Grammar α) : List Token → Prop
  | number (t : Text) (v : Float) : Atom g [.number t v]
  | reference {t : Text} : t.trim ∈ g.vars → Atom g [.raw t]
  | brackets {m : List Token} : Derivable g m → Atom g (.fixed Token.openText :: (m ++ [.fixed Token.closeText]))
  | callEmpty {t : Text} : t.trim ∈ g.functions → Atom g [.raw t, .fixed Token.openText, .fixed Token.closeText]
  | call {t : Text} {m : List Token} {ms : List (List Token)} : t.trim ∈ g.functions →
      (∀ m' ∈ m :: ms, Derivable g m') → Atom g (.raw t :: .fixed Token.openText ::
        (TokenList.joined m (ms.map fun m => (Token.separatorText, m)) ++ [.fixed Token.closeText]))

/-- Derivable tokens without an operator of two tokens outside of brackets. -/
inductive Simple (g : Grammar α) : List Token → Prop
  | atom {u : List Token} : Atom g u → Simple g u
  | prefixed {t : Text} {u : List Token} : g.operators.isPrefixToken (.fixed t) = true → Simple g u →
      Simple g (.fixed t :: u)
  | postfixed {t : Text} {u : List Token} : g.operators.isPostfixToken (.fixed t) = true → Simple g u →
      Simple g (u ++ [.fixed t])
  | binary {t : Text} {u v : List Token} : (g.operators.infixOps.get? [t]).isSome = true → Simple g u → Simple g v →
      Simple g (u ++ .fixed t :: v)

theorem Atom.derivable (h : Atom g ts) : Derivable g ts := by
  cases h with
  | number t v => exact .number t v
  | reference ht => exact .reference ht
  | brackets hm => exact .brackets hm
  | callEmpty ht => exact .callEmpty ht
  | call ht hms => exact .call ht hms

theorem Simple.derivable (h : Simple g ts) : Derivable g ts := by
  induction h with
  | atom h => exact h.derivable
  | prefixed ht _ ih => exact .prefixed ht ih
  | postfixed ht _ ih => exact .postfixed ht ih
  | binary ht _ _ ihu ihv => exact .binary ht ihu ihv

theorem Simple.ne_nil (hr : g.operators.Separate) (h : Simple g ts) : ts ≠ [] := (h.derivable.operand hr).ne_nil

/-- Derivable tokens are simple, or their first operator of two tokens outside of brackets may be taken for the root. -/
theorem Derivable.simple_or (h : Derivable g ts) :
    Simple g ts ∨ ∃ s t u m v, ts = u ++ .fixed s :: (m ++ .fixed t :: v) ∧
      (g.operators.infixOps.get? [s, t]).isSome = true ∧ Simple g u ∧ Derivable g m ∧ Derivable g v := by
  induction h with
  | number t v => exact Or.inl (.atom (.number t v))
  | reference ht => exact Or.inl (.atom (.reference ht))
  | brackets hm => exact Or.inl (.atom (.brackets hm))
  | callEmpty ht => exact Or.inl (.atom (.callEmpty ht))
  | call ht hms => exact Or.inl (.atom (.call ht hms))
  | @prefixed p _ hp _ ih =>
    rcases ih with h | ⟨s, t, u, m, v, rfl, hst, hu, hm, hv⟩
    · exact Or.inl (.prefixed hp h)
    · exact Or.inr ⟨s, t, Token.fixed p :: u, m, v, rfl, hst, .prefixed hp hu, hm, hv⟩
  | @postfixed q _ hq _ ih =>
    rcases ih with h | ⟨s, t, u, m, v, rfl, hst, hu, hm, hv⟩
    · exact Or.inl (.postfixed hq h)
    · exact Or.inr ⟨s, t, u, m, v ++ [Token.fixed q], by simp, hst, hu, hm, .postfixed hq hv⟩
  | @binary b x y hb hx hy ihx ihy =>
    rcases ihx with hx' | ⟨s, t, u, m, v, rfl, hst, hu, hm, hv⟩
    · rcases ihy with hy' | ⟨s, t, u, m, v, rfl, hst, hu, hm, hv⟩
      · exact Or.inl (.binary hb hx' hy')
      · exact Or.inr ⟨s, t, x ++ Token.fixed b :: u, m, v, by simp, hst, .binary hb hx' hu, hm, hv⟩
    · exact Or.inr ⟨s, t, u, m, v ++ Token.fixed b :: y, by simp, hst, hu, hm, .binary hb hv hy⟩
  | @ternary s' t' x n y hb hx hn hy ihx _ _ =>
    rcases ihx with hx' | ⟨s, t, u, m, v, rfl, hst, hu, hm, hv⟩
    · exact Or.inr ⟨s', t', x, n, y, rfl, hb, hx', hn, hy⟩
    · exact Or.inr ⟨s, t, u, m, v ++ Token.fixed s' :: (n ++ .fixed t' :: y), by simp, hst, hu, hm,
        .ternary hb hv hn hy⟩

/-! ## Operator tokens at the ends -/

theorem Atom.ends (hr : g.operators.Separate) (h : Atom g ts) :
    (∀ t, ts.head? = some t → g.operators.isOperatorToken t = false) ∧
      ∀ t, ts.getLast? = some t → g.operators.isOperatorToken t = false := by
  have hopen := hr.toWellFormed.sparesBrackets.opening
  have hclose := hr.toWellFormed.sparesBrackets.closing
  have hlast (w : List Token) (t : Token) (ht : (w ++ [Token.fixed Token.closeText]).getLast? = some t) :
      g.operators.isOperatorToken t = false := by
    rw [List.getLast?_concat] at ht
    cases ht
    exact hclose
  cases h with
  | number t v | reference ht => exact ⟨fun _ ht => by cases ht; rfl, fun _ ht => by cases ht; rfl⟩
  | brackets hm => exact ⟨fun _ ht => by cases ht; exact hopen, hlast (_ :: _)⟩
  | @callEmpty t ht => exact ⟨fun _ ht => by cases ht; rfl, hlast [.raw t, .fixed Token.openText]⟩
  | call ht hms => exact ⟨fun _ ht => by cases ht; rfl, hlast (_ :: _ :: _)⟩

/-- An operator token at the end of simple tokens is postfix and may be taken away. -/
theorem Simple.trail (hr : g.operators.Separate) (h : Simple g ts) {o : Token} (hts : ts = u ++ [o])
    (ho : g.operators.isOperatorToken o = true) : g.operators.isPostfixToken o = true ∧ Simple g u := by
  induction h generalizing u with
  | atom h =>
    have := (h.ends hr).2 o (by rw [hts, List.getLast?_concat])
    rw [this] at ho
    cases ho
  | prefixed hp hw ih =>
    match u with
    | [] => exact absurd (List.cons.inj hts).2 (hw.ne_nil hr)
    | t :: u =>
      obtain ⟨rfl, hw'⟩ := List.cons.inj hts
      obtain ⟨hpost, hu⟩ := ih hw'
      exact ⟨hpost, .prefixed hp hu⟩
  | postfixed hq hw _ =>
    obtain ⟨rfl, ho'⟩ := List.append_inj' hts rfl
    cases ho'
    exact ⟨hq, hw⟩
  | @binary b x y hb hx hy _ ih =>
    obtain ⟨y', o', rfl⟩ := (List.eq_nil_or_concat y).resolve_left (hy.ne_nil hr)
    rw [List.concat_eq_append] at hts ih
    have hts' : (x ++ Token.fixed b :: y') ++ [o'] = u ++ [o] := by rw [← hts]; simp
    obtain ⟨rfl, ho'⟩ := List.append_inj' hts' rfl
    obtain rfl := List.head_eq_of_cons_eq ho'
    obtain ⟨hpost, hy'⟩ := ih rfl
    exact ⟨hpost, .binary hb hx hy'⟩

/-- An operator token at the start of simple tokens is prefix and may be taken away. -/
theorem Simple.lead (hr : g.operators.Separate) (h : Simple g ts) {o : Token} (hts : ts = o :: v)
    (ho : g.operators.isOperatorToken o = true) : g.operators.isPrefixToken o = true ∧ Simple g v := by
  induction h generalizing v with
  | atom h =>
    have := (h.ends hr).1 o (by rw [hts]; rfl)
    rw [this] at ho
    cases ho
  | prefixed hp hw _ =>
    obtain ⟨rfl, rfl⟩ := List.cons.inj hts
    exact ⟨hp, hw⟩
  | @postfixed q w hq hw ih =>
    obtain ⟨o', w', rfl⟩ := List.exists_cons_of_ne_nil (hw.ne_nil hr)
    obtain ⟨rfl, rfl⟩ := List.cons.inj hts
    obtain ⟨hpre, hv⟩ := ih rfl
    exact ⟨hpre, .postfixed hq hv⟩
  | @binary b x y hb hx hy ih _ =>
    obtain ⟨o', x', rfl⟩ := List.exists_cons_of_ne_nil (hx.ne_nil hr)
    obtain ⟨rfl, rfl⟩ := List.cons.inj hts
    obtain ⟨hpre, hv⟩ := ih rfl
    exact ⟨hpre, .binary hb hv hy⟩

theorem Simple.leadAll (hr : g.operators.Separate) (h : Simple g (u ++ v))
    (hu : ∀ t ∈ u, g.operators.isOperatorToken t = true) : Simple g v := by
  induction u with
  | nil => exact h
  | cons t u ih =>
    exact ih (h.lead hr rfl (hu t List.mem_cons_self)).2 fun t' ht' => hu t' (List.mem_cons_of_mem _ ht')

theorem Simple.trailAll (hr : g.operators.Separate) (h : Simple g (u ++ v))
    (hv : ∀ t ∈ v, g.operators.isOperatorToken t = true) : Simple g u := by
  induction v generalizing u with
  | nil => rwa [List.append_nil] at h
  | cons t v ih =>
    have htail : Simple g (u ++ [t]) :=
      ih (by rwa [List.append_assoc, List.singleton_append]) fun t' ht' => hv t' (List.mem_cons_of_mem _ ht')
    exact (htail.trail hr rfl (hv t List.mem_cons_self)).2

theorem Simple.prefixAll (h : Simple g v) (hu : ∀ t ∈ u, g.operators.isPrefixToken t = true) : Simple g (u ++ v) := by
  induction u with
  | nil => exact h
  | cons t u ih =>
    have ht := hu t List.mem_cons_self
    match t with
    | .fixed t => exact .prefixed ht (ih fun t' ht' => hu t' (List.mem_cons_of_mem _ ht'))

theorem Simple.postfixAll (h : Simple g u) (hv : ∀ t ∈ v, g.operators.isPostfixToken t = true) : Simple g (u ++ v) := by
  induction v generalizing u with
  | nil => rwa [List.append_nil]
  | cons t v ih =>
    have ht := hv t List.mem_cons_self
    match t with
    | .fixed t =>
      have := ih (.postfixed ht h) fun t' ht' => hv t' (List.mem_cons_of_mem _ ht')
      rwa [List.append_assoc, List.singleton_append] at this

/-! ## Sites -/

section Sites

variable {before behind : List Token} {index : Nat}

theorem Atom.sites (hr : g.operators.Separate) (h : Atom g ts) :
    Site.inTokens g.operators before behind index 0 ts = [] := by
  have hcall {t : Text} {m : List Token} (hm : Balanced m) : Site.inTokens g.operators before behind index 0
      (.raw t :: .fixed Token.openText :: (m ++ [.fixed Token.closeText])) = [] := by
    have := @Site.inTokens_append _ g.operators before behind index 0
      [.raw t] (.fixed Token.openText :: (m ++ [.fixed Token.closeText]))
    rw [Site.inTokens_singleton rfl] at this
    rw [← List.singleton_append, this]
    exact Site.inTokens_brackets hm
  cases h with
  | number t v | reference ht => exact Site.inTokens_singleton rfl
  | brackets hm => exact Site.inTokens_brackets (hm.operand hr).balanced
  | callEmpty ht => exact hcall .nil
  | call ht hms => exact hcall (balanced_arguments fun m' hm' => ((hms m' hm').operand hr).balanced)

/-- A site of a token that is prefix or postfix is that of an infix operator of one token, if only these have tokens
that are prefix or postfix. -/
theorem nested_inTokens_singleton {t : Text} {depth : Int}
    (ht : g.operators.isInfixToken (.fixed t) = true → (g.operators.infixOps.get? [t]).isSome = true) :
    Scan.Nested (fun p => (g.operators.infixOps.get? p).isSome = true)
      (Site.inTokens g.operators before behind index depth [.fixed t]) := by
  rw [Site.inTokens, Site.inTokens, List.append_nil]
  split
  · next h => exact Scan.Nested.single (ht h.2.2.1) (Scan.Spelled.last ⟨index, t⟩)
  · exact Scan.Nested.nil

/-- The tokens of infix operators of two tokens are neither prefix nor postfix. -/
def Registry.Exclusive (r : Registry α) : Prop := ∀ s t u, (r.infixOps.get? [s, t]).isSome = true → u ∈ [s, t] →
  r.isPrefixToken (.fixed u) = false ∧ r.isPostfixToken (.fixed u) = false

/-- Infix operators have one token or two. -/
def Registry.UpToTernary (r : Registry α) : Prop := ∀ ts, (r.infixOps.get? ts).isSome = true →
  (∃ t, ts = [t]) ∨ ∃ s t, ts = [s, t]

/-- The sites of derivable tokens are those of whole operators. -/
theorem Derivable.nested (hr : g.operators.Separate) (htwo : g.operators.UpToTernary) (hex : g.operators.Exclusive)
    (h : Derivable g ts) : Scan.Nested (fun p => (g.operators.infixOps.get? p).isSome = true)
      (Site.inTokens g.operators before behind index 0 ts) := by
  have hatom {ts : List Token} (h : Atom g ts) {before behind : List Token} {index : Nat} :
      Scan.Nested (fun p => (g.operators.infixOps.get? p).isSome = true)
        (Site.inTokens g.operators before behind index 0 ts) := by
    rw [h.sites hr]
    exact Scan.Nested.nil
  have hsingle {t : Text}
      (ht : g.operators.isPrefixToken (.fixed t) = true ∨ g.operators.isPostfixToken (.fixed t) = true)
      (hi : g.operators.isInfixToken (.fixed t) = true) : (g.operators.infixOps.get? [t]).isSome = true := by
    obtain ⟨ts, hts, hmem⟩ := hr.exists_of_infixToken hi
    rcases htwo ts hts with ⟨t', rfl⟩ | ⟨s, t', rfl⟩
    · rw [List.mem_singleton.1 hmem]
      exact hts
    · have := hex s t' t hts hmem
      rw [this.1, this.2] at ht
      simp at ht
  induction h generalizing before behind index with
  | number t v => exact hatom (.number t v)
  | reference ht => exact hatom (.reference ht)
  | brackets hm _ => exact hatom (.brackets hm)
  | callEmpty ht => exact hatom (.callEmpty ht)
  | call ht hms _ => exact hatom (.call ht hms)
  | @prefixed t u ht hu ih =>
    have hsplit := @Site.inTokens_append _ g.operators before behind index 0 [.fixed t] u
    have hweight : bracketDepth [Token.fixed t] = 0 := by
      simp [Token.weight_of_plain (Token.isPlain_of_not_builtin (hr.of_prefix ht).1)]
    rw [List.singleton_append, hweight] at hsplit
    rw [hsplit]
    exact (nested_inTokens_singleton (hsingle (Or.inl ht))).append ih
  | @postfixed t u ht hu ih =>
    rw [Site.inTokens_append, (hu.operand hr).balanced.depth_eq]
    exact ih.append (nested_inTokens_singleton (hsingle (Or.inr ht)))
  | @binary t u v ht hu hv ihu ihv =>
    obtain ⟨hb, -, hi⟩ := hr.of_infix ht List.mem_cons_self
    rw [Site.inTokens_infix (hu.operand hr) (hv.operand hr) (Token.isPlain_of_not_builtin hb) hi]
    exact ihu.append (Scan.Nested.whole (v := [_]) ht (Scan.Spelled.last ⟨_, t⟩) ihv)
  | @ternary s t u m v ht hu hm hv ihu ihm ihv =>
    obtain ⟨hbs, -, his⟩ := hr.of_infix ht List.mem_cons_self
    obtain ⟨hbt, -, hit⟩ := hr.of_infix ht (List.mem_cons_of_mem _ List.mem_cons_self)
    rw [Site.inTokens_infix (hu.operand hr) ((hm.operand hr).infixed (hv.operand hr) hbt)
      (Token.isPlain_of_not_builtin hbs) his, Site.inTokens_infix (hm.operand hr) (hv.operand hr)
      (Token.isPlain_of_not_builtin hbt) hit]
    refine ihu.append ?_
    rw [List.append_cons]
    exact Scan.Nested.whole ht (Scan.Spelled.next (s := ⟨_, s⟩) ihm (Scan.Spelled.last ⟨_, t⟩)) ihv

/-- The sites of simple tokens are those of infix operators of one token. -/
theorem Simple.sites (hr : g.operators.Separate) (hex : g.operators.Exclusive) (h : Simple g ts) :
    ∀ s ∈ Site.inTokens g.operators before behind index 0 ts,
      ∀ a b, (g.operators.infixOps.get? [a, b]).isSome = true → s.text ∉ [a, b] := by
  have hsingle {t : Text}
      (ht : g.operators.isPrefixToken (.fixed t) = true ∨ g.operators.isPostfixToken (.fixed t) = true)
      (a b : Text) (hab : (g.operators.infixOps.get? [a, b]).isSome = true) : t ∉ [a, b] := by
    intro hmem
    have := hex a b t hab hmem
    rw [this.1, this.2] at ht
    simp at ht
  have htext {t : Text} {before behind : List Token} {index : Nat} {depth : Int} {s : Site}
      (hs : s ∈ Site.inTokens g.operators before behind index depth [.fixed t]) : s.text = t := by
    obtain ⟨u, v, huv, -⟩ := Site.mem_inTokens.1 hs
    rw [List.singleton_eq_append_iff] at huv
    rcases huv with ⟨-, h⟩ | ⟨-, h⟩
    · cases h
      rfl
    · cases h
  induction h generalizing before behind index with
  | atom h =>
    rw [h.sites hr]
    simp
  | @prefixed t u ht hu ih =>
    intro s hs
    have hsplit := @Site.inTokens_append _ g.operators before behind index 0 [.fixed t] u
    have hweight : bracketDepth [Token.fixed t] = 0 := by
      simp [Token.weight_of_plain (Token.isPlain_of_not_builtin (hr.of_prefix ht).1)]
    rw [List.singleton_append, hweight] at hsplit
    rw [hsplit] at hs
    rcases List.mem_append.1 hs with hs | hs
    · rw [htext hs]
      exact hsingle (Or.inl ht)
    · exact ih s hs
  | @postfixed t u ht hu ih =>
    intro s hs
    rw [Site.inTokens_append, (hu.derivable.operand hr).balanced.depth_eq] at hs
    rcases List.mem_append.1 hs with hs | hs
    · exact ih s hs
    · rw [htext hs]
      exact hsingle (Or.inr ht)
  | @binary t u v ht hu hv ihu ihv =>
    intro s hs
    obtain ⟨hb, -, hi⟩ := hr.of_infix ht List.mem_cons_self
    rw [Site.inTokens_infix (hu.derivable.operand hr) (hv.derivable.operand hr)
      (Token.isPlain_of_not_builtin hb) hi] at hs
    rcases List.mem_append.1 hs with hs | hs
    · exact ihu s hs
    · rcases List.mem_cons.1 hs with rfl | hs
      · intro a b hab hmem
        have := hr.apart.eq_of_mem _ _ t ht hab List.mem_cons_self hmem
        cases this
      · exact ihv s hs

end Sites

/-! ## Cutting simple tokens -/

variable {a t : Text} {x y z : List Token}

/-- A site behind the root of simple tokens. If only operator tokens stand between the two, these go to the root. -/
theorem Simple.cut_behind (hr : g.operators.Separate) (ha : (g.operators.infixOps.get? [a]).isSome = true)
    (hx : Simple g x) (hy : Simple g (z ++ .fixed t :: v)) (hs : Site.Splits g.operators (x ++ .fixed a :: z) t v)
    (ih : Site.Splits g.operators z t v → Simple g z ∧ Simple g v) :
    Simple g (x ++ .fixed a :: z) ∧ Simple g v := by
  obtain ⟨hb, ho, -⟩ := hr.of_infix ha List.mem_cons_self
  have hdepth := hs.depth_eq
  rw [bracketDepth_append, bracketDepth_cons, (hx.derivable.operand hr).balanced.depth_eq,
    Token.weight_of_plain (Token.isPlain_of_not_builtin hb)] at hdepth
  have hcandidate := Registry.canBeInfix_iff.1 hs.candidate
  rw [List.reverse_append, List.reverse_cons, List.append_assoc, Registry.meetsOperand_append] at hcandidate
  obtain ⟨hbefore | ⟨hz, hbefore⟩, hbehind⟩ := hcandidate
  · obtain ⟨hz, hv⟩ := ih ⟨by omega, hs.plain, hs.infixToken, Registry.canBeInfix_iff.2 ⟨hbefore, hbehind⟩⟩
    exact ⟨.binary ha hx hz, hv⟩
  · refine ⟨hx.postfixAll (v := .fixed a :: z) fun w hw => ?_, ?_⟩
    · rcases List.mem_cons.1 hw with rfl | hw
      · exact ((Registry.meetsOperand_cons ho).1 hbefore).1
      · exact (hz w (List.mem_reverse.2 hw)).2
    · refine Simple.leadAll hr (u := z ++ [.fixed t]) (by simpa using hy) fun w hw => ?_
      rcases List.mem_append.1 hw with hw | hw
      · exact (hz w (List.mem_reverse.2 hw)).1
      · rw [List.mem_singleton.1 hw]
        exact (hr.isOperatorToken_of_infix hr.avoids hs.infixToken).1

/-- A site before the root of simple tokens. If only operator tokens stand between the two, these go to the root. -/
theorem Simple.cut_before (hr : g.operators.Separate) (ha : (g.operators.infixOps.get? [a]).isSome = true)
    (hx : Simple g (u ++ .fixed t :: z)) (hy : Simple g y) (hs : Site.Splits g.operators u t (z ++ .fixed a :: y))
    (ih : Site.Splits g.operators u t z → Simple g u ∧ Simple g z) :
    Simple g u ∧ Simple g (z ++ .fixed a :: y) := by
  obtain ⟨-, ho, -⟩ := hr.of_infix ha List.mem_cons_self
  have hcandidate := Registry.canBeInfix_iff.1 hs.candidate
  rw [Registry.meetsOperand_append] at hcandidate
  obtain ⟨hbefore, hbehind | ⟨hz, hbehind⟩⟩ := hcandidate
  · obtain ⟨hu, hz⟩ := ih ⟨hs.depth_eq, hs.plain, hs.infixToken, Registry.canBeInfix_iff.2 ⟨hbefore, hbehind⟩⟩
    exact ⟨hu, .binary ha hz hy⟩
  · constructor
    · refine hx.trailAll hr (v := .fixed t :: z) fun w hw => ?_
      rcases List.mem_cons.1 hw with rfl | hw
      · exact (hr.isOperatorToken_of_infix hr.avoids hs.infixToken).1
      · exact (hz w hw).1
    · have := hy.prefixAll (u := z ++ [.fixed a]) fun w hw => by
        rcases List.mem_append.1 hw with hw | hw
        · exact (hz w hw).2
        · rw [List.mem_singleton.1 hw]
          exact ((Registry.meetsOperand_cons ho).1 hbehind).1
      simpa using this

/-- What stands around a site of simple tokens is simple. If an operator token stands between the site and the root,
the tokens between them change sides. -/
theorem Simple.cut (hr : g.operators.Separate) (h : Simple g ts) (hts : ts = u ++ .fixed t :: v)
    (hs : Site.Splits g.operators u t v) : Simple g u ∧ Simple g v := by
  induction h generalizing u v with
  | @atom ts h =>
    have hmem : (⟨u.length, t⟩ : Site) ∈ Site.ofTokens g.operators ts := Site.mem_ofTokens.2 ⟨u, v, hts, rfl, hs⟩
    rw [Site.ofTokens, h.sites hr] at hmem
    cases hmem
  | @prefixed a w ha hw ih =>
    obtain ⟨hb, ho⟩ := hr.of_prefix ha
    have hcandidate := Registry.canBeInfix_iff.1 hs.candidate
    cases u with
    | nil => exact absurd hcandidate.1 id
    | cons _ u =>
      obtain ⟨rfl, rfl⟩ := List.cons.inj hts
      have hdepth := hs.depth_eq
      rw [bracketDepth_cons, Token.weight_of_plain (Token.isPlain_of_not_builtin hb)] at hdepth
      rw [List.reverse_cons, Registry.meetsOperand_append] at hcandidate
      obtain ⟨hbefore | ⟨-, hbefore⟩, hbehind⟩ := hcandidate
      · obtain ⟨hu, hv⟩ := ih rfl ⟨by omega, hs.plain, hs.infixToken, Registry.canBeInfix_iff.2 ⟨hbefore, hbehind⟩⟩
        exact ⟨.prefixed ha hu, hv⟩
      · exact absurd ((Registry.meetsOperand_cons ho).1 hbefore).2 id
  | @postfixed a w ha hw ih =>
    obtain ⟨hb, ho⟩ := hr.of_postfix ha
    have hcandidate := Registry.canBeInfix_iff.1 hs.candidate
    rcases List.eq_nil_or_concat v with rfl | ⟨v, b, rfl⟩
    · exact absurd hcandidate.2 id
    · rw [List.concat_eq_append] at hts hcandidate
      have hts' : w ++ [Token.fixed a] = (u ++ .fixed t :: v) ++ [b] := by rw [hts]; simp
      obtain ⟨rfl, hb'⟩ := List.append_inj' hts' rfl
      cases hb'
      rw [Registry.meetsOperand_append] at hcandidate
      obtain ⟨hbefore, hbehind | ⟨-, hbehind⟩⟩ := hcandidate
      · obtain ⟨hu, hv⟩ := ih rfl
          ⟨hs.depth_eq, hs.plain, hs.infixToken, Registry.canBeInfix_iff.2 ⟨hbefore, hbehind⟩⟩
        exact ⟨hu, by rw [List.concat_eq_append]; exact .postfixed ha hv⟩
      · exact absurd ((Registry.meetsOperand_cons ho).1 hbehind).2 id
  | @binary a x y ha hx hy ihx ihy =>
    rcases List.append_eq_append_iff.1 hts with ⟨z, rfl, hz⟩ | ⟨z, rfl, hz⟩
    · cases z with
      | nil =>
        rw [List.append_nil]
        cases hz
        exact ⟨hx, hy⟩
      | cons _ z =>
        obtain ⟨rfl, rfl⟩ := List.cons.inj hz
        exact Simple.cut_behind hr ha hx hy hs (ihy rfl)
    · cases z with
      | nil =>
        rw [List.append_nil] at hx
        cases hz
        exact ⟨hx, hy⟩
      | cons _ z =>
        rw [List.cons_append] at hz
        obtain ⟨rfl, rfl⟩ := List.cons.inj hz
        exact Simple.cut_before hr ha hx hy hs (ihx rfl)

end Mixfix
