import Mixfix.Proofs.Calculator
import Mixfix.Proofs.Spellings

/-!
# Number literals are built

A text with a number literal is split at its signs and nowhere else (`Builder.IsCalculator.tokens_unsigned`,
`Builder.IsCalculator.tokens_sign`), and operations are looked for before number literals. So a literal without signs is
one number token, and a sign for the first character, spaces apart, is a prefix operator, which gives the literal the
same value (`Builder.IsCalculator.buildsValue_of_sign`). Any other sign leaves raw text before it that is no name, and
such tokens are not derivable (`Derivable.name_of_raw`). `Builder.build_number` puts this together for the default
builder.
-/

namespace Mixfix

/-! ## Derivable tokens with signs and raw text -/

section

variable {α : Type} {g : Grammar α} {ts : List Token} {t : Text}

theorem exists_mem_of_mem_joined {x : Token} {m : List Token} {ms : List (List Token)} (hx : x.fixed? = none)
    (h : x ∈ TokenList.joined m (ms.map fun m => (Token.separatorText, m))) : ∃ m' ∈ m :: ms, x ∈ m' := by
  induction ms generalizing m with
  | nil => exact ⟨m, List.mem_cons_self, h⟩
  | cons m' ms ih =>
    rw [List.map_cons, TokenList.joined] at h
    rcases List.mem_append.1 h with h | h
    · exact ⟨m, List.mem_cons_self, h⟩
    · rcases List.mem_cons.1 h with rfl | h
      · cases hx
      · obtain ⟨m'', hm'', hmem⟩ := ih h
        exact ⟨m'', List.mem_cons_of_mem _ hm'', hmem⟩

/-- Raw text among derivable tokens is a name. -/
theorem Derivable.name_of_raw (h : Derivable g ts)
    (ht : .raw t ∈ ts) : t.trim ∈ g.vars ∨ t.trim ∈ g.functions := by
  induction h with
  | number => simp at ht
  | reference hname =>
    cases List.mem_singleton.1 ht
    exact .inl hname
  | brackets _ ih => exact ih (by simpa using ht)
  | callEmpty hname =>
    obtain rfl : t = _ := by simpa using ht
    exact .inr hname
  | call hname _ ih =>
    rcases List.mem_cons.1 ht with heq | ht
    · cases heq
      exact .inr hname
    · obtain ⟨m', hm', hmem⟩ := exists_mem_of_mem_joined rfl (by simpa using ht)
      exact ih m' hm' hmem
  | prefixed _ _ ih | postfixed _ _ ih => exact ih (by simpa using ht)
  | binary _ _ _ ihu ihv =>
    rcases List.mem_append.1 ht with ht | ht
    · exact ihu ht
    · exact ihv (by simpa using ht)
  | ternary _ _ _ _ ihu ihm ihv =>
    rcases List.mem_append.1 ht with ht | ht
    · exact ihu ht
    · rcases List.mem_append.1 (List.mem_of_ne_of_mem (by simp) ht) with ht | ht
      · exact ihm ht
      · exact ihv (by simpa using ht)

theorem means_number (t : Text) (v : Float) : Means g [.number t v] (.number 0 v) :=
  @Means.intro _ g _ _ [] (.number t v) (by simp)

/-- The tree of a sign before a literal. -/
theorem Means.exists_of_sign {q c z : Text} {o : Operator α} {v : Float}
    (hr : g.operators.Conditional q c o) (hz : g.operators.isPrefixToken (.fixed z) = true) :
    ∃ o ∈ g.operators.operators, o.fixity = .prefixed ∧ o.tokens = [z] ∧
      Means g [.fixed z, .number t v] (.operation 0 o [.number 0 v]) := by
  have hd : Derivable g [.fixed z, .number t v] := .prefixed hz (.number t v)
  have hl := TokenList.tokens_adjoining [.fixed z, .number t v]
  have hatom : ¬ Atom g [.fixed z, .number t v] := by
    intro hatom
    generalize hts : [Token.fixed z, Token.number t v] = ts at hatom
    cases hatom with
    | brackets hm =>
      obtain ⟨-, hclose⟩ := @List.append_inj' _ [] _ _ _ (List.cons.inj hts).2 rfl
      cases hclose
    | number | reference | callEmpty | call => cases hts
  obtain ⟨op, parts, hread, hshows, hparts⟩ := @Grammar.readOperation?_of_derivable _ g
    (TokenList.adjoining [.fixed z, .number t v]) _ _ _ hr (by rwa [hl]) (by rwa [hl])
  have hshows' := hshows
  cases hshows with
  | @infixed o' m rest ho hf hts hjoined =>
    -- an infix operator has an operand before its first token, but here only one token is no sign
    obtain ⟨a, m, rfl⟩ := List.exists_cons_of_ne_nil ((hparts m List.mem_cons_self).operand hr.toSeparate).ne_nil
    match rest with
    | [] => exact absurd hts (hr.formed ho).tokens_ne
    | r :: rest =>
      rw [hl, TokenList.joined] at hjoined
      have hbehind := (List.cons.inj hjoined).2
      cases m with
      | nil => cases hbehind
      | cons a' m => simpa using congrArg List.length hbehind
  | @prefixed o' z' ts ho hf hts htokens =>
    rw [hl] at htokens
    obtain ⟨hz', rfl⟩ := List.cons.inj htokens
    cases hz'
    have hform : Form g o'.frames [[.number t v]] (.operation 0 o') := .operation ⟨_, _, _, hread, hshows'⟩
    have hnumber : Means g [.number t v] (.number 0 v) := means_number t v
    refine ⟨o', ho, hf, hts, ?_⟩
    have hmeans := @Means.intro _ g _ _ [([.number t v], .number 0 v)] hform (by simpa using hnumber)
    rw [Operator.frames, hf, hts] at hmeans
    exact hmeans
  | @postfixed o' z' ts ho hf hts htokens =>
    rw [hl] at htokens
    obtain ⟨-, hlast⟩ := @List.append_inj' _ [Token.fixed z] _ _ _ htokens rfl
    cases hlast

end

/-! ## Values of small trees -/

namespace Environment

variable {κ : Type} {m : Type → Type} [Monad m] {callbacks : Callbacks κ m} {env : Environment κ} {t : Tree (Action κ)}
  {v : Float}

theorem evaluate_of_number (h : t.strip = .number 0 v) : env.evaluate callbacks t = pure v := by
  cases t with
  | number p w =>
    cases h
    rfl
  | reference | call | operation | unknown => cases h

/-- An operation of a standard action on a number. -/
theorem evaluate_of_operation [LawfulMonad m] {o : Operator (Action κ)} {a : StandardAction}
    (ha : o.action = .standard a) (h : t.strip = .operation 0 o [.number 0 v]) :
    env.evaluate callbacks t = ExceptT.mk (pure (a.run [v])) := by
  cases t with
  | operation p o' ts =>
    rw [Tree.strip] at h
    injection h with _ ho hts
    subst ho
    match ts with
    | [] => cases hts
    | [s] =>
      have hvalue : env.evaluate callbacks s = pure v := evaluate_of_number (List.cons.inj hts).1
      simp [evaluate, evaluateAll, hvalue, ha, Action.run]
    | _ :: _ :: _ => cases (List.cons.inj hts).2
  | number | reference | call | unknown => cases h

end Environment

/-! ## Tokens of literals -/

namespace Table

variable {κ α : Type} [BEq κ] [LawfulBEq κ]

theorem mem_keys_insertAll {t : Table κ α} {bindings : List (κ × α)} {k : κ} :
    k ∈ (t.insertAll bindings).keys ↔ k ∈ t.keys ∨ k ∈ bindings.map Prod.fst := by
  induction bindings generalizing t with
  | nil => simp [insertAll]
  | cons e bindings ih =>
    have hstep : k ∈ (t.insert e.1 e.2).keys ↔ k = e.1 ∨ k ∈ t.keys := mem_keys_insertEntry
    rw [insertAll, List.foldl_cons, ← insertAll, ih, hstep, List.map_cons, List.mem_cons]
    tauto

end Table

namespace Standard

variable {s t : Text} {z : Char}

/-- Characters of names, blanks, and characters of literals apart from the signs. -/
def isPlain (c : Char) : Bool :=
  c.isAlphanum || ['π', 'ϕ', 'φ', '∞'].contains c || !Literal.isSign c && (Text.isBlank c || Literal.isLetter c)

theorem tokens_foreign : ∀ o ∈ all, ∀ t ∈ o.tokens, t.any (fun c => !isPlain c) = true := by
  decide

theorem builtin_foreign : ∀ t ∈ Token.builtinTexts, t.any (fun c => !isPlain c) = true := by
  decide

/-- No token occurs among such characters. -/
theorem not_infix_of_plain (hs : (∃ o ∈ all, s ∈ o.tokens) ∨ s ∈ Token.builtinTexts)
    (ht : ∀ c ∈ t, isPlain c = true) : ¬ s <:+: t := by
  intro hinside
  have hany : s.any (fun c => !isPlain c) = true := by
    rcases hs with ⟨o, ho, hmem⟩ | hmem
    · exact tokens_foreign o ho s hmem
    · exact builtin_foreign s hmem
  obtain ⟨c, hc, hforeign⟩ := List.any_eq_true.1 hany
  rw [ht c (hinside.subset hc)] at hforeign
  cases hforeign

theorem tokens_sign (hz : Literal.isSign z = true) : ∀ o ∈ all, ∀ t ∈ o.tokens, z ∈ t → t = [z] := by
  rcases Literal.eq_of_isSign hz with rfl | rfl <;> decide

theorem builtin_sign (hz : Literal.isSign z = true) : ∀ t ∈ Token.builtinTexts, z ∉ t := by
  rcases Literal.eq_of_isSign hz with rfl | rfl <;> decide

theorem action_of_sign (hz : Literal.isSign z = true) : ∀ o ∈ all, o.fixity = .prefixed → o.tokens = [[z]] →
    o.action = if z == '-' then .negate else .keep := by
  rcases Literal.eq_of_isSign hz with rfl | rfl <;> decide

/-- The names of the standard variables and functions. -/
def names : List Text := vars.map Prod.fst ++ functions.map Prod.fst

theorem names_plain : ∀ name ∈ names, name ≠ [] ∧ readNumber? name = none ∧ name.all isPlain = true := by
  decide

theorem names_unlike_numbers : ∀ name ∈ names, ∀ c, name.head? = some c → ¬ (Text.isDigit c = true ∨ c = '.') := by
  have hheads : ∀ name ∈ names, name.head?.all (fun c => !(Text.isDigit c || c == '.')) = true := by decide
  intro name hname c hc hlike
  have := hheads name hname
  rw [hc] at this
  rcases hlike with hdigit | rfl
  · simp [hdigit] at this
  · cases this

end Standard

namespace Builder

variable {κ : Type} {b : Builder κ} {t p q : Text} {v : Float} {z : Char}

theorem IsCalculator.exists_of_mem_tokens (h : b.IsCalculator) (ht : t ∈ b.operators.tokens) :
    (∃ s ∈ Standard.all, t ∈ s.tokens) ∨ t ∈ Token.builtinTexts := by
  obtain ⟨os, hos, hsub, -⟩ := h.exists_registry
  rw [Registry.tokens_eq_of_dropGroups hos] at ht
  exact Standard.exists_of_mem_tokens hsub ht

/-- A text of blanks and characters of literals without a sign is not split. -/
theorem IsCalculator.tokens_unsigned (h : b.IsCalculator) (hn : t.Numeric) (hu : Literal.Unsigned t) :
    (b.tokenList t).tokens = if t.trimSpaces.isEmpty then [] else [Row.readToken (.raw t.trimSpaces)] := by
  have hplain : ∀ c ∈ t, Standard.isPlain c = true := by
    intro c hc
    rcases hn c hc with hblank | hletter
    · simp [Standard.isPlain, hu c hc, hblank]
    · simp [Standard.isPlain, hu c hc, hletter]
  rw [tokenList, TokenList.tokens_ofText, Row.ofText_of_forall_absent h.neat, Row.tokens_ofPiece]
  · split <;> rfl
  · exact fun s hs => Standard.not_infix_of_plain (h.exists_of_mem_tokens (List.mem_reverse.1 hs)) hplain

theorem IsCalculator.tokens_spaces (h : b.IsCalculator) (n : Nat) : (b.tokenList (Text.spaces n)).tokens = [] := by
  have hspace : ∀ c ∈ Text.spaces n, c = ' ' := fun c hc => List.eq_of_mem_replicate hc
  rw [h.tokens_unsigned (fun c hc => .inl (Text.isBlank_of_mem_spaces hc)) fun c hc => by rw [hspace c hc]; rfl,
    Text.trimSpaces_eq_nil_iff.2 fun c hc => by rw [hspace c hc]; rfl]
  rfl

theorem IsCalculator.tokens_number (h : b.IsCalculator) (hu : Literal.Unsigned t) (hv : readNumber? t = some v) :
    (b.tokenList t).tokens = [.number t.trimSpaces v] := by
  have htrim : readNumber? t.trimSpaces = some v := by rw [← readNumber?_trim, t.trim_trimSpaces, readNumber?_trim, hv]
  rw [h.tokens_unsigned (Text.numeric_of_readNumber? hv) hu, if_neg, Row.readToken, htrim]
  intro hnil
  rw [List.isEmpty_iff.1 hnil] at htrim
  cases htrim

theorem IsCalculator.tokens_raw (h : b.IsCalculator) (hn : t.Numeric) (hu : Literal.Unsigned t)
    (hne : t.trimSpaces ≠ []) (hv : readNumber? t = none) : (b.tokenList t).tokens = [.raw t.trimSpaces] := by
  have htrim : readNumber? t.trimSpaces = none := by rw [← readNumber?_trim, t.trim_trimSpaces, readNumber?_trim, hv]
  rw [h.tokens_unsigned hn hu, if_neg (by simpa using hne), Row.readToken, htrim]

theorem IsCalculator.isPrefixToken_sign (h : b.IsCalculator) (hz : Literal.isSign z = true) :
    b.operators.isPrefixToken (.fixed [z]) = true := by
  obtain ⟨os, hos, hsub, hsup, -⟩ := h.exists_registry
  have hsign : [z] ∈ Standard.signs := by
    rcases Literal.eq_of_isSign hz with rfl | rfl <;> decide
  obtain ⟨s, hs, hf, hts⟩ := Standard.sign_before [z] hsign
  obtain ⟨o, ho, htokens, hfixity | ⟨⟨a, ha⟩, -⟩⟩ := Registry.wellFormed_empty.exists_rival
    (Standard.formed_ofStandard (κ := κ) hsub) (Or.inr (List.mem_map_of_mem (hsup s hs)))
  · rw [← Standard.registry, ← Registry.operators_eq_of_dropGroups hos] at ho
    exact h.calculus.isPrefixToken_iff.2 ⟨o, ho, hfixity ▸ hf, htokens ▸ hts⟩
  · exact absurd (hf.symm.trans ha) (by simp)

/-- The prefix operator of a sign keeps its operand or negates it. -/
theorem IsCalculator.action_of_sign (h : b.IsCalculator) (hz : Literal.isSign z = true) {o : Operator (Action κ)}
    (ho : o ∈ b.operators.operators) (hf : o.fixity = .prefixed) (ht : o.tokens = [[z]]) :
    o.action = .standard (if z == '-' then .negate else .keep) := by
  obtain ⟨os, hos, hsub, -⟩ := h.exists_registry
  rw [Registry.operators_eq_of_dropGroups hos] at ho
  obtain ⟨s, hs, rfl⟩ := Standard.exists_of_mem_operators hsub ho
  exact congrArg Action.standard (Standard.action_of_sign hz s hs hf ht)

/-- A sign is a token wherever it stands. -/
theorem IsCalculator.tokens_sign (h : b.IsCalculator) (hz : Literal.isSign z = true) (p q : Text) :
    (b.tokenList (p ++ z :: q)).tokens = (b.tokenList p).tokens ++ .fixed [z] :: (b.tokenList q).tokens := by
  have hmarks : Row.Marks b.operators.tokens.reverse z := by
    intro s hs hmem
    rcases h.exists_of_mem_tokens (List.mem_reverse.1 hs) with ⟨o, ho, ht⟩ | ht
    · exact Standard.tokens_sign hz o ho s ht hmem
    · exact absurd hmem (Standard.builtin_sign hz s ht)
  have hmem : [z] ∈ b.operators.tokens.reverse := by
    obtain ⟨o, ho, -, ht⟩ := h.calculus.isPrefixToken_iff.1 (h.isPrefixToken_sign hz)
    exact List.mem_reverse.2 (h.calculus.known o ho [z] (by rw [ht]; exact List.mem_cons_self))
  exact TokenList.tokens_ofText_mark h.neat hmarks hmem p q

/-! ## Values of literals -/

/-- Tokens with a meaning are built if they are no more than any limit. -/
theorem IsCalculator.build_of_means (h : b.IsCalculator) {u : Tree (Action κ)} (hblank : t.isAllBlank = false)
    (hlength : t.length ≤ b.limits.expressionLength) (hsize : ∀ limit, (b.tokenList t).size ≤ b.limits.bound limit)
    (hu : Means b.grammar (b.tokenList t).tokens u) : ∃ e, b.build t = .ok e ∧ e.tree.strip = u := by
  have hb := ((hu.derivable h.conditional).operand h.conditional.toSeparate).balanced
  have hparse := @Grammar.parse_of_means _ b.grammar _ _ _ _ t _ _ h.conditional h.namesApart
    (b.tokenized_tokenList t) hu
  rcases hparse with ⟨tree, htree, rfl⟩ | ⟨e, -, -, limit, hlt⟩
  · refine ⟨⟨tree, b.vars, b.functions, t⟩, ?_, rfl⟩
    rw [build, hblank, parse_eq, Limits.checkLength_of_le hlength, (TokenList.checkBrackets_eq_ok_iff _ t).2 hb]
    simp [Except.bind, htree]
  · exact absurd hlt (Int.not_lt.2 (hsize limit))

/-- The text builds, and its value is the number, whatever the caller's actions and functions do. -/
def BuildsValue (b : Builder κ) (t : Text) (v : Float) : Prop :=
  ∃ e, b.build t = .ok e ∧ ∀ {m : Type → Type} [Monad m] [LawfulMonad m] (callbacks : Callbacks κ m),
    e.evaluate callbacks = pure v

theorem not_isAllBlank_of_readNumber? (h : readNumber? t = some v) : t.isAllBlank = false := by
  rw [Bool.eq_false_iff]
  intro hblank
  have htrim : t.trim = [] := Text.trim_of_forall_isBlank (List.all_eq_true.1 hblank)
  rw [← readNumber?_trim, htrim] at h
  cases h

/-- A number literal without signs builds. -/
theorem IsCalculator.buildsValue_of_unsigned (h : b.IsCalculator) (hlength : t.length ≤ b.limits.expressionLength)
    (hbound : ∀ limit, 2 ≤ b.limits.bound limit) (hu : Literal.Unsigned t) (hv : readNumber? t = some v) :
    b.BuildsValue t v := by
  have htokens := h.tokens_number hu hv
  have hmeans : Means b.grammar (b.tokenList t).tokens (.number 0 v) := by
    rw [htokens]
    exact means_number _ v
  obtain ⟨e, he, hstrip⟩ := h.build_of_means (not_isAllBlank_of_readNumber? hv) hlength
    (fun limit => by rw [TokenList.size_eq, htokens, List.length_singleton]; have := hbound limit; omega) hmeans
  exact ⟨e, he, fun callbacks => Environment.evaluate_of_number hstrip⟩

/-- A number literal whose only sign is its first character, spaces apart, builds. -/
theorem IsCalculator.buildsValue_of_sign (h : b.IsCalculator) {n : Nat}
    (hlength : (Text.spaces n ++ z :: t).length ≤ b.limits.expressionLength)
    (hbound : ∀ limit, 2 ≤ b.limits.bound limit) (hz : Literal.isSign z = true) (hu : Literal.Unsigned t)
    (hv : readNumber? (Text.spaces n ++ z :: t) = some v) : b.BuildsValue (Text.spaces n ++ z :: t) v := by
  obtain ⟨w, hw, hvalue⟩ := Literal.exists_of_readNumber?_sign hz hu hv
  have htokens : (b.tokenList (Text.spaces n ++ z :: t)).tokens = [.fixed [z], .number t.trimSpaces w] := by
    rw [h.tokens_sign hz, h.tokens_spaces, h.tokens_number hu hw, List.nil_append]
  obtain ⟨o, ho, hf, hts, hmeans⟩ := Means.exists_of_sign (g := b.grammar) (t := t.trimSpaces) (v := w) h.conditional
    (h.isPrefixToken_sign hz)
  rw [← htokens] at hmeans
  obtain ⟨e, he, hstrip⟩ := h.build_of_means (not_isAllBlank_of_readNumber? hv) hlength
    (fun limit => by rw [TokenList.size_eq, htokens]; exact hbound limit) hmeans
  refine ⟨e, he, fun callbacks => ?_⟩
  rw [Expression.evaluate, Environment.evaluate_of_operation (h.action_of_sign hz ho hf hts) hstrip, hvalue]
  split <;> rfl

/-- No name begins with a digit or a point. -/
def NamesUnlikeNumbers (b : Builder κ) : Prop := ∀ name ∈ b.vars.keys ++ b.functions.keys, ∀ c, name.head? = some c →
  ¬ (Text.isDigit c = true ∨ c = '.')

/-- A text does not build if a sign stands behind a piece of a literal. -/
theorem IsCalculator.build_ne_of_piece (h : b.IsCalculator) (hnames : b.NamesUnlikeNumbers) (hw : Literal.Piece w)
    (hz : Literal.isSign z = true) (hp : p = [] ∨ ∃ p' z', p = p' ++ [z'] ∧ Literal.isSign z' = true) :
    ∀ e, b.build (p ++ (w ++ z :: q)) ≠ .ok e := by
  have hraw : .raw w.trimSpaces ∈ (b.tokenList (w ++ z :: q)).tokens := by
    rw [h.tokens_sign hz, h.tokens_raw hw.numeric hw.unsigned hw.ne_nil hw.not_number]
    exact List.mem_cons_self
  have hmem : .raw w.trimSpaces ∈ (b.tokenList (p ++ (w ++ z :: q))).tokens := by
    rcases hp with rfl | ⟨p', z', rfl, hz'⟩
    · exact hraw
    · rw [List.append_assoc, List.singleton_append, h.tokens_sign hz']
      exact List.mem_append_right _ (List.mem_cons_of_mem _ hraw)
  intro e he
  have hname := (h.derivable_of_build he).name_of_raw hmem
  rw [w.trim_trimSpaces] at hname
  replace hname : w.trim ∈ b.vars.keys ++ b.functions.keys := List.mem_append.2 hname
  obtain ⟨c, rest, hcons⟩ := List.exists_cons_of_ne_nil (h.names _ hname).1
  have hhead : w.trim.head? = some c := by rw [hcons]; rfl
  exact hnames _ hname c hhead (hw.head c hhead)

/-- A number literal builds exactly if no sign stands behind its first character, spaces apart. -/
theorem IsCalculator.build_literal (h : b.IsCalculator) (hnames : b.NamesUnlikeNumbers)
    (hbound : ∀ limit, 2 ≤ b.limits.bound limit) (hlength : t.length ≤ b.limits.expressionLength)
    (hv : readNumber? t = some v) :
    (Literal.NoLaterSign t → b.BuildsValue t v) ∧ (¬ Literal.NoLaterSign t → ∀ e, b.build t ≠ .ok e) := by
  cases Literal.spelling_of_readNumber? hv with
  | bare ht => exact ⟨fun _ => h.buildsValue_of_unsigned hlength hbound ht hv, fun hno => absurd ht.noLaterSign hno⟩
  | signed hz ht =>
    exact ⟨fun _ => h.buildsValue_of_sign hlength hbound hz ht hv, fun hno => absurd (ht.noLaterSign_sign hz _) hno⟩
  | broken hp hw hz =>
    exact ⟨fun hlater => absurd hlater (hw.not_noLaterSign hz), fun _ => h.build_ne_of_piece hnames hw hz hp⟩

/-! ## The default builder -/

theorem mem_names_standard {name : Text}
    (h : name ∈ (standard (κ := κ) {}).vars.keys ++ (standard (κ := κ) {}).functions.keys) :
    name ∈ Standard.names := by
  rcases List.mem_append.1 h with h | h
  · rcases Table.mem_keys_insertAll.1 h with h | h
    · cases h
    · exact List.mem_append_left _ h
  · rcases Table.mem_keys_insertAll.1 h with h | h
    · cases h
    · refine List.mem_append_right _ ?_
      rwa [Function.standard, List.map_map] at h

theorem isCalculator_default (κ : Type) : (standard (κ := κ) {}).IsCalculator := by
  refine isCalculator_of_operators_eq (operators_standard {}) fun name hname => ?_
  obtain ⟨hne, hnumber, hplain⟩ := Standard.names_plain name (mem_names_standard hname)
  refine ⟨hne, hnumber, fun t ht => ?_⟩
  rw [operators_standard, operators_withStandardOperators] at ht
  have htoken := Standard.exists_of_mem_tokens (fun _ ho => List.mem_append_left _ ho) ht
  exact Standard.not_infix_of_plain htoken (List.all_eq_true.1 hplain)

theorem namesUnlikeNumbers_default (κ : Type) : (standard (κ := κ) {}).NamesUnlikeNumbers :=
  fun _ hname => Standard.names_unlike_numbers _ (mem_names_standard hname)

/-- **Which number literals the default builder reads.** A text with a number literal, within the limit of its length,
builds to an expression with the value of the number if no sign stands behind its first character, spaces apart. It does
not build if a sign stands there, be it that of an exponent or one behind other blanks. -/
theorem build_number (hlength : t.length ≤ (standard (κ := κ) {}).limits.expressionLength)
    (hv : parseNumber t = .ok (some v)) :
    (Literal.NoLaterSign t → (standard (κ := κ) {}).BuildsValue t v) ∧
      (¬ Literal.NoLaterSign t → ∀ e, (standard (κ := κ) {}).build t ≠ .ok e) := by
  rw [parseNumber_eq, Except.ok.injEq] at hv
  have hlimits : (standard (κ := κ) {}).limits = {} := rfl
  refine (isCalculator_default κ).build_literal (namesUnlikeNumbers_default κ) (fun limit => ?_) hlength hv
  rw [hlimits]
  cases limit <;> decide

theorem build_number_sample :
    parseNumber " -.5E3".toList = .ok (some (-500.0)) ∧
    (standard (κ := Unit) {}).BuildsValue " -.5E3".toList (-500.0) ∧
    parseNumber "\t-5".toList = .ok (some (-5.0)) ∧ ∀ e, (standard (κ := Unit) {}).build "\t-5".toList ≠ .ok e := by
  have hleading : parseNumber " -.5E3".toList = .ok (some (-500.0)) := by decide +kernel
  have hblank : parseNumber "\t-5".toList = .ok (some (-5.0)) := by decide +kernel
  have hlimits : (standard (κ := Unit) {}).limits = {} := rfl
  refine ⟨hleading, (build_number (by rw [hlimits]; decide) hleading).1 ?_, hblank,
    (build_number (by rw [hlimits]; decide) hblank).2 ?_⟩
  · decide
  · decide

/-- The sign of an exponent is taken for the infix operator, and what stands before it does not build. -/
theorem build_signed_exponent : parseNumber "1e-5".toList = .ok (some 1e-5) ∧
    "1e-5".toList.length ≤ (standard (κ := Unit) {}).limits.expressionLength ∧
    (standard (κ := Unit) {}).build "1e-5".toList =
      .error (.error (Grammar.errorAt "1e-5".toList 0 (.unparsable "1e-5".toList "1e".toList))) := by
  have hlimits : (standard (κ := Unit) {}).limits = {} := rfl
  refine ⟨by decide +kernel, by rw [hlimits]; decide, ?_⟩
  have herror : (match (standard (κ := Unit) {}).build "1e-5".toList with
      | .error e => some e
      | .ok _ => none) =
        some (.error (Grammar.errorAt "1e-5".toList 0 (.unparsable "1e-5".toList "1e".toList))) := by
    simp only [build, parse_eq, Grammar.parse, groups_standard]
    decide +kernel
  cases hbuild : (standard (κ := Unit) {}).build "1e-5".toList with
  | error e =>
    rw [hbuild] at herror
    rw [Option.some.inj herror]
  | ok e =>
    rw [hbuild] at herror
    cases herror

end Builder

end Mixfix
