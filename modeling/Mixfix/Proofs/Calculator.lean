import Mathlib.Data.List.Sort
import Mixfix.Builder
import Mixfix.Proofs.Locality
import Mixfix.Proofs.Meaning

/-!
# Texts that builders accept

The registries of the standard operators, with or without those that compare, are those of a calculus: the conditional
binds loosest and all else has one token (`Standard.calculus`). So a text builds exactly if its tokens are derivable,
limits apart (`Builder.build_iff_derivable`).
-/

namespace Mixfix

/-! ## The standard operators -/

namespace Standard

/-- All standard operators. -/
def all : List (Operator StandardAction) := operators ++ comparisons

/-- Whether an operator stands between operands. -/
def isInfix (o : Operator StandardAction) : Bool := o.fixity == .infixed .left || o.fixity == .infixed .right

theorem isInfix_iff {o : Operator StandardAction} : isInfix o = true ↔ ∃ a, o.fixity = .infixed a := by
  simp only [isInfix, Bool.or_eq_true, beq_iff_eq]
  constructor
  · rintro (h | h)
    · exact ⟨_, h⟩
    · exact ⟨_, h⟩
  · rintro ⟨_ | _, h⟩
    · exact Or.inl h
    · exact Or.inr h

theorem formed : ∀ o ∈ all, o.tokens ≠ [] ∧ (isInfix o = true ∨ o.tokens = [o.token]) ∧ o.fixity ≠ .unplaced := by
  decide

theorem tokens_spared : ∀ o ∈ all, ∀ t ∈ o.tokens, t ∉ Token.builtinTexts ∧ t.trim = t ∧ t ≠ [] := by
  decide

theorem builtin_spared : ∀ t ∈ Token.builtinTexts, t.trim = t ∧ t ≠ [] ∧ t.all Literal.isLetter = false := by
  decide

theorem tokens_unmarked : ∀ o ∈ all, ∀ t ∈ o.tokens, '(' ∉ t ∧ ')' ∉ t := by
  decide

theorem builtin_marked : ∀ t ∈ Token.builtinTexts, ('(' ∈ t → t = ['(']) ∧ (')' ∈ t → t = [')']) := by
  decide

theorem tokens_apart : ∀ o ∈ all, isInfix o = true → o.tokens.Nodup ∧ ∀ o' ∈ all, isInfix o' = true →
    (∃ t ∈ o.tokens, t ∈ o'.tokens) → o.tokens = o'.tokens := by
  decide +kernel

theorem above_conditional : ∀ o ∈ all, o.tokens ≠ conditional.tokens →
    conditional.priority < o.priority ∧ (isInfix o = true → o.tokens = [o.token]) := by
  decide +kernel

theorem eq_conditional : ∀ o ∈ all, o.tokens = conditional.tokens → o.fixity = conditional.fixity := by
  decide

theorem conditional_exclusive : ∀ o ∈ all, isInfix o = false → o.token ∉ conditional.tokens := by
  decide

theorem priority_isNaN : ∀ o ∈ all, o.priority.isNaN = false := by
  decide +kernel

/-- The tokens that may be a part of a number literal. -/
def signs : List Text := [['-'], ['+']]

theorem mem_signs : ∀ o ∈ all, ∀ t ∈ o.tokens, t.all Literal.isLetter = true → t ∈ signs := by
  decide +kernel

theorem sign_before : ∀ t ∈ signs, ∃ o ∈ operators, o.fixity = .prefixed ∧ o.tokens = [t] := by
  decide

theorem sign_between : ∀ t ∈ signs, ∃ o ∈ operators, isInfix o = true ∧ o.tokens = [t] := by
  decide

theorem sign_not_behind : ∀ t ∈ signs, ∀ o ∈ all, o.fixity = .postfixed → o.tokens ≠ [t] := by
  decide

/-! ## Registries of standard operators -/

section Registries

variable {κ : Type} {os : List (Operator StandardAction)}

/-- The registry of some standard operators. -/
def registry (κ : Type) (os : List (Operator StandardAction)) : Registry (Action κ) :=
  Registry.empty.addAll (os.map Builder.ofStandard)

theorem formed_ofStandard (hsub : ∀ o ∈ os, o ∈ all) :
    ∀ o ∈ os.map (Builder.ofStandard (κ := κ)), o.Formed ∧ o.fixity ≠ .unplaced := by
  intro o ho
  obtain ⟨s, hs, rfl⟩ := List.mem_map.1 ho
  obtain ⟨hne, hplace, hf⟩ := formed s (hsub s hs)
  refine ⟨⟨hne, fun hno => ?_⟩, hf⟩
  rcases hplace with hinfix | htokens
  · obtain ⟨a, ha⟩ := isInfix_iff.1 hinfix
    exact absurd ha (hno a)
  · exact htokens

theorem wellFormed_registry (hsub : ∀ o ∈ os, o ∈ all) : (registry κ os).WellFormed :=
  (Registry.Reachable.empty.addAll fun o ho => (formed_ofStandard hsub o ho).1).wellFormed

/-- The operators of the registry are standard. -/
theorem exists_of_mem_operators (hsub : ∀ o ∈ os, o ∈ all) {o : Operator (Action κ)}
    (ho : o ∈ (registry κ os).operators) : ∃ s ∈ all, o = Builder.ofStandard s := by
  rcases Registry.wellFormed_empty.mem_operators_addAll (formed_ofStandard hsub) ho with hm | hm
  · obtain ⟨s, hs, rfl⟩ := List.mem_map.1 hm
    exact ⟨s, hsub s hs, rfl⟩
  · cases hm

theorem exists_of_mem_tokens {t : Text} (hsub : ∀ o ∈ os, o ∈ all) (ht : t ∈ (registry κ os).tokens) :
    (∃ s ∈ all, t ∈ s.tokens) ∨ t ∈ Token.builtinTexts := by
  rcases Registry.mem_tokens_addAll ht with ⟨o, ho, ht⟩ | ht
  · obtain ⟨s, hs, rfl⟩ := List.mem_map.1 ho
    exact Or.inl ⟨s, hsub s hs, ht⟩
  · rw [Registry.tokens, Registry.empty, List.append_nil] at ht
    exact Or.inr ht

/-- What is filed as an infix operator is a standard one. -/
theorem exists_of_infixOps {ts : List Text} (hsub : ∀ o ∈ os, o ∈ all)
    (hts : ((registry κ os).infixOps.get? ts).isSome = true) : ∃ s ∈ all, isInfix s = true ∧ s.tokens = ts := by
  have hr := wellFormed_registry (κ := κ) hsub
  obtain ⟨o, ho⟩ := Option.isSome_iff_exists.1 hts
  obtain ⟨hf, htokens, -⟩ := hr.infix_eq ts o ho
  obtain ⟨s, hs, rfl⟩ := exists_of_mem_operators hsub (hr.mem_of_infix ho)
  exact ⟨s, hs, isInfix_iff.2 hf, htokens⟩

theorem separate (hsub : ∀ o ∈ os, o ∈ all) : (registry κ os).Separate where
  toWellFormed := wellFormed_registry hsub
  avoids o ho t ht := by
    obtain ⟨s, hs, rfl⟩ := exists_of_mem_operators hsub ho
    exact (tokens_spared s hs t ht).1
  apart := by
    refine ⟨fun p hp => ?_, fun p p' t hp hp' ht ht' => ?_⟩
    · obtain ⟨s, hs, hinfix, rfl⟩ := exists_of_infixOps hsub hp
      exact (tokens_apart s hs hinfix).1
    · obtain ⟨s, hs, hinfix, rfl⟩ := exists_of_infixOps hsub hp
      obtain ⟨s', hs', hinfix', rfl⟩ := exists_of_infixOps hsub hp'
      exact (tokens_apart s hs hinfix).2 s' hs' hinfix' ⟨t, ht, ht'⟩

/-- The operator that is registered last is one of the registry. -/
theorem last_mem {o : Operator StandardAction} (hsub : ∀ o ∈ os, o ∈ all) (hlast : os.getLast? = some o) :
    Builder.ofStandard o ∈ (registry κ os).operators := by
  obtain ⟨init, rfl⟩ := List.getLast?_eq_some_iff.1 hlast
  have hformed := formed_ofStandard (κ := κ) hsub (Builder.ofStandard o) (by simp)
  have hinit := wellFormed_registry (κ := κ) fun o ho => hsub o (List.mem_append_left _ ho)
  have hadd : registry κ (init ++ [o]) = ((registry κ init).add (Builder.ofStandard o)).2 := by
    rw [registry, Registry.addAll, List.map_append, List.foldl_append]
    rfl
  rw [hadd]
  exact (hinit.add_mem hformed.1 hformed.2).1

/-- The conditional binds loosest. -/
theorem conditional_registry (hsub : ∀ o ∈ os, o ∈ all) (hlast : os.getLast? = some conditional) :
    (registry κ os).Conditional ['?'] [':'] (Builder.ofStandard conditional) := by
  have hr := wellFormed_registry (κ := κ) hsub
  have hmem := last_mem (κ := κ) hsub hlast
  -- only the conditional has its tokens
  have hother (o : Operator (Action κ)) (ho : o ∈ (registry κ os).operators)
      (hne : o ≠ Builder.ofStandard conditional) : ∃ s ∈ all, o = Builder.ofStandard s ∧
        s.tokens ≠ conditional.tokens := by
    obtain ⟨s, hs, rfl⟩ := exists_of_mem_operators hsub ho
    exact ⟨s, hs, rfl, fun ht => hne (hr.eq_of_tokens ho hmem (eq_conditional s hs ht) ht)⟩
  have hexclusive {o : Operator (Action κ)} {t : Text} (ht : t ∈ conditional.tokens)
      (ho : o ∈ (registry κ os).operators) (hf : ∀ a, o.fixity ≠ .infixed a) : o.tokens ≠ [t] := by
    obtain ⟨s, hs, rfl⟩ := exists_of_mem_operators hsub ho
    intro htokens
    have hinfix : isInfix s = false := by
      rw [Bool.eq_false_iff, Ne, isInfix_iff]
      rintro ⟨a, ha⟩
      exact hf a ha
    have htoken : s.token = t := by rw [Operator.token, show s.tokens = [t] from htokens]; rfl
    exact conditional_exclusive s hs hinfix (by rw [htoken]; exact ht)
  exact {
    toSeparate := separate hsub
    get?_eq := hr.get?_infix hmem rfl
    fixity_eq := rfl
    lowest := fun o ho hne => by
      obtain ⟨s, hs, rfl, htokens⟩ := hother o ho hne
      exact (above_conditional s hs htokens).1
    single := fun o ho hne hf => by
      obtain ⟨s, hs, rfl, htokens⟩ := hother o ho hne
      exact ⟨s.token, (above_conditional s hs htokens).2 (isInfix_iff.2 hf)⟩
    exclusive := fun t ht => by
      simp only [Bool.eq_false_iff, Ne, hr.isPrefixToken_iff, hr.isPostfixToken_iff]
      constructor <;>
        · rintro ⟨o, ho, hf, hts⟩
          exact hexclusive ht ho (by simp [hf]) hts
    notNaN := fun o ho => by
      obtain ⟨s, hs, rfl⟩ := exists_of_mem_operators hsub ho
      exact priority_isNaN s hs }

/-- The conditional binds loosest, and signs are the only tokens that number literals may contain. -/
theorem calculus (hsub : ∀ o ∈ os, o ∈ all) (hsup : ∀ o ∈ operators, o ∈ os) (hlast : os.getLast? = some conditional) :
    (registry κ os).Calculus ['?'] [':'] (Builder.ofStandard conditional) := by
  have hr := wellFormed_registry (κ := κ) hsub
  have hrival {s : Operator StandardAction} (hs : s ∈ operators) : ∃ o ∈ (registry κ os).operators,
      Registry.Rivals (Builder.ofStandard s) o :=
    Registry.wellFormed_empty.exists_rival (formed_ofStandard hsub) (Or.inr (List.mem_map_of_mem (hsup s hs)))
  refine ⟨conditional_registry hsub hlast, fun t ht => ?_, fun t ht hletters => ?_⟩
  · rcases exists_of_mem_tokens hsub ht with ⟨s, hs, ht⟩ | ht
    · exact (tokens_spared s hs t ht).2.1
    · exact (builtin_spared t ht).1
  · have hsign : t ∈ signs := by
      have hall : t.all Literal.isLetter = true := List.all_eq_true.2 hletters
      rcases exists_of_mem_tokens hsub ht with ⟨s, hs, ht⟩ | ht
      · exact mem_signs s hs t ht hall
      · rw [(builtin_spared t ht).2.2] at hall
        cases hall
    refine ⟨?_, ?_, ?_⟩
    · obtain ⟨s, hs, hf, hts⟩ := sign_before t hsign
      obtain ⟨o, ho, htokens, hfixity | ⟨⟨a, ha⟩, -⟩⟩ := hrival hs
      · exact hr.isPrefixToken_iff.2 ⟨o, ho, hfixity ▸ hf, htokens ▸ hts⟩
      · exact absurd (hf.symm.trans ha) (by simp)
    · obtain ⟨s, hs, hinfix, hts⟩ := sign_between t hsign
      obtain ⟨a, ha⟩ := isInfix_iff.1 hinfix
      obtain ⟨o, ho, htokens, hfixity⟩ := hrival hs
      obtain ⟨a', ha'⟩ : ∃ a', o.fixity = .infixed a' := hfixity.elim (fun h => ⟨a, h ▸ ha⟩) fun h => h.2
      have hget := hr.get?_infix ho ha'
      rw [← htokens, show (Builder.ofStandard (κ := κ) s).tokens = [t] from hts] at hget
      rw [hget]
      rfl
    · rw [Bool.eq_false_iff, Ne, hr.isPostfixToken_iff]
      rintro ⟨o, ho, hf, hts⟩
      obtain ⟨s, hs, rfl⟩ := exists_of_mem_operators hsub ho
      exact sign_not_behind t hsign s hs hf hts

/-- Texts can be split by the tokens. -/
theorem neat (hsub : ∀ o ∈ os, o ∈ all) : Row.Neat (registry κ os).tokens.reverse := by
  intro t ht
  rcases exists_of_mem_tokens hsub (List.mem_reverse.1 ht) with ⟨s, hs, ht⟩ | ht
  · exact ⟨(tokens_spared s hs t ht).2.2, Text.clean_of_trim_eq (tokens_spared s hs t ht).2.1⟩
  · exact ⟨(builtin_spared t ht).2.1, Text.clean_of_trim_eq (builtin_spared t ht).1⟩

/-- A bracket is a token, and no part of another one. -/
theorem marks (hsub : ∀ o ∈ os, o ∈ all) {c : Char} (hc : c = '(' ∨ c = ')') :
    Row.Marks (registry κ os).tokens.reverse c := by
  intro t ht hct
  rcases exists_of_mem_tokens hsub (List.mem_reverse.1 ht) with ⟨s, hs, ht⟩ | ht
  · have hno := tokens_unmarked s hs t ht
    rcases hc with rfl | rfl
    · exact absurd hct hno.1
    · exact absurd hct hno.2
  · have hself := builtin_marked t ht
    rcases hc with rfl | rfl
    · exact hself.1 hct
    · exact hself.2 hct

end Registries

end Standard

/-! ## Builders -/

namespace Builder

variable {κ : Type} {b : Builder κ} {text : Text}

/-- A builder of the standard operators, with or without those that compare, whether or not it has built before. No name
is empty, a number literal or a text that contains a token. -/
structure IsCalculator (b : Builder κ) : Prop where
  operators : b.operators.dropGroups = (bare {}).withStandardOperators.operators.dropGroups ∨
    b.operators.dropGroups = (bare {}).withStandardOperators.withComparisons.operators.dropGroups
  /-- Groups that are kept since the builder has built are those of the operators. -/
  kept : ∀ gs, b.operators.cached = some gs → gs = b.operators.priorityGroups
  names : ∀ name ∈ b.vars.keys ++ b.functions.keys,
    name ≠ [] ∧ readNumber? name = none ∧ ∀ t ∈ b.operators.tokens, ¬ t <:+: name

theorem operators_withStandardOperators (limits : Limits) :
    (bare (κ := κ) limits).withStandardOperators.operators = Standard.registry κ Standard.operators := by
  unfold withStandardOperators bare Standard.registry Registry.empty
  with_reducible rfl

theorem operators_withComparisons (limits : Limits) :
    (bare (κ := κ) limits).withStandardOperators.withComparisons.operators = Standard.registry κ Standard.all := by
  rw [Standard.registry, Standard.all, List.map_append, Registry.addAll, List.foldl_append, ← Registry.addAll,
    ← Registry.addAll, ← Standard.registry, ← operators_withStandardOperators limits, withComparisons]

theorem IsCalculator.exists_registry (h : b.IsCalculator) :
    ∃ os, b.operators.dropGroups = (Standard.registry κ os).dropGroups ∧ (∀ o ∈ os, o ∈ Standard.all) ∧
      (∀ o ∈ Standard.operators, o ∈ os) ∧ os.getLast? = some Standard.conditional := by
  rcases h.operators with h | h
  · rw [operators_withStandardOperators] at h
    exact ⟨_, h, fun _ ho => List.mem_append_left _ ho, fun _ ho => ho, rfl⟩
  · rw [operators_withComparisons] at h
    exact ⟨_, h, fun _ ho => ho, fun _ ho => List.mem_append_left _ ho, rfl⟩

theorem IsCalculator.calculus (h : b.IsCalculator) :
    b.operators.Calculus ['?'] [':'] (ofStandard Standard.conditional) := by
  obtain ⟨os, hos, hsub, hsup, hlast⟩ := h.exists_registry
  exact (Standard.calculus hsub hsup hlast).congr hos h.kept

theorem IsCalculator.conditional (h : b.IsCalculator) :
    b.grammar.operators.Conditional ['?'] [':'] (ofStandard Standard.conditional) := h.calculus.toConditional

theorem IsCalculator.neat (h : b.IsCalculator) : Row.Neat b.operators.tokens.reverse := by
  obtain ⟨os, hos, hsub, -⟩ := h.exists_registry
  rw [Registry.tokens_eq_of_dropGroups hos]
  exact Standard.neat hsub

theorem IsCalculator.marks (h : b.IsCalculator) {c : Char} (hc : c = '(' ∨ c = ')') :
    Row.Marks b.operators.tokens.reverse c := by
  obtain ⟨os, hos, hsub, -⟩ := h.exists_registry
  rw [Registry.tokens_eq_of_dropGroups hos]
  exact Standard.marks hsub hc

theorem IsCalculator.namesApart (h : b.IsCalculator) : b.grammar.NamesApart := by
  have hspares (name : Text) (hname : name ∈ b.vars.keys ++ b.functions.keys) : b.operators.Spares name := by
    obtain ⟨hne, hnumber, htokens⟩ := h.names name hname
    exact ⟨hne, hnumber, fun t ht => by rw [h.calculus.trimmed t ht]; exact htokens t ht⟩
  exact ⟨fun name hname => hspares name (List.mem_append_left _ hname),
    fun name hname => hspares name (List.mem_append_right _ hname)⟩

/-! ### Built texts -/

/-- The token list of a text. -/
def tokenList (b : Builder κ) (text : Text) : TokenList := TokenList.ofText b.operators.tokens.reverse text

theorem tokenized_tokenList (b : Builder κ) (text : Text) :
    (b.tokenList text).Tokenized b.operators.tokens.reverse := TokenList.tokenized_ofText _ _

theorem parse_eq : b.parse text = (b.limits.checkLength text).bind fun _ =>
    ((b.tokenList text).checkBrackets text).bind fun _ => b.grammar.parse text (b.tokenList text) := by
  rw [parse, tokenize, TokenList.tokenize]
  cases b.limits.checkLength text <;> rfl

/-- A text that builds passes every check, and its expression has copies of what the builder has. -/
theorem steps_of_build {e : Expression κ} (h : b.build text = .ok e) : text.isAllBlank = false ∧
    b.limits.checkLength text = .ok () ∧ (b.tokenList text).checkBrackets text = .ok () ∧
    b.grammar.parse text (b.tokenList text) = .ok e.tree ∧ e = ⟨e.tree, b.vars, b.functions, text⟩ := by
  rw [build] at h
  split at h
  · cases h
  · next hblank =>
    rw [parse_eq] at h
    cases hlength : b.limits.checkLength text with
    | error e' => rw [hlength] at h; cases h
    | ok _ =>
      cases hbrackets : (b.tokenList text).checkBrackets text with
      | error e' => rw [hlength, hbrackets] at h; cases h
      | ok _ =>
        cases htree : b.grammar.parse text (b.tokenList text) with
        | error e' => rw [hlength, hbrackets, htree] at h; cases h
        | ok tree =>
          rw [hlength, hbrackets, htree] at h
          cases h
          exact ⟨Bool.eq_false_iff.2 hblank, rfl, rfl, rfl, rfl⟩

/-- The tree of a text that builds is parsed from its token list. -/
theorem parse_of_build {e : Expression κ} (h : b.build text = .ok e) : text.isAllBlank = false ∧
    Balanced (b.tokenList text).tokens ∧ b.grammar.parse text (b.tokenList text) = .ok e.tree := by
  obtain ⟨hblank, -, hbrackets, htree, -⟩ := steps_of_build h
  exact ⟨hblank, (TokenList.checkBrackets_eq_ok_iff _ _).1 hbrackets, htree⟩

/-- A text builds if its token list is parsed, unless a limit is below the length of the text. -/
theorem build_of_parse {Q : Tree (Action κ) → Prop} (hblank : text.isAllBlank = false)
    (hb : Balanced (b.tokenList text).tokens)
    (h : Within (∃ limit, b.limits.bound limit < (b.tokenList text).size) Q (b.grammar.parse text (b.tokenList text))) :
    (∃ e, b.build text = .ok e ∧ Q e.tree) ∨ ∃ e, b.build text = .error (.error e) ∧ e.code = .limitExceeded ∧
      ∃ limit, b.limits.bound limit < text.length := by
  have hsize := (b.tokenized_tokenList text).size_le
  rw [build, hblank, parse_eq, (TokenList.checkBrackets_eq_ok_iff _ text).2 hb, Limits.checkLength, Limits.check]
  by_cases hlimit : b.limits.bound .expressionLength < text.length
  · rw [if_pos hlimit]
    exact Or.inr ⟨_, rfl, rfl, .expressionLength, hlimit⟩
  · rw [if_neg hlimit]
    rcases h with ⟨t, ht, hQ⟩ | ⟨e, he, hcode, limit, hlt⟩
    · exact Or.inl ⟨⟨t, b.vars, b.functions, text⟩, by simp [Except.bind, ht], hQ⟩
    · exact Or.inr ⟨e, by simp [Except.bind, he], hcode, limit, Int.lt_of_lt_of_le hlt (by exact_mod_cast hsize)⟩

theorem IsCalculator.derivable_of_build (h : b.IsCalculator) {e : Expression κ} (he : b.build text = .ok e) :
    Derivable b.grammar (b.tokenList text).tokens := by
  obtain ⟨-, hb, htree⟩ := parse_of_build he
  exact Grammar.derivable_of_parse h.calculus h.namesApart (fun t ht => List.mem_reverse.1 ht)
    (b.tokenized_tokenList text) hb htree

/-- A text builds exactly if its tokens are derivable, unless a limit is below the length of the text. -/
theorem build_iff_derivable (h : b.IsCalculator) (hblank : text.isAllBlank = false) :
    ((∃ e, b.build text = .ok e) →
      Derivable b.grammar (TokenList.ofText b.operators.tokens.reverse text).tokens) ∧
    (Derivable b.grammar (TokenList.ofText b.operators.tokens.reverse text).tokens →
      (∃ e, b.build text = .ok e) ∨ ∃ e, b.build text = .error (.error e) ∧ e.code = .limitExceeded ∧
        ∃ limit, b.limits.bound limit < text.length) := by
  refine ⟨fun ⟨e, he⟩ => h.derivable_of_build he, fun hd => ?_⟩
  have hparse := @Grammar.parse_of_derivable _ b.grammar _ _ _ text _ _ h.conditional h.namesApart
    (b.tokenized_tokenList text) hd
  exact (build_of_parse hblank (hd.operand h.conditional.toSeparate).balanced hparse).imp (fun ⟨e, he, _⟩ => ⟨e, he⟩) id

/-! ### Trees of texts -/

/-- The text builds to a tree, positions apart, or else a limit is exceeded, and this only if one is below the length of
the text. -/
def BuildsTo (b : Builder κ) (text : Text) (t : Tree (Action κ)) : Prop :=
  (∃ e, b.build text = .ok e ∧ e.tree.strip = t) ∨ ∃ e, b.build text = .error (.error e) ∧ e.code = .limitExceeded ∧
    ∃ limit, b.limits.bound limit < text.length

theorem IsCalculator.means_of_build (h : b.IsCalculator) {e : Expression κ} (he : b.build text = .ok e) :
    Means b.grammar (b.tokenList text).tokens e.tree.strip :=
  Grammar.means_of_build h.calculus.toConditional h.namesApart (b.tokenized_tokenList text) (h.derivable_of_build he)
    (Grammar.build_of_parse (parse_of_build he).2.2)

theorem IsCalculator.buildsTo_of_means (h : b.IsCalculator) {t : Tree (Action κ)} (hblank : text.isAllBlank = false)
    (ht : Means b.grammar (b.tokenList text).tokens t) : b.BuildsTo text t := by
  exact build_of_parse hblank ((ht.derivable h.conditional).operand h.conditional.toSeparate).balanced
    (Grammar.parse_of_means h.conditional h.namesApart (b.tokenized_tokenList text) ht)

/-- Text that is put in brackets has its tokens in brackets, and those of the text around it stay. -/
theorem IsCalculator.tokens_enclosed (h : b.IsCalculator) (p m q : Text) :
    (b.tokenList (p ++ '(' :: (m ++ ')' :: q))).tokens = (b.tokenList p).tokens ++
      (.fixed Token.openText :: ((b.tokenList m).tokens ++ [.fixed Token.closeText])) ++ (b.tokenList q).tokens := by
  have htoken {t : Text} (ht : t ∈ Token.builtinTexts) : t ∈ b.operators.tokens.reverse :=
    List.mem_reverse.2 (List.mem_append_left _ ht)
  have hopen := TokenList.tokens_ofText_mark h.neat (h.marks (Or.inl rfl)) (htoken (by decide)) p (m ++ ')' :: q)
  have hclose := TokenList.tokens_ofText_mark h.neat (h.marks (Or.inr rfl)) (htoken (by decide)) m q
  rw [tokenList, hopen, hclose, List.append_assoc, List.cons_append, List.append_assoc, List.singleton_append]
  rfl

theorem operators_standard (limits : Limits) :
    (standard (κ := κ) limits).operators = (bare limits).withStandardOperators.operators := by
  unfold standard withStandardVariables withStandardFunctions
  with_reducible rfl

/-- A builder of the standard operators that has not built yet. -/
theorem isCalculator_of_operators_eq (h : b.operators = (bare {}).withStandardOperators.operators)
    (hnames : ∀ name ∈ b.vars.keys ++ b.functions.keys,
      name ≠ [] ∧ readNumber? name = none ∧ ∀ t ∈ b.operators.tokens, ¬ t <:+: name) : b.IsCalculator where
  operators := Or.inl (congrArg Registry.dropGroups h)
  kept := by
    rw [h, operators_withStandardOperators]
    exact (Standard.wellFormed_registry fun _ ho => List.mem_append_left _ ho).kept
  names := hnames

/-- A builder that is asked for its groups, as it is whenever it builds, accepts texts as before. -/
theorem IsCalculator.groups (h : b.IsCalculator) : { b with operators := b.operators.groups.2 }.IsCalculator where
  operators := by
    rw [Registry.dropGroups_groups]
    exact h.operators
  kept := h.calculus.toWellFormed.groups.kept
  names := by
    rw [Registry.tokens_eq_of_dropGroups Registry.dropGroups_groups]
    exact h.names

theorem isCalculator_standard : (standard (κ := Unit) {}).IsCalculator :=
  isCalculator_of_operators_eq (operators_standard {}) (by decide +kernel)

theorem groups_standard : (standard (κ := Unit) {}).grammar.operators.groups.1 =
    ((standard (κ := Unit) {}).operators.operators.foldl (fun gs o => Registry.addToGroups o gs) []).insertionSort
      fun a b => Priority.rank a.priority ≤ Priority.rank b.priority :=
  isCalculator_standard.calculus.groups_eq_of_perm isCalculator_standard.calculus.notNaN (List.perm_insertionSort _ _)
    (by decide +kernel)

theorem exists_of_isOk {e : Except BuildError (Expression κ)} (h : e.isOk = true) : ∃ d, e = .ok d := by
  cases e with
  | error e => cases h
  | ok d => exact ⟨d, rfl⟩

/-- A text with signs, percent and root signs in several roles, calls and conditionals. -/
def sampleText : Text := "-2 √ -√4% ? max(1, (2)) : π ? e : - 3".toList

theorem build_iff_derivable_sample : (standard (κ := Unit) {}).IsCalculator ∧ sampleText.isAllBlank = false ∧
    ((∃ e, (standard (κ := Unit) {}).build sampleText = .ok e) → Derivable (standard (κ := Unit) {}).grammar
      (TokenList.ofText (standard (κ := Unit) {}).operators.tokens.reverse sampleText).tokens) ∧
    (Derivable (standard (κ := Unit) {}).grammar
        (TokenList.ofText (standard (κ := Unit) {}).operators.tokens.reverse sampleText).tokens →
      (∃ e, (standard (κ := Unit) {}).build sampleText = .ok e) ∨
        ∃ e, (standard (κ := Unit) {}).build sampleText = .error (.error e) ∧ e.code = .limitExceeded ∧
          ∃ limit, (standard (κ := Unit) {}).limits.bound limit < sampleText.length) :=
  ⟨isCalculator_standard, by decide, build_iff_derivable isCalculator_standard (by decide)⟩

end Builder

end Mixfix
