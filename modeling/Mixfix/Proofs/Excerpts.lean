import Mixfix.Proofs.Bracketed
import Mixfix.Proofs.Located
import Mixfix.Proofs.Parts

/-!
# Excerpts of a text

A list stands alone if its text, split by itself, has the tokens and spacings of the list (`TokenList.StandsAlone`). The
list of a text stands alone, and a slice of a list that stands alone does so too, since the text of the list may be cut
before and behind the slice (`TokenList.StandsAlone.slice`). So a part of a list, a section that a parser comes to and
what an error of the parser names may be taken out of the text and split again, with the same outcome
(`TokenList.restored_of_tokenize`).
-/

namespace Mixfix

namespace TokenList

open Row

variable {ss : List Text} {l part : TokenList} {t : Token} {a b n : Nat}

/-! ## Lists that stand alone -/

/-- The text of the list is split into the tokens and spacings of the list. -/
def StandsAlone (ss : List Text) (l : TokenList) : Prop := (ofText ss l.text).toRow = l.toRow

theorem StandsAlone.faithful (h : l.StandsAlone ss) : l.Faithful := by
  have hrender : l.text = (ofText ss l.text).toRow.render := (tokenized_ofText ss l.text).faithful
  rw [show (ofText ss l.text).toRow = l.toRow from h] at hrender
  exact hrender

/-- A row is that of a text if it has the tokens of the text and writes it. -/
theorem toRow_ofText_of_tokens (h : Neat ss) {r : Row} (htokens : (ofText ss r.render).tokens = r.tokens) :
    (ofText ss r.render).toRow = r := by
  refine eq_of_tokens htokens (tokenized_ofText ss r.render).faithful.symm fun t ht => ?_
  rw [tokens_ofText] at ht
  obtain ⟨t', ht', rfl⟩ := List.mem_map.1 ht
  rw [text_readToken]
  exact clean_of_mem_ofText h t' ht'

/-- The text of a list may be cut before a slice and behind it. -/
theorem StandsAlone.slice (h : l.StandsAlone ss) (hss : Neat ss) (hab : a ≤ b) : (l.slice a b).StandsAlone ss := by
  have hrow : (ofText ss l.text).toRow =
      ⟨l.items.take a ++ ((l.items.drop a).take (b - a) ++ (l.items.drop a).drop (b - a)), l.trailing⟩ := by
    rw [List.take_append_drop, List.take_append_drop]
    exact h
  obtain ⟨hinner, -⟩ := ofText_parts hss (ofText_parts hss hrow).2
  have hspaces := tokens_ofText_spaces hss 0 (l.spacing b) (((l.items.drop a).take (b - a)).flatMap Spaced.render)
  have htokens : (ofText ss (l.slice a b).toRow.render).tokens = (l.slice a b).tokens := by
    refine hspaces.trans ?_
    rw [hinner]
    rfl
  rw [StandsAlone, show (l.slice a b).text = (l.slice a b).toRow.render from h.faithful.slice hab]
  exact toRow_ofText_of_tokens hss htokens

theorem standsAlone_empty (ss : List Text) (n : Int) : (TokenList.empty n).StandsAlone ss := by
  have htokenized := tokenized_ofText ss []
  have hitems : (ofText ss []).items = [] := List.length_eq_zero_iff.1 (Nat.le_zero.1 htokenized.size_le)
  have htrailing : (ofText ss []).trailing = 0 := by
    have hrender := congrArg List.length htokenized.faithful
    rw [Row.render, hitems] at hrender
    simpa [ofText, Text.spaces] using hrender.symm
  exact congrArg₂ Row.mk hitems htrailing

theorem text_adjoining_singleton (t : Token) : (adjoining [t]).text = t.text := by
  simp [adjoining, Row.render, Spaced.render, Text.spaces]

/-- The text of a token is split into the token. -/
theorem StandsAlone.token (h : l.StandsAlone ss) (hss : Neat ss) (ht : t ∈ l.tokens) :
    (ofText ss t.text).toRow = ⟨[⟨0, t⟩], 0⟩ := by
  obtain ⟨u, v, hsplit⟩ := List.append_of_mem ht
  have htokens : (l.slice u.length (u.length + 1)).tokens = [t] :=
    @tokens_slice_mid l u [t] v (by rw [hsplit, List.append_assoc]; rfl)
  have hslice := h.slice hss (Nat.le_add_right u.length 1)
  obtain ⟨m, n, htext⟩ := hslice.faithful.text_eq htokens
  rw [StandsAlone, htext] at hslice
  have hrender : Row.render ⟨[⟨0, t⟩], 0⟩ = t.text := text_adjoining_singleton t
  have halone : (ofText ss (Row.render ⟨[⟨0, t⟩], 0⟩)).toRow = ⟨[⟨0, t⟩], 0⟩ := by
    refine toRow_ofText_of_tokens hss ?_
    rw [hrender, ← tokens_ofText_spaces hss m n, hslice, htokens]
    rfl
  rwa [hrender] at halone

/-! ## Excerpts -/

/-- The list stands alone, and its text has at most a number of characters. -/
structure Excerpt (ss : List Text) (n : Nat) (l : TokenList) : Prop where
  alone : l.StandsAlone ss
  length_le : l.text.length ≤ n

theorem Excerpt.slice (h : l.Excerpt ss n) (hss : Neat ss) (hab : a ≤ b) : (l.slice a b).Excerpt ss n where
  alone := h.alone.slice hss hab
  length_le := by
    refine Nat.le_trans ?_ h.length_le
    rw [TokenList.slice, List.length_take, List.length_drop]
    omega

theorem Excerpt.sliceOf (h : l.Excerpt ss n) (hss : Neat ss) (hpart : l.SliceOf part) : part.Excerpt ss n := by
  cases hpart with
  | slice hab => exact h.slice hss hab
  | whole => exact h
  | empty => exact ⟨standsAlone_empty ss _, Nat.zero_le n⟩

theorem Excerpt.parts (h : l.Excerpt ss n) (hss : Neat ss) (hparts : Relation.ReflTransGen Part l part) :
    part.Excerpt ss n := by
  induction hparts with
  | refl => exact h
  | tail _ hpart ih => exact ih.sliceOf hss hpart.sliceOf

theorem Excerpt.token (h : l.Excerpt ss n) (hss : Neat ss) (ht : t ∈ l.tokens) : (adjoining [t]).Excerpt ss n := by
  refine ⟨?_, ?_⟩
  · rw [StandsAlone, text_adjoining_singleton]
    exact h.alone.token hss ht
  · rw [text_adjoining_singleton]
    exact Nat.le_trans (h.alone.faithful.infix_text ht).length_le h.length_le

/-- The text of the list, split by itself, has the tokens and spacings of the list. -/
def Restored (splitters : List Text) (limits : Limits) (l : TokenList) : Prop :=
  ∃ l', tokenize splitters limits l.text = .ok l' ∧ l'.tokens = l.tokens ∧ l'.spacings = l.spacings

theorem Excerpt.restored {splitters : List Text} {limits : Limits} (h : l.Excerpt (splittersOf splitters) n)
    (hn : n ≤ limits.expressionLength) : l.Restored splitters limits := by
  have hrow : (ofText splitters l.text).toRow = l.toRow := by
    rw [toRow_ofText, ← ofText_splittersOf]
    exact h.alone
  have hlength : (l.text.length : Int) ≤ limits.expressionLength := Int.le_trans (Int.ofNat_le.2 h.length_le) hn
  exact ⟨_, tokenize_of_le hlength, congrArg Row.tokens hrow, congrArg Row.spacings hrow⟩

end TokenList

namespace Grammar

open TokenList ExprError

variable {α : Type} {g : Grammar α} {source : Text} {gs : List (Group α)} {l s : TokenList} {reading : Reading α}
  {path : List Nat} {e : ExprError}

/-! ## Sections -/

/-- What slices preserve holds of every section that a parser comes to. -/
theorem SectionAt.of_slices {P : TokenList → Prop} (hP : ∀ l a b, P l → a ≤ b → P (l.slice a b))
    (hr : g.operators.WellFormed) (hs : g.SectionAt source l path s) (h : P l) : P s :=
  hs.preserves (fun h hread => forall_sections_of_reads hP h (reads_of_read hr hread)) h

/-! ## What errors name -/

/-- The part of the text that the error names, if any, is that of the section or of a token in it. -/
def Names (l : TokenList) (e : ExprError) : Prop :=
  ∀ part, e.part? = some part → part = l.text ∨ ∃ t ∈ l.tokens, part = t.text

/-- The error names a section that the parser comes to, or a token of one. -/
def Cites (g : Grammar α) (source : Text) (l : TokenList) (e : ExprError) : Prop :=
  ∃ path s, g.SectionAt source l path s ∧ Names s e

theorem Names.cites (h : Names l e) : g.Cites source l e := ⟨[], l, .here, h⟩

/-- What a section below the root names, the whole section does. -/
theorem Cites.of_section (h : g.Cites source s e) (hread : g.read source g.operators.groups.1 l = .ok reading)
    (hs : s ∈ sections reading) : g.Cites source l e := by
  obtain ⟨path, s', hs', hnames⟩ := h
  by_cases hb : ∃ inner, reading = .brackets inner
  · obtain ⟨inner, rfl⟩ := hb
    obtain rfl := List.mem_singleton.1 hs
    exact ⟨path, s', .brackets hread hs', hnames⟩
  · rw [not_exists] at hb
    obtain ⟨i, hi⟩ := List.mem_iff_getElem?.1 hs
    exact ⟨i :: path, s', .child hread hb hi hs', hnames⟩

theorem names_text {p : Int} {cause : Cause} (h : ∀ part, (errorAt source p cause).part? = some part → part = l.text) :
    Names l (errorAt source p cause) := fun part hpart => .inl (h part hpart)

/-- The error of a limit names no part. -/
theorem names_exceeded (limits : Limits) (which : Limit) (actual : Int) (position : Option Int) (text : Option Text) :
    Names l (limits.exceeded which actual position text) := by
  rintro _ ⟨⟩

theorem names_readArguments (name : Text) (args : TokenList) :
    OnlyFails (Names l) (g.readArguments source l name args) := by
  rw [readArguments]
  split
  · exact .ok []
  · split
    · exact .error (names_text fun _ hpart => (Option.some.inj hpart).symm)
    · split
      · exact .error (names_text fun _ hpart => (Option.some.inj hpart).symm)
      · exact (OnlyFails.check fun _ => names_exceeded _ _ _ _ _).bind fun _ _ => .ok _

theorem names_readCall? : OnlyFails (Names l) (g.readCall? source l) := by
  rw [readCall?]
  split
  · exact .ok none
  · split
    · exact .ok none
    · split
      · exact .ok none
      · dsimp only
        split
        · exact (names_readArguments _ _).bind fun _ _ => .ok _
        · split
          · exact .ok none
          · exact .error (names_text fun _ hpart => (Option.some.inj hpart).symm)

theorem names_read : OnlyFails (Names l) (g.read source gs l) := by
  rw [read]
  refine OnlyFails.bind (fun e he => ?_) fun _ _ => ?_
  · obtain ⟨t, ht, rfl⟩ | ⟨t, ht, rfl⟩ := error_of_checkEnds he
    · exact fun part hpart => .inr ⟨t, List.mem_of_mem_head? ht, (Option.some.inj hpart).symm⟩
    · exact fun part hpart => .inr ⟨t, List.mem_of_mem_getLast? ht, (Option.some.inj hpart).symm⟩
  · split
    · exact .ok _
    · rw [readBare_eq]
      split
      · exact .ok _
      · refine names_readCall?.bind fun call? _ => ?_
        split
        · exact .ok _
        · exact .ok _
        · exact .ok _
        · exact .error (names_text fun _ hpart => (Option.some.inj hpart).symm)

/-- The errors of a tree name the section of its root, or come from a section below. -/
theorem cites_treeOf {buildSection : TokenList → Except ExprError (Tree α)}
    (hread : g.read source g.operators.groups.1 l = .ok reading)
    (hbuild : ∀ s, OnlyFails (g.Cites source s) (buildSection s)) :
    OnlyFails (g.Cites source l) (@treeOf α source buildSection l reading) := by
  have hsection (s : TokenList) (hs : s ∈ sections reading) : OnlyFails (g.Cites source l) (buildSection s) :=
    fun e he => (hbuild s e he).of_section hread hs
  cases reading with
  | brackets inner => exact hsection inner List.mem_cons_self
  | reference | number => exact .ok _
  | call name args =>
    rw [treeOf, buildArguments_eq]
    refine (OnlyFails.mapM fun arg harg => ?_).map
    split
    · have hnames : Names l (errorAt source arg.offset (.emptyArgument name l.text)) :=
        names_text fun _ hpart => (Option.some.inj hpart).symm
      exact .error hnames.cites
    · exact hsection arg harg
  | operation position o operands => exact (OnlyFails.mapM fun s hs => hsection s hs).map

/-- However deep an error of a section arises, it names a section that the parser comes to, or a token of one. -/
theorem cites_build (levels : Nat) :
    ∀ l, OnlyFails (g.Cites source l) (g.build source g.operators.groups.1 levels l) := by
  induction levels with
  | zero => exact fun l => .error (names_exceeded _ _ _ _ _).cites
  | succ levels ih =>
    intro l
    rw [build_succ]
    exact OnlyFails.bind (fun e he => (names_read e he).cites) fun reading hread => cites_treeOf hread ih

theorem cites_parse : OnlyFails (g.Cites source l) (g.parse source l) := by
  rw [parse]
  refine (cites_build _ l).bind fun tree _ => ?_
  exact (OnlyFails.check fun _ => (names_exceeded _ _ _ _ _).cites).bind fun _ _ => .ok _

end Grammar

/-! ## Texts -/

/-- A text is within the limit of the length if its length is checked without an error. -/
theorem Limits.length_le_of_checkLength {limits : Limits} {text : Text} {u : Unit}
    (h : limits.checkLength text = .ok u) : text.length ≤ limits.expressionLength := by
  rw [checkLength, check] at h
  split at h
  · cases h
  · next hle => exact Int.not_lt.1 hle

namespace TokenList

variable {splitters : List Text} {limits : Limits} {source : Text} {l : TokenList}

theorem tokenize_eq_ok_iff : tokenize splitters limits source = .ok l ↔
    source.length ≤ limits.expressionLength ∧ l = ofText splitters source := by
  refine ⟨fun h => ?_, fun ⟨hlength, hl⟩ => hl ▸ tokenize_of_le hlength⟩
  rw [tokenize] at h
  cases hlength : limits.checkLength source with
  | error e =>
    rw [hlength] at h
    cases h
  | ok u =>
    rw [hlength] at h
    exact ⟨Limits.length_le_of_checkLength hlength, (Except.ok.inj h).symm⟩

/-- An error of a text names the text, a section of it or a token in one. -/
theorem cites_of_parse {κ : Type} {b : Builder κ} {e : ExprError} (hl : b.tokenize source = .ok l)
    (he : b.parse source = .error e) : b.grammar.Cites source l e := by
  have htext : l.text = source := by
    rw [Builder.tokenize, tokenize_eq_ok_iff] at hl
    rw [hl.2]
    rfl
  have hfails : OnlyFails (b.grammar.Cites source l) (b.parse source) := by
    rw [Builder.parse, hl]
    have hbrackets : OnlyFails (b.grammar.Cites source l) (l.checkBrackets source) := by
      intro e he
      have hnames : Grammar.Names l e := by
        rw [checkBrackets] at he
        split at he <;> cases he
        · exact fun part hpart => .inl (htext ▸ (Option.some.inj hpart).symm)
        · exact fun part hpart => .inl (htext ▸ (Option.some.inj hpart).symm)
      exact hnames.cites
    exact hbrackets.bind fun _ _ => Grammar.cites_parse
  exact hfails e he

/-- Every part of the list of a text, however it is taken, is restored from its own text. So is every part of a section
that a parser of the text comes to, and the part that an error of the parser names is the text of such a section or of a
token in one. -/
theorem restored_of_tokenize (hclean : ∀ s ∈ splitters, Text.Clean Text.isSpace s)
    (hl : tokenize splitters limits source = .ok l) :
    (∀ i j : Int, 0 ≤ i → i ≤ j → j ≤ l.size → ∃ part, l.subList i j = .ok part ∧ part.Restored splitters limits) ∧
    (∀ part, Relation.ReflTransGen Part l part → part.Restored splitters limits) ∧
    ∀ {κ : Type} (b : Builder κ), b.operators.Reachable → b.operators.tokens.reverse = splitters → b.limits = limits →
      (∀ path s, b.grammar.SectionAt source l path s →
        ∀ part, Relation.ReflTransGen Part s part → part.Restored splitters limits) ∧
      ∀ e text, b.parse source = .error e → e.part? = some text → ∃ path s part, b.grammar.SectionAt source l path s ∧
        (part = s ∨ ∃ t ∈ s.tokens, part = adjoining [t]) ∧ part.text = text ∧ part.Restored splitters limits := by
  have hss := Row.neat_splittersOf hclean
  obtain ⟨hlength, rfl⟩ := tokenize_eq_ok_iff.1 hl
  have hwhole : (ofText splitters source).Excerpt (Row.splittersOf splitters) source.length := by
    refine ⟨?_, Nat.le_refl _⟩
    rw [StandsAlone, toRow_ofText, toRow_ofText, Row.ofText_splittersOf]
    rfl
  refine ⟨fun i j hi hij hj => ?_, fun part hparts => (hwhole.parts hss hparts).restored hlength,
    fun b hr htokens hlimits => ?_⟩
  · refine ⟨(ofText splitters source).slice i.toNat j.toNat, ?_, (hwhole.slice hss (by omega)).restored hlength⟩
    exact subList_eq (Int.toNat_of_nonneg hi).symm (Int.toNat_of_nonneg (by omega)).symm (by omega) (by omega)
  · have hsection {path : List Nat} {s : TokenList} (hs : b.grammar.SectionAt source (ofText splitters source) path s) :
        s.Excerpt (Row.splittersOf splitters) source.length :=
      hs.of_slices (fun _ _ _ h hab => h.slice hss hab) hr.wellFormed hwhole
    refine ⟨fun path s hs part hparts => ((hsection hs).parts hss hparts).restored hlength, fun e text he htext => ?_⟩
    have hb : b.tokenize source = .ok (ofText splitters source) := by rw [Builder.tokenize, htokens, hlimits, hl]
    obtain ⟨path, s, hs, hnames⟩ := cites_of_parse hb he
    rcases hnames text htext with rfl | ⟨t, ht, rfl⟩
    · exact ⟨path, s, s, hs, .inl rfl, rfl, (hsection hs).restored hlength⟩
    · exact ⟨path, s, adjoining [t], hs, .inr ⟨t, ht, rfl⟩, text_adjoining_singleton t,
        ((hsection hs).token hss ht).restored hlength⟩

/-- In `1 * max(2, x  y )` the second argument is no expression, and its text has the spaces around it. -/
theorem restored_of_tokenize_sample : ∃ (l : TokenList) (e : ExprError),
    (∀ s ∈ (Builder.standard (κ := Unit) {}).operators.tokens.reverse, Text.Clean Text.isSpace s) ∧
    tokenize (Builder.standard (κ := Unit) {}).operators.tokens.reverse {} "1 * max(2, x  y )".toList = .ok l ∧
    (∃ part, l.subList 3 6 = .ok part ∧ part.Restored (Builder.standard (κ := Unit) {}).operators.tokens.reverse {}) ∧
    (Builder.standard (κ := Unit) {}).parse "1 * max(2, x  y )".toList = .error e ∧
    ∃ path s part, (Builder.standard (κ := Unit) {}).grammar.SectionAt "1 * max(2, x  y )".toList l path s ∧
      (part = s ∨ ∃ t ∈ s.tokens, part = adjoining [t]) ∧ part.text = " x  y ".toList ∧
        part.Restored (Builder.standard (κ := Unit) {}).operators.tokens.reverse {} := by
  have hclean : ∀ s ∈ (Builder.standard (κ := Unit) {}).operators.tokens.reverse, Text.Clean Text.isSpace s :=
    fun s hs => (Builder.isCalculator_standard.neat s hs).2
  have hl : tokenize (Builder.standard (κ := Unit) {}).operators.tokens.reverse {} "1 * max(2, x  y )".toList =
      .ok ((Builder.standard (κ := Unit) {}).tokenList "1 * max(2, x  y )".toList) := tokenize_of_le (by decide)
  have hsize : ((Builder.standard (κ := Unit) {}).tokenList "1 * max(2, x  y )".toList).size = 8 := by decide +kernel
  have herror : (match (Builder.standard (κ := Unit) {}).parse "1 * max(2, x  y )".toList with
      | .ok _ => none
      | .error e => e.part?) = some " x  y ".toList := by
    simp only [Builder.parse_eq, Grammar.parse, Builder.groups_standard]
    decide +kernel
  obtain ⟨hslices, -, hparser⟩ := restored_of_tokenize hclean hl
  obtain ⟨-, herrors⟩ := hparser (Builder.standard (κ := Unit) {}) Builder.reachable_standard rfl rfl
  cases hparse : (Builder.standard (κ := Unit) {}).parse "1 * max(2, x  y )".toList with
  | ok tree =>
    rw [hparse] at herror
    cases herror
  | error e =>
    rw [hparse] at herror
    exact ⟨_, e, hclean, hl, hslices 3 6 (by decide) (by decide) (by rw [hsize]; decide),
      rfl, herrors e _ hparse herror⟩

end TokenList

end Mixfix
