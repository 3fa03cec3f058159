import Mixfix.Proofs.Lapses
import Mixfix.Proofs.Positions

/-!
# Where errors point

If a text that is not blank does not build, the error is one of parsing or of a limit and has a place in the text: its
position is an index of the text, at which the text reads what the error is about (`ExprError.LocatedAt`), and the part
that it names is one of the text (`Builder.located_of_build`). This holds of every registry that registrations make,
whatever the brackets of the text.

A part of the token list has a place in the text (`TokenList.Sits`); one that starts at a token has its position there,
even if it has no tokens itself (`TokenList.Section`). Every section that a parser comes to starts at a token, since a
section is never cut behind its last token (`Grammar.section_of_reads`). So the errors of a section are located, and by
induction on the levels those of the whole list (`Grammar.onlyFails_build`).
-/

namespace Mixfix

/-! ## Located errors -/

/-- What a text reads at an index, if an error with this cause points there. Errors of a limit and those about a whole
section point at no token; causes that are not listed do not arise from a text. -/
def Cause.PointsAt (text : Text) (p : Nat) : Cause → Prop
  | leadingOperator token | trailingOperator token => token <+: text.drop p
  | unexpectedClose _ => Token.closeText <+: text.drop p
  | unmatchedOpen _ => Token.openText <+: text.drop p
  | leadingSeparator _ _ | trailingSeparator _ _ => Token.separatorText <+: text.drop p
  | emptyArgument _ _ => Token.separatorText <+: (text.drop p).dropWhile Text.isSpace
  | unparsable _ _ | unrecognisedFunction _ _ | limitExceeded _ _ _ => True
  | _ => False

namespace ExprError

/-- The error is one of parsing or of a limit, about the text, at an index of it, where the text reads what the cause
says, and the part that it names is one of the text. -/
structure LocatedAt (text : Text) (p : Nat) (e : ExprError) : Prop where
  kind : e.cause.isParsing = true ∨ e.code = .limitExceeded
  expression : e.expression = some text
  position : e.position = some (p : Int)
  lt : p < text.length
  points : e.cause.PointsAt text p
  part : ∀ part, e.part? = some part → part <:+: text

/-- The error has a place in the text. -/
def Located (text : Text) (e : ExprError) : Prop := ∃ p, e.LocatedAt text p

end ExprError

/-! ## Errors of results -/

/-- There is a result, or the error satisfies a test. -/
def OnlyFails {β : Type} (E : ExprError → Prop) (result : Except ExprError β) : Prop :=
  ∀ e, result = .error e → E e

namespace OnlyFails

variable {β γ : Type} {E : ExprError → Prop} {result : Except ExprError β}

theorem ok (x : β) : OnlyFails E (.ok x) := by
  intro e h
  cases h

theorem error {e : ExprError} (h : E e) : OnlyFails E (.error e : Except ExprError β) := by
  intro e' h'
  cases h'
  exact h

theorem bind {f : β → Except ExprError γ} (h : OnlyFails E result) (hf : ∀ x, result = .ok x → OnlyFails E (f x)) :
    OnlyFails E (result.bind f) := by
  cases result with
  | error e => exact error (h e rfl)
  | ok x => exact hf x rfl

theorem map {f : β → γ} (h : OnlyFails E result) : OnlyFails E (result.map f) := by
  cases result with
  | error e => exact error (h e rfl)
  | ok x => exact ok (f x)

theorem mapM {f : γ → Except ExprError β} {xs : List γ} (h : ∀ x ∈ xs, OnlyFails E (f x)) :
    OnlyFails E (xs.mapM f) := by
  induction xs with
  | nil => exact ok []
  | cons x xs ih =>
    rw [List.forall_mem_cons] at h
    rw [List.mapM_cons]
    exact h.1.bind fun _ _ => (ih h.2).bind fun _ _ => ok _

theorem check {l : Limits} {which : Limit} {actual : Int} {position : Option Int} {expression : Option Text}
    (h : l.bound which < actual → E (l.exceeded which actual position expression)) :
    OnlyFails E (l.check which actual position expression) := by
  rw [Limits.check]
  split
  · next hlt => exact error (h hlt)
  · exact ok ()

end OnlyFails

/-! ## Sections -/

namespace TokenList

variable {l part : TokenList} {source : Text} {points : List Nat} {a b i start : Nat} {t : Token}

/-- A part of the list of a text: it has a place in the text, and none of its tokens is empty. -/
structure Sits (source : Text) (l : TokenList) : Prop where
  lies : l.Lies source l.tokens
  ne_nil : ∀ t ∈ l.tokens, t.text ≠ []

/-- A part that begins within the text. -/
structure Section (source : Text) (l : TokenList) : Prop extends l.Sits source where
  begins : ∃ p : Nat, l.position = p ∧ p < source.length

theorem Sits.slice (h : l.Sits source) (hab : a ≤ b) : (l.slice a b).Sits source := by
  have hslice := h.lies.sliceOf (.slice hab)
  exact ⟨⟨hslice.faithful, List.infix_refl _, hslice.text⟩, fun t ht => h.ne_nil t (hslice.tokens.subset ht)⟩

theorem Sits.infix_text (h : l.Sits source) : l.text <:+: source := by
  obtain ⟨n, -, -, htext⟩ := h.lies.text
  exact htext.isInfix.trans (List.drop_suffix n source).isInfix

theorem Sits.infix_token (h : l.Sits source) (ht : t ∈ l.tokens) : t.text <:+: source :=
  (h.lies.faithful.infix_text ht).trans h.infix_text

/-- A token stands in the text at an index of it. -/
theorem Sits.exists_place (h : l.Sits source) (ht : l.tokens[i]? = some t) :
    ∃ p : Nat, l.positionAt i = p ∧ p < source.length ∧ t.text <+: source.drop p := by
  obtain ⟨p, hp, hprefix⟩ := h.lies.exists_positionAt ht
  have hpos := List.length_pos_iff.2 (h.ne_nil t (List.mem_of_getElem? ht))
  have hlength := hprefix.length_le
  rw [List.length_drop] at hlength
  exact ⟨p, hp, by omega, hprefix⟩

/-- A token stands with its spaces behind the tokens before it. -/
theorem Sits.exists_offset (h : l.Sits source) (ht : l.tokens[i]? = some t) :
    ∃ p : Nat, (l.slice i i).offset = p ∧ Text.spaces (l.spacing i) ++ t.text <+: source.drop p := by
  obtain ⟨n, hoffset, -, htext⟩ := h.lies.text
  refine ⟨n + l.boundary i, ?_, ?_⟩
  · rw [TokenList.slice, hoffset]
    exact (Int.natCast_add _ _).symm
  · rw [← List.drop_drop]
    exact (h.lies.faithful.spaced_prefix_drop ht).trans (htext.drop _)

theorem getElem?_of_lt (ha : a < l.size) : ∃ t, l.tokens[a]? = some t := by
  rw [size_eq] at ha
  exact ⟨_, List.getElem?_eq_getElem ha⟩

theorem getElem?_of_first? (h : l.first? = some t) : l.tokens[0]? = some t := by
  rwa [first?, List.head?_eq_getElem?] at h

theorem getElem?_of_last? (h : l.last? = some t) : l.tokens[l.size - 1]? = some t := by
  rwa [last?, List.getLast?_eq_getElem?, ← size_eq] at h

/-- A part that starts at a token is a section, even if it ends there. -/
theorem Sits.section_slice (h : l.Sits source) (hab : a ≤ b) (hb : b ≤ l.size) (ha : a < l.size) :
    (l.slice a b).Section source := by
  obtain ⟨t, ht⟩ := getElem?_of_lt ha
  obtain ⟨p, hp, hlt, -⟩ := h.exists_place ht
  refine ⟨h.slice hab, p, ?_, hlt⟩
  rw [position_eq, positionAt_slice hb hab, Nat.add_zero, hp]

theorem Sits.section_cutAt (h : l.Sits source) (hcuts : l.Cuts points) (hpart : part ∈ l.cutAt points) :
    part.Section source := by
  obtain ⟨a, b, rfl, hab, hb, ha, -⟩ := slice_of_mem_cutFrom hcuts hcuts.pos (fun p _ => Nat.zero_le p) hpart
  exact h.section_slice hab hb ha

end TokenList

namespace Grammar

open TokenList ExprError

variable {α : Type} {g : Grammar α} {text : Text} {l : TokenList} {gs : List (Group α)} {reading : Reading α}

/-- The sections below the root of a section are sections too. -/
theorem section_of_reads (h : l.Section text) (hreads : Reads g l reading) :
    ∀ s ∈ sections reading, s.Section text := by
  have hslice {a b : Nat} (hab : a ≤ b) (hb : b ≤ l.size) (ha : a < l.size) : (l.slice a b).Section text :=
    h.section_slice hab hb ha
  cases hreads with
  | brackets htwo => exact List.forall_mem_singleton.2 (hslice (by omega) (by omega) (by omega))
  | reference | callEmpty _ _ | number _ => exact fun _ hs => absurd hs List.not_mem_nil
  | call hpos hi hcuts _ =>
    exact fun s hs => (hslice (by omega) (by omega) (by omega)).section_cutAt hcuts hs
  | infixed _ _ _ hown => exact fun s hs => h.section_cutAt (cuts_of_among hown) hs
  | @prefixed o x xs _ _ _ hl hxs =>
    have hpos := List.length_pos_iff.2 hxs
    have hsize : l.size = xs.length + 1 := by rw [size_eq, hl, List.length_cons]
    exact List.forall_mem_singleton.2 (hslice (by omega) (Nat.le_refl _) (by omega))
  | @postfixed o x xs _ _ _ hl hxs =>
    have hpos := List.length_pos_iff.2 hxs
    have hsize : l.size = xs.length + 1 := by rw [size_eq, hl, List.length_append, List.length_singleton]
    exact List.forall_mem_singleton.2 (hslice (Nat.zero_le _) (by omega) (by omega))

/-! ## Errors of sections -/

/-- An error about a token is located where the token stands. -/
theorem located_errorAt {i : Nat} {t : Token} {cause : Cause} (h : l.Sits text) (ht : l.tokens[i]? = some t)
    (hkind : cause.isParsing = true) (hpoints : ∀ p, t.text <+: text.drop p → cause.PointsAt text p)
    (hpart : ∀ part, (errorAt text (l.positionAt i) cause).part? = some part → part <:+: text) :
    Located text (errorAt text (l.positionAt i) cause) := by
  obtain ⟨p, hp, hlt, hprefix⟩ := h.exists_place ht
  rw [hp] at hpart ⊢
  exact ⟨p, .inl hkind, rfl, rfl, hlt, hpoints p hprefix, hpart⟩

/-- An error about a section is located where the section begins. -/
theorem located_position {cause : Cause} (h : l.Section text)
    (hkind : cause.isParsing = true ∨ cause.code = .limitExceeded) (hpoints : ∀ p, cause.PointsAt text p)
    (hpart : ∀ part, (errorAt text l.position cause).part? = some part → part <:+: text) :
    Located text (errorAt text l.position cause) := by
  obtain ⟨p, hp, hlt⟩ := h.begins
  rw [hp] at hpart ⊢
  exact ⟨p, hkind, rfl, rfl, hlt, hpoints p, hpart⟩

/-- A limit that a section exceeds is reported where the section begins. -/
theorem located_exceeded (h : l.Section text) (which : Limit) (actual : Int) :
    Located text (g.limits.exceeded which actual (some l.position) (some text)) := by
  have hlocated : Located text (errorAt text l.position (.limitExceeded which.name (g.limits.bound which) actual)) :=
    located_position h (.inr rfl) (fun _ => trivial) (by rintro _ ⟨⟩)
  exact hlocated

theorem onlyFails_checkEnds (h : l.Sits text) : OnlyFails (Located text) (g.checkEnds text l) := by
  intro e he
  obtain ⟨t, ht, rfl⟩ | ⟨t, ht, rfl⟩ := error_of_checkEnds he
  · refine located_errorAt h (getElem?_of_first? ht) rfl (fun _ hprefix => hprefix) ?_
    rintro _ ⟨⟩
    exact h.infix_token (List.mem_of_getElem? (getElem?_of_first? ht))
  · refine located_errorAt h (getElem?_of_last? ht) rfl (fun _ hprefix => hprefix) ?_
    rintro _ ⟨⟩
    exact h.infix_token (List.mem_of_getElem? (getElem?_of_last? ht))

/-- A separator at an end of the arguments is where the error about it points. -/
theorem onlyFails_readArguments {name : Text} {args : TokenList} (h : l.Section text) (hargs : args.Sits text) :
    OnlyFails (Located text) (g.readArguments text l name args) := by
  have hpart {part : Text} (heq : some l.text = some part) : part <:+: text :=
    Option.some.inj heq ▸ h.infix_text
  rw [readArguments]
  split
  · exact .ok []
  · split
    · next hfirst =>
      obtain ⟨t, ht, hsep⟩ := (Option.any_eq_true _ _).1 hfirst
      rw [Token.isSeparator_iff] at hsep
      subst hsep
      exact .error (located_errorAt hargs (getElem?_of_first? ht) rfl (fun _ hprefix => hprefix) fun _ => hpart)
    · split
      · next hlast =>
        obtain ⟨t, ht, hsep⟩ := (Option.any_eq_true _ _).1 hlast
        rw [Token.isSeparator_iff] at hsep
        subst hsep
        exact .error (located_errorAt hargs (getElem?_of_last? ht) rfl (fun _ hprefix => hprefix) fun _ => hpart)
      · exact (OnlyFails.check fun _ => located_exceeded h _ _).bind fun _ _ => .ok _

theorem onlyFails_readCall? (h : l.Section text) : OnlyFails (Located text) (g.readCall? text l) := by
  rw [readCall?]
  split
  · exact .ok none
  · split
    · exact .ok none
    · next i hi =>
      obtain ⟨-, hlt⟩ := bounds_of_innerOpen? hi
      rw [← size_eq] at hlt
      have hinner : (l.slice (i + 1) (l.size - 1)).Sits text := h.slice (by omega)
      split
      · exact .ok none
      · dsimp only
        split
        · exact (onlyFails_readArguments h hinner).bind fun _ _ => .ok _
        · split
          · exact .ok none
          · refine .error (located_position h (.inl rfl) (fun _ => trivial) ?_)
            rintro _ ⟨⟩
            exact h.infix_text

theorem onlyFails_readBare (h : l.Section text) : OnlyFails (Located text) (g.readBare text gs l) := by
  rw [readBare_eq]
  split
  · exact .ok _
  · refine (onlyFails_readCall? h).bind fun call? _ => ?_
    split
    · exact .ok _
    · exact .ok _
    · exact .ok _
    · refine .error (located_position h (.inl rfl) (fun _ => trivial) ?_)
      rintro _ ⟨⟩
      exact h.infix_text

theorem onlyFails_read (h : l.Section text) : OnlyFails (Located text) (g.read text gs l) := by
  rw [read]
  refine (onlyFails_checkEnds h.toSits).bind fun _ _ => ?_
  split
  · exact .ok _
  · exact onlyFails_readBare h

/-- Behind spaces a separator is the first character that is no space. -/
theorem separator_isPrefix {n : Nat} {rest : Text} (h : Text.spaces n ++ Token.separatorText <+: rest) :
    Token.separatorText <+: rest.dropWhile Text.isSpace := by
  obtain ⟨behind, rfl⟩ := h
  have hspaces : ∀ c ∈ Text.spaces n, Text.isSpace c = true := fun c hc => by rw [List.eq_of_mem_replicate hc]; rfl
  rw [List.append_assoc, List.dropWhile_append_of_pos hspaces]
  exact List.prefix_append Token.separatorText behind

/-- An empty argument stands before a separator, and only spaces come between the place of the argument and it. -/
theorem located_emptyArgument {name : Text} {args : TokenList} {i : Nat} (h : l.Section text) (hargs : args.Sits text)
    (ht : args.tokens[i]? = some (.fixed Token.separatorText)) :
    Located text (errorAt text (args.slice i i).offset (.emptyArgument name l.text)) := by
  obtain ⟨p, hp, hprefix⟩ := hargs.exists_offset ht
  have hlength := hprefix.length_le
  rw [List.length_append, List.length_drop] at hlength
  have hpos : 0 < (Token.fixed Token.separatorText).text.length := Nat.one_pos
  refine ⟨p, .inl rfl, rfl, congrArg some hp, by omega, separator_isPrefix hprefix, ?_⟩
  rintro _ ⟨⟩
  exact h.infix_text

theorem onlyFails_buildArguments {name : Text} {args : List TokenList}
    {buildSection : TokenList → Except ExprError (Tree α)}
    (hempty : ∀ arg ∈ args, arg.isEmpty = true → Located text (errorAt text arg.offset (.emptyArgument name l.text)))
    (hbuild : ∀ arg ∈ args, OnlyFails (Located text) (buildSection arg)) :
    OnlyFails (Located text) (buildArguments text buildSection name l.text args) := by
  rw [buildArguments_eq]
  refine OnlyFails.mapM fun arg harg => ?_
  split
  · next he => exact .error (hempty arg harg he)
  · exact hbuild arg harg

/-- The errors of a tree are located if those of the trees below its root are. -/
theorem onlyFails_treeOf (h : l.Section text) {buildSection : TokenList → Except ExprError (Tree α)}
    (hbuild : ∀ s, s.Section text → OnlyFails (Located text) (buildSection s)) (hreads : Reads g l reading) :
    OnlyFails (Located text) (@treeOf α text buildSection l reading) := by
  have hsections := section_of_reads h hreads
  cases hreads with
  | brackets _ => exact hbuild _ (hsections _ List.mem_cons_self)
  | reference | number _ => exact .ok _
  | callEmpty _ _ => exact .ok _
  | @call i points hpos hi hcuts hsep =>
    have hargs : (l.slice (i + 1) (l.size - 1)).Sits text := h.slice (by omega)
    refine (onlyFails_buildArguments (fun arg harg he => ?_) fun arg harg => hbuild arg (hsections arg harg)).map
    obtain ⟨a, b, rfl, hab, hb, ha, hmem⟩ := slice_of_mem_cutFrom hcuts hcuts.pos (fun p _ => Nat.zero_le p) harg
    have heq : a = b := by
      have hsize := size_slice (a := a) hb
      rw [TokenList.isEmpty, List.isEmpty_iff, ← List.length_eq_zero_iff] at he
      rw [TokenList.size, he] at hsize
      omega
    obtain ⟨t, ht, hsep⟩ := hsep a (hmem heq)
    rw [Token.isSeparator_iff] at hsep
    subst hsep heq
    exact located_emptyArgument h hargs ht
  | infixed _ _ _ _ | prefixed _ _ _ _ _ | postfixed _ _ _ _ _ =>
    exact (OnlyFails.mapM fun s hs => hbuild s (hsections s hs)).map

/-- The errors of a section are located, however deep they arise. -/
theorem onlyFails_build (hr : g.operators.WellFormed) (levels : Nat) :
    ∀ l, l.Section text → OnlyFails (Located text) (g.build text g.operators.groups.1 levels l) := by
  induction levels with
  | zero => exact fun l h => .error (located_exceeded h .treeDepth _)
  | succ levels ih =>
    intro l h
    rw [build_succ]
    exact (onlyFails_read h).bind fun reading hread => onlyFails_treeOf h ih (reads_of_read hr hread)

theorem onlyFails_parse (hr : g.operators.WellFormed) (h : l.Section text) :
    OnlyFails (Located text) (g.parse text l) := by
  rw [parse]
  refine (onlyFails_build hr _ l h).bind fun tree _ => ?_
  exact (OnlyFails.check fun _ => located_exceeded h .treeNodes _).bind fun _ _ => .ok _

/-- A bracket without a partner is where the error about it points. -/
theorem onlyFails_checkBrackets (h : l.Sits text) : OnlyFails (Located text) (l.checkBrackets text) := by
  rw [checkBrackets]
  split
  · exact .ok ()
  · next i hi =>
    refine .error (located_errorAt h (standsIn_of_bracketFault? hi) rfl (fun _ hprefix => hprefix) ?_)
    rintro _ ⟨⟩
    exact List.infix_refl text
  · next i hi =>
    refine .error (located_errorAt h (standsIn_of_bracketFault? hi) rfl (fun _ hprefix => hprefix) ?_)
    rintro _ ⟨⟩
    exact List.infix_refl text

end Grammar

/-! ## Errors of texts -/

/-- The length of a text is reported at the first character beyond the limit. -/
theorem Limits.onlyFails_checkLength {limits : Limits} (h : 0 ≤ limits.expressionLength) (text : Text) :
    OnlyFails (ExprError.Located text) (limits.checkLength text) := by
  refine OnlyFails.check fun hlt => ⟨limits.expressionLength.toNat, .inr rfl, rfl, ?_, ?_, trivial, ?_⟩
  · exact congrArg some (Int.toNat_of_nonneg h).symm
  · rw [Limits.bound] at hlt
    omega
  · rintro _ ⟨⟩

namespace Builder

variable {κ : Type} {b : Builder κ} {text : Text}

theorem sits_tokenList (b : Builder κ) (text : Text) : (b.tokenList text).Sits text where
  lies := TokenList.lies_ofText _ text
  ne_nil := (b.tokenized_tokenList text).ne_nil

/-- The errors of a text that is not blank are located in it. -/
theorem onlyFails_parse (hr : b.operators.Reachable) (hlimit : 0 ≤ b.limits.expressionLength)
    (hblank : text.isAllBlank = false) : OnlyFails (ExprError.Located text) (b.parse text) := by
  have hsits := b.sits_tokenList text
  have hsize := @TokenList.size_pos_of_not_blank text b.operators.tokens.reverse hblank
  have hsection : (b.tokenList text).Section text := by
    obtain ⟨t, ht⟩ := TokenList.getElem?_of_lt hsize
    obtain ⟨p, hp, hlt, -⟩ := hsits.exists_place ht
    exact ⟨hsits, p, (TokenList.position_eq _).trans hp, hlt⟩
  rw [parse_eq]
  exact (Limits.onlyFails_checkLength hlimit text).bind fun _ _ =>
    (Grammar.onlyFails_checkBrackets hsits).bind fun _ _ => Grammar.onlyFails_parse hr.wellFormed hsection

/-- A build of a text comes to no lapse. If the text is not blank, an error of the build has its place in the text. The
report of a build is never a lapse either: it has the expression, or the wording and the kind of the error. -/
theorem located_of_build (hr : b.operators.Reachable) (hlimit : 0 ≤ b.limits.expressionLength) (text : Text) :
    Checked.buildText b text = .ok (b.build text) ∧
      (text.isAllBlank = false → ∀ error, b.build text = .error error → ∃ e p, error = .error e ∧ e.LocatedAt text p) ∧
      (∀ e, b.build text = .ok e → Checked.tryBuild b text = .ok ⟨some e, true, none, none⟩) ∧
      ∀ error, b.build text = .error error →
        Checked.tryBuild b text = .ok ⟨none, false, some error.message, some error.code⟩ := by
  have hbuild := Checked.buildText_eq hr text
  refine ⟨hbuild, fun hblank error herror => ?_, fun e he => ?_, fun error herror => ?_⟩
  · rw [build, hblank] at herror
    cases hparse : b.parse text with
    | ok tree =>
      rw [hparse] at herror
      cases herror
    | error e =>
      rw [hparse] at herror
      cases herror
      obtain ⟨p, hp⟩ := onlyFails_parse hr hlimit hblank e hparse
      exact ⟨e, p, rfl, hp⟩
  · rw [Checked.tryBuild, hbuild, he]
    rfl
  · rw [Checked.tryBuild, hbuild, herror]
    rfl

/-- The empty argument begins behind the first separator, and two spaces come before the second one. -/
theorem located_of_build_sample : (standard (κ := Unit) {}).operators.Reachable ∧
    0 ≤ (standard (κ := Unit) {}).limits.expressionLength ∧ Text.isAllBlank "2 * (max(1,  , 3))".toList = false ∧
      ∃ e, (standard (κ := Unit) {}).build "2 * (max(1,  , 3))".toList = .error (.error e) ∧
        e.cause = .emptyArgument "max".toList "max(1,  , 3)".toList ∧ e.LocatedAt "2 * (max(1,  , 3))".toList 11 := by
  have hblank : Text.isAllBlank "2 * (max(1,  , 3))".toList = false := by decide
  have hcause : (match (standard (κ := Unit) {}).parse "2 * (max(1,  , 3))".toList with
      | .ok _ => none
      | .error e => some (e.cause, e.position)) =
        some (.emptyArgument "max".toList "max(1,  , 3)".toList, some 11) := by
    simp only [parse_eq, Grammar.parse, groups_standard]
    decide +kernel
  obtain ⟨-, hlocated, -⟩ := located_of_build (b := standard (κ := Unit) {}) reachable_standard (by decide)
    "2 * (max(1,  , 3))".toList
  cases hparse : (standard (κ := Unit) {}).parse "2 * (max(1,  , 3))".toList with
  | ok tree =>
    rw [hparse] at hcause
    cases hcause
  | error e =>
    rw [hparse] at hcause
    have hbuild : (standard (κ := Unit) {}).build "2 * (max(1,  , 3))".toList = .error (.error e) := by
      rw [build, hblank, hparse]
      rfl
    obtain ⟨heq, hposition⟩ := Prod.mk.inj (Option.some.inj hcause)
    obtain ⟨_, p, ⟨⟩, hp⟩ := hlocated hblank _ hbuild
    have hindex : p = 11 := Int.ofNat_inj.1 (Option.some.inj (hp.position.symm.trans hposition))
    exact ⟨reachable_standard, by decide, hblank, e, hbuild, heq, hindex ▸ hp⟩

end Builder

end Mixfix
