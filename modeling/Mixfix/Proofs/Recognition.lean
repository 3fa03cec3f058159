import Mixfix.Proofs.Conditional
import Mixfix.Proofs.Literals
import Mixfix.Proofs.Tokenize

/-!
# What the parser accepts is derivable

With an operator of two tokens that binds loosest and operators of one token (`Registry.Calculus`), the tokens of a
section that is built are derivable (`Grammar.derivable_of_build`). An operation is derivable if its parts are
(`Grammar.Shows.derivable`), so only number literals need care: a sign in the text of one would be that of an operation
(`Grammar.eq_number`).
-/

namespace Mixfix

variable {α : Type}

/-! ## Registries -/

namespace Registry

/-- Tokens have no blanks at their ends, and those that may be a part of a number literal are signs: they stand before
an operand or between two operands, but not behind one. -/
structure Calculus (r : Registry α) (q c : Text) (o : Operator α) : Prop extends r.Conditional q c o where
  trimmed : ∀ t ∈ r.tokens, t.trim = t
  sign : ∀ t ∈ r.tokens, (∀ c ∈ t, Literal.isLetter c = true) → r.isPrefixToken (.fixed t) = true ∧
    (r.infixOps.get? [t]).isSome = true ∧ r.isPostfixToken (.fixed t) = false

/-- Groups that are kept do not matter if they are up to date. -/
theorem Calculus.congr {r r' : Registry α} {q c : Text} {o : Operator α} (h : r.Calculus q c o)
    (heq : r'.dropGroups = r.dropGroups) (hkept : ∀ gs, r'.cached = some gs → gs = r'.priorityGroups) :
    r'.Calculus q c o := by
  obtain ⟨operatorTokens, prefixOps, postfixOps, infixOps, cached⟩ := r
  obtain ⟨operatorTokens', prefixOps', postfixOps', infixOps', cached'⟩ := r'
  cases heq
  exact { h with kept := hkept }

end Registry

/-! ## Sections without fixed tokens -/

namespace TokenList

variable {l : TokenList} {splitters : List Text} {r : Registry α}

/-- A list without fixed tokens has at most one token. -/
theorem Tokenized.size_le_one (h : l.Tokenized splitters) (hfixed : ∀ t, .fixed t ∉ l.tokens) :
    l.tokens = [] ∨ ∃ t, l.tokens = [t] := by
  match htokens : l.tokens with
  | [] => exact Or.inl rfl
  | [t] => exact Or.inr ⟨t, rfl⟩
  | a :: b :: ts =>
    have hnot (t : Token) (ht : t ∈ l.tokens) : ¬ t.fixed?.isSome = true := by
      match t with
      | .fixed t => exact absurd ht (hfixed t)
      | .raw t | .number t v => exact Bool.false_ne_true
    have hchain := h.chain
    rw [htokens] at hnot hchain
    rcases (List.isChain_cons_cons.1 hchain).1 with hf | hf
    · exact absurd hf (hnot a List.mem_cons_self)
    · exact absurd hf (hnot b (List.mem_cons_of_mem _ List.mem_cons_self))

/-- A section whose text is a name has this name for its only token. -/
theorem Tokenized.eq_raw (h : l.Tokenized splitters) (hsplit : ∀ t ∈ splitters, t ∈ r.tokens) {name : Text}
    (hn : r.Spares name) (hname : l.trimmedText = name) : ∃ t, l.tokens = [.raw t] ∧ t.trim = name := by
  have hfixed (t : Text) (ht : .fixed t ∈ l.tokens) : False :=
    h.faithful.trimmedText_ne hn ht (hsplit t (h.fixed t ht)) hname
  rcases h.size_le_one hfixed with hnil | ⟨t, ht⟩
  · rw [h.faithful.trimmedText_nil hnil] at hname
    exact absurd hname.symm hn.ne_nil
  · rw [h.faithful.trimmedText_eq ht] at hname
    match t with
    | .raw t => exact ⟨t, ht, hname⟩
    | .fixed t => exact absurd (by rw [ht]; exact List.mem_singleton_self _) (hfixed t)
    | .number t v =>
      have hread := h.number t v (by rw [ht]; exact List.mem_singleton_self _)
      rw [← readNumber?_trim, show t.trim = name from hname, hn.not_number] at hread
      cases hread

end TokenList

namespace Grammar

open TokenList

variable {g : Grammar α} {source : Text} {l : TokenList} {splitters : List Text} {gs : List (Group α)} {q c : Text}
  {o : Operator α}

/-! ## Number literals -/

/-- Where nothing is read as an operation, no group reads a prefix operator. -/
theorem readPrefix?_of_none {marks : List Mark} (h : g.readOperation? l marks gs = none) :
    ∀ group ∈ gs, readPrefix? l group = none := by
  induction gs with
  | nil => simp
  | cons group gs ih =>
    rw [readOperation?] at h
    rcases hright : g.readRight? l marks group gs with _ | op
    · rcases hleft : g.readLeft? l marks group gs with _ | op
      · rcases hbefore : readPrefix? l group with _ | op
        · rcases hbehind : readPostfix? l group with _ | op
          · rw [hright, hleft, hbefore, hbehind] at h
            exact List.forall_mem_cons.2 ⟨hbefore, ih h⟩
          · rw [hright, hleft, hbefore, hbehind] at h
            cases h
        · rw [hright, hleft, hbefore] at h
          cases h
      · rw [hright, hleft] at h
        cases h
    · rw [hright] at h
      cases h

/-- Fixed tokens are signs, and the last token is none. -/
structure Signed (r : Registry α) (ts : List Token) : Prop where
  sign : ∀ t, .fixed t ∈ ts → r.isPrefixToken (.fixed t) = true ∧ (r.infixOps.get? [t]).isSome = true
  last : ∀ t, ts.getLast? ≠ some (.fixed t)

theorem exists_first_fixed {ts : List Token} {t : Text} (h : .fixed t ∈ ts) :
    ∃ u s v, ts = u ++ .fixed s :: v ∧ ∀ s', .fixed s' ∉ u := by
  induction ts with
  | nil => cases h
  | cons a ts ih =>
    match a with
    | .fixed s => exact ⟨[], s, ts, rfl, by simp⟩
    | .raw s | .number s v =>
      obtain ⟨u, s', v', rfl, hu⟩ := ih (by simpa using h)
      exact ⟨_ :: u, s', v', rfl, by simpa using hu⟩

section Signs

variable {r : Registry α} {ts u v : List Token} {t : Text}

theorem Signed.right (h : Signed r (u ++ v)) (hv : v ≠ []) : Signed r v where
  sign t ht := h.sign t (List.mem_append_right _ ht)
  last t ht := h.last t (by rw [List.getLast?_append_of_ne_nil _ hv]; exact ht)

/-- An operand follows the signs. -/
theorem Signed.meetsOperand (h : Signed r ts) (hne : ts ≠ []) : r.MeetsOperand r.isPrefixToken ts := by
  induction ts with
  | nil => exact absurd rfl hne
  | cons a ts ih =>
    match a with
    | .raw s | .number s w => exact Registry.meetsOperand_of_not rfl
    | .fixed s =>
      have hts : ts ≠ [] := by rintro rfl; exact h.last s rfl
      rw [Registry.MeetsOperand]
      split
      · exact ⟨(h.sign s List.mem_cons_self).1, ih (h.right (u := [_]) hts) hts⟩
      · trivial

/-- The first sign stands at the start, or it is a site. -/
theorem Signed.exists_root (hr : r.Separate) (h : Signed r ts) (ht : .fixed t ∈ ts) :
    (∃ s v, ts = .fixed s :: v ∧ v ≠ [] ∧ r.isPrefixToken (.fixed s) = true) ∨
      ∃ s ∈ Site.ofTokens r ts, (r.infixOps.get? [s.text]).isSome = true := by
  obtain ⟨u, s, v, rfl, hu⟩ := exists_first_fixed ht
  have hv : v ≠ [] := by rintro rfl; exact h.last s (by rw [List.getLast?_concat])
  obtain ⟨hpre, hinf⟩ := h.sign s (List.mem_append_right _ List.mem_cons_self)
  obtain ⟨hb, -, hi⟩ := hr.of_infix hinf List.mem_cons_self
  rcases List.eq_nil_or_concat u with rfl | ⟨u, a, rfl⟩
  · exact Or.inl ⟨s, v, rfl, hv, hpre⟩
  · rw [List.concat_eq_append] at hu h ⊢
    have hplain (x : Token) (hx : x ∈ u ++ [a]) : x.isPlain = true ∧ r.isOperatorToken x = false := by
      match x with
      | .fixed x => exact absurd hx (hu x)
      | .raw x | .number x w => exact ⟨rfl, rfl⟩
    refine Or.inr ⟨⟨(u ++ [a]).length, s⟩, Site.mem_ofTokens.2 ⟨u ++ [a], v, rfl, rfl,
      bracketDepth_of_plain fun x hx => (hplain x hx).1, Token.isPlain_of_not_builtin hb, hi,
      Registry.canBeInfix_iff.2 ⟨?_, ?_⟩⟩, hinf⟩
    · rw [List.reverse_append, List.reverse_singleton, List.singleton_append]
      exact Registry.meetsOperand_of_not (hplain a (List.mem_append_right _ List.mem_cons_self)).2
    · have h' : Signed r (u ++ [a] ++ [.fixed s] ++ v) := by simpa using h
      exact (h'.right hv).meetsOperand hv

end Signs

/-- Where there are signs, an operation is read. -/
theorem readOperation?_of_signs (hr : g.operators.Conditional q c o) (hb : Balanced l.tokens)
    (h : Signed g.operators l.tokens) {t : Text} (ht : .fixed t ∈ l.tokens) :
    g.readOperation? l (Mark.ofTokens g.operators l.tokens) g.operators.groups.1 ≠ none := by
  intro hnone
  obtain ⟨pre, group, post, hl⟩ := hr.exists_leads
  rcases h.exists_root hr.toSeparate ht with ⟨s, v, htokens, hv, hpre⟩ | ⟨s, hs, hinf⟩
  · obtain ⟨o', ho', hf, hts⟩ := hr.isPrefixToken_iff.1 hpre
    obtain ⟨group', hm, hholds⟩ := hr.exists_holds ho'
    rw [Group.Holds, hf, hts] at hholds
    rw [Group.get?, readPrefix?_eq_none_iff.1 (readPrefix?_of_none hnone group' hm) s v htokens hv] at hholds
    cases hholds
  · obtain ⟨o', ho'⟩ := Option.isSome_iff_exists.1 hinf
    obtain ⟨⟨a, hf⟩, hts, -⟩ := hr.infix_eq _ _ ho'
    obtain ⟨group', hm, hholds⟩ := hl.exists_holds hr (hr.mem_of_infix ho')
      (by rintro rfl; rw [hr.tokens_eq] at hts; cases hts)
    rw [Group.Holds, hf, hts] at hholds
    have hsites (s : Site) (hs : s ∈ Site.ofTokens g.operators l.tokens) : s.text ≠ q := by
      rintro rfl
      have := (h.sign s.text (List.mem_of_getElem? (Site.getElem?_of_mem hs))).1
      rw [(hr.exclusive s.text List.mem_cons_self).1] at this
      cases this
    rw [readOperation?_of_sites hr hl hb hsites] at hnone
    rcases readOperation?_of_flat hb hl.behind with ⟨-, hsilent⟩ | ⟨op, _, _, _, hop, -⟩
    · have hsilent' := hsilent group' hm
      have hnone' : group'.get? (.infixed a) [s.text] = none := by
        cases a with
        | left => exact hsilent'.left s hs
        | right => exact hsilent'.right s hs
      rw [hnone'] at hholds
      cases hholds
    · rw [hnone] at hop
      cases hop

/-- A section that is read as a number is a number token: a sign in it would be that of an operation. -/
theorem eq_number (hr : g.operators.Calculus q c o) (h : l.Tokenized splitters)
    (hsplit : ∀ t ∈ splitters, t ∈ g.operators.tokens) (hends : g.checkEnds source l = .ok ()) (hb : Balanced l.tokens)
    (hnone : g.readOperation? l (Mark.ofTokens g.operators l.tokens) g.operators.groups.1 = none) {v : Float}
    (hv : readNumber? l.text = some v) : ∃ t w, l.tokens = [.number t w] := by
  have hsign (t : Text) (ht : .fixed t ∈ l.tokens) : g.operators.isPrefixToken (.fixed t) = true ∧
      (g.operators.infixOps.get? [t]).isSome = true ∧ g.operators.isPostfixToken (.fixed t) = false := by
    have hmem := hsplit t (h.fixed t ht)
    refine hr.sign t hmem fun c hc => isLetter_of_readNumber? hv c ?_
    have hinfix := Text.trim_infix_trim (h.faithful.infix_text ht)
    rw [show (Token.fixed t).text.trim = t from hr.trimmed t hmem] at hinfix
    exact hinfix.subset hc
  have hsigned : Signed g.operators l.tokens := by
    refine ⟨fun t ht => ⟨(hsign t ht).1, (hsign t ht).2.1⟩, fun t ht => ?_⟩
    have hmem : .fixed t ∈ l.tokens := List.mem_of_getLast? ht
    have := (checkEnds_eq_ok_iff.1 hends).2 _ ht (hr.of_prefix (hsign t hmem).1).2
    rw [(hsign t hmem).2.2] at this
    cases this
  have hfixed (t : Text) (ht : .fixed t ∈ l.tokens) : False :=
    readOperation?_of_signs hr.toConditional hb hsigned ht hnone
  rcases h.size_le_one hfixed with hnil | ⟨t, ht⟩
  · have htext := h.faithful.trimmedText_nil hnil
    rw [trimmedText] at htext
    rw [← readNumber?_trim, htext] at hv
    cases hv
  · rw [h.faithful.readNumber?_eq ht] at hv
    cases t with
    | number t w => exact ⟨t, w, ht⟩
    | fixed t => exact absurd (by rw [ht]; exact List.mem_singleton_self _) (hfixed t)
    | raw t =>
      have := h.raw t (by rw [ht]; exact List.mem_singleton_self _)
      rw [show (Token.raw t).text = t from rfl, this] at hv
      cases hv

/-! ## What is built is derivable -/

theorem IsPart.tokenized {part : TokenList} {ts : List Token} (h : l.IsPart part ts) (hl : l.Tokenized splitters) :
    part.Tokenized splitters := by
  obtain ⟨-, a, b, hab, -, rfl⟩ := h
  exact hl.slice hab

/-- The parts that an operation shows make derivable tokens if they are derivable. -/
theorem Shows.derivable (hr : g.operators.Conditional q c o) {op : Reading α} {parts : List (List Token)}
    (h : Shows g.operators l op parts) (hparts : ∀ m ∈ parts, Derivable g m) : Derivable g l.tokens := by
  cases h with
  | @infixed o' m rest hmem hf htexts hl =>
    obtain ⟨a, hf⟩ := hf
    have hget : (g.operators.infixOps.get? (rest.map Prod.fst)).isSome = true := by
      rw [← htexts, hr.get?_infix hmem hf]
      rfl
    rw [hl]
    rcases hr.upToTernary _ hget with ⟨t, ht⟩ | ⟨s, t, hst⟩
    · match rest with
      | [] => cases ht
      | [(t', v)] =>
        exact .binary hget (hparts m List.mem_cons_self) (hparts v (List.mem_cons_of_mem _ List.mem_cons_self))
      | _ :: _ :: _ => cases ht
    · match rest with
      | [] | [_] => cases hst
      | [(s', m'), (t', v)] =>
        exact .ternary hget (hparts m List.mem_cons_self) (hparts m' (List.mem_cons_of_mem _ List.mem_cons_self))
          (hparts v (List.mem_cons_of_mem _ (List.mem_cons_of_mem _ List.mem_cons_self)))
      | _ :: _ :: _ :: _ => cases hst
  | @prefixed o' t ts hmem hf hts hl =>
    rw [hl]
    exact .prefixed (hr.isPrefixToken_iff.2 ⟨o', hmem, hf, hts⟩) (hparts ts List.mem_cons_self)
  | @postfixed o' t ts hmem hf hts hl =>
    rw [hl]
    exact .postfixed (hr.isPostfixToken_iff.2 ⟨o', hmem, hf, hts⟩) (hparts ts List.mem_cons_self)

/-- What holds of sections side by side holds of each part. -/
theorem forall_of_forall₂ {R : TokenList → List Token → Prop} {S : TokenList → Tree α → Prop} {P : List Token → Prop}
    {sections : List TokenList} {parts : List (List Token)} {trees : List (Tree α)} (h : List.Forall₂ R sections parts)
    (ht : List.Forall₂ S sections trees) (hP : ∀ s m t, m ∈ parts → R s m → S s t → P m) : ∀ m ∈ parts, P m := by
  induction h generalizing trees with
  | nil => simp
  | cons hs _ ih =>
    obtain ⟨t, ts, hst, hts, rfl⟩ := List.forall₂_cons_left_iff.1 ht
    exact List.forall_mem_cons.2 ⟨hP _ _ t List.mem_cons_self hs hst,
      ih hts fun s m t hm => hP s m t (List.mem_cons_of_mem _ hm)⟩

section Node

variable {buildSection : TokenList → Except ExprError (Tree α)} {reading : Reading α} {t : Tree α}

/-- A call that is built is derivable if the sections that are built for its arguments are. -/
theorem derivable_of_call (hn : g.NamesApart) (hsplit : ∀ t ∈ splitters, t ∈ g.operators.tokens)
    (h : l.Tokenized splitters) (hb : Balanced l.tokens)
    (hbuild : ∀ {s : TokenList} {t : Tree α}, s.Tokenized splitters → Balanced s.tokens → buildSection s = .ok t →
      Derivable g s.tokens)
    (hcall : g.readCall? source l = .ok (some reading)) (ht : @treeOf α source buildSection l reading = .ok t) :
    Derivable g l.tokens := by
  obtain ⟨pre, m, args, -, -, hdepth, hm, hl, hname, hargs, rfl⟩ := exists_of_readCall? hb hcall
  have hpre : (l.slice 0 pre.length).tokens = pre := by rw [tokens_slice, hl]; simp
  obtain ⟨t', ht', hname'⟩ := (h.slice (Nat.zero_le pre.length)).eq_raw hsplit (hn.functions _ hname) rfl
  rw [hpre] at ht'
  rw [← hname'] at hname
  subst ht'
  have hinner : (l.slice 2 (l.size - 1)).tokens = m := tokens_arguments hl
  have hargs' : g.readArguments source l _ (l.slice 2 (l.size - 1)) = .ok args := hargs
  have hsize : l.size = m.length + 3 := by rw [size_eq, hl]; simp
  obtain ⟨trees, htrees, -⟩ := treeOf_call_eq_ok_iff.1 ht
  have hslice := h.slice (a := 2) (b := l.size - 1) (by omega)
  rw [hl]
  rcases exists_of_readArguments (by rw [hinner]; exact hm) hargs' with ⟨hnil, -⟩ | ⟨m', ms, htokens, hparts, hms⟩
  · rw [hinner] at hnil
    rw [hnil]
    exact .callEmpty hname
  · rw [hinner] at htokens
    rw [htokens]
    refine .call hname (forall_of_forall₂ hparts htrees fun s m t hmem hs ht => ?_)
    have hder := hbuild (IsPart.tokenized hs hslice) (by rw [hs.1]; exact hms m hmem) ht.2
    rwa [hs.1] at hder

/-- An operation that is built is derivable if the sections that are built for its operands are. -/
theorem derivable_of_operation (hr : g.operators.Conditional q c o) (h : l.Tokenized splitters) (hb : Balanced l.tokens)
    (hbuild : ∀ {s : TokenList} {t : Tree α}, s.Tokenized splitters → Balanced s.tokens → buildSection s = .ok t →
      Derivable g s.tokens)
    (hop : g.readOperation? l (Mark.ofTokens g.operators l.tokens) g.operators.groups.1 = some reading)
    (ht : @treeOf α source buildSection l reading = .ok t) : Derivable g l.tokens := by
  obtain ⟨parts, hshows, hbalanced⟩ := exists_of_readOperation? hr.toWellFormed hr.avoids hb (fun _ hm => hm) hop
  obtain ⟨position, o', operands, rfl, hparts⟩ := hshows.isPart
  obtain ⟨trees, htrees, -⟩ := treeOf_operation_eq_ok_iff.1 ht
  refine hshows.derivable hr (forall_of_forall₂ hparts htrees fun s m t hmem hs ht => ?_)
  have hder := hbuild (IsPart.tokenized hs h) (by rw [hs.1]; exact hbalanced m hmem) ht
  rwa [hs.1] at hder

end Node

/-- The tokens of a section that is built are derivable. -/
theorem derivable_of_build (hr : g.operators.Calculus q c o) (hn : g.NamesApart)
    (hsplit : ∀ t ∈ splitters, t ∈ g.operators.tokens) {levels : Nat} {t : Tree α} (h : l.Tokenized splitters)
    (hb : Balanced l.tokens) (ht : g.build source g.operators.groups.1 levels l = .ok t) : Derivable g l.tokens := by
  induction levels generalizing l t with
  | zero =>
    rw [build] at ht
    cases ht
  | succ levels ih =>
    obtain ⟨reading, hread, ht⟩ := build_succ_eq_ok_iff.1 ht
    obtain ⟨hends, hcases⟩ := read_cases hread
    rcases hcases with ⟨hin, rfl⟩ | ⟨-, ⟨hvar, rfl⟩ | ⟨-, hcall | ⟨-, hop | ⟨hnone, v, hv, rfl⟩⟩⟩⟩
    · obtain ⟨m, hl, hm, hinner⟩ := exists_of_isInBrackets hb hin
      have hsize : l.size = m.length + 2 := by rw [size_eq, hl]; simp
      rw [treeOf, hinner] at ht
      have := ih (h.slice (by omega)) (by rw [tokens_inner hl]; exact hm) ht
      rw [tokens_inner hl] at this
      rw [hl]
      exact .brackets this
    · obtain ⟨t', ht', hname⟩ := h.eq_raw hsplit (hn.vars _ hvar) rfl
      rw [ht']
      exact .reference (by rw [hname]; exact hvar)
    · exact derivable_of_call hn hsplit h hb ih hcall ht
    · exact derivable_of_operation hr.toConditional h hb ih hop ht
    · obtain ⟨t', w, ht'⟩ := eq_number hr h hsplit hends hb hnone hv
      rw [ht']
      exact .number t' w

/-- The tokens of a list that is parsed are derivable. -/
theorem derivable_of_parse (hr : g.operators.Calculus q c o) (hn : g.NamesApart)
    (hsplit : ∀ t ∈ splitters, t ∈ g.operators.tokens) (h : l.Tokenized splitters) (hb : Balanced l.tokens) {t : Tree α}
    (ht : g.parse source l = .ok t) : Derivable g l.tokens :=
  derivable_of_build hr hn hsplit h hb (build_of_parse ht)

end Grammar

end Mixfix
