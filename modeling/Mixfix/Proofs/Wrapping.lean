import Mixfix.Proofs.Recognition

/-!
# Operands replaced by brackets

Some operands of a token list may be replaced by balanced tokens in brackets (`Wraps`). What is left of the tokens
outside of brackets stands between operands as before: every site of the new tokens is one of the old tokens
(`Wraps.splits`). So if the parts of an operation that is read are replaced in this way, and stay derivable, the same
operation is read with the new parts (`Grammar.readOperation?_of_wraps`): no candidate for the root comes in, and the
root is still there.
-/

namespace Mixfix

variable {α : Type}

/-! ## Tokens around parts -/

namespace TokenList

/-- Parts between frames: each part stands between two of the frames, and frames without parts follow one another. -/
def weave : List (List Token) → List (List Token) → List Token
  | f :: fs, p :: ps => f ++ (p ++ weave fs ps)
  | fs, _ => fs.flatten

theorem joined_eq_weave (m : List Token) (rest : List (Text × List Token)) :
    joined m rest = weave ([] :: (rest.map Prod.fst).map fun t => [.fixed t]) (m :: rest.map Prod.snd) := by
  induction rest generalizing m with
  | nil => simp [joined, weave]
  | cons p rest ih => rw [joined, ih, weave, List.nil_append]; rfl

end TokenList

/-- The tokens of an operator around its operands. -/
def Operator.frames (o : Operator α) : List (List Token) :=
  match o.fixity with
  | .prefixed | .unplaced => [o.tokens.map .fixed]
  | .postfixed => [[], o.tokens.map .fixed]
  | .infixed _ => [] :: o.tokens.map fun t => [.fixed t]

/-! ## Replaced operands -/

/-- The second tokens are the first ones with brackets in place of some operands. -/
inductive Wraps (r : Registry α) : List Token → List Token → Prop
  | nil : Wraps r [] []
  | token {t : Token} {ts ts' : List Token} : Wraps r ts ts' → Wraps r (t :: ts) (t :: ts')
  | operand {w m ts ts' : List Token} : r.Operand w → Balanced m → Wraps r ts ts' →
      Wraps r (w ++ ts) ((.fixed Token.openText :: (m ++ [.fixed Token.closeText])) ++ ts')

namespace Wraps

variable {r : Registry α} {ts ts' us us' a' b' : List Token} {t : Token} {p : Token → Bool}

theorem refl (ts : List Token) : Wraps r ts ts := by
  induction ts with
  | nil => exact .nil
  | cons t ts ih => exact ih.token

theorem append (h : Wraps r ts ts') (hu : Wraps r us us') : Wraps r (ts ++ us) (ts' ++ us') := by
  induction h with
  | nil => exact hu
  | token _ ih => exact ih.token
  | operand hw hm _ ih =>
    rw [List.append_assoc, List.append_assoc]
    exact ih.operand hw hm

/-- An operand is replaced as a whole. -/
theorem whole {w m : List Token} (hw : r.Operand w) (hm : Balanced m) :
    Wraps r w (.fixed Token.openText :: (m ++ [.fixed Token.closeText])) := by
  have h := nil.operand hw hm
  rwa [List.append_nil, List.append_nil] at h

theorem nil_eq (h : Wraps r [] ts') : ts' = [] := by
  generalize hts : ([] : List Token) = ts at h
  cases h with
  | nil => rfl
  | token _ => cases hts
  | operand hw _ _ => exact absurd (List.append_eq_nil_iff.1 hts.symm).1 hw.ne_nil

theorem eq_nil (h : Wraps r ts []) : ts = [] := by
  generalize hts : ([] : List Token) = ts' at h
  cases h with
  | nil => rfl
  | token _ => cases hts
  | operand _ _ _ => cases hts

theorem depth_eq (h : Wraps r ts ts') : bracketDepth ts = bracketDepth ts' := by
  induction h with
  | nil => rfl
  | token _ ih => rw [bracketDepth_cons, bracketDepth_cons, ih]
  | operand hw hm _ ih => rw [bracketDepth_append, bracketDepth_append, hw.balanced.depth_eq, hm.wrap.depth_eq, ih]

/-- Among operator tokens nothing is replaced. -/
theorem eq_of_operatorTokens (hr : r.SparesBrackets) (h : Wraps r ts ts') (ho : ∀ t ∈ ts', r.isOperatorToken t = true) :
    ts = ts' := by
  induction h with
  | nil => rfl
  | token _ ih => rw [ih fun t ht => ho t (List.mem_cons_of_mem _ ht)]
  | operand _ _ _ =>
    have := ho _ (List.mem_append_left _ List.mem_cons_self)
    rw [hr.opening] at this
    cases this

/-- If the new tokens meet an operand behind prefix tokens, so do the old ones. -/
theorem meetsOperand (h : Wraps r ts ts') (hm : r.MeetsOperand r.isPrefixToken ts') :
    r.MeetsOperand r.isPrefixToken ts := by
  induction h with
  | nil => exact hm
  | @token t ts ts' _ ih =>
    rw [Registry.MeetsOperand] at hm ⊢
    split
    · next ht => rw [if_pos ht] at hm; exact ⟨hm.1, ih hm.2⟩
    · trivial
  | operand hw _ _ _ => exact hw.starts.append _

/-- If the new tokens meet an operand before postfix tokens, so do the old ones. -/
theorem meetsOperand_reverse (hr : r.SparesBrackets) (h : Wraps r ts ts')
    (hm : r.MeetsOperand r.isPostfixToken ts'.reverse) : r.MeetsOperand r.isPostfixToken ts.reverse := by
  induction h with
  | nil => exact hm
  | token h ih =>
    rw [List.reverse_cons, Registry.meetsOperand_append] at hm ⊢
    refine hm.imp ih fun ⟨ho, hm⟩ => ⟨?_, hm⟩
    rwa [h.eq_of_operatorTokens hr fun t ht => (ho t (List.mem_reverse.2 ht)).1]
  | operand hw _ h ih =>
    rw [List.reverse_append, Registry.meetsOperand_append] at hm ⊢
    refine hm.imp ih fun ⟨ho, _⟩ => ⟨?_, hw.ends⟩
    rwa [h.eq_of_operatorTokens hr fun t ht => (ho t (List.mem_reverse.2 ht)).1]

theorem depth_pos_of_brackets {m : List Token} (hm : Balanced m) (ht : t.isPlain = true)
    (h : .fixed Token.openText :: (m ++ [.fixed Token.closeText]) = a' ++ t :: b') : 1 ≤ bracketDepth a' := by
  match a' with
  | [] => cases (List.cons.inj h).1; cases ht
  | _ :: a' =>
    obtain ⟨rfl, hrest⟩ := List.cons.inj h
    rcases List.eq_nil_or_concat b' with rfl | ⟨b', x, rfl⟩
    · cases (List.append_inj' hrest rfl).2
      cases ht
    · have hlast : m ++ [Token.fixed Token.closeText] = (a' ++ t :: b') ++ [x] := by simpa using hrest
      have hm' := (List.append_inj' hlast rfl).1
      have := hm.depth_prefix a' _ hm'
      rw [bracketDepth_cons, Token.weight_open]
      omega

/-- A token outside of brackets stands between tokens of which operands are replaced. -/
theorem exists_split (h : Wraps r ts ts') {d : Int} (hd : ∀ u v, ts' = u ++ v → 0 ≤ d + bracketDepth u)
    (ht : t.isPlain = true) (hts : ts' = a' ++ t :: b') (ha : d + bracketDepth a' = 0) :
    ∃ a b, ts = a ++ t :: b ∧ Wraps r a a' ∧ Wraps r b b' := by
  induction h generalizing a' d with
  | nil => exact absurd hts (by simp)
  | @token s ts ts' h ih =>
    match a' with
    | [] =>
      obtain ⟨rfl, rfl⟩ := List.cons.inj hts
      exact ⟨[], ts, rfl, .nil, h⟩
    | _ :: a' =>
      obtain ⟨rfl, rfl⟩ := List.cons.inj hts
      rw [bracketDepth_cons, ← Int.add_assoc] at ha
      obtain ⟨a, b, rfl, haa, hbb⟩ := ih (forall_prefix_cons.1 hd).2 rfl ha
      exact ⟨_ :: a, b, rfl, haa.token, hbb⟩
  | @operand w m ts ts' hw hm h ih =>
    have hbehind {z : List Token} (hz : a' = (.fixed Token.openText :: (m ++ [.fixed Token.closeText])) ++ z)
        (hz' : ts' = z ++ t :: b') : ∃ a b, w ++ ts = a ++ t :: b ∧ Wraps r a a' ∧ Wraps r b b' := by
      rw [hz, bracketDepth_append, hm.wrap.depth_eq, Int.zero_add] at ha
      have hd' : ∀ u v, ts' = u ++ v → 0 ≤ d + bracketDepth u := fun u v huv => by
        have := hd ((.fixed Token.openText :: (m ++ [.fixed Token.closeText])) ++ u) v (by rw [huv, List.append_assoc])
        rwa [bracketDepth_append, hm.wrap.depth_eq, Int.zero_add] at this
      obtain ⟨a, b, rfl, haa, hbb⟩ := ih hd' hz' ha
      exact ⟨w ++ a, b, by simp, by rw [hz]; exact haa.operand hw hm, hbb⟩
    rcases List.append_eq_append_iff.1 hts with ⟨z, hz, hz'⟩ | ⟨z, hz, hz'⟩
    · exact hbehind hz hz'
    · match z with
      | [] => exact hbehind (z := []) (by simpa using hz.symm) (by simpa using hz'.symm)
      | _ :: z =>
        obtain ⟨rfl, -⟩ := List.cons.inj hz'
        have hpos := depth_pos_of_brackets hm ht hz
        have := hd [] _ rfl
        rw [bracketDepth_nil] at this
        omega

/-- A token that stands outside of balanced brackets in the new tokens stands so in the old ones. -/
theorem exists_of_balanced (h : Wraps r ts ts') (hb : Balanced ts') (ht : t.isPlain = true) (hts : ts' = a' ++ t :: b')
    (ha : bracketDepth a' = 0) : ∃ a b, ts = a ++ t :: b ∧ Wraps r a a' ∧ Wraps r b b' :=
  h.exists_split (d := 0) (fun u v huv => by have := hb.depth_prefix u v huv; omega) ht hts (by omega)

/-- A token that may be part of an infix operator between the new tokens may be part of one between the old ones. -/
theorem splits {s : Text} {a b : List Token} (hr : r.SparesBrackets) (ha : Wraps r a a') (hb : Wraps r b b')
    (h : Site.Splits r a' s b') : Site.Splits r a s b := by
  have hcandidate := Registry.canBeInfix_iff.1 h.candidate
  exact ⟨ha.depth_eq.trans h.depth_eq, h.plain, h.infixToken,
    Registry.canBeInfix_iff.2 ⟨ha.meetsOperand_reverse hr hcandidate.1, hb.meetsOperand hcandidate.2⟩⟩

/-! ### Sites -/

variable {l l' : TokenList}

/-- Every site of the new tokens has the text of a site of the old ones. -/
theorem exists_site (hr : r.SparesBrackets) (h : Wraps r ts ts') (hb : Balanced ts') {s' : Site}
    (hs : s' ∈ Site.ofTokens r ts') : ∃ s ∈ Site.ofTokens r ts, s.text = s'.text := by
  obtain ⟨a', b', hts, -, hsplits⟩ := Site.mem_ofTokens.1 hs
  obtain ⟨a, b, hts', ha, hbb⟩ := h.exists_of_balanced hb hsplits.plain hts hsplits.depth_eq
  exact ⟨⟨a.length, s'.text⟩, Site.mem_ofTokens.2 ⟨a, b, hts', rfl, splits hr ha hbb hsplits⟩, rfl⟩

variable {u v u' v' : List Token}

/-- A site of the new tokens before a token has the text of a site of the old ones before this token. -/
theorem exists_site_before (hr : r.SparesBrackets) (hu : Wraps r u u') (hv : Wraps r v v') (hb : Balanced u')
    {s' : Site} (hs : s' ∈ Site.ofTokens r (u' ++ t :: v')) (hlt : s'.index < u'.length) :
    ∃ s ∈ Site.ofTokens r (u ++ t :: v), s.index < u.length ∧ s.text = s'.text := by
  obtain ⟨a', b', hts, hi, hsplits⟩ := Site.mem_ofTokens.1 hs
  obtain ⟨z', hz, rfl⟩ : ∃ z', u' = a' ++ .fixed s'.text :: z' ∧ b' = z' ++ t :: v' := by
    rcases List.append_eq_append_iff.1 hts with ⟨z, rfl, -⟩ | ⟨z, rfl, hz⟩
    · rw [List.length_append] at hi
      omega
    · match z with
      | [] => rw [List.append_nil] at hlt; omega
      | _ :: z =>
        obtain ⟨rfl, rfl⟩ := List.cons.inj hz
        exact ⟨z, rfl, rfl⟩
  obtain ⟨a, z, rfl, ha, hzz⟩ := hu.exists_of_balanced hb hsplits.plain hz hsplits.depth_eq
  refine ⟨⟨a.length, s'.text⟩, Site.mem_ofTokens.2 ⟨a, z ++ t :: v, by simp, rfl, ?_⟩, by simp, rfl⟩
  exact splits hr ha (hzz.append hv.token) hsplits

/-- A site of the new tokens behind a token has the text of a site of the old ones behind this token. -/
theorem exists_site_behind (hr : r.SparesBrackets) (hu : Wraps r u u') (hv : Wraps r v v') (hb : Balanced v')
    (hdepth : bracketDepth (u' ++ [t]) = 0) {s' : Site} (hs : s' ∈ Site.ofTokens r (u' ++ t :: v'))
    (hlt : u'.length < s'.index) : ∃ s ∈ Site.ofTokens r (u ++ t :: v), u.length < s.index ∧ s.text = s'.text := by
  obtain ⟨a', b', hts, hi, hsplits⟩ := Site.mem_ofTokens.1 hs
  obtain ⟨z', rfl, hz⟩ : ∃ z', a' = u' ++ t :: z' ∧ v' = z' ++ .fixed s'.text :: b' := by
    rcases List.append_eq_append_iff.1 hts with ⟨z, rfl, hz⟩ | ⟨z, rfl, -⟩
    · match z with
      | [] => rw [List.append_nil] at hi; omega
      | _ :: z =>
        obtain ⟨rfl, rfl⟩ := List.cons.inj hz
        exact ⟨z, rfl, rfl⟩
    · rw [List.length_append] at hlt
      omega
  have hz' : bracketDepth z' = 0 := by
    have := hsplits.depth_eq
    rw [List.append_cons, bracketDepth_append, hdepth] at this
    omega
  obtain ⟨z, b, rfl, hzz, hbb⟩ := hv.exists_of_balanced hb hsplits.plain hz hz'
  refine ⟨⟨(u ++ t :: z).length, s'.text⟩, Site.mem_ofTokens.2 ⟨u ++ t :: z, b, by simp, rfl, ?_⟩, ?_, rfl⟩
  · exact splits hr (hu.append hzz.token) hbb hsplits
  · simp

theorem weave {parts parts' : List (List Token)} (fs : List (List Token)) (h : List.Forall₂ (Wraps r) parts parts') :
    Wraps r (TokenList.weave fs parts)
    (TokenList.weave fs parts') := by
  induction h generalizing fs with
  | nil => exact refl _
  | cons hp _ ih =>
    match fs with
    | [] => exact .nil
    | f :: fs => exact (refl f).append (hp.append (ih fs))

/-! ### Ends -/

theorem exists_cons (h : Wraps r ts (t :: ts')) (ht : t.isPlain = true) :
    ∃ rest, ts = t :: rest ∧ Wraps r rest ts' := by
  generalize hts : t :: ts' = us at h
  cases h with
  | nil => cases hts
  | token h =>
    obtain ⟨rfl, rfl⟩ := List.cons.inj hts
    exact ⟨_, rfl, h⟩
  | operand _ _ _ =>
    rw [(List.cons.inj hts).1] at ht
    cases ht

theorem exists_concat (h : Wraps r ts (ts' ++ [t])) (hb : Balanced (ts' ++ [t])) (ht : t.isPlain = true) :
    ∃ rest, ts = rest ++ [t] ∧ Wraps r rest ts' := by
  have hdepth := hb.depth_eq
  rw [bracketDepth_append, bracketDepth_cons, Token.weight_of_plain ht, bracketDepth_nil] at hdepth
  obtain ⟨a, b, hts, ha, hbb⟩ := h.exists_of_balanced hb ht rfl (by omega)
  exact ⟨a, by rw [hts, hbb.eq_nil], ha⟩

end Wraps

/-! ## Sites around a site -/

namespace Site

variable {ss pre post : List Site} {s s' : Site}

theorem exists_around (hp : ss.Pairwise fun a b => a.index < b.index) (hs : s ∈ ss) :
    ∃ pre post, ss = pre ++ s :: post ∧ (∀ s' ∈ pre, s'.index < s.index) ∧ ∀ s' ∈ post, s.index < s'.index := by
  obtain ⟨pre, post, rfl⟩ := List.append_of_mem hs
  obtain ⟨-, hpost, hpre⟩ := List.pairwise_append.1 hp
  exact ⟨pre, post, rfl, fun s' hs' => hpre s' hs' s List.mem_cons_self, (List.pairwise_cons.1 hpost).1⟩

theorem mem_of_lt (hp : (pre ++ s :: post).Pairwise fun a b => a.index < b.index) (hs : s' ∈ pre ++ s :: post)
    (hlt : s'.index < s.index) : s' ∈ pre := by
  rcases List.mem_append.1 hs with hs | hs
  · exact hs
  · obtain ⟨-, hpost, -⟩ := List.pairwise_append.1 hp
    rcases List.mem_cons.1 hs with rfl | hs
    · omega
    · have := (List.pairwise_cons.1 hpost).1 s' hs
      omega

theorem mem_of_gt (hp : (pre ++ s :: post).Pairwise fun a b => a.index < b.index) (hs : s' ∈ pre ++ s :: post)
    (hlt : s.index < s'.index) : s' ∈ post := by
  obtain ⟨-, -, hpre⟩ := List.pairwise_append.1 hp
  rcases List.mem_append.1 hs with hs | hs
  · have := hpre s' hs s List.mem_cons_self
    omega
  · rcases List.mem_cons.1 hs with rfl | hs
    · omega
    · exact hs

end Site

namespace Grammar

open Wraps

variable {g : Grammar α} {r : Registry α} {group : Group α} {l l' : TokenList} {o : Operator α}
  {parts parts' : List (List Token)} {ts ts' : List Token}

/-! ## Candidates for the root -/

/-- No prefix operator comes to the start. -/
theorem readPrefix?_of_wraps (hr : r.Separate) (hm : group ∈ r.groups.1) (hw : Wraps r l.tokens l'.tokens)
    (h : readPrefix? l group = none) : readPrefix? l' group = none := by
  refine readPrefix?_eq_none_iff.2 fun t rest' htokens hne => Option.eq_none_iff_forall_ne_some.2 fun o ho => ?_
  obtain ⟨hmem, -, hts⟩ := hr.consistent hm .prefixed [t] o ho
  have hplain := Token.isPlain_of_not_builtin (hr.isBuiltin_of_mem hmem (by rw [hts]; exact List.mem_singleton_self t))
  rw [htokens] at hw
  obtain ⟨rest, hrest, hw'⟩ := hw.exists_cons hplain
  rw [readPrefix?_eq_none_iff.1 h t rest hrest fun hnil => hne (by rw [hnil] at hw'; exact hw'.nil_eq)] at ho
  cases ho

/-- No postfix operator comes to the end. -/
theorem readPostfix?_of_wraps (hr : r.Separate) (hm : group ∈ r.groups.1) (hw : Wraps r l.tokens l'.tokens)
    (hb : Balanced l'.tokens) (h : readPostfix? l group = none) : readPostfix? l' group = none := by
  refine readPostfix?_eq_none_iff.2 fun t rest' htokens hne => Option.eq_none_iff_forall_ne_some.2 fun o ho => ?_
  obtain ⟨hmem, -, hts⟩ := hr.consistent hm .postfixed [t] o ho
  have hplain := Token.isPlain_of_not_builtin (hr.isBuiltin_of_mem hmem (by rw [hts]; exact List.mem_singleton_self t))
  rw [htokens] at hw hb
  obtain ⟨rest, hrest, hw'⟩ := hw.exists_concat hb hplain
  rw [readPostfix?_eq_none_iff.1 h t rest hrest fun hnil => hne (by rw [hnil] at hw'; exact hw'.nil_eq)] at ho
  cases ho

/-- No operator that the old tokens have no site of has one in the new tokens. -/
theorem get?_of_wraps (hr : r.SparesBrackets) (hw : Wraps r l.tokens l'.tokens) (hb : Balanced l'.tokens)
    {t : Trie Text (Operator α)} (h : ∀ s ∈ Site.ofTokens r l.tokens, t.get? [s.text] = none) :
    ∀ s ∈ Site.ofTokens r l'.tokens, t.get? [s.text] = none := by
  intro s' hs'
  obtain ⟨s, hs, htext⟩ := hw.exists_site hr hb hs'
  rw [← htext]
  exact h s hs

/-- A group without a candidate among the old tokens has none among the new ones. -/
theorem Silent.wraps (hr : r.Separate) (hm : group ∈ r.groups.1) (h : Silent r l group)
    (hw : Wraps r l.tokens l'.tokens) (hb : Balanced l'.tokens) : Silent r l' group where
  right := get?_of_wraps hr.toWellFormed.sparesBrackets hw hb h.right
  left := get?_of_wraps hr.toWellFormed.sparesBrackets hw hb h.left
  before := readPrefix?_of_wraps hr hm hw h.before
  behind := readPostfix?_of_wraps hr hm hw hb h.behind

theorem parts_unique {ss : List TokenList} {ps ps' : List (List Token)} (h : List.Forall₂ l.IsPart ss ps)
    (h' : List.Forall₂ l.IsPart ss ps') : ps = ps' := by
  induction h generalizing ps' with
  | nil => exact (List.forall₂_nil_left_iff.1 h').symm
  | cons hs _ ih =>
    obtain ⟨m, ms, hm, hms, rfl⟩ := List.forall₂_cons_left_iff.1 h'
    rw [ih hms, ← hs.1, hm.1]

/-- The token of a site with the tokens before and behind it, old and new, where the new ones are operands. -/
structure Kept (r : Registry α) (l l' : TokenList) (s : Site) (u v u' v' : List Token) : Prop where
  index_eq : s.index = u.length
  plain : (Token.fixed s.text).isPlain = true
  old : l.tokens = u ++ .fixed s.text :: v
  new : l'.tokens = u' ++ .fixed s.text :: v'
  before : Wraps r u u'
  behind : Wraps r v v'
  left : r.Operand u'
  right : r.Operand v'
  mem : ⟨u'.length, s.text⟩ ∈ Site.ofTokens r l'.tokens

namespace Kept

variable {s x : Site} {u v u' v' : List Token} (h : Kept r l l' s u v u' v')

include h

theorem wraps : Wraps r l.tokens l'.tokens := by
  rw [h.old, h.new]
  exact h.before.append h.behind.token

theorem balanced : Balanced l'.tokens := by
  rw [h.new]
  exact h.left.balanced.append ((Balanced.singleton h.plain).append h.right.balanced)

/-- What stands before the token in the new tokens stands before it in the old ones. -/
theorem exists_before (hr : r.SparesBrackets) (hx : x ∈ Site.ofTokens r l'.tokens) (hlt : x.index < u'.length) :
    ∃ y ∈ Site.ofTokens r l.tokens, y.index < s.index ∧ y.text = x.text := by
  rw [h.new] at hx
  rw [h.old, h.index_eq]
  exact exists_site_before hr h.before h.behind h.left.balanced hx hlt

/-- What stands behind the token in the new tokens stands behind it in the old ones. -/
theorem exists_behind (hr : r.SparesBrackets) (hx : x ∈ Site.ofTokens r l'.tokens) (hlt : u'.length < x.index) :
    ∃ y ∈ Site.ofTokens r l.tokens, s.index < y.index ∧ y.text = x.text := by
  have hdepth : bracketDepth (u' ++ [Token.fixed s.text]) = 0 := by
    rw [bracketDepth_append, h.left.balanced.depth_eq, bracketDepth_cons, Token.weight_of_plain h.plain]
    rfl
  rw [h.new] at hx
  rw [h.old, h.index_eq]
  exact exists_site_behind hr h.before h.behind h.right.balanced hdepth hx hlt

end Kept

/-- The token of an infix operator keeps its place between the parts. -/
theorem exists_kept {a : Associativity} {s : Site} (hr : r.Separate) (hm : group ∈ r.groups.1)
    (ho : group.get? (.infixed a) [s.text] = some o) (hs : s ∈ Site.ofTokens r l.tokens)
    (hparts : List.Forall₂ l.IsPart (l.cutAt [s.index]) parts) (hw : List.Forall₂ (Wraps r) parts parts')
    (hop : ∀ m ∈ parts', r.Operand m) (hl' : l'.tokens = TokenList.weave o.frames parts') :
    ∃ u v u' v', Kept r l l' s u v u' v' ∧
      Shows r l' (.operation (l'.positionAt u'.length) o (l'.cutAt [u'.length])) parts' := by
  obtain ⟨hmem, hf, hts⟩ := hr.consistent hm _ _ _ ho
  obtain ⟨u, v, htokens, hi, hsplits⟩ := Site.mem_ofTokens.1 hs
  have hcut := @TokenList.cutAt_joints l u [(s.text, v)] htokens
  have hjoints : TokenList.joints 0 u [(s.text, v)] = [s.index] := by simp [TokenList.joints, hi]
  rw [hjoints] at hcut
  obtain rfl := parts_unique hparts hcut
  obtain ⟨u', rest', hu, hrest, rfl⟩ := List.forall₂_cons_left_iff.1 hw
  obtain ⟨v', rest', hv, hnil, rfl⟩ := List.forall₂_cons_left_iff.1 hrest
  obtain rfl := List.forall₂_nil_left_iff.1 hnil
  have hl : l'.tokens = u' ++ .fixed s.text :: v' := by
    rw [hl', Operator.frames, hf, hts]
    simp [TokenList.weave]
  have hu' := hop u' List.mem_cons_self
  have hv' := hop v' (List.mem_cons_of_mem _ List.mem_cons_self)
  have hcandidate := hu'.canBeInfix hv' [] []
  rw [List.append_nil, List.append_nil] at hcandidate
  exact ⟨u, v, u', v', ⟨hi, hsplits.plain, htokens, hl, hu, hv, hu', hv', Site.mem_ofTokens.2 ⟨u', v', hl, rfl,
    hu'.balanced.depth_eq, hsplits.plain, hsplits.infixToken, hcandidate⟩⟩, .binary hmem ⟨a, hf⟩ hts hl⟩

/-- The operand of a prefix or postfix operator is a single part. -/
theorem exists_part {part : TokenList} {p : List Token} (hpart : l.IsPart part p)
    (hparts : List.Forall₂ l.IsPart [part] parts)
    (hw : List.Forall₂ (Wraps r) parts parts') : ∃ p', parts' = [p'] ∧ Wraps r p p' := by
  obtain rfl := parts_unique hparts (.cons hpart .nil)
  obtain ⟨p', rest', hp, hnil, rfl⟩ := List.forall₂_cons_left_iff.1 hw
  obtain rfl := List.forall₂_nil_left_iff.1 hnil
  exact ⟨p', rfl, hp⟩

/-- A prefix operator that is read at the start is read at the start of the new tokens. -/
theorem exists_readPrefix?_of_wraps {position : Int} {operands : List TokenList} (hr : r.Separate)
    (hm : group ∈ r.groups.1) (h : readPrefix? l group = some (.operation position o operands))
    (hparts : List.Forall₂ l.IsPart operands parts) (hw : List.Forall₂ (Wraps r) parts parts')
    (hop : ∀ m ∈ parts', r.Operand m) (hl' : l'.tokens = TokenList.weave o.frames parts') :
    Wraps r l.tokens l'.tokens ∧ Balanced l'.tokens ∧ ∃ operands',
      readPrefix? l' group = some (.operation l'.position o operands') ∧
        Shows r l' (.operation l'.position o operands') parts' := by
  obtain ⟨t, o', rest, hl, -, ho, heq⟩ := readPrefix?_eq_some_iff.1 h
  cases heq
  obtain ⟨hmem, hf, hts⟩ := hr.consistent hm .prefixed [t] o ho
  have hplain := Token.isPlain_of_not_builtin (hr.isBuiltin_of_mem hmem (by rw [hts]; exact List.mem_singleton_self t))
  obtain ⟨_, _, _, hoperands, hp⟩ := (Shows.prefixed hmem hf hts hl).isPart
  cases hoperands
  obtain ⟨rest', rfl, hrest⟩ := exists_part (List.forall₂_cons.1 hp).1 hparts hw
  have hrest' := hop rest' List.mem_cons_self
  have hl' : l'.tokens = .fixed t :: rest' := by
    rw [hl', Operator.frames, hf, hts]
    simp [TokenList.weave]
  refine ⟨by rw [hl, hl']; exact hrest.token, ?_, _,
    readPrefix?_eq_some_iff.2 ⟨t, o, rest', hl', hrest'.ne_nil, ho, rfl⟩, .prefixed hmem hf hts hl'⟩
  rw [hl']
  exact (Balanced.singleton hplain).append hrest'.balanced

/-- A postfix operator that is read at the end is read at the end of the new tokens. -/
theorem exists_readPostfix?_of_wraps {position : Int} {operands : List TokenList} (hr : r.Separate)
    (hm : group ∈ r.groups.1) (h : readPostfix? l group = some (.operation position o operands))
    (hparts : List.Forall₂ l.IsPart operands parts) (hw : List.Forall₂ (Wraps r) parts parts')
    (hop : ∀ m ∈ parts', r.Operand m) (hl' : l'.tokens = TokenList.weave o.frames parts') :
    Wraps r l.tokens l'.tokens ∧ Balanced l'.tokens ∧ ∃ position' operands',
      readPostfix? l' group = some (.operation position' o operands') ∧
        Shows r l' (.operation position' o operands') parts' := by
  obtain ⟨t, o', rest, hl, -, ho, heq⟩ := readPostfix?_eq_some_iff.1 h
  cases heq
  obtain ⟨hmem, hf, hts⟩ := hr.consistent hm .postfixed [t] o ho
  have hplain := Token.isPlain_of_not_builtin (hr.isBuiltin_of_mem hmem (by rw [hts]; exact List.mem_singleton_self t))
  obtain ⟨_, _, _, hoperands, hp⟩ := (Shows.postfixed hmem hf hts hl).isPart
  cases hoperands
  obtain ⟨rest', rfl, hrest⟩ := exists_part (List.forall₂_cons.1 hp).1 hparts hw
  have hrest' := hop rest' List.mem_cons_self
  have hl' : l'.tokens = rest' ++ [.fixed t] := by
    rw [hl', Operator.frames, hf, hts]
    simp [TokenList.weave]
  refine ⟨by rw [hl, hl']; exact hrest.append (refl _), ?_, _, _,
    readPostfix?_eq_some_iff.2 ⟨t, o, rest', hl', hrest'.ne_nil, ho, rfl⟩, .postfixed hmem hf hts hl'⟩
  rw [hl']
  exact hrest'.balanced.append (.singleton hplain)

/-- The operator of a root that a group has is still its root among the new tokens. -/
theorem IsRoot.wraps {position : Int} {operands : List TokenList} (hr : r.Separate) (hm : group ∈ r.groups.1)
    (h : IsRoot r l group (.operation position o operands)) (hparts : List.Forall₂ l.IsPart operands parts)
    (hw : List.Forall₂ (Wraps r) parts parts') (hop : ∀ m ∈ parts', r.Operand m)
    (hl' : l'.tokens = TokenList.weave o.frames parts') : ∃ position' operands',
      IsRoot r l' group (.operation position' o operands') ∧ Shows r l' (.operation position' o operands') parts' := by
  have hspares := hr.toWellFormed.sparesBrackets
  have hpair := @Site.pairwise_ofTokens _ r l.tokens
  generalize hreading : Reading.operation position o operands = op at h
  cases h with
  | @right pre post s o' hsites hpre ho =>
    cases hreading
    obtain ⟨u, v, u', v', hkept, hshows⟩ := exists_kept hr hm (a := .right) ho
      (by rw [hsites]; exact List.mem_append_right _ List.mem_cons_self) hparts hw hop hl'
    obtain ⟨pre', post', hsites', hbefore, -⟩ := Site.exists_around (Site.pairwise_ofTokens _) hkept.mem
    refine ⟨_, _, .right hsites' (fun x hx => ?_) ho, hshows⟩
    obtain ⟨y, hy, hlt, htext⟩ :=
      hkept.exists_before hspares (by rw [hsites']; exact List.mem_append_left _ hx) (hbefore x hx)
    rw [hsites] at hy hpair
    rw [← htext]
    exact hpre y (Site.mem_of_lt hpair hy hlt)
  | @left pre post s o' hsites hright hpost ho =>
    cases hreading
    obtain ⟨u, v, u', v', hkept, hshows⟩ := exists_kept hr hm (a := .left) ho
      (by rw [hsites]; exact List.mem_append_right _ List.mem_cons_self) hparts hw hop hl'
    obtain ⟨pre', post', hsites', -, hbehind⟩ := Site.exists_around (Site.pairwise_ofTokens _) hkept.mem
    refine ⟨_, _, .left hsites' (get?_of_wraps hspares hkept.wraps hkept.balanced hright) (fun x hx => ?_) ho, hshows⟩
    obtain ⟨y, hy, hlt, htext⟩ := hkept.exists_behind hspares
      (by rw [hsites']; exact List.mem_append_right _ (List.mem_cons_of_mem _ hx)) (hbehind x hx)
    rw [hsites] at hy hpair
    rw [← htext]
    exact hpost y (Site.mem_of_gt hpair hy hlt)
  | before hright hleft hread =>
    rw [← hreading] at hread
    obtain ⟨hwraps, hb, operands', hread', hshows⟩ := exists_readPrefix?_of_wraps hr hm hread hparts hw hop hl'
    exact ⟨_, _, .before (get?_of_wraps hspares hwraps hb hright) (get?_of_wraps hspares hwraps hb hleft)
      hread', hshows⟩
  | behind hright hleft hbefore hread =>
    rw [← hreading] at hread
    obtain ⟨hwraps, hb, position', operands', hread', hshows⟩ :=
      exists_readPostfix?_of_wraps hr hm hread hparts hw hop hl'
    exact ⟨_, _, .behind (get?_of_wraps hspares hwraps hb hright) (get?_of_wraps hspares hwraps hb hleft)
      (readPrefix?_of_wraps hr hm hwraps hbefore) hread', hshows⟩

/-! ## The root that is read -/

theorem Shows.tokens_eq {position : Int} {operands : List TokenList}
    (h : Shows r l (.operation position o operands) parts) : l.tokens = TokenList.weave o.frames parts := by
  cases h with
  | @infixed _ m rest _ hf hts hl =>
    obtain ⟨a, hf⟩ := hf
    rw [hl, TokenList.joined_eq_weave, Operator.frames, hf, hts]
  | prefixed _ hf hts hl =>
    rw [hl, Operator.frames, hf, hts]
    simp [TokenList.weave]
  | postfixed _ hf hts hl =>
    rw [hl, Operator.frames, hf, hts]
    simp [TokenList.weave]

variable {q c : Text} {o₀ : Operator α}

/-- Simple tokens stay simple. -/
theorem simple_of_wraps (hr : g.operators.Conditional q c o₀) (h : Simple g ts) (hw : Wraps g.operators ts ts')
    (hd : Derivable g ts') : Simple g ts' := by
  rcases hd.simple_or with hs | ⟨s, t, u, m, v, rfl, hst, hu, hm, hv⟩
  · exact hs
  · obtain ⟨hb, -, hi⟩ := hr.of_infix hst List.mem_cons_self
    have hum := hu.derivable.operand hr.toSeparate
    have hcandidate := hum.canBeInfix ((hm.operand hr.toSeparate).infixed (hv.operand hr.toSeparate)
      (hr.of_infix hst (List.mem_cons_of_mem _ List.mem_cons_self)).1) [] []
    rw [List.append_nil, List.append_nil] at hcandidate
    have hsite : (⟨u.length, s⟩ : Site) ∈ Site.ofTokens g.operators (u ++ .fixed s :: (m ++ .fixed t :: v)) :=
      Site.mem_ofTokens.2 ⟨u, _, rfl, rfl, hum.balanced.depth_eq, Token.isPlain_of_not_builtin hb, hi, hcandidate⟩
    obtain ⟨x, hx, htext⟩ := hw.exists_site hr.toWellFormed.sparesBrackets (hd.operand hr.toSeparate).balanced hsite
    exact absurd (by rw [htext]; exact List.mem_cons_self) (h.sites hr.toSeparate hr.toExclusive x hx s t hst)

/-- Where no operator of two tokens stands outside of brackets, the operation that is read is still read. -/
theorem readOperation?_of_wraps_simple (hr : g.operators.Conditional q c o₀) {position : Int}
    {operands : List TokenList} (h : g.readOperation? l (Mark.ofTokens g.operators l.tokens) g.operators.groups.1 =
      some (.operation position o operands))
    (hl : Simple g l.tokens) (hparts : List.Forall₂ l.IsPart operands parts)
    (hw : List.Forall₂ (Wraps g.operators) parts parts') (hd : ∀ m ∈ parts', Derivable g m)
    (hl' : l'.tokens = TokenList.weave o.frames parts') : ∃ position' operands',
      g.readOperation? l' (Mark.ofTokens g.operators l'.tokens) g.operators.groups.1 =
        some (.operation position' o operands') ∧ Shows g.operators l' (.operation position' o operands') parts' := by
  obtain ⟨pre, group, post, hleads⟩ := hr.exists_leads
  have hb := (hl.derivable.operand hr.toSeparate).balanced
  have hsome : (g.operators.infixOps.get? [q, c]).isSome = true := by rw [hr.get?_eq]; rfl
  have hsites {ts : List Token} (hs : Simple g ts) : ∀ x ∈ Site.ofTokens g.operators ts, x.text ≠ q := fun x hx heq =>
    hs.sites hr.toSeparate hr.toExclusive x hx q c hsome (by rw [heq]; exact List.mem_cons_self)
  obtain ⟨parts₀, hshows, -⟩ := exists_of_readOperation? hr.toWellFormed hr.avoids hb (fun _ hm => hm) h
  obtain ⟨_, _, _, heq, hparts₀⟩ := hshows.isPart
  cases heq
  obtain rfl := parts_unique hparts hparts₀
  have hwraps : Wraps g.operators l.tokens l'.tokens := by
    rw [hshows.tokens_eq, hl']
    exact weave o.frames hw
  rw [readOperation?_of_sites hr hleads hb (hsites hl)] at h
  rcases readOperation?_of_flat hb hleads.behind with
    ⟨hnone, -⟩ | ⟨op, pre', group', post', hread, hpost, hsilent, hroot⟩
  · rw [hnone] at h
    cases h
  · rw [hread] at h
    cases h
    have hmem {group : Group α} (hm : group ∈ pre' ++ group' :: post') : group ∈ g.operators.groups.1 := by
      rw [hleads.groups_eq, hpost]
      exact List.mem_append_right _ (List.mem_cons_of_mem _ hm)
    obtain ⟨position', operands', hroot', hshows'⟩ := hroot.wraps hr.toSeparate
      (hmem (List.mem_append_right _ List.mem_cons_self)) hparts hw (fun m hm => (hd m hm).operand hr.toSeparate) hl'
    have hder' := hshows'.derivable hr hd
    have hb' := (hder'.operand hr.toSeparate).balanced
    refine ⟨position', operands', ?_, hshows'⟩
    rw [readOperation?_of_sites hr hleads hb' (hsites (simple_of_wraps hr hl hwraps hder')), hpost]
    refine readOperation?_of_first hb' (fun group hm => hleads.behind group (by rw [hpost]; exact hm))
      (fun group hm => ?_) hroot'
    exact (hsilent group hm).wraps hr.toSeparate (hmem (List.mem_append_left _ hm)) hwraps hb'

/-- The operation that is read is still read when operands of its parts are replaced, if the parts stay derivable. -/
theorem readOperation?_of_wraps (hr : g.operators.Conditional q c o₀) {position : Int} {operands : List TokenList}
    (h : g.readOperation? l (Mark.ofTokens g.operators l.tokens) g.operators.groups.1 =
      some (.operation position o operands))
    (hl : Derivable g l.tokens) (hparts : List.Forall₂ l.IsPart operands parts)
    (hw : List.Forall₂ (Wraps g.operators) parts parts') (hd : ∀ m ∈ parts', Derivable g m)
    (hl' : l'.tokens = TokenList.weave o.frames parts') : ∃ position' operands',
      g.readOperation? l' (Mark.ofTokens g.operators l'.tokens) g.operators.groups.1 =
        some (.operation position' o operands') ∧ Shows g.operators l' (.operation position' o operands') parts' := by
  rcases hl.simple_or with hs | ⟨s, t, u, m, v, htokens, hst, hu, hm, hv⟩
  · exact readOperation?_of_wraps_simple hr h hs hparts hw hd hl'
  · obtain ⟨rfl, rfl⟩ := hr.eq_of_pair hst
    have hread := @readOperation?_ternary _ g l s t o₀ hr u m v hu hm hv htokens
    rw [hread] at h
    cases h
    obtain rfl := parts_unique hparts (@TokenList.cutAt_joints l u [(s, m), (t, v)] htokens)
    obtain ⟨u', mv', hwu, hmv, rfl⟩ := List.forall₂_cons_left_iff.1 hw
    obtain ⟨m', v', -, hvs, rfl⟩ := List.forall₂_cons_left_iff.1 hmv
    obtain ⟨v', _, -, hnil, rfl⟩ := List.forall₂_cons_left_iff.1 hvs
    obtain rfl := List.forall₂_nil_left_iff.1 hnil
    have hjoined : l'.tokens = TokenList.joined u' [(s, m'), (t, v')] := by
      rw [hl', Operator.frames, hr.fixity_eq, hr.tokens_eq]
      simp [TokenList.weave, TokenList.joined]
    simp only [List.forall_mem_cons] at hd
    exact ⟨_, _, readOperation?_ternary hr (simple_of_wraps hr hu hwu hd.1) hd.2.1 hd.2.2.1 hjoined,
      .ternary hr.mem ⟨_, hr.fixity_eq⟩ hr.tokens_eq hjoined⟩

end Grammar

end Mixfix
