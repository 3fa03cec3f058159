import Mixfix.Proofs.Derivation
import Mixfix.Proofs.Flat
import Mixfix.TokenList.OfText

/-!
# Precedence and associativity

Where infix operators have one token each, the tree of a token list follows the priorities of its operators
(`Grammar.parse_ranked`): below an infix operator stand only infix operators that bind at least as tightly, unless they
are in brackets, and operators of one priority group by their associativity; below a prefix or postfix operator stand
only infix operators that bind more tightly.

The proof goes section by section. An infix operator below a section, outside of brackets, is a site of the section
(`Grammar.SitesBelow`), since the tokens that may be part of an infix operator can only become fewer when the section is
cut. The root of the section is the site that comes first in the order of the groups, so every other site binds at
least as tightly (`Grammar.rank_le_of_site`).
-/

namespace Mixfix

variable {α : Type}

/-- How many brackets are open at an index. -/
def TokenList.depthAt (l : TokenList) (i : Nat) : Int := bracketDepth (l.tokens.take i)

namespace Derivation

/-- The operators below a node, outside of the brackets that the node is not in, go with the operator of the node. -/
def Ranked (full : TokenList) (r : Registry α) : Derivation α → Prop
  | .infixed start stop point o left right =>
    (∀ d ∈ left.subs ++ right.subs, ∀ i o', d.infix? = some (i, o') → full.depthAt i = full.depthAt point →
      o.priority ≤ o'.priority ∧
        ((o'.priority == o.priority) = true → o.fixity = .infixed .left →
          o'.fixity = .infixed .left ∧ d ∈ left.subs) ∧
        ((o'.priority == o.priority) = true → o.fixity = .infixed .right → o'.fixity = .infixed .right →
          d ∈ right.subs)) ∧
      (∀ t o', full.tokens[start]? = some (.fixed t) → r.prefixOps.get? t = some o' → o.priority ≤ o'.priority) ∧
        ∀ t o', full.tokens[stop - 1]? = some (.fixed t) → r.postfixOps.get? t = some o' → o.priority ≤ o'.priority
  | .prefixed point o operand | .postfixed point o operand =>
    ∀ d ∈ operand.subs, ∀ i o', d.infix? = some (i, o') → full.depthAt i = full.depthAt point → o.priority < o'.priority
  | _ => True

end Derivation

namespace Grammar

open Priority

variable {g : Grammar α} {source : Text} {r : Registry α} {full l : TokenList} {start : Nat}

/-! ## Depths of sections -/

theorem depthAt_of_shows (h : l.Shows full start) {i : Nat} (hi : i ≤ l.size) :
    full.depthAt (start + i) = full.depthAt start + bracketDepth (l.tokens.take i) := by
  rw [TokenList.depthAt, TokenList.depthAt, List.take_add, bracketDepth_append, h.tokens_eq, List.take_take,
    Nat.min_eq_left hi]

theorem getElem?_of_shows (h : l.Shows full start) {i : Nat} (hi : i < l.size) :
    full.tokens[start + i]? = l.tokens[i]? := by
  rw [h.tokens_eq, List.getElem?_take_of_lt hi, List.getElem?_drop]

/-! ## Infix operators below a section -/

/-- The infix operators of a derivation stand among some tokens from an index on, and those outside of brackets are
sites of these tokens. -/
def SitesBelow (full : TokenList) (r : Registry α) (start : Nat) (ts : List Token) (d : Derivation α) : Prop :=
  ∀ d' ∈ d.subs, ∀ i o, d'.infix? = some (i, o) → start ≤ i ∧ i < start + ts.length ∧
    (full.depthAt i = full.depthAt start →
      ∃ s ∈ Site.ofTokens r ts, i = start + s.index ∧ r.infixOps.get? [s.text] = some o)

/-! ## The order of the roots -/

section Order

variable {pre post : List (Group α)} {group : Group α} {o : Operator α}

/-- The assumptions on a registry: no operator has several tokens and stands between operands, none uses a bracket or
the separator, and no priority is NaN. -/
structure Binary (r : Registry α) : Prop extends r.WellFormed where
  single : ∀ o ∈ r.operators, (∃ a, o.fixity = .infixed a) → ∃ t, o.tokens = [t]
  avoids : r.AvoidsBuiltins
  notNaN : ∀ o ∈ r.operators, o.priority.isNaN = false

theorem Binary.isFlat (hr : Binary r) (hm : group ∈ r.groups.1) : group.IsFlat :=
  (hr.sound hm).isFlat fun a ts o ho => by
    obtain ⟨hmem, hf, htokens⟩ := hr.consistent hm (.infixed a) ts o ho
    rw [← htokens]
    exact hr.single o hmem ⟨a, hf⟩

/-- Groups that do not come before a group bind at least as tightly, and more tightly if they are others. -/
theorem rank_le_of_not_mem (hr : Binary r) (hgs : r.groups.1 = pre ++ group :: post) {group' : Group α}
    (hm : group' ∈ r.groups.1) (hnot : group' ∉ pre) :
    rank group.priority ≤ rank group'.priority ∧ (rank group'.priority = rank group.priority → group' = group) := by
  have hpair := hr.pairwise_groups hr.notNaN
  rw [hgs] at hpair hm
  have hlt := (List.pairwise_cons.1 (List.pairwise_append.1 hpair).2.1).1
  rcases List.mem_cons.1 ((List.mem_append.1 hm).resolve_left hnot) with rfl | hpost
  · exact ⟨le_refl _, fun _ => rfl⟩
  · exact ⟨(hlt group' hpost).le, fun heq => absurd heq (hlt group' hpost).ne'⟩

/-- The operator of a site binds at least as tightly as the group of the root, and belongs to it if it binds equally. -/
theorem rank_le_of_site (hr : Binary r) (hgs : r.groups.1 = pre ++ group :: post)
    (hpre : ∀ group' ∈ pre, Silent r l group') {s : Site} (hs : s ∈ Site.ofTokens r l.tokens)
    (ho : r.infixOps.get? [s.text] = some o) :
    rank group.priority ≤ rank o.priority ∧ (rank o.priority = rank group.priority → group.Holds o) := by
  obtain ⟨⟨a, hf⟩, htokens, -⟩ := hr.infix_eq _ _ ho
  obtain ⟨group', hm, hholds⟩ := hr.exists_holds (hr.mem_of_infix ho)
  have hrank := hr.rank_eq_of_holds hr.notNaN hm hholds
  have hnot : group' ∉ pre := by
    intro hp
    rw [Group.Holds, hf, htokens] at hholds
    cases a with
    | left =>
      have := (hpre group' hp).left s hs
      rw [Group.get?, this] at hholds
      cases hholds
    | right =>
      have := (hpre group' hp).right s hs
      rw [Group.get?, this] at hholds
      cases hholds
  obtain ⟨hle, heq⟩ := rank_le_of_not_mem hr hgs hm hnot
  rw [hrank]
  exact ⟨hle, fun h => heq h ▸ hholds⟩

/-- A prefix operator at the start binds at least as tightly as the group of the root. -/
theorem rank_le_of_prefix (hr : Binary r) (hgs : r.groups.1 = pre ++ group :: post)
    (hpre : ∀ group' ∈ pre, Silent r l group') {t : Text} {ts : List Token} (h : l.tokens = .fixed t :: ts)
    (hts : ts ≠ []) (ho : r.prefixOps.get? t = some o) : rank group.priority ≤ rank o.priority := by
  obtain ⟨hf, htokens⟩ := hr.prefix_eq _ _ ho
  obtain ⟨group', hm, hholds⟩ := hr.exists_holds (hr.mem_of_prefix ho)
  have hrank := hr.rank_eq_of_holds hr.notNaN hm hholds
  rw [Group.Holds, hf, htokens] at hholds
  have hnot : group' ∉ pre := by
    intro hp
    rw [Group.get?, readPrefix?_eq_none_iff.1 (hpre group' hp).before t ts h hts] at hholds
    cases hholds
  rw [hrank]
  exact (rank_le_of_not_mem hr hgs hm hnot).1

/-- A postfix operator at the end binds at least as tightly as the group of the root. -/
theorem rank_le_of_postfix (hr : Binary r) (hgs : r.groups.1 = pre ++ group :: post)
    (hpre : ∀ group' ∈ pre, Silent r l group') {t : Text} {ts : List Token} (h : l.tokens = ts ++ [.fixed t])
    (hts : ts ≠ []) (ho : r.postfixOps.get? t = some o) : rank group.priority ≤ rank o.priority := by
  obtain ⟨hf, htokens⟩ := hr.postfix_eq _ _ ho
  obtain ⟨group', hm, hholds⟩ := hr.exists_holds (hr.mem_of_postfix ho)
  have hrank := hr.rank_eq_of_holds hr.notNaN hm hholds
  rw [Group.Holds, hf, htokens] at hholds
  have hnot : group' ∉ pre := by
    intro hp
    rw [Group.get?, readPostfix?_eq_none_iff.1 (hpre group' hp).behind t ts h hts] at hholds
    cases hholds
  rw [hrank]
  exact (rank_le_of_not_mem hr hgs hm hnot).1

end Order

/-! ## One section -/

/-- A tree of a section, with its derivation. -/
structure Derived (full : TokenList) (r : Registry α) (l : TokenList) (start : Nat) (t : Tree α) (d : Derivation α) :
    Prop where
  derives : Derives full r start (start + l.size) d
  tree_eq : d.tree full = t
  ranked : ∀ d' ∈ d.subs, d'.Ranked full r
  below : SitesBelow full r start l.tokens d

section Sections

variable {t : Tree α} {d d₁ d₂ : Derivation α} {o : Operator α}

theorem depthAt_le (h : l.Shows full start) (hb : Balanced l.tokens) {i : Nat} (hle : start ≤ i)
    (hi : i ≤ start + l.size) : full.depthAt start ≤ full.depthAt i := by
  obtain ⟨k, rfl⟩ := Nat.exists_eq_add_of_le hle
  rw [depthAt_of_shows h (by omega)]
  have := hb.depth_prefix (l.tokens.take k) (l.tokens.drop k) (List.take_append_drop k _).symm
  omega

/-- Infix operators in brackets are no sites of the section around them, which does not matter. -/
theorem SitesBelow.deeper {inner : TokenList} {start' : Nat} {ts : List Token}
    (h : SitesBelow full r start' inner.tokens d)
    (hs : inner.Shows full start') (hb : Balanced inner.tokens) (hdepth : full.depthAt start < full.depthAt start')
    (hle : start ≤ start') (hlt : start' + inner.size ≤ start + ts.length) : SitesBelow full r start ts d := by
  intro d' hd' i o hi
  obtain ⟨hle', hlt', -⟩ := h d' hd' i o hi
  rw [← TokenList.size_eq] at hlt'
  refine ⟨by omega, by omega, fun heq => ?_⟩
  have := depthAt_le hs hb hle' hlt'.le
  omega

/-- What is below a part of a section, with closed brackets before it, is below the section. -/
theorem SitesBelow.part (h : l.Shows full start) {u m v : List Token} (hl : l.tokens = u ++ m ++ v)
    (hu : bracketDepth u = 0) (hd : SitesBelow full r (start + u.length) m d) : SitesBelow full r start l.tokens d := by
  have hsize : l.size = u.length + m.length + v.length := by
    rw [TokenList.size_eq, hl, List.length_append, List.length_append]
  have hdepth : full.depthAt (start + u.length) = full.depthAt start := by
    rw [depthAt_of_shows h (by omega), hl, List.append_assoc, List.take_left, hu, Int.add_zero]
  intro d' hd' i o hi
  obtain ⟨hle, hlt, hsite⟩ := hd d' hd' i o hi
  refine ⟨by omega, by rw [← TokenList.size_eq]; omega, fun heq => ?_⟩
  obtain ⟨s, hs, rfl, ho⟩ := hsite (heq.trans hdepth.symm)
  rw [hl]
  exact ⟨_, Site.mem_ofTokens_append hu hs, by simp; omega, ho⟩

theorem sitesBelow_leaf (hd : d.subs = [d]) (hi : d.infix? = none) {ts : List Token} :
    SitesBelow full r start ts d := by
  intro d' hd' i o h
  rw [hd, List.mem_singleton] at hd'
  rw [hd', hi] at h
  cases h

theorem Derived.number (h : l.Shows full start) (v : Float) :
    Derived full r l start (.number l.position v) (.number start v) where
  derives := .number (by omega)
  tree_eq := by rw [TokenList.position_eq, h.position_eq 0 (by omega)]; rfl
  ranked d hd := by rw [List.mem_singleton.1 hd]; trivial
  below := sitesBelow_leaf rfl rfl

theorem Derived.reference (h : l.Shows full start) (name : Text) :
    Derived full r l start (.reference l.position name) (.reference start name) where
  derives := .reference (by omega)
  tree_eq := by rw [TokenList.position_eq, h.position_eq 0 (by omega)]; rfl
  ranked d hd := by rw [List.mem_singleton.1 hd]; trivial
  below := sitesBelow_leaf rfl rfl

theorem Derived.brackets (h : l.Shows full start) {m : List Token} (hm : Balanced m)
    (hl : l.tokens = .fixed Token.openText :: (m ++ [.fixed Token.closeText]))
    (hd : Derived full r (l.slice 1 (l.size - 1)) (start + 1) t d) : Derived full r l start t (.brackets d) := by
  have hsize : l.size = m.length + 2 := by rw [TokenList.size_eq, hl]; simp
  have hinner : (l.slice 1 (l.size - 1)).size = m.length := by rw [TokenList.size_slice (by omega)]; omega
  have hshows := h.slice (a := 1) (b := l.size - 1) (by omega) (by omega)
  have hdepth := depthAt_of_shows h (i := 1) (by omega)
  rw [hl] at hdepth
  simp only [List.take_succ_cons, List.take_zero, bracketDepth_cons, Token.weight_open, bracketDepth_nil] at hdepth
  have hderives := hd.derives
  rw [hinner] at hderives
  refine ⟨?_, hd.tree_eq, ?_, ?_⟩
  · have hstop : start + l.size = start + 1 + m.length + 1 := by omega
    rw [hstop]
    refine .brackets ?_ hderives ?_
    · rw [← Nat.add_zero start, getElem?_of_shows h (by omega), hl]
      rfl
    · rw [Nat.add_assoc, getElem?_of_shows h (by omega), hl]
      simp [Nat.add_comm 1]
  · intro d' hd'
    rcases List.mem_cons.1 hd' with rfl | hd'
    · trivial
    · exact hd.ranked d' hd'
  · intro d' hd' i o hi
    rcases List.mem_cons.1 hd' with rfl | hd'
    · cases hi
    · refine hd.below.deeper hshows (by rw [tokens_inner hl]; exact hm) (by omega) (by omega) ?_ d' hd' i o hi
      rw [hinner, ← TokenList.size_eq]
      omega

theorem Derived.prefixed (h : l.Shows full start) {s : Text} {ts : List Token} (hl : l.tokens = .fixed s :: ts)
    (hw : (Token.fixed s).weight = 0) (ho : r.prefixOps.get? s = some o)
    (hd : Derived full r (l.slice 1 l.size) (start + 1) t d)
    (hrank : ∀ s ∈ Site.ofTokens r l.tokens, ∀ o', r.infixOps.get? [s.text] = some o' → o.priority < o'.priority) :
    Derived full r l start (.operation l.position o [t]) (.prefixed start o d) := by
  have hsize : l.size = ts.length + 1 := by rw [TokenList.size_eq, hl]; rfl
  have hinner : (l.slice 1 l.size).size = ts.length := by rw [TokenList.size_slice (by omega)]; omega
  have htokens : (l.slice 1 l.size).tokens = ts := TokenList.tokens_slice_drop (u := [.fixed s]) hl
  have hderives := hd.derives
  rw [hinner, Nat.add_assoc, Nat.add_comm 1, ← hsize] at hderives
  have hbelow : SitesBelow full r start l.tokens d := by
    have hpart := hd.below
    rw [htokens] at hpart
    exact .part (u := [.fixed s]) (v := []) h (by rw [List.append_nil]; exact hl) (by simp [hw]) hpart
  refine ⟨.prefixed ?_ ho hderives, ?_, ?_, ?_⟩
  · rw [← Nat.add_zero start, getElem?_of_shows h (by omega), hl]
    rfl
  · rw [Derivation.tree, hd.tree_eq, TokenList.position_eq, h.position_eq 0 (by omega)]
    rfl
  · intro d' hd'
    rcases List.mem_cons.1 hd' with rfl | hd'
    · intro d' hd' i o' hi heq
      obtain ⟨s', hs', -, ho'⟩ := (hbelow d' hd' i o' hi).2.2 heq
      exact hrank s' hs' o' ho'
    · exact hd.ranked d' hd'
  · intro d' hd' i o' hi
    rcases List.mem_cons.1 hd' with rfl | hd'
    · cases hi
    · exact hbelow d' hd' i o' hi

theorem Derived.postfixed (h : l.Shows full start) (hb : Balanced l.tokens) {s : Text} {ts : List Token}
    (hl : l.tokens = ts ++ [.fixed s]) (hw : (Token.fixed s).weight = 0) (ho : r.postfixOps.get? s = some o)
    (hd : Derived full r (l.slice 0 (l.size - 1)) start t d)
    (hrank : ∀ s ∈ Site.ofTokens r l.tokens, ∀ o', r.infixOps.get? [s.text] = some o' → o.priority < o'.priority) :
    Derived full r l start (.operation (l.positionAt (l.size - 1)) o [t]) (.postfixed (start + ts.length) o d) := by
  have hsize : l.size = ts.length + 1 := by rw [TokenList.size_eq, hl]; simp
  have hinner : (l.slice 0 (l.size - 1)).size = ts.length := by rw [TokenList.size_slice (by omega)]; omega
  have htokens : (l.slice 0 (l.size - 1)).tokens = ts := by
    rw [TokenList.tokens_slice, hl, hsize]
    simp
  have hts : bracketDepth ts = 0 := by
    have := hb.depth_eq
    rw [hl, bracketDepth_append, bracketDepth_cons, hw] at this
    simpa using this
  have hdepth := depthAt_of_shows h (i := ts.length) (by omega)
  rw [hl, List.take_left, hts, Int.add_zero] at hdepth
  have hderives := hd.derives
  rw [hinner] at hderives
  have hbelow : SitesBelow full r start l.tokens d := by
    have hpart := hd.below
    rw [htokens] at hpart
    exact .part (u := []) h hl rfl hpart
  refine ⟨?_, ?_, ?_, ?_⟩
  · have hstop : start + l.size = start + ts.length + 1 := by omega
    rw [hstop]
    refine .postfixed hderives ?_ ho
    rw [getElem?_of_shows h (by omega), hl]
    simp
  · rw [Derivation.tree, hd.tree_eq, h.position_eq _ (by omega), hsize]
    rfl
  · intro d' hd'
    rcases List.mem_cons.1 hd' with rfl | hd'
    · intro d' hd' i o' hi heq
      obtain ⟨s', hs', -, ho'⟩ := (hbelow d' hd' i o' hi).2.2 (heq.trans hdepth)
      exact hrank s' hs' o' ho'
    · exact hd.ranked d' hd'
  · intro d' hd' i o' hi
    rcases List.mem_cons.1 hd' with rfl | hd'
    · cases hi
    · exact hbelow d' hd' i o' hi

/-- The operators at the sites of a section bind at least as tightly as the one at a site, and group by its
associativity. -/
def Leads (r : Registry α) (ts : List Token) (s : Site) (o : Operator α) : Prop :=
  ∀ s' ∈ Site.ofTokens r ts, ∀ o', r.infixOps.get? [s'.text] = some o' → o.priority ≤ o'.priority ∧
    ((o'.priority == o.priority) = true → o.fixity = .infixed .left →
      o'.fixity = .infixed .left ∧ s'.index ≤ s.index) ∧
    ((o'.priority == o.priority) = true → o.fixity = .infixed .right → o'.fixity = .infixed .right →
      s.index ≤ s'.index)

/-- The operator at a site of a section is ranked as the root of it. -/
theorem ranked_infixed (h : l.Shows full start) {s : Site} (hs : s ∈ Site.ofTokens r l.tokens)
    (hbelow₁ : SitesBelow full r start l.tokens d₁) (hbelow₂ : SitesBelow full r start l.tokens d₂)
    (hlt : ∀ d' ∈ d₁.subs, ∀ i o', d'.infix? = some (i, o') → i < start + s.index)
    (hgt : ∀ d' ∈ d₂.subs, ∀ i o', d'.infix? = some (i, o') → start + s.index < i) (hlead : Leads r l.tokens s o)
    (hahead : ∀ u ts o', l.tokens = .fixed u :: ts → ts ≠ [] → r.prefixOps.get? u = some o' → o.priority ≤ o'.priority)
    (hafter : ∀ u ts o', l.tokens = ts ++ [.fixed u] → ts ≠ [] → r.postfixOps.get? u = some o' →
      o.priority ≤ o'.priority) :
    (Derivation.infixed start (start + l.size) (start + s.index) o d₁ d₂).Ranked full r := by
  obtain ⟨u, v, hl, hi, hsite⟩ := Site.mem_ofTokens.1 hs
  have hsize : l.size = u.length + v.length + 1 := by rw [TokenList.size_eq, hl]; simp; omega
  have hdepth : full.depthAt (start + s.index) = full.depthAt start := by
    rw [hi, depthAt_of_shows h (by omega), hl, List.take_left, hsite.depth_eq, Int.add_zero]
  have hends := Registry.canBeInfix_iff.1 hsite.candidate
  have hu : u ≠ [] := by rintro rfl; exact hends.1
  have hv : v ≠ [] := by rintro rfl; exact hends.2
  refine ⟨fun d' hd' i o' hio heq => ?_, fun w o' hw ho' => ?_, fun w o' hw ho' => ?_⟩
  · rcases List.mem_append.1 hd' with hd' | hd'
    · have := hlt d' hd' i o' hio
      obtain ⟨s', hs', hi', ho'⟩ := (hbelow₁ d' hd' i o' hio).2.2 (heq.trans hdepth)
      obtain ⟨hle, hleft, hright⟩ := hlead s' hs' o' ho'
      refine ⟨hle, fun hp hf => ⟨(hleft hp hf).1, hd'⟩, fun hp hf hf' => ?_⟩
      have := hright hp hf hf'
      omega
    · have := hgt d' hd' i o' hio
      obtain ⟨s', hs', hi', ho'⟩ := (hbelow₂ d' hd' i o' hio).2.2 (heq.trans hdepth)
      obtain ⟨hle, hleft, -⟩ := hlead s' hs' o' ho'
      refine ⟨hle, fun hp hf => ?_, fun _ _ _ => hd'⟩
      have := (hleft hp hf).2
      omega
  · rw [← Nat.add_zero start, getElem?_of_shows h (by omega), hl] at hw
    obtain ⟨w', u, rfl⟩ := List.exists_cons_of_ne_nil hu
    cases hw
    exact hahead w _ o' hl (by simp) ho'
  · obtain ⟨v, w', rfl⟩ := (List.eq_nil_or_concat v).resolve_left hv
    have hstop : start + l.size - 1 = start + (u ++ .fixed s.text :: v).length := by
      rw [hsize]
      simp
    have hl' : l.tokens = (u ++ .fixed s.text :: v) ++ [w'] := by rw [hl]; simp
    rw [hstop, getElem?_of_shows h (by rw [hsize]; simp), hl', List.getElem?_concat_length] at hw
    cases hw
    exact hafter w _ o' hl' (by simp) ho'

theorem Derived.infixed {t₁ t₂ : Tree α} (h : l.Shows full start) {s : Site} (hs : s ∈ Site.ofTokens r l.tokens)
    (ho : r.infixOps.get? [s.text] = some o) (hd₁ : Derived full r (l.slice 0 s.index) start t₁ d₁)
    (hd₂ : Derived full r (l.slice (s.index + 1) l.size) (start + s.index + 1) t₂ d₂) (hlead : Leads r l.tokens s o)
    (hahead : ∀ u ts o', l.tokens = .fixed u :: ts → ts ≠ [] → r.prefixOps.get? u = some o' → o.priority ≤ o'.priority)
    (hafter : ∀ u ts o', l.tokens = ts ++ [.fixed u] → ts ≠ [] → r.postfixOps.get? u = some o' →
      o.priority ≤ o'.priority) :
    Derived full r l start (.operation (l.positionAt s.index) o [t₁, t₂])
      (.infixed start (start + l.size) (start + s.index) o d₁ d₂) := by
  obtain ⟨u, v, hl, hi, hsite⟩ := Site.mem_ofTokens.1 hs
  have hsize : l.size = u.length + v.length + 1 := by rw [TokenList.size_eq, hl]; simp; omega
  have htokens₁ : (l.slice 0 s.index).tokens = u := by rw [TokenList.tokens_slice, hl, hi]; simp
  have htokens₂ : (l.slice (s.index + 1) l.size).tokens = v := by
    have := TokenList.tokens_slice_drop (l := l) (u := u ++ [.fixed s.text]) (v := v) (by simp [hl])
    simpa [hi] using this
  have hsize₁ : (l.slice 0 s.index).size = u.length := by rw [TokenList.size_eq, htokens₁]
  have hsize₂ : (l.slice (s.index + 1) l.size).size = v.length := by rw [TokenList.size_eq, htokens₂]
  have hpart₁ := hd₁.below
  have hpart₂ := hd₂.below
  rw [htokens₁] at hpart₁
  rw [htokens₂] at hpart₂
  have hbelow₁ : SitesBelow full r start l.tokens d₁ := .part (u := []) h hl rfl hpart₁
  have hbelow₂ : SitesBelow full r start l.tokens d₂ :=
    .part (u := u ++ [.fixed s.text]) (m := v) (v := []) h (by simp [hl])
      (by simp [hsite.depth_eq, Token.weight_of_plain hsite.plain]) (by simpa [hi, Nat.add_assoc] using hpart₂)
  refine ⟨?_, ?_, ?_, ?_⟩
  · have hderives₁ := hd₁.derives
    have hderives₂ := hd₂.derives
    have hstop : start + s.index + 1 + v.length = start + l.size := by omega
    rw [hsize₁, ← hi] at hderives₁
    rw [hsize₂, hstop] at hderives₂
    refine .infixed hderives₁ ?_ ho hderives₂
    rw [getElem?_of_shows h (by omega), hl, hi]
    simp
  · rw [Derivation.tree, hd₁.tree_eq, hd₂.tree_eq, h.position_eq _ (by omega)]
  · intro d' hd'
    rcases List.mem_cons.1 hd' with rfl | hd'
    · refine ranked_infixed h hs hbelow₁ hbelow₂ (fun d' hd' i o' hio => ?_) (fun d' hd' i o' hio => ?_) hlead hahead
        hafter
      · have := (hpart₁ d' hd' i o' hio).2.1
        omega
      · have := (hpart₂ d' hd' i o' hio).1
        omega
    · rcases List.mem_append.1 hd' with hd' | hd'
      · exact hd₁.ranked d' hd'
      · exact hd₂.ranked d' hd'
  · intro d' hd' i o' hio
    rcases List.mem_cons.1 hd' with rfl | hd'
    · cases hio
      exact ⟨by omega, by rw [← TokenList.size_eq]; omega, fun _ => ⟨s, hs, rfl, ho⟩⟩
    · rcases List.mem_append.1 hd' with hd' | hd'
      · exact hbelow₁ d' hd' i o' hio
      · exact hbelow₂ d' hd' i o' hio

/-! ### Calls -/

/-- The trees of sections with separators between them, with their derivations. -/
structure DerivedAll (full : TokenList) (r : Registry α) (start stop : Nat) (ts : List (Tree α))
    (ds : List (Derivation α)) : Prop where
  derives : DerivesAll full r start stop ds
  trees_eq : Derivation.trees full ds = ts
  ranked : ∀ d ∈ Derivation.subsAll ds, d.Ranked full r
  within : ∀ d ∈ Derivation.subsAll ds, ∀ i o, d.infix? = some (i, o) → start ≤ i ∧ i < stop

/-- Sections of some tokens have derivations. -/
def DerivesSections (full : TokenList) (r : Registry α) (buildSection : TokenList → Except ExprError (Tree α)) : Prop :=
  ∀ l start t, l.Shows full start → Balanced l.tokens → buildSection l = .ok t → ∃ d, Derived full r l start t d

variable {buildSection : TokenList → Except ExprError (Tree α)}

/-- The only section of a list gives the derivations of the list. -/
theorem Derived.all {i stop : Nat} (hd : Derived full r l i t d) (hstop : i + l.size = stop) :
    DerivedAll full r i stop [t] [d] := by
  have hsubs : Derivation.subsAll [d] = d.subs := by rw [Derivation.subsAll, Derivation.subsAll, List.append_nil]
  refine ⟨.single (hstop ▸ hd.derives), ?_, fun d' hd' => ?_, fun d' hd' j o hj => ?_⟩
  · rw [Derivation.trees, Derivation.trees, hd.tree_eq]
  · rw [hsubs] at hd'
    exact hd.ranked d' hd'
  · rw [hsubs] at hd'
    obtain ⟨hle, hlt, -⟩ := hd.below d' hd' j o hj
    rw [← TokenList.size_eq] at hlt
    exact ⟨hle, by omega⟩

/-- A section before a separator and the sections behind it give the derivations of all of them. -/
theorem Derived.cons {i point stop : Nat} {ts : List (Tree α)} {ds : List (Derivation α)} (hd : Derived full r l i t d)
    (hpoint : i + l.size = point) (hsep : full.tokens[point]? = some (.fixed Token.separatorText)) (hlt : point < stop)
    (hne : ds ≠ []) (hds : DerivedAll full r (point + 1) stop ts ds) :
    DerivedAll full r i stop (t :: ts) (d :: ds) := by
  refine ⟨.cons (hpoint ▸ hd.derives) hsep hds.derives hne, ?_, fun d' hd' => ?_, fun d' hd' j o hj => ?_⟩
  · rw [Derivation.trees, hd.tree_eq, hds.trees_eq]
  · rw [Derivation.subsAll] at hd'
    exact (List.mem_append.1 hd').elim (hd.ranked d') (hds.ranked d')
  · rw [Derivation.subsAll] at hd'
    rcases List.mem_append.1 hd' with hd' | hd'
    · obtain ⟨hle', hlt', -⟩ := hd.below d' hd' j o hj
      rw [← TokenList.size_eq] at hlt'
      exact ⟨hle', by omega⟩
    · obtain ⟨hle', hlt'⟩ := hds.within d' hd' j o hj
      exact ⟨by omega, hlt'⟩

theorem DerivesSections.cutFrom {args : TokenList} (hs : DerivesSections full r buildSection)
    (h : args.Shows full start) (hb : Balanced args.tokens) {i : Nat} {points : List Nat}
    (hp : TokenList.CutPoints Token.isSeparator args.tokens i points) {ts : List (Tree α)}
    (hts : List.Forall₂ (fun arg t => buildSection arg = .ok t) (args.cutFrom i points) ts) :
    ∃ ds, ds ≠ [] ∧ DerivedAll full r (start + i) (start + args.size) ts ds := by
  induction hp generalizing ts with
  | @nil i hi hdepth =>
    obtain ⟨t, ts, ht, hnil, rfl⟩ := List.forall₂_cons_left_iff.1 hts
    cases hnil
    rw [← TokenList.size_eq] at hi
    have hpart : Balanced (args.slice i args.size).tokens := by
      rw [TokenList.tokens_slice]
      exact hb.slice hi hdepth (by rw [TokenList.size_eq, List.take_length]; exact hb.depth_eq)
    obtain ⟨d, hd⟩ := hs _ _ _ (h.slice (Nat.le_refl _) hi) hpart ht
    refine ⟨[d], List.cons_ne_nil _ _, hd.all ?_⟩
    rw [TokenList.size_slice (Nat.le_refl _)]
    omega
  | @cons i point points sep hle hdepth hsep hp hdepth' hrest ih =>
    obtain ⟨t, ts, ht, htail, rfl⟩ := List.forall₂_cons_left_iff.1 hts
    have hlt : point < args.size := by
      rw [TokenList.size_eq]
      exact (List.getElem?_eq_some_iff.1 hsep).1
    have hpart : Balanced (args.slice i point).tokens := by
      rw [TokenList.tokens_slice]
      exact hb.slice hle hdepth hdepth'
    obtain ⟨d, hd⟩ := hs _ _ _ (h.slice hlt.le hle) hpart ht
    obtain ⟨ds, hne, hds⟩ := ih htail
    refine ⟨d :: ds, List.cons_ne_nil _ _, @Derived.cons _ _ _ _ _ _ _ (start + point) _ _ _ hd ?_ ?_
      (by omega) hne hds⟩
    · rw [TokenList.size_slice hlt.le]
      omega
    · rw [getElem?_of_shows h hlt, hsep, Token.isSeparator_iff.1 hp]

theorem Derived.call (h : l.Shows full start) {pre m : List Token} (hpre : pre ≠ []) (hdepth : bracketDepth pre = 0)
    (hm : Balanced m) (hl : l.tokens = pre ++ .fixed Token.openText :: (m ++ [.fixed Token.closeText])) {name : Text}
    {ts : List (Tree α)} {ds : List (Derivation α)}
    (hds : DerivedAll full r (start + (pre.length + 1)) (start + (pre.length + 1) + m.length) ts ds) :
    Derived full r l start (.call l.position name ts) (.call start name ds) := by
  have hsize : l.size = pre.length + m.length + 2 := by rw [TokenList.size_eq, hl]; simp; omega
  have hbelow : SitesBelow full r start l.tokens (.call start name ds) := by
    intro d' hd' i o hi
    rcases List.mem_cons.1 hd' with rfl | hd'
    · cases hi
    · obtain ⟨hle, hlt⟩ := hds.within d' hd' i o hi
      rw [← TokenList.size_eq]
      refine ⟨by omega, by omega, fun heq => ?_⟩
      -- the arguments are in brackets
      obtain ⟨k, rfl⟩ : ∃ k, i = start + (pre.length + 1 + k) := ⟨i - start - (pre.length + 1), by omega⟩
      have htake : l.tokens.take (pre.length + 1 + k) = pre ++ .fixed Token.openText :: m.take k := by
        rw [hl, Nat.add_assoc, List.take_length_add_append, Nat.add_comm 1, List.take_succ_cons,
          List.take_append_of_le_length (by omega)]
      have hahead := hm.depth_prefix (m.take k) (m.drop k) (List.take_append_drop k m).symm
      rw [depthAt_of_shows h (by omega), htake, bracketDepth_append, hdepth, bracketDepth_cons,
        Token.weight_open] at heq
      omega
  refine ⟨?_, ?_, fun d' hd' => ?_, hbelow⟩
  · have hstop : start + l.size = start + (pre.length + 1) + m.length + 1 := by omega
    rw [hstop]
    have hpos := List.length_pos_of_ne_nil hpre
    have hopening : full.tokens[start + pre.length]? = some (.fixed Token.openText) := by
      rw [getElem?_of_shows h (by omega), hl]
      simp
    refine .call (by omega) hopening hds.derives ?_
    · rw [Nat.add_assoc, getElem?_of_shows h (by omega), hl]
      simp [Nat.add_assoc, Nat.add_comm 1]
  · rw [Derivation.tree, hds.trees_eq, TokenList.position_eq, h.position_eq 0 (by omega)]
    rfl
  · rcases List.mem_cons.1 hd' with rfl | hd'
    · trivial
    · exact hds.ranked d' hd'

end Sections

/-! ## Roots -/

section Roots

variable {pre post : List (Group α)} {group : Group α} {o : Operator α} {s : Site}

/-- What the group of an infix operator holds at its token, it holds at the fixity of the operator. -/
theorem Binary.holds_infix (hr : Binary r) (hm : group ∈ r.groups.1) {a : Associativity} {t : Text}
    (ho : group.get? (.infixed a) [t] = some o) :
    r.infixOps.get? [t] = some o ∧ o.fixity = .infixed a ∧ group.Holds o ∧ o.priority.isNaN = false := by
  obtain ⟨hmem, hf, htokens⟩ := hr.consistent hm _ _ _ ho
  have hget := hr.get?_infix hmem hf
  rw [htokens] at hget
  exact ⟨hget, hf, by rw [Group.Holds, hf, htokens]; exact ho, hr.notNaN o hmem⟩

/-- The operators at the sites of a section bind at least as tightly as one of the group of the root; one that binds
equally belongs to this group. -/
theorem le_of_site (hr : Binary r) (hgs : r.groups.1 = pre ++ group :: post)
    (hpre : ∀ group' ∈ pre, Silent r l group') (ho : group.Holds o) (hm : o ∈ r.operators)
    (hs : s ∈ Site.ofTokens r l.tokens) {o' : Operator α} (ho' : r.infixOps.get? [s.text] = some o') :
    o.priority ≤ o'.priority ∧ ∀ a, o'.fixity = .infixed a →
      ((o'.priority == o.priority) = true ∨ ¬ o.priority < o'.priority) →
        group.get? (.infixed a) [s.text] = some o' := by
  have hgroup : group ∈ r.groups.1 := by rw [hgs]; exact List.mem_append_right _ List.mem_cons_self
  have hn := hr.notNaN o hm
  have hn' := hr.notNaN o' (hr.mem_of_infix ho')
  obtain ⟨hle, heq⟩ := rank_le_of_site hr hgs hpre hs ho'
  have hrank := hr.rank_eq_of_holds hr.notNaN hgroup ho
  rw [← hrank] at hle heq
  refine ⟨(le_iff hn hn').2 hle, fun a hf hp => ?_⟩
  have hequal : rank o'.priority = rank o.priority := by
    rcases hp with hp | hp
    · exact (beq_iff hn' hn).1 hp
    · rw [lt_iff hn hn'] at hp
      exact le_antisymm (not_lt.1 hp) hle
  have hholds := heq hequal
  rw [Group.Holds, hf, (hr.infix_eq _ _ ho').2.1] at hholds
  exact hholds

/-- The root of a section leads the operators at its sites. -/
theorem leads_right (hr : Binary r) (hgs : r.groups.1 = pre ++ group :: post)
    (hpre : ∀ group' ∈ pre, Silent r l group') {before behind : List Site}
    (hsites : Site.ofTokens r l.tokens = before ++ s :: behind)
    (hbefore : ∀ s' ∈ before, group.right.get? [s'.text] = none) (ho : group.right.get? [s.text] = some o) :
    Leads r l.tokens s o := by
  intro s' hs' o' ho'
  have hgroup : group ∈ r.groups.1 := by rw [hgs]; exact List.mem_append_right _ List.mem_cons_self
  obtain ⟨hget, hf, hholds, -⟩ := hr.holds_infix (a := .right) hgroup ho
  obtain ⟨hle, heq⟩ := le_of_site hr hgs hpre hholds (hr.mem_of_infix hget) hs' ho'
  refine ⟨hle, fun _ hl => ?_, fun hp _ hr' => ?_⟩
  · rw [hf] at hl
    cases hl
  · have hpair := Site.pairwise_ofTokens (r := r) l.tokens
    rw [hsites] at hs' hpair
    rcases List.mem_append.1 hs' with hs' | hs'
    · have hheld : group.right.get? [s'.text] = some o' := heq .right hr' (Or.inl hp)
      rw [hbefore s' hs'] at hheld
      cases hheld
    · rcases List.mem_cons.1 hs' with rfl | hs'
      · exact Nat.le_refl _
      · exact ((List.pairwise_cons.1 (List.pairwise_append.1 hpair).2.1).1 s' hs').le

theorem leads_left (hr : Binary r) (hgs : r.groups.1 = pre ++ group :: post)
    (hpre : ∀ group' ∈ pre, Silent r l group') {before behind : List Site}
    (hsites : Site.ofTokens r l.tokens = before ++ s :: behind)
    (hright : ∀ s' ∈ Site.ofTokens r l.tokens, group.right.get? [s'.text] = none)
    (hbehind : ∀ s' ∈ behind, group.left.get? [s'.text] = none) (ho : group.left.get? [s.text] = some o) :
    Leads r l.tokens s o := by
  intro s' hs' o' ho'
  have hgroup : group ∈ r.groups.1 := by rw [hgs]; exact List.mem_append_right _ List.mem_cons_self
  obtain ⟨hget, hf, hholds, -⟩ := hr.holds_infix (a := .left) hgroup ho
  obtain ⟨hle, heq⟩ := le_of_site hr hgs hpre hholds (hr.mem_of_infix hget) hs' ho'
  obtain ⟨⟨a, ha⟩, -, -⟩ := hr.infix_eq _ _ ho'
  refine ⟨hle, fun hp _ => ?_, fun _ hr' => ?_⟩
  · have hheld := heq a ha (Or.inl hp)
    cases a with
    | right =>
      have hnone : group.get? (.infixed .right) [s'.text] = none := hright s' hs'
      rw [hnone] at hheld
      cases hheld
    | left =>
      refine ⟨ha, ?_⟩
      have hpair := Site.pairwise_ofTokens (r := r) l.tokens
      rw [hsites] at hs' hpair
      rcases List.mem_append.1 hs' with hs' | hs'
      · exact ((List.pairwise_append.1 hpair).2.2 s' hs' s List.mem_cons_self).le
      · rcases List.mem_cons.1 hs' with rfl | hs'
        · exact Nat.le_refl _
        · have hnone : group.get? (.infixed .left) [s'.text] = none := hbehind s' hs'
          rw [hnone] at hheld
          cases hheld
  · rw [hf] at hr'
    cases hr'

/-- Where no infix operator of the group of the root is a candidate, all sites are those of operators that bind more
tightly. -/
theorem lt_of_site (hr : Binary r) (hgs : r.groups.1 = pre ++ group :: post)
    (hpre : ∀ group' ∈ pre, Silent r l group') (ho : group.Holds o) (hm : o ∈ r.operators)
    (hright : ∀ s ∈ Site.ofTokens r l.tokens, group.right.get? [s.text] = none)
    (hleft : ∀ s ∈ Site.ofTokens r l.tokens, group.left.get? [s.text] = none) :
    ∀ s ∈ Site.ofTokens r l.tokens, ∀ o', r.infixOps.get? [s.text] = some o' → o.priority < o'.priority := by
  intro s hs o' ho'
  obtain ⟨⟨a, ha⟩, -, -⟩ := hr.infix_eq _ _ ho'
  refine Decidable.byContradiction fun hlt => ?_
  have hheld := (le_of_site hr hgs hpre ho hm hs ho').2 a ha (Or.inr hlt)
  have hnone : group.get? (.infixed a) [s.text] = none := by
    cases a with
    | left => exact hleft s hs
    | right => exact hright s hs
  rw [hnone] at hheld
  cases hheld

end Roots

/-! ## Whole trees -/

variable {levels : Nat}

/-- What an infix operator is the root of has a derivation if the sections on its sides have. -/
theorem DerivesSections.infixed (hr : Binary r) {buildSection : TokenList → Except ExprError (Tree α)}
    (hd : DerivesSections full r buildSection) (h : l.Shows full start) (hb : Balanced l.tokens)
    {pre post : List (Group α)} {group : Group α} (hgs : r.groups.1 = pre ++ group :: post)
    (hpre : ∀ group' ∈ pre, Silent r l group') {a : Associativity} {s : Site} {o : Operator α}
    (hs : s ∈ Site.ofTokens r l.tokens) (ho : group.get? (.infixed a) [s.text] = some o) (hlead : Leads r l.tokens s o)
    {trees : List (Tree α)}
    (htrees : List.Forall₂ (fun operand tree => buildSection operand = .ok tree) (l.cutAt [s.index]) trees) :
    ∃ d, Derived full r l start (.operation (l.positionAt s.index) o trees) d := by
  have hgroup : group ∈ r.groups.1 := by rw [hgs]; exact List.mem_append_right _ List.mem_cons_self
  obtain ⟨hget, hf, hholds, hn⟩ := hr.holds_infix hgroup ho
  have hrank := hr.rank_eq_of_holds hr.notNaN hgroup hholds
  obtain ⟨u, v, hl, hi, hsite⟩ := Site.mem_ofTokens.1 hs
  have hsize : l.size = u.length + v.length + 1 := by rw [TokenList.size_eq, hl]; simp; omega
  obtain ⟨t₁, _, h₁, hrest, rfl⟩ := List.forall₂_cons_left_iff.1 htrees
  obtain ⟨t₂, _, h₂, hnil, rfl⟩ := List.forall₂_cons_left_iff.1 hrest
  cases hnil
  have hb₁ : Balanced (l.slice 0 s.index).tokens := by
    rw [TokenList.tokens_slice, List.drop_zero, hi, hl]
    rw [hl] at hb
    simpa using hb.left hsite.depth_eq
  have hb₂ : Balanced (l.slice (s.index + 1) l.size).tokens := by
    have htokens := TokenList.tokens_slice_drop (l := l) (u := u ++ [.fixed s.text]) (v := v) (by simp [hl])
    rw [List.length_append, List.length_singleton] at htokens
    rw [hl] at hb
    rw [hi, htokens]
    exact (hb.right hsite.depth_eq).tail (Token.weight_of_plain hsite.plain)
  obtain ⟨d₁, hd₁⟩ := hd _ _ _ (h.slice (by omega) (Nat.zero_le _)) hb₁ h₁
  obtain ⟨d₂, hd₂⟩ := hd _ _ _ (h.slice (Nat.le_refl _) (by omega)) hb₂ h₂
  refine ⟨_, Derived.infixed h hs hget hd₁ hd₂ hlead (fun w ts o' hw hts ho' => ?_) fun w ts o' hw hts ho' => ?_⟩
  · rw [le_iff hn (hr.notNaN o' (hr.mem_of_prefix ho')), hrank]
    exact rank_le_of_prefix hr hgs hpre hw hts ho'
  · rw [le_iff hn (hr.notNaN o' (hr.mem_of_postfix ho')), hrank]
    exact rank_le_of_postfix hr hgs hpre hw hts ho'

/-- What a prefix operator is the root of has a derivation if the section behind it has. -/
theorem DerivesSections.prefixed (hr : Binary r) {buildSection : TokenList → Except ExprError (Tree α)}
    (hd : DerivesSections full r buildSection) (h : l.Shows full start) (hb : Balanced l.tokens)
    {pre post : List (Group α)} {group : Group α} (hgs : r.groups.1 = pre ++ group :: post)
    (hpre : ∀ group' ∈ pre, Silent r l group')
    (hright : ∀ s ∈ Site.ofTokens r l.tokens, group.right.get? [s.text] = none)
    (hleft : ∀ s ∈ Site.ofTokens r l.tokens, group.left.get? [s.text] = none) {op : Reading α}
    (hop : readPrefix? l group = some op) {t : Tree α} (ht : @treeOf α source buildSection l op = .ok t) :
    ∃ d, Derived full r l start t d := by
  have hgroup : group ∈ r.groups.1 := by rw [hgs]; exact List.mem_append_right _ List.mem_cons_self
  obtain ⟨w, o, ts, hl, hts, ho, rfl⟩ := readPrefix?_eq_some_iff.1 hop
  obtain ⟨trees, htrees, rfl⟩ := treeOf_operation_eq_ok_iff.1 ht
  obtain ⟨t₁, _, h₁, hnil, rfl⟩ := List.forall₂_cons_left_iff.1 htrees
  cases hnil
  obtain ⟨hmem, hf, htokens⟩ := hr.consistent hgroup .prefixed [w] o ho
  have hget := hr.get?_prefix hmem hf
  rw [Operator.token, htokens] at hget
  have hholds : group.Holds o := by rw [Group.Holds, hf, htokens]; exact ho
  have hw := hr.avoids.weight_eq hmem (by rw [htokens]; exact List.mem_singleton_self w)
  have hb₁ : Balanced (l.slice 1 l.size).tokens := by
    rw [hl] at hb
    rw [show (l.slice 1 l.size).tokens = ts from TokenList.tokens_slice_drop (u := [.fixed w]) hl]
    exact hb.tail hw
  obtain ⟨d, hd₁⟩ := hd _ _ _ (h.slice (Nat.le_refl _) (by rw [TokenList.size_eq, hl]; simp)) hb₁ h₁
  exact ⟨_, Derived.prefixed h hl hw hget hd₁ (lt_of_site hr hgs hpre hholds hmem hright hleft)⟩

/-- What a postfix operator is the root of has a derivation if the section before it has. -/
theorem DerivesSections.postfixed (hr : Binary r) {buildSection : TokenList → Except ExprError (Tree α)}
    (hd : DerivesSections full r buildSection) (h : l.Shows full start) (hb : Balanced l.tokens)
    {pre post : List (Group α)} {group : Group α} (hgs : r.groups.1 = pre ++ group :: post)
    (hpre : ∀ group' ∈ pre, Silent r l group')
    (hright : ∀ s ∈ Site.ofTokens r l.tokens, group.right.get? [s.text] = none)
    (hleft : ∀ s ∈ Site.ofTokens r l.tokens, group.left.get? [s.text] = none) {op : Reading α}
    (hop : readPostfix? l group = some op) {t : Tree α} (ht : @treeOf α source buildSection l op = .ok t) :
    ∃ d, Derived full r l start t d := by
  have hgroup : group ∈ r.groups.1 := by rw [hgs]; exact List.mem_append_right _ List.mem_cons_self
  obtain ⟨w, o, ts, hl, hts, ho, rfl⟩ := readPostfix?_eq_some_iff.1 hop
  obtain ⟨trees, htrees, rfl⟩ := treeOf_operation_eq_ok_iff.1 ht
  obtain ⟨t₁, _, h₁, hnil, rfl⟩ := List.forall₂_cons_left_iff.1 htrees
  cases hnil
  obtain ⟨hmem, hf, htokens⟩ := hr.consistent hgroup .postfixed [w] o ho
  have hget := hr.get?_postfix hmem hf
  rw [Operator.token, htokens] at hget
  have hholds : group.Holds o := by rw [Group.Holds, hf, htokens]; exact ho
  have hw := hr.avoids.weight_eq hmem (by rw [htokens]; exact List.mem_singleton_self w)
  have hb₁ : Balanced (l.slice 0 (l.size - 1)).tokens := by
    rw [TokenList.tokens_slice, TokenList.size_eq, hl]
    rw [hl] at hb
    simpa using hb.dropLast hw
  obtain ⟨d, hd₁⟩ := hd _ _ _ (h.slice (by omega) (Nat.zero_le _)) hb₁ h₁
  exact ⟨_, Derived.postfixed h hb hl hw hget hd₁ (lt_of_site hr hgs hpre hholds hmem hright hleft)⟩

/-- What is read as an operation has a derivation if the sections below it have. -/
theorem DerivesSections.operation (hr : Binary r) {buildSection : TokenList → Except ExprError (Tree α)}
    (hd : DerivesSections full r buildSection) (h : l.Shows full start) (hb : Balanced l.tokens)
    {pre post : List (Group α)} {group : Group α} (hgs : r.groups.1 = pre ++ group :: post)
    (hpre : ∀ group' ∈ pre, Silent r l group') {op : Reading α} (hroot : IsRoot r l group op) {t : Tree α}
    (ht : @treeOf α source buildSection l op = .ok t) : ∃ d, Derived full r l start t d := by
  cases hroot with
  | @right before behind s o hsites hbefore ho =>
    obtain ⟨trees, htrees, rfl⟩ := treeOf_operation_eq_ok_iff.1 ht
    exact hd.infixed hr h hb hgs hpre (a := .right) (by rw [hsites]; exact List.mem_append_right _ List.mem_cons_self)
      ho (leads_right hr hgs hpre hsites hbefore ho) htrees
  | @left before behind s o hsites hright hbehind ho =>
    obtain ⟨trees, htrees, rfl⟩ := treeOf_operation_eq_ok_iff.1 ht
    exact hd.infixed hr h hb hgs hpre (a := .left) (by rw [hsites]; exact List.mem_append_right _ List.mem_cons_self) ho
      (leads_left hr hgs hpre hsites hright hbehind ho) htrees
  | before hright hleft hop => exact hd.prefixed hr h hb hgs hpre hright hleft hop ht
  | behind hright hleft _ hop => exact hd.postfixed hr h hb hgs hpre hright hleft hop ht

/-- What is read as a call has a derivation if its arguments have. -/
theorem DerivesSections.call {buildSection : TokenList → Except ExprError (Tree α)}
    (hd : DerivesSections full r buildSection) (h : l.Shows full start) (hb : Balanced l.tokens) {reading : Reading α}
    {t : Tree α} (hcall : g.readCall? source l = .ok (some reading))
    (ht : @treeOf α source buildSection l reading = .ok t) : ∃ d, Derived full r l start t d := by
  obtain ⟨pre, m, args, hpre, -, hdepth, hm, hl, -, hargs, rfl⟩ := exists_of_readCall? hb hcall
  obtain ⟨trees, hbuilt, rfl⟩ := treeOf_call_eq_ok_iff.1 ht
  have htrees := hbuilt.imp fun _ _ h => h.2
  have hsize : l.size = pre.length + m.length + 2 := by rw [TokenList.size_eq, hl]; simp; omega
  have hinner := tokens_enclosed hl
  have hlength : (l.slice (pre.length + 1) (l.size - 1)).size = m.length := by rw [TokenList.size_eq, hinner]
  rcases readArguments_cases hargs with ⟨hnil, rfl⟩ | ⟨-, rfl⟩
  · rw [hinner] at hnil
    cases htrees
    exact ⟨_, @Derived.call _ _ _ _ _ h _ _ hpre hdepth hm hl _ _ []
      ⟨by rw [hnil]; exact .nil, rfl, by simp [Derivation.subsAll], by simp [Derivation.subsAll]⟩⟩
  · have hshows := h.slice (a := pre.length + 1) (b := l.size - 1) (by omega) (by omega)
    have hpoints := @TokenList.cutPoints_splitPoints Token.isSeparator _ []
      (l.slice (pre.length + 1) (l.size - 1)).tokens 0 rfl (Nat.le_refl _) rfl
    obtain ⟨ds, -, hds⟩ := hd.cutFrom hshows (by rw [hinner]; exact hm) hpoints htrees
    rw [hlength, Nat.add_zero] at hds
    exact ⟨_, Derived.call h hpre hdepth hm hl hds⟩

/-- Every section that is built has a derivation. -/
theorem derivesSections_build (hr : Binary g.operators) (levels : Nat) :
    DerivesSections full g.operators (g.build source g.operators.groups.1 levels) := by
  induction levels with
  | zero =>
    intro l start t _ _ ht
    rw [build] at ht
    cases ht
  | succ levels ih =>
    intro l start t h hb ht
    obtain ⟨reading, hread, ht⟩ := build_succ_eq_ok_iff.1 ht
    rcases (read_cases hread).2 with ⟨hin, rfl⟩ | ⟨-, ⟨-, rfl⟩ | ⟨-, hcall | ⟨-, hop | ⟨-, v, -, rfl⟩⟩⟩⟩
    · obtain ⟨m, hl, hm, hinner⟩ := exists_of_isInBrackets hb hin
      have hsize : l.size = m.length + 2 := by rw [TokenList.size_eq, hl]; simp
      rw [treeOf, hinner] at ht
      obtain ⟨d, hd⟩ := ih _ _ _ (h.slice (by omega) (by omega)) (by rw [tokens_inner hl]; exact hm) ht
      exact ⟨_, Derived.brackets h hm hl hd⟩
    · cases ht
      exact ⟨_, Derived.reference h _⟩
    · exact ih.call h hb hcall ht
    · rcases readOperation?_of_flat hb (fun group hm => hr.isFlat hm) with ⟨hnone, -⟩ | hsome
      · rw [hnone] at hop
        cases hop
      · obtain ⟨op, pre, group, post, hread', hgs, hpre, hroot⟩ := hsome
        rw [hread'] at hop
        cases hop
        exact ih.operation hr h hb hgs hpre hroot ht
    · cases ht
      exact ⟨_, Derived.number h v⟩

/-- Trees follow the priorities and associativities of the operators, if infix operators have one token each. -/
theorem parse_ranked (hr : g.operators.Reachable)
    (hsingle : ∀ o ∈ g.operators.operators, (∃ a, o.fixity = .infixed a) → ∃ t, o.tokens = [t])
    (havoids : g.operators.AvoidsBuiltins) (hn : ∀ o ∈ g.operators.operators, o.priority.isNaN = false)
    (hb : Balanced l.tokens) {t : Tree α} (ht : g.parse source l = .ok t) :
    ∃ d : Derivation α, Derives l g.operators 0 l.size d ∧ d.tree l = t ∧ ∀ d' ∈ d.subs, d'.Ranked l g.operators := by
  have hbinary : Binary g.operators := ⟨hr.wellFormed, hsingle, havoids, hn⟩
  obtain ⟨d, hd⟩ := derivesSections_build hbinary _ l 0 t (.refl l) hb (build_of_parse ht)
  refine ⟨d, ?_, hd.tree_eq, hd.ranked⟩
  have := hd.derives
  rwa [Nat.zero_add] at this

/-- A grammar with an operator of each kind, two of which share a token. -/
def sample : Grammar Unit where
  operators := Registry.empty.addAll
    [⟨.prefixed, [['-']], -1.0, ()⟩, ⟨.postfixed, [['!']], 0.0, ()⟩, ⟨.infixed .left, [['-']], 1.0, ()⟩,
      ⟨.infixed .right, [['^']], 2.0, ()⟩]
  vars := []
  functions := []
  limits := {}

theorem parse_ranked_sample : ∃ l t, sample.parse [] l = .ok t ∧
    ∃ d : Derivation Unit, Derives l sample.operators 0 l.size d ∧ d.tree l = t ∧
      ∀ d' ∈ d.subs, d'.Ranked l sample.operators := by
  have hreachable : sample.operators.Reachable := Registry.Reachable.empty.addAll (by
    simp only [List.forall_mem_cons]
    exact ⟨⟨by decide, fun _ => rfl⟩, ⟨by decide, fun _ => rfl⟩, ⟨by decide, fun _ => rfl⟩, ⟨by decide, fun _ => rfl⟩,
      by simp⟩)
  have hoperators : sample.operators.operators =
      [⟨.prefixed, [['-']], -1.0, ()⟩, ⟨.postfixed, [['!']], 0.0, ()⟩, ⟨.infixed .left, [['-']], 1.0, ()⟩,
        ⟨.infixed .right, [['^']], 2.0, ()⟩] := rfl
  have hgroups := hreachable.wellFormed.groups_eq_foldl (by decide +kernel)
  let l := TokenList.ofText sample.operators.tokens.reverse "-1 - 2 ^ (3 - 4) - -5 ^ 6!".toList
  have hok : (sample.parse [] l).isOk = true := by
    rw [parse, hgroups]
    decide +kernel
  obtain ⟨t, ht⟩ : ∃ t, sample.parse [] l = .ok t := by
    cases h : sample.parse [] l with
    | error e => rw [h] at hok; cases hok
    | ok t => exact ⟨t, rfl⟩
  refine ⟨l, t, ht, parse_ranked hreachable ?_ ?_ ?_ ?_ ht⟩
  · simp [hoperators]
  · rw [Registry.AvoidsBuiltins, hoperators]
    decide
  · rw [hoperators]
    simp only [List.forall_mem_cons]
    decide
  · exact (TokenList.bracketFault?_eq_none_iff l).1 (by decide +kernel)

end Grammar

end Mixfix
