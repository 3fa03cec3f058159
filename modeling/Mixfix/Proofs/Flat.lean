import Mixfix.Proofs.Reading

/-!
# Operators of one token

Where infix operators have a single token, no operator lies within another (`Grammar.isEnclosed_of_flat`), so the root
of a section is the first right-associative or the last left-associative operator of the first group that has one
(`Grammar.readRight?_of_flat`, `Grammar.readLeft?_of_flat`), unless an operator before or behind the section comes
first. What is read as an operation is one of these four (`Grammar.readOperation?_of_flat`).
-/

namespace Mixfix

namespace Group

variable {α : Type}

/-- The infix operators of the group have a single token each. -/
structure IsFlat (group : Group α) : Prop extends Sound group where
  left_flat : Scan.Flat group.left
  right_flat : Scan.Flat group.right

variable {group : Group α}

theorem Sound.reversed_flat (h : group.Sound) (hf : Scan.Flat group.left) : Scan.Flat group.leftReversed := by
  intro path hp
  rw [h.reversed] at hp
  obtain ⟨k, hk⟩ := hf _ hp
  exact ⟨k, by rw [← List.reverse_reverse path, hk]; rfl⟩

/-- A group whose infix operators have one token each is flat. -/
theorem Sound.isFlat (h : group.Sound) (hos : ∀ a ts o, group.get? (.infixed a) ts = some o → ∃ t, ts = [t]) :
    group.IsFlat where
  toSound := h
  left_flat path hp := by
    obtain ⟨o, ho⟩ := Option.isSome_iff_exists.1 hp
    exact hos .left path o ho
  right_flat path hp := by
    obtain ⟨o, ho⟩ := Option.isSome_iff_exists.1 hp
    exact hos .right path o ho

end Group

namespace Grammar

variable {α : Type} {g : Grammar α} {r : Registry α} {group : Group α} {gs : List (Group α)} {l : TokenList}
  {ts : List Token}

/-! ## Scans -/

theorem scanRight_of_flat (h : group.IsFlat) (skip : Nat → Bool) :
    scanRight group (Mark.ofTokens r ts) skip = ((Site.forward (Mark.ofTokens r ts) 0 skip).find? fun s =>
      (group.right.get? [s.text]).isSome).map fun s => [s.index] := by
  rw [scanRight_eq h.toSound, sitesFound, Scan.seek_flat h.right_distinct h.right_flat, Option.map_map]
  rfl

theorem scanLeft_of_flat (h : group.Sound) (hf : Scan.Flat group.left) (skip : Nat → Bool) :
    scanLeft group (Mark.ofTokens r ts) skip =
      ((Site.backward (Mark.ofTokens r ts) ((Mark.ofTokens r ts).length - 1) skip).find? fun s =>
        (group.left.get? [s.text]).isSome).map fun s => [s.index] := by
  have hreversed (s : Site) : group.leftReversed.get? [s.text] = group.left.get? [s.text] := h.reversed [s.text]
  rw [scanLeft_eq h, sitesFound, Scan.seek_flat h.reversed_distinct (h.reversed_flat hf), Option.map_map]
  simp only [hreversed]
  rfl

/-- An operator of one token stands around nothing. -/
theorem encloses_singleton {first last : Nat} (h : first ≤ last) (found : Option Site) :
    encloses first last (found.map fun s => [s.index]) = false := by
  cases found with
  | none => rfl
  | some s =>
    simp [encloses]
    omega

/-- Where operators have one token each, none lies within another. -/
theorem isEnclosed_of_flat {points : List Nat} (hpoints : ∀ first last, points.head? = some first →
    points.getLast? = some last → first ≤ last) {same : Option (Group α)}
    (hsame : ∀ group ∈ same, group.Sound ∧ Scan.Flat group.left)
    (hgs : ∀ group ∈ gs, group.IsFlat) : g.isEnclosed ts (Mark.ofTokens r ts) points same gs = false := by
  rw [isEnclosed]
  split
  · next first last hf hl =>
    have hle := hpoints first last hf hl
    have hleft (group : Group α) (h : group.Sound ∧ Scan.Flat group.left) (skip : Nat → Bool) :
        encloses first last (scanLeft group (Mark.ofTokens r ts) skip) = false := by
      rw [scanLeft_of_flat h.1 h.2, encloses_singleton hle]
    have hright (group : Group α) (h : group.IsFlat) (skip : Nat → Bool) :
        encloses first last (scanRight group (Mark.ofTokens r ts) skip) = false := by
      rw [scanRight_of_flat h, encloses_singleton hle]
    have hany : ∀ skip, (gs.any fun group => encloses first last (scanRight group (Mark.ofTokens r ts) skip) ||
        encloses first last (scanLeft group (Mark.ofTokens r ts) skip)) = false := by
      intro skip
      rw [List.any_eq_false]
      intro group hm
      simp [hleft group ⟨(hgs group hm).toSound, (hgs group hm).left_flat⟩, hright group (hgs group hm)]
    simp only [hany, Bool.or_false]
    cases same with
    | none => rfl
    | some group => exact hleft group (hsame group rfl) _
  · rfl

/-! ## Roots -/

/-- The operation of the operator of a trie that a site stands for. -/
def operationAt? (l : TokenList) (t : Trie Text (Operator α)) (s : Site) : Option (Reading α) :=
  (t.get? [s.text]).map fun o => .operation (l.positionAt s.index) o (l.cutAt [s.index])

theorem infixOperation?_singleton {t : Trie Text (Operator α)} {s : Site} (hs : s ∈ Site.ofTokens r l.tokens) :
    infixOperation? l t [s.index] = operationAt? l t s := by
  rw [infixOperation?, operationAt?]
  simp only [List.filterMap_cons, List.filterMap_nil, Site.getElem?_of_mem hs, Option.bind_some, Token.fixed?]
  cases t.get? [s.text] <;> rfl

/-- The right-associative operator of a group that comes first in a section. -/
theorem readRight?_of_flat (hgroup : group.IsFlat) (hgs : ∀ group ∈ gs, group.IsFlat) :
    g.readRight? l (Mark.ofTokens r l.tokens) group gs = ((Site.ofTokens r l.tokens).find? fun s =>
      (group.right.get? [s.text]).isSome).bind (operationAt? l group.right) := by
  rw [readRight?, scanRight_of_flat hgroup, Site.forward_ofTokens]
  cases hs : (Site.ofTokens r l.tokens).find? fun s => (group.right.get? [s.text]).isSome with
  | none => rfl
  | some s =>
    have hnot : g.isEnclosed l.tokens (Mark.ofTokens r l.tokens) [s.index] (some group) gs = false :=
      isEnclosed_of_flat (by simp +contextual) (by simpa using ⟨hgroup.toSound, hgroup.left_flat⟩) hgs
    simp only [Option.map_some, Option.bind_some, bind, hnot]
    exact infixOperation?_singleton (List.mem_of_find?_eq_some hs)

/-- The left-associative operator of a group that comes last in a section. -/
theorem readLeft?_of_flat (hb : Balanced l.tokens) (hgroup : group.IsFlat) (hgs : ∀ group ∈ gs, group.IsFlat) :
    g.readLeft? l (Mark.ofTokens r l.tokens) group gs = ((Site.ofTokens r l.tokens).reverse.find? fun s =>
      (group.left.get? [s.text]).isSome).bind (operationAt? l group.left) := by
  rw [readLeft?, scanLeft_of_flat hgroup.toSound hgroup.left_flat, Site.backward_ofTokens hb]
  cases hs : (Site.ofTokens r l.tokens).reverse.find? fun s => (group.left.get? [s.text]).isSome with
  | none => rfl
  | some s =>
    have hnot : g.isEnclosed l.tokens (Mark.ofTokens r l.tokens) [s.index] none gs = false :=
      isEnclosed_of_flat (by simp +contextual) (by simp) hgs
    simp only [Option.map_some, Option.bind_some, bind, hnot]
    exact infixOperation?_singleton (List.mem_reverse.1 (List.mem_of_find?_eq_some hs))

/-- No operator of the group is a candidate for the root of a section. -/
structure Silent (r : Registry α) (l : TokenList) (group : Group α) : Prop where
  right : ∀ s ∈ Site.ofTokens r l.tokens, group.right.get? [s.text] = none
  left : ∀ s ∈ Site.ofTokens r l.tokens, group.left.get? [s.text] = none
  before : readPrefix? l group = none
  behind : readPostfix? l group = none

/-- An operator of the group is the root of a section: the first that is right-associative or, if there is none, the
last that is left-associative or, if there is no infix operator, the prefix operator at the start or else the postfix
operator at the end. -/
inductive IsRoot (r : Registry α) (l : TokenList) (group : Group α) : Reading α → Prop
  | right {pre post : List Site} {s : Site} {o : Operator α} : Site.ofTokens r l.tokens = pre ++ s :: post →
      (∀ s' ∈ pre, group.right.get? [s'.text] = none) → group.right.get? [s.text] = some o →
      IsRoot r l group (.operation (l.positionAt s.index) o (l.cutAt [s.index]))
  | left {pre post : List Site} {s : Site} {o : Operator α} : Site.ofTokens r l.tokens = pre ++ s :: post →
      (∀ s' ∈ Site.ofTokens r l.tokens, group.right.get? [s'.text] = none) →
      (∀ s' ∈ post, group.left.get? [s'.text] = none) → group.left.get? [s.text] = some o →
      IsRoot r l group (.operation (l.positionAt s.index) o (l.cutAt [s.index]))
  | before {op : Reading α} : (∀ s ∈ Site.ofTokens r l.tokens, group.right.get? [s.text] = none) →
      (∀ s ∈ Site.ofTokens r l.tokens, group.left.get? [s.text] = none) → readPrefix? l group = some op →
      IsRoot r l group op
  | behind {op : Reading α} : (∀ s ∈ Site.ofTokens r l.tokens, group.right.get? [s.text] = none) →
      (∀ s ∈ Site.ofTokens r l.tokens, group.left.get? [s.text] = none) → readPrefix? l group = none →
      readPostfix? l group = some op → IsRoot r l group op

theorem find?_sites_eq_none {t : Trie Text (Operator α)} {ss : List Site} (h : ∀ s ∈ ss, t.get? [s.text] = none) :
    (ss.find? fun s => (t.get? [s.text]).isSome) = none :=
  List.find?_eq_none.2 fun s hs => by simp [h s hs]

/-- A group without a candidate is passed over. -/
theorem readOperation?_of_silent (hb : Balanced l.tokens) (hgroup : group.IsFlat) (hgs : ∀ group ∈ gs, group.IsFlat)
    (h : Silent r l group) : g.readOperation? l (Mark.ofTokens r l.tokens) (group :: gs) =
      g.readOperation? l (Mark.ofTokens r l.tokens) gs := by
  rw [readOperation?, readRight?_of_flat hgroup hgs, readLeft?_of_flat hb hgroup hgs, find?_sites_eq_none h.right,
    find?_sites_eq_none fun s hs => h.left s (List.mem_reverse.1 hs), h.before, h.behind]
  rfl

/-- The root that the first group has is what is read. -/
theorem readOperation?_of_isRoot (hb : Balanced l.tokens) (hgroup : group.IsFlat) (hgs : ∀ group ∈ gs, group.IsFlat)
    {op : Reading α} (h : IsRoot r l group op) :
    g.readOperation? l (Mark.ofTokens r l.tokens) (group :: gs) = some op := by
  rw [readOperation?, readRight?_of_flat hgroup hgs, readLeft?_of_flat hb hgroup hgs]
  cases h with
  | @right pre post s o hsites hpre ho =>
    have hfind : ((Site.ofTokens r l.tokens).find? fun s => (group.right.get? [s.text]).isSome) = some s := by
      rw [hsites, List.find?_append, find?_sites_eq_none hpre, List.find?_cons_of_pos (by simp [ho])]
      rfl
    rw [hfind, Option.bind_some, operationAt?, ho]
    rfl
  | @left pre post s o hsites hright hpost ho =>
    have hfind : ((Site.ofTokens r l.tokens).reverse.find? fun s => (group.left.get? [s.text]).isSome) = some s := by
      rw [hsites, List.reverse_append, List.reverse_cons, List.append_assoc, List.find?_append,
        find?_sites_eq_none fun s' hs' => hpost s' (List.mem_reverse.1 hs'), List.singleton_append,
        List.find?_cons_of_pos (by simp [ho])]
      rfl
    rw [find?_sites_eq_none hright, hfind, Option.bind_none, Option.bind_some, operationAt?, ho]
    rfl
  | before hright hleft hop =>
    rw [find?_sites_eq_none hright, find?_sites_eq_none fun s hs => hleft s (List.mem_reverse.1 hs), hop]
    rfl
  | behind hright hleft hbefore hop =>
    rw [find?_sites_eq_none hright, find?_sites_eq_none fun s hs => hleft s (List.mem_reverse.1 hs), hbefore, hop]
    rfl

/-- The root that the first group has which is not silent is what is read. -/
theorem readOperation?_of_first {pre post : List (Group α)} (hb : Balanced l.tokens)
    (hgs : ∀ group' ∈ pre ++ group :: post, group'.IsFlat) (hpre : ∀ group' ∈ pre, Silent r l group') {op : Reading α}
    (h : IsRoot r l group op) : g.readOperation? l (Mark.ofTokens r l.tokens) (pre ++ group :: post) = some op := by
  induction pre with
  | nil =>
    exact readOperation?_of_isRoot hb (hgs group List.mem_cons_self)
      (fun group' hm => hgs group' (List.mem_cons_of_mem _ hm)) h
  | cons group' pre ih =>
    have htighter (group'' : Group α) (hm : group'' ∈ pre ++ group :: post) : group''.IsFlat :=
      hgs group'' (List.mem_cons_of_mem _ hm)
    exact (readOperation?_of_silent hb (hgs group' List.mem_cons_self) htighter (hpre group' List.mem_cons_self)).trans
      (ih htighter fun group'' hm => hpre group'' (List.mem_cons_of_mem _ hm))

/-- What is read as an operation is the root that the first group has which is not silent. -/
theorem readOperation?_of_flat (hb : Balanced l.tokens) (hgs : ∀ group ∈ gs, group.IsFlat) :
    (g.readOperation? l (Mark.ofTokens r l.tokens) gs = none ∧ ∀ group ∈ gs, Silent r l group) ∨
      ∃ op pre group post, g.readOperation? l (Mark.ofTokens r l.tokens) gs = some op ∧ gs = pre ++ group :: post ∧
        (∀ group' ∈ pre, Silent r l group') ∧ IsRoot r l group op := by
  induction gs with
  | nil => exact Or.inl ⟨rfl, by simp⟩
  | cons group gs ih =>
    have hgroup := hgs group List.mem_cons_self
    have htighter (group' : Group α) (hm : group' ∈ gs) : group'.IsFlat := hgs group' (List.mem_cons_of_mem _ hm)
    -- the first of the four that is there is the root
    have hroot {op : Reading α} (h : IsRoot r l group op) :
        ∃ op pre group' post, g.readOperation? l (Mark.ofTokens r l.tokens) (group :: gs) = some op ∧
          group :: gs = pre ++ group' :: post ∧ (∀ group' ∈ pre, Silent r l group') ∧ IsRoot r l group' op :=
      ⟨op, [], group, gs, readOperation?_of_isRoot hb hgroup htighter h, rfl, by simp, h⟩
    cases hright : (Site.ofTokens r l.tokens).find? fun s => (group.right.get? [s.text]).isSome with
    | some s =>
      obtain ⟨hs, pre, post, hsites, hpre⟩ := List.find?_eq_some_iff_append.1 hright
      obtain ⟨o, ho⟩ := Option.isSome_iff_exists.1 hs
      exact Or.inr (hroot (.right hsites (fun s' hs' => by simpa using hpre s' hs') ho))
    | none =>
      have hnoright (s : Site) (hs : s ∈ Site.ofTokens r l.tokens) : group.right.get? [s.text] = none := by
        simpa using List.find?_eq_none.1 hright s hs
      cases hleft : (Site.ofTokens r l.tokens).reverse.find? fun s => (group.left.get? [s.text]).isSome with
      | some s =>
        obtain ⟨hs, pre, post, hsites, hpre⟩ := List.find?_eq_some_iff_append.1 hleft
        obtain ⟨o, ho⟩ := Option.isSome_iff_exists.1 hs
        have hsites' : Site.ofTokens r l.tokens = post.reverse ++ s :: pre.reverse := by
          rw [← List.reverse_reverse (Site.ofTokens r l.tokens), hsites]
          simp
        exact Or.inr (hroot (.left hsites' hnoright (fun s' hs' => by simpa using hpre s' (List.mem_reverse.1 hs')) ho))
      | none =>
        have hnoleft (s : Site) (hs : s ∈ Site.ofTokens r l.tokens) : group.left.get? [s.text] = none := by
          simpa using List.find?_eq_none.1 hleft s (List.mem_reverse.2 hs)
        cases hbefore : readPrefix? l group with
        | some op => exact Or.inr (hroot (.before hnoright hnoleft hbefore))
        | none =>
          cases hbehind : readPostfix? l group with
          | some op => exact Or.inr (hroot (.behind hnoright hnoleft hbefore hbehind))
          | none =>
            have hsilent : Silent r l group := ⟨hnoright, hnoleft, hbefore, hbehind⟩
            have hread := @readOperation?_of_silent _ g r group gs l hb hgroup htighter hsilent
            rcases ih htighter with ⟨hnone, hall⟩ | ⟨op, pre, group', post, hop, rfl, hpre, h⟩
            · exact Or.inl ⟨hread.trans hnone, List.forall_mem_cons.2 ⟨hsilent, hall⟩⟩
            · exact Or.inr ⟨op, group :: pre, group', post, hread.trans hop, rfl,
                List.forall_mem_cons.2 ⟨hsilent, hpre⟩, h⟩

end Grammar

end Mixfix
