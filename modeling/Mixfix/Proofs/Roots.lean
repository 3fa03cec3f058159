import Mixfix.Proofs.Operations

/-!
# Roots of sections

What a section is read as, wherever brackets stand in it (`Grammar.reads_of_read`): each kind of root says where in the
section its own tokens stand, and between which tokens the sections below it. This needs neither balanced brackets nor
operators that leave brackets alone, so it holds of every section that a parser comes to.

A section is cut at tokens that have others before and behind them (`TokenList.Cuts`), so that the last part is never
empty. The sections below a root are slices of slices, so they keep what slices keep
(`Grammar.forall_sections_of_reads`).
-/

namespace Mixfix

/-! ## Infix tokens -/

namespace Site

variable {α : Type} {r : Registry α} {ts : List Token} {depth : Int} {own : List Site}

/-- Sites in ascending order, at fixed tokens that have others before and behind them. -/
structure Among (own : List Site) (ts : List Token) : Prop where
  ne_nil : own ≠ []
  ascending : own.Pairwise fun a b => a.index < b.index
  token : ∀ s ∈ own, ts[s.index]? = some (.fixed s.text)
  inner : ∀ s ∈ own, 1 ≤ s.index ∧ s.index + 1 < ts.length

/-- Before and behind a token that may be infix there is an operand. -/
theorem among_of_sublist (h : own.Sublist (inTokens r [] [] 0 depth ts)) (hne : own ≠ []) : Among own ts where
  ne_nil := hne
  ascending := (pairwise_inTokens ts).sublist h
  token s hs := by
    obtain ⟨u, v, rfl, hi, -⟩ := mem_inTokens.1 (h.subset hs)
    rw [hi, Nat.zero_add]
    simp
  inner s hs := by
    obtain ⟨u, v, rfl, hi, -, -, -, hcan⟩ := mem_inTokens.1 (h.subset hs)
    rw [List.append_nil, List.append_nil] at hcan
    obtain ⟨hu, hv⟩ := Registry.ne_nil_of_canBeInfix hcan
    have hulen := List.length_pos_iff.2 (List.reverse_ne_nil_iff.1 hu)
    have hvlen := List.length_pos_iff.2 hv
    rw [hi, List.length_append, List.length_cons]
    omega

end Site

/-! ## Cuts -/

namespace TokenList

variable {l : TokenList} {points : List Nat}

/-- Ascending indices of tokens of a list, none of them the last. -/
structure Cuts (l : TokenList) (points : List Nat) : Prop where
  pos : 0 < l.size
  ascending : points.Pairwise (· < ·)
  inner : ∀ p ∈ points, p + 1 < l.size

theorem Cuts.tail {p : Nat} (h : l.Cuts (p :: points)) : l.Cuts points :=
  ⟨h.pos, (List.pairwise_cons.1 h.ascending).2, fun q hq => h.inner q (List.mem_cons_of_mem _ hq)⟩

theorem cuts_of_among {own : List Site} (h : Site.Among own l.tokens) : l.Cuts (own.map Site.index) where
  pos := by
    obtain ⟨s, hs⟩ := List.exists_mem_of_ne_nil own h.ne_nil
    have := h.inner s hs
    rw [size_eq]
    omega
  ascending := List.pairwise_map.2 h.ascending
  inner p hp := by
    obtain ⟨s, hs, rfl⟩ := List.mem_map.1 hp
    rw [size_eq]
    exact (h.inner s hs).2

/-- Where a list is cut between its tokens, each part starts at a token, and a part without tokens at a cut. -/
theorem slice_of_mem_cutFrom {part : TokenList} : ∀ {start : Nat},
    l.Cuts points → start < l.size → (∀ p ∈ points, start ≤ p) → part ∈ l.cutFrom start points →
    ∃ a b, part = l.slice a b ∧ a ≤ b ∧ b ≤ l.size ∧ a < l.size ∧ (a = b → a ∈ points) := by
  induction points with
  | nil =>
    intro start _ hstart _ hpart
    rw [cutFrom, List.mem_singleton] at hpart
    exact ⟨start, l.size, hpart, by omega, Nat.le_refl _, hstart, fun heq => absurd heq (by omega)⟩
  | cons p points ih =>
    intro start hcuts hstart hle hpart
    have hp := hcuts.inner p List.mem_cons_self
    rw [cutFrom] at hpart
    rcases List.mem_cons.1 hpart with rfl | hpart
    · exact ⟨start, p, rfl, hle p List.mem_cons_self, by omega, hstart, fun heq => heq ▸ List.mem_cons_self⟩
    · obtain ⟨a, b, rfl, hab, hb, ha, hmem⟩ :=
        ih hcuts.tail hp (fun q hq => (List.pairwise_cons.1 hcuts.ascending).1 q hq) hpart
      exact ⟨a, b, rfl, hab, hb, ha, fun heq => List.mem_cons_of_mem _ (hmem heq)⟩

end TokenList

namespace Grammar

open TokenList

variable {α : Type} {g : Grammar α} {source : Text} {gs : List (Group α)} {group : Group α} {l : TokenList}
  {ts : List Token} {r : Registry α}

/-! ## Scans -/

/-- What a scan for right-associative operators finds. -/
theorem exists_among_of_scanRight (hg : group.Sound) {points : List Nat}
    (h : scanRight group (Mark.ofTokens r ts) (fun _ => false) = some points) :
    ∃ own, points = own.map Site.index ∧ Site.Among own ts ∧ (group.right.get? (own.map Site.text)).isSome := by
  rw [scanRight_ofTokens hg, sitesFound, Option.map_map] at h
  obtain ⟨f, hf, rfl⟩ := Option.map_eq_some_iff.1 h
  obtain ⟨hsub, hne, hitem⟩ := Scan.seek_sound 0 _ hf
  exact ⟨f.sites, rfl, Site.among_of_sublist hsub hne, hitem⟩

/-- What a scan for left-associative operators finds, whatever the bracket depth that it ends at. -/
theorem exists_among_of_scanLeft (hg : group.Sound) {points : List Nat}
    (h : scanLeft group (Mark.ofTokens r ts) (fun _ => false) = some points) :
    ∃ own, points = own.map Site.index ∧ Site.Among own ts ∧ (group.left.get? (own.map Site.text)).isSome := by
  have hsites : Site.backward (Mark.ofTokens r ts) ((Mark.ofTokens r ts).length - 1) (fun _ => false) =
      (Site.inTokens r [] [] 0 (0 - bracketDepth ts) ts).reverse := by
    have hall : (Site.marksIn r [] [] 0 ts).filter (fun _ => !false) = Site.marksIn r [] [] 0 ts :=
      List.filter_eq_self.2 fun _ _ => rfl
    rw [Site.backward_eq, hall, Site.ofMarks_backwardMarks, Site.markDepth_marksIn, Site.ofMarks_marksIn]
  rw [scanLeft_eq hg, hsites, sitesFound, Option.map_map] at h
  obtain ⟨f, hf, rfl⟩ := Option.map_eq_some_iff.1 h
  obtain ⟨hsub, hne, hitem⟩ := Scan.seek_sound 0 _ hf
  have hsub' : f.sites.reverse.Sublist (Site.inTokens r [] [] 0 (0 - bracketDepth ts) ts) := by
    rw [← List.reverse_sublist, List.reverse_reverse]
    exact hsub
  refine ⟨f.sites.reverse, List.map_reverse.symm, Site.among_of_sublist hsub' (List.reverse_ne_nil_iff.2 hne), ?_⟩
  rwa [hg.reversed, ← List.map_reverse] at hitem

/-! ## Arguments -/

/-- The open bracket of a call is neither the first nor the last token. -/
theorem bounds_of_innerOpen? {i : Nat} (h : innerOpen? ts = some i) : 1 ≤ i ∧ i + 1 < ts.length := by
  obtain ⟨j, hj, rfl⟩ := Option.map_eq_some_iff.1 h
  have hlt : j < ts.tail.dropLast.length := (List.findIdx?_eq_some_iff_getElem.1 hj).1
  rw [List.length_dropLast, List.length_tail] at hlt
  omega

theorem lastIs_of_readArguments {name : Text} {args : TokenList} {parts : List TokenList}
    (h : g.readArguments source l name args = .ok parts) (hne : args.tokens ≠ []) :
    args.lastIs Token.isSeparator = false := by
  rw [readArguments] at h
  split at h
  · next hempty =>
    rw [TokenList.isEmpty, List.isEmpty_iff] at hempty
    exact absurd (by rw [Row.tokens, hempty, List.map_nil]) hne
  · split at h
    · cases h
    · split at h
      · cases h
      · next hlast => exact Bool.eq_false_iff.2 hlast

/-- The arguments of a call are none, or they stand between separators, none of which comes last. -/
theorem cuts_of_readArguments {name : Text} {args : TokenList} {parts : List TokenList}
    (h : g.readArguments source l name args = .ok parts) : parts = [] ∨ ∃ points, parts = args.cutAt points ∧
      args.Cuts points ∧ ∀ p ∈ points, ∃ t, args.tokens[p]? = some t ∧ t.isSeparator = true := by
  rcases readArguments_cases h with ⟨-, hnil⟩ | ⟨hne, hparts⟩
  · exact .inl hnil
  have hlast := lastIs_of_readArguments h hne
  have htoken {p : Nat} (hp : p ∈ splitPoints Token.isSeparator 0 0 args.tokens) :
      ∃ t, args.tokens[p]? = some t ∧ t.isSeparator = true := by
    obtain ⟨u, t, v, htokens, hpos, -, -, hsep⟩ := mem_splitPoints.1 hp
    exact ⟨t, by rw [htokens, hpos]; simp, hsep⟩
  have hinner {p : Nat} (hp : p ∈ splitPoints Token.isSeparator 0 0 args.tokens) : p + 1 < args.size := by
    obtain ⟨t, ht, hsep⟩ := htoken hp
    have hlt := (List.getElem?_eq_some_iff.1 ht).1
    rw [size_eq]
    -- a separator at the last index would be the last token
    by_contra hend
    have hindex : args.tokens.length - 1 = p := by omega
    rw [lastIs, last?, List.getLast?_eq_getElem?, hindex, ht, Option.any_some, hsep] at hlast
    cases hlast
  refine .inr ⟨_, hparts, ⟨?_, pairwise_splitPoints _, fun p hp => hinner hp⟩, fun p hp => htoken hp⟩
  rw [size_eq]
  exact List.length_pos_iff.2 hne

/-! ## Roots -/

/-- What a section is read as: where the tokens of the root stand in it, and which parts of it are below the root. -/
inductive Reads (g : Grammar α) (l : TokenList) : Reading α → Prop
  | brackets : 2 ≤ l.size → Reads g l (.brackets (l.slice 1 (l.size - 1)))
  | reference : Reads g l (.reference l.trimmedText)
  | callEmpty {i : Nat} : 1 ≤ i → i + 1 < l.size → Reads g l (.call (l.slice 0 i).trimmedText [])
  | call {i : Nat} {points : List Nat} : 1 ≤ i → i + 1 < l.size → (l.slice (i + 1) (l.size - 1)).Cuts points →
      (∀ p ∈ points, ∃ t, (l.slice (i + 1) (l.size - 1)).tokens[p]? = some t ∧ t.isSeparator = true) →
      Reads g l (.call (l.slice 0 i).trimmedText ((l.slice (i + 1) (l.size - 1)).cutAt points))
  | infixed {o : Operator α} {a : Associativity} {own : List Site} : o ∈ g.operators.operators →
      o.fixity = .infixed a → o.tokens = own.map Site.text → Site.Among own l.tokens →
      Reads g l (.operation (l.positionAt ((own.map Site.index).headD 0)) o (l.cutAt (own.map Site.index)))
  | prefixed {o : Operator α} {t : Text} {ts : List Token} : o ∈ g.operators.operators → o.fixity = .prefixed →
      o.tokens = [t] → l.tokens = .fixed t :: ts → ts ≠ [] →
      Reads g l (.operation l.position o [l.slice 1 l.size])
  | postfixed {o : Operator α} {t : Text} {ts : List Token} : o ∈ g.operators.operators → o.fixity = .postfixed →
      o.tokens = [t] → l.tokens = ts ++ [.fixed t] → ts ≠ [] →
      Reads g l (.operation (l.positionAt (l.size - 1)) o [l.slice 0 (l.size - 1)])
  | number {v : Float} : readNumber? l.text = some v → Reads g l (.number v)

/-- A section in brackets has two tokens at least. -/
theorem reads_of_isInBrackets (h : l.isInBrackets = true) : Reads g l (.brackets l.withoutFirstAndLast) := by
  have hsize : 2 ≤ l.size := by
    rw [isInBrackets] at h
    rw [size_eq]
    cases htokens : l.tokens with
    | nil =>
      rw [htokens] at h
      cases h
    | cons t ts =>
      cases ts with
      | nil =>
        rw [htokens, areInBrackets_singleton] at h
        cases h
      | cons _ _ => simp
  rw [withoutFirstAndLast, if_neg (by omega)]
  exact .brackets hsize

theorem reads_of_readCall? {reading : Reading α} (h : g.readCall? source l = .ok (some reading)) :
    Reads g l reading := by
  obtain ⟨i, parts, -, hopen, -, -, hargs, rfl⟩ := call_of_readCall? h
  obtain ⟨hpos, hlt⟩ := bounds_of_innerOpen? hopen
  rw [← size_eq] at hlt
  rcases cuts_of_readArguments hargs with rfl | ⟨points, rfl, hcuts, hsep⟩
  · exact .callEmpty hpos hlt
  · exact .call hpos hlt hcuts hsep

/-- Sites that spell an operator of a group give the operation of that operator. -/
theorem reads_of_infixOperation? (hr : g.operators.WellFormed) (hm : group ∈ g.operators.groups.1) {own : List Site}
    (hown : Site.Among own l.tokens) {a : Associativity} {t : Trie Text (Operator α)}
    (ht : ∀ ts, group.get? (.infixed a) ts = t.get? ts) {op : Reading α}
    (h : infixOperation? l t (own.map Site.index) = some op) : Reads g l op := by
  rw [infixOperation?, Site.filterMap_fixed? hown.token] at h
  obtain ⟨o, ho, h⟩ := Option.bind_eq_some_iff.1 h
  cases h
  obtain ⟨hmem, hf, htokens⟩ := hr.consistent hm (.infixed a) _ o ((ht _).trans ho)
  exact .infixed hmem hf htokens hown

theorem reads_of_readRight? (hr : g.operators.WellFormed) (hm : group ∈ g.operators.groups.1) {op : Reading α}
    (h : g.readRight? l (Mark.ofTokens g.operators l.tokens) group gs = some op) : Reads g l op := by
  obtain ⟨points, hpoints, h⟩ := Option.bind_eq_some_iff.1 h
  obtain ⟨own, rfl, hown, -⟩ := exists_among_of_scanRight (hr.sound hm) hpoints
  have hget (ts : List Text) : group.get? (.infixed .right) ts = group.right.get? ts := rfl
  split at h
  · cases h
  · exact reads_of_infixOperation? hr hm hown hget h

theorem reads_of_readLeft? (hr : g.operators.WellFormed) (hm : group ∈ g.operators.groups.1) {op : Reading α}
    (h : g.readLeft? l (Mark.ofTokens g.operators l.tokens) group gs = some op) : Reads g l op := by
  obtain ⟨points, hpoints, h⟩ := Option.bind_eq_some_iff.1 h
  obtain ⟨own, rfl, hown, -⟩ := exists_among_of_scanLeft (hr.sound hm) hpoints
  have hget (ts : List Text) : group.get? (.infixed .left) ts = group.left.get? ts := rfl
  split at h
  · cases h
  · exact reads_of_infixOperation? hr hm hown hget h

theorem reads_of_readOperation? (hr : g.operators.WellFormed) (hgs : ∀ group ∈ gs, group ∈ g.operators.groups.1)
    {op : Reading α} (h : g.readOperation? l (Mark.ofTokens g.operators l.tokens) gs = some op) : Reads g l op := by
  induction gs with
  | nil => cases h
  | cons group gs ih =>
    have hm := hgs group List.mem_cons_self
    simp only [readOperation?, Option.orElse_eq_or, Option.or_eq_some_iff] at h
    rcases h with h | ⟨-, h | ⟨-, h | ⟨-, h | ⟨-, h⟩⟩⟩⟩
    · exact reads_of_readRight? hr hm h
    · exact reads_of_readLeft? hr hm h
    · obtain ⟨t, o, ts, hl, hne, ho, rfl⟩ := readPrefix?_eq_some_iff.1 h
      obtain ⟨hmem, hf, htokens⟩ := hr.consistent hm .prefixed [t] o ho
      exact .prefixed hmem hf htokens hl hne
    · obtain ⟨t, o, ts, hl, hne, ho, rfl⟩ := readPostfix?_eq_some_iff.1 h
      obtain ⟨hmem, hf, htokens⟩ := hr.consistent hm .postfixed [t] o ho
      exact .postfixed hmem hf htokens hl hne
    · exact ih (fun group' hm' => hgs group' (List.mem_cons_of_mem _ hm')) h

/-- Whatever brackets a section has, the tokens of its root and the sections below stand in it in order. -/
theorem reads_of_read (hr : g.operators.WellFormed) {reading : Reading α}
    (h : g.read source g.operators.groups.1 l = .ok reading) : Reads g l reading := by
  obtain ⟨-, ⟨hin, rfl⟩ | ⟨-, ⟨-, rfl⟩ | ⟨-, hcall | ⟨-, hop | ⟨-, v, hv, rfl⟩⟩⟩⟩⟩ := read_cases h
  · exact reads_of_isInBrackets hin
  · exact .reference
  · exact reads_of_readCall? hcall
  · exact reads_of_readOperation? hr (fun _ hm => hm) hop
  · exact .number hv

/-- What slices preserve holds of the sections below the root of a section: they are slices of it or of what is in its
brackets. -/
theorem forall_sections_of_reads {P : TokenList → Prop} (hP : ∀ l a b, P l → a ≤ b → P (l.slice a b)) (h : P l)
    {reading : Reading α}
    (hreads : Reads g l reading) : ∀ s ∈ sections reading, P s := by
  have hcut {l : TokenList} {points : List Nat} (h : P l) (hcuts : l.Cuts points) : ∀ s ∈ l.cutAt points, P s := by
    intro s hs
    obtain ⟨a, b, rfl, hab, -⟩ := slice_of_mem_cutFrom hcuts hcuts.pos (fun p _ => Nat.zero_le p) hs
    exact hP l a b h hab
  cases hreads with
  | brackets htwo => exact List.forall_mem_singleton.2 (hP _ _ _ h (by omega))
  | reference | callEmpty _ _ | number _ => exact fun _ hs => absurd hs List.not_mem_nil
  | call hpos hi hcuts _ => exact hcut (hP _ _ _ h (by omega)) hcuts
  | infixed _ _ _ hown => exact hcut h (cuts_of_among hown)
  | @prefixed o x xs _ _ _ hl hxs =>
    have hsize : l.size = xs.length + 1 := by rw [size_eq, hl, List.length_cons]
    exact List.forall_mem_singleton.2 (hP _ _ _ h (by omega))
  | postfixed _ _ _ _ _ => exact List.forall_mem_singleton.2 (hP _ _ _ h (Nat.zero_le _))

end Grammar

end Mixfix
