import Mixfix.Parse

/-!
# Sections become smaller

The sections below the root of a section have fewer tokens (`Grammar.size_lt_of_read`): a scan finds at least one token
to cut a section at (`Scan.mem_of_seek`), and what brackets and calls leave out are tokens as well. This holds of every
registry and of lists whose brackets do not match, so that a parser ends whatever it is given.
-/

namespace Mixfix

/-- A count that passes its check is within the limit. -/
theorem Limits.le_of_check {limits : Limits} {which : Limit} {actual : Int} {position : Option Int}
    {source : Option Text} (h : limits.check which actual position source = .ok ()) : actual ≤ limits.bound which := by
  rw [check] at h
  split at h
  · cases h
  · omega

/-! ## Parts -/

namespace TokenList

variable {l : TokenList} {points : List Nat}

theorem size_slice_le (l : TokenList) (a b : Nat) : (l.slice a b).size ≤ b - a ∧ (l.slice a b).size ≤ l.size - a := by
  simp only [size, slice, List.length_take, List.length_drop]
  omega

theorem size_cutFrom (start : Nat) (hpoints : ∀ p ∈ points, p < l.size) (h : points ≠ [] ∨ 1 ≤ start ∧ start ≤ l.size) :
    ∀ part ∈ l.cutFrom start points, part.size < l.size := by
  induction points generalizing start with
  | nil =>
    intro part hpart
    rw [cutFrom, List.mem_singleton] at hpart
    have := size_slice_le l start l.size
    rw [hpart]
    rcases h with h | h
    · exact absurd rfl h
    · omega
  | cons p points ih =>
    have hp := hpoints p List.mem_cons_self
    intro part hpart
    rw [cutFrom] at hpart
    rcases List.mem_cons.1 hpart with rfl | hpart
    · have := size_slice_le l start p
      omega
    · exact ih (p + 1) (fun q hq => hpoints q (List.mem_cons_of_mem _ hq)) (Or.inr (by omega)) part hpart

theorem size_splitByFrom (p : Token → Bool) (ts : List Token) (start i : Nat) (depth : Int) :
    ∀ part ∈ l.splitByFrom p start depth i ts, part.size ≤ l.size := by
  induction ts generalizing start i depth with
  | nil =>
    intro part hpart
    rw [splitByFrom, List.mem_singleton] at hpart
    have := size_slice_le l start i
    rw [hpart]
    omega
  | cons t ts ih =>
    intro part hpart
    rw [splitByFrom] at hpart
    split at hpart
    · exact ih _ _ _ part hpart
    · split at hpart
      · exact ih _ _ _ part hpart
      · split at hpart
        · rcases List.mem_cons.1 hpart with rfl | hpart
          · have := size_slice_le l start i
            omega
          · exact ih _ _ _ part hpart
        · exact ih _ _ _ part hpart

end TokenList

namespace Mark

variable {α : Type} (r : Registry α)

theorem length_ofTokensFrom (before ts : List Token) : (ofTokensFrom r before ts).length = ts.length := by
  induction ts generalizing before with
  | nil => rfl
  | cons t ts ih => rw [ofTokensFrom, List.length_cons, List.length_cons, ih]

theorem length_ofTokens (ts : List Token) : (ofTokens r ts).length = ts.length := length_ofTokensFrom r [] ts

end Mark

/-! ## Scans -/

namespace Scan

variable {β : Type}

/-- A forward scan finds indices of marks. -/
theorem forwardFrom_lt {marks : Array Mark} {skip : Nat → Bool} {low : Nat} {root node : Trie Text β} {depth : Int}
    {i : Nat} {hi : low ≤ i} {a : Ahead low} (h : forwardFrom marks skip low root node depth i hi = some a) :
    ∀ p ∈ a.indices, p < marks.size := by
  fun_induction forwardFrom marks skip low root node depth i hi with
  | case4 low root node i hi _ hlt _ _ _ next _ _ ih =>
    cases h
    cases hrest : forwardFrom marks skip low next next 0 (i + 1) (Nat.le_succ_of_le hi) with
    | none => exact List.forall_mem_singleton.2 hlt
    | some rest => exact List.forall_mem_cons.2 ⟨hlt, ih hrest⟩
  | case5 low root node i hi _ hlt _ _ _ next _ _ ih =>
    obtain ⟨rest, hrest, rfl⟩ := Option.map_eq_some_iff.1 h
    exact List.forall_mem_cons.2 ⟨hlt, ih hrest⟩
  | case11 => cases h
  | _ =>
    rename_i ih
    exact ih h

/-- A backward scan finds indices of marks. -/
theorem backwardFrom_lt {marks : Array Mark} {skip : Nat → Bool} {high : Nat} {root node : Trie Text β} {depth : Int}
    {count : Nat} {hcount : count ≤ high} {b : Behind high}
    (h : backwardFrom marks skip high root node depth count hcount = some b) : ∀ p ∈ b.indices, p < marks.size := by
  fun_induction backwardFrom marks skip high root node depth count hcount with
  | case1 => cases h
  | case5 high root node i hi _ _ text hm next _ _ _ ih =>
    have hlt : i < marks.size := (Array.getElem?_eq_some_iff.1 hm).1
    cases h
    cases hrest : backwardFrom marks skip high next next 0 i (Nat.le_of_succ_le hi) with
    | none => exact List.forall_mem_singleton.2 hlt
    | some rest => exact List.forall_mem_append.2 ⟨ih hrest, List.forall_mem_singleton.2 hlt⟩
  | case6 high root node i hi _ _ text hm next _ _ _ ih =>
    have hlt : i < marks.size := (Array.getElem?_eq_some_iff.1 hm).1
    obtain ⟨rest, hrest, rfl⟩ := Option.map_eq_some_iff.1 h
    exact List.forall_mem_append.2 ⟨ih hrest, List.forall_mem_singleton.2 hlt⟩
  | _ =>
    rename_i ih
    exact ih h

theorem forward_lt {t : Trie Text β} {marks : List Mark} {start : Nat} {skip : Nat → Bool} {points : List Nat}
    (h : forward t marks start skip = some points) : points ≠ [] ∧ ∀ p ∈ points, p < marks.length := by
  obtain ⟨a, ha, rfl⟩ := Option.map_eq_some_iff.1 h
  exact ⟨a.ne_nil, forwardFrom_lt ha⟩

theorem backward_lt {t : Trie Text β} {marks : List Mark} {start : Nat} {skip : Nat → Bool} {points : List Nat}
    (h : backward t marks start skip = some points) : points ≠ [] ∧ ∀ p ∈ points, p < marks.length := by
  obtain ⟨b, hb, rfl⟩ := Option.map_eq_some_iff.1 h
  exact ⟨b.ne_nil, backwardFrom_lt hb⟩

end Scan

/-! ## Sections -/

namespace Grammar

variable {α : Type} {g : Grammar α} {source : Text} {l : TokenList} {gs : List (Group α)} {group : Group α}
  {marks : List Mark} {reading : Reading α}

theorem length_marks (l : TokenList) : (Mark.ofTokens g.operators l.tokens).length = l.size := by
  rw [Mark.length_ofTokens, Row.tokens, List.length_map, TokenList.size]

/-- The root is an operation on sections with fewer tokens. -/
def Operates (l : TokenList) (reading : Reading α) : Prop :=
  ∃ position operator operands, reading = .operation position operator operands ∧ ∀ s ∈ operands, s.size < l.size

theorem operates_of_infixOperation? {t : Trie Text (Operator α)} {points : List Nat} (hne : points ≠ [])
    (hlt : ∀ p ∈ points, p < l.size) (h : infixOperation? l t points = some reading) : Operates l reading := by
  obtain ⟨operator, -, h⟩ := Option.bind_eq_some_iff.1 h
  cases h
  exact ⟨_, _, _, rfl, TokenList.size_cutFrom 0 hlt (Or.inl hne)⟩

theorem operates_of_readRight? (hmarks : marks.length = l.size) (h : g.readRight? l marks group gs = some reading) :
    Operates l reading := by
  obtain ⟨points, hpoints, h⟩ := Option.bind_eq_some_iff.1 h
  rw [scanRight] at hpoints
  split at hpoints
  · cases hpoints
  · obtain ⟨hne, hlt⟩ := Scan.forward_lt hpoints
    split at h
    · cases h
    · exact operates_of_infixOperation? hne (by rwa [← hmarks]) h

theorem operates_of_readLeft? (hmarks : marks.length = l.size) (h : g.readLeft? l marks group gs = some reading) :
    Operates l reading := by
  obtain ⟨points, hpoints, h⟩ := Option.bind_eq_some_iff.1 h
  rw [scanLeft] at hpoints
  split at hpoints
  · cases hpoints
  · obtain ⟨hne, hlt⟩ := Scan.backward_lt hpoints
    split at h
    · cases h
    · exact operates_of_infixOperation? hne (by rwa [← hmarks]) h

theorem operates_of_readPrefix? (h : readPrefix? l group = some reading) : Operates l reading := by
  obtain ⟨operator, -, h⟩ := Option.bind_eq_some_iff.1 h
  split at h
  · cases h
  · cases h
    have := TokenList.size_slice_le l 1 l.size
    refine ⟨_, _, _, rfl, ?_⟩
    rw [List.forall_mem_singleton, TokenList.withoutFirst]
    split
    · simp only [TokenList.size, TokenList.empty, List.length_nil] at *
      omega
    · omega

theorem operates_of_readPostfix? (h : readPostfix? l group = some reading) : Operates l reading := by
  obtain ⟨operator, -, h⟩ := Option.bind_eq_some_iff.1 h
  split at h
  · cases h
  · cases h
    have := TokenList.size_slice_le l 0 (l.size - 1)
    refine ⟨_, _, _, rfl, ?_⟩
    rw [List.forall_mem_singleton, TokenList.withoutLast]
    split
    · simp only [TokenList.size, TokenList.empty, List.length_nil] at *
      omega
    · omega

theorem operates_of_readOperation? (hmarks : marks.length = l.size) (h : g.readOperation? l marks gs = some reading) :
    Operates l reading := by
  induction gs with
  | nil => cases h
  | cons group gs ih =>
    simp only [readOperation?, Option.orElse_eq_or, Option.or_eq_some_iff] at h
    rcases h with h | ⟨-, h | ⟨-, h | ⟨-, h | ⟨-, h⟩⟩⟩⟩
    · exact operates_of_readRight? hmarks h
    · exact operates_of_readLeft? hmarks h
    · exact operates_of_readPrefix? h
    · exact operates_of_readPostfix? h
    · exact ih h

/-- Arguments that are read are split at the separators, and as many as the limit allows, unless there are none. -/
theorem splitBy_of_readArguments {name : Text} {args : TokenList} {parts : List TokenList}
    (h : g.readArguments source l name args = .ok parts) :
    parts = [] ∨ parts = args.splitBy Token.isSeparator ∧ parts.length ≤ g.limits.callArguments := by
  rw [readArguments] at h
  split at h
  · cases h
    exact .inl rfl
  · split at h
    · cases h
    · split at h
      · cases h
      · cases hcheck : g.limits.check .callArguments (args.splitBy Token.isSeparator).length (some l.position)
            (some source) with
        | error e => simp only [hcheck] at h; cases h
        | ok _ =>
          simp only [hcheck] at h
          cases h
          exact .inr ⟨rfl, Limits.le_of_check hcheck⟩

theorem size_le_of_readArguments {name : Text} {args : TokenList} {parts : List TokenList}
    (h : g.readArguments source l name args = .ok parts) : ∀ part ∈ parts, part.size ≤ args.size := by
  rcases splitBy_of_readArguments h with rfl | ⟨rfl, -⟩
  · exact fun _ hpart => absurd hpart List.not_mem_nil
  · exact TokenList.size_splitByFrom _ _ _ _ _

/-- A call that is read is the name of a function before brackets that close at the end of the section. -/
theorem call_of_readCall? (h : g.readCall? source l = .ok (some reading)) : ∃ i parts, 3 ≤ l.size ∧
    innerOpen? l.tokens = some i ∧ (l.slice i l.size).isInBrackets = true ∧
    (l.slice 0 i).trimmedText ∈ g.functions ∧
    g.readArguments source l (l.slice 0 i).trimmedText (l.slice (i + 1) (l.size - 1)) = .ok parts ∧
    reading = .call (l.slice 0 i).trimmedText parts := by
  rw [readCall?] at h
  split at h
  · cases h
  · next hsize =>
    split at h
    · cases h
    · next i hi =>
      split at h
      · cases h
      · next hin =>
        simp only at h
        split at h
        · next hf =>
          cases hargs : g.readArguments source l (l.slice 0 i).trimmedText (l.slice (i + 1) (l.size - 1)) with
          | error e => rw [hargs] at h; cases h
          | ok parts =>
            rw [hargs] at h
            cases h
            simp only [Bool.or_eq_true, decide_eq_true_eq] at hsize
            exact ⟨i, parts, by omega, hi, by simpa using hin, by simpa using hf, hargs, rfl⟩
        · split at h <;> cases h

theorem size_lt_of_readCall? (h : g.readCall? source l = .ok (some reading)) :
    ∀ s ∈ sections reading, s.size < l.size := by
  obtain ⟨i, parts, hsize, -, -, -, hargs, rfl⟩ := call_of_readCall? h
  intro s hs
  have hle := size_le_of_readArguments hargs s hs
  have := TokenList.size_slice_le l (i + 1) (l.size - 1)
  omega

theorem size_lt_of_readBare (h : g.readBare source gs l = .ok reading) : ∀ s ∈ sections reading, s.size < l.size := by
  rw [readBare] at h
  split at h
  · cases h
    simp [sections]
  · cases hcall : g.readCall? source l with
    | error e => rw [hcall] at h; cases h
    | ok call? =>
      rw [hcall] at h
      cases call? with
      | some call =>
        cases h
        exact size_lt_of_readCall? hcall
      | none =>
        cases hop : g.readOperation? l (Mark.ofTokens g.operators l.tokens) gs with
        | some operation =>
          simp only [bind, Except.bind, hop] at h
          cases h
          obtain ⟨_, _, operands, rfl, hlt⟩ := operates_of_readOperation? (length_marks l) hop
          exact hlt
        | none =>
          simp only [bind, Except.bind, hop] at h
          split at h
          · cases h
            simp [sections]
          · cases h

theorem size_lt_of_isInBrackets (h : l.isInBrackets = true) : l.withoutFirstAndLast.size < l.size := by
  have hpos : 0 < l.size := by
    rw [TokenList.isInBrackets, Row.tokens] at h
    rw [TokenList.size]
    cases hitems : l.items with
    | nil => rw [hitems] at h; cases h
    | cons s items => simp
  have := TokenList.size_slice_le l 1 (l.size - 1)
  rw [TokenList.withoutFirstAndLast]
  split
  · exact hpos
  · omega

/-- The sections below the root of a section have fewer tokens. -/
theorem size_lt_of_read (h : g.read source gs l = .ok reading) : ∀ s ∈ sections reading, s.size < l.size := by
  rw [read] at h
  cases hends : g.checkEnds source l with
  | error e => rw [hends] at h; cases h
  | ok _ =>
    rw [hends] at h
    simp only [bind, Except.bind] at h
    split at h
    · next hin =>
      cases h
      rw [sections, List.forall_mem_singleton]
      exact size_lt_of_isInBrackets hin
    · exact size_lt_of_readBare h

end Grammar

end Mixfix
