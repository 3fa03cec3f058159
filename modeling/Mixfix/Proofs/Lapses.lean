import Mixfix.Checked
import Mixfix.Proofs.Calculator
import Mixfix.Proofs.Roots
import Mixfix.Proofs.Splits

/-!
# No access fails

Reading, parsing and building with checked accesses give what they give without (`Checked.read_eq`, `Checked.build_eq`,
`Checked.buildText_eq`), so no access ever fails: every index that is looked up is one of the section, the parts that
are taken of it have their ends in order, and a scan stops only at tokens that are those of an operator. This holds of
every registry that registrations make and of every text, also of one with brackets that do not match.
-/

namespace Mixfix

/-! ## Accesses -/

namespace TokenList

variable {l : TokenList} {i start stop : Int} {a b k : Nat} {points : List Nat}

theorem tokenPosition_eq (hi : i = k) (hk : k ≤ l.size) : l.tokenPosition i = .ok (l.positionAt k) := by
  have hindex : resolveIndex (l.size + 1) i = some k := by
    rw [resolveIndex, hi, if_pos (Int.natCast_nonneg k), if_pos (by omega), Int.toNat_natCast]
  rw [tokenPosition, hindex]

theorem get_eq {t : Token} (hi : i = k) (h : l.tokens[k]? = some t) : l.get i = .ok t := by
  have hk : k < l.size := by
    rw [size_eq]
    exact (List.getElem?_eq_some_iff.1 h).1
  have hindex : resolveIndex l.size i = some k := by
    rw [resolveIndex, hi, if_pos (Int.natCast_nonneg k), if_pos (by omega), Int.toNat_natCast]
  rw [get, hindex, Option.bind_some, h]

theorem pos_of_not_isEmpty (h : ¬ l.isEmpty = true) : 0 < l.size := by
  rw [isEmpty, List.isEmpty_iff] at h
  exact List.length_pos_iff.2 h

theorem subList_eq (hstart : start = a) (hstop : stop = b) (hab : a ≤ b) (hb : b ≤ l.size) :
    l.subList start stop = .ok (l.slice a b) := by
  rw [subList, hstart, hstop, if_neg (by omega), if_neg (by omega), if_neg (by omega), Int.toNat_natCast,
    Int.toNat_natCast]

theorem Cuts.toAscending (h : l.Cuts points) : l.Ascending points :=
  ⟨h.ascending, fun p hp => Nat.lt_of_succ_lt (h.inner p hp)⟩

end TokenList

namespace Checked

open TokenList

variable {α β : Type}

/-! ## Results -/

theorem failAt_eq {position : Except SliceError Int} {p : Int} (h : position = .ok p) (source : Text) (cause : Cause) :
    (failAt source position cause : Except Failure β) = lift (.error (Grammar.errorAt source p cause)) := by
  rw [failAt, h]
  rfl

/-! ## Scans -/

theorem follow?_eq (t : Trie Text β) (k : Text) : follow? t k = .ok (t.follow? k) := by
  rw [follow?, Trie.hasItemsUnder, Trie.follow?]
  cases t.branch? k with
  | none => rfl
  | some b => cases hempty : b.isEmpty <;> simp [Option.filter, hempty]

/-- A scan finds every branch that it goes on with. -/
theorem seek_eq (n : Nat) (ss : List Site) : ∀ root node : Trie Text β,
    seek root node n ss = .ok (Scan.seek root node n ss) := by
  induction ss generalizing n with
  | nil =>
    intro root node
    cases n <;> rfl
  | cons s ss ih =>
    intro root node
    match n with
    | n + 1 =>
      rw [seek, Scan.seek, ih]
      rfl
    | 0 =>
      rw [seek, Scan.seek, follow?_eq]
      simp only [bind, Except.bind]
      cases node.follow? s.text with
      | some next => cases hitem : next.hasRootItem <;> simp [ih, pure, Except.pure, hitem]
      | none =>
        simp only [follow?_eq]
        cases root.follow? s.text with
        | some next => cases hitem : next.hasRootItem <;> simp [ih, pure, Except.pure, hitem]
        | none => simp [ih, pure, Except.pure]

theorem scanRight_eq (group : Group α) (marks : List Mark) (skip : Nat → Bool) :
    scanRight group marks skip = .ok (Grammar.scanRight group marks skip) := by
  rw [scanRight, Grammar.scanRight]
  split
  · rfl
  · rw [seek_eq, Scan.forward_eq]
    rfl

theorem scanLeft_eq (group : Group α) (marks : List Mark) (skip : Nat → Bool) :
    scanLeft group marks skip = .ok (Grammar.scanLeft group marks skip) := by
  rw [scanLeft, Grammar.scanLeft]
  split
  · rfl
  · rw [seek_eq, Scan.backward_last]
    rfl

/-! ## Enclosing operators -/

theorem first_eq {is : List Nat} (h : is ≠ []) : first is = .ok (is.headD 0) := by
  cases is with
  | nil => exact absurd rfl h
  | cons i is => rfl

/-- What a scan finds has a first and a last index, which tell whether it is around some indices. -/
theorem encloses_eq {found : Option (List Nat)} (h : ∀ points, found = some points → points ≠ []) (start stop : Nat) :
    encloses start stop found = .ok (Grammar.encloses start stop found) := by
  cases found with
  | none => rfl
  | some points =>
    have hne := h points rfl
    obtain ⟨i, is, rfl⟩ := List.exists_cons_of_ne_nil hne
    have hlast := List.getLast?_eq_getLast_of_ne_nil hne
    simp [encloses, Grammar.encloses, first, last, hlast, bind, Except.bind, pure, Except.pure]

theorem encloses_scanRight (group : Group α) (marks : List Mark) (skip : Nat → Bool) (start stop : Nat) :
    encloses start stop (Grammar.scanRight group marks skip) =
      .ok (Grammar.encloses start stop (Grammar.scanRight group marks skip)) := by
  refine encloses_eq (fun points h => ?_) start stop
  rw [Grammar.scanRight] at h
  split at h
  · cases h
  · exact (Scan.forward_lt h).1

theorem encloses_scanLeft (group : Group α) (marks : List Mark) (skip : Nat → Bool) (start stop : Nat) :
    encloses start stop (Grammar.scanLeft group marks skip) =
      .ok (Grammar.encloses start stop (Grammar.scanLeft group marks skip)) := by
  refine encloses_eq (fun points h => ?_) start stop
  rw [Grammar.scanLeft] at h
  split at h
  · cases h
  · exact (Scan.backward_lt h).1

theorem enclosesAny_eq (start stop : Nat) (marks : List Mark) (skip : Nat → Bool) (groups : List (Group α)) :
    enclosesAny start stop marks skip groups = .ok (groups.any fun group =>
      Grammar.encloses start stop (Grammar.scanRight group marks skip) ||
        Grammar.encloses start stop (Grammar.scanLeft group marks skip)) := by
  induction groups with
  | nil => rfl
  | cons group groups ih =>
    rw [enclosesAny, scanRight_eq, scanLeft_eq, ih, List.any_cons]
    simp only [bind, Except.bind, pure, Except.pure, encloses_scanRight, encloses_scanLeft]
    cases Grammar.encloses start stop (Grammar.scanRight group marks skip) <;>
      cases Grammar.encloses start stop (Grammar.scanLeft group marks skip) <;> simp

theorem isEnclosed_eq {g : Grammar α} {points : List Nat} (h : points ≠ []) (tokens : List Token) (marks : List Mark)
    (same : Option (Group α)) (tighter : List (Group α)) :
    isEnclosed g tokens marks points same tighter = .ok (g.isEnclosed tokens marks points same tighter) := by
  obtain ⟨i, is, rfl⟩ := List.exists_cons_of_ne_nil h
  have hlast := List.getLast?_eq_getLast_of_ne_nil h
  rw [isEnclosed, Grammar.isEnclosed, first, last, hlast]
  simp only [bind, Except.bind, List.head?_cons, enclosesAny_eq]
  cases same with
  | none => simp
  | some group =>
    simp only [scanLeft_eq, encloses_scanLeft, pure, Except.pure, Option.any_some]
    split <;> simp_all

/-! ## Operations -/

section Operations

variable {g : Grammar α} {source : Text} {l : TokenList} {group : Group α} {groups tighter : List (Group α)}
  {r : Registry α} {ts : List Token} {own : List Site}

theorem mapM_get (h : Site.Among own l.tokens) :
    ((own.map Site.index).mapM fun (i : Nat) => access (l.get i)) = .ok (own.map fun s => Token.fixed s.text) := by
  have htoken := h.token
  clear h
  induction own with
  | nil => rfl
  | cons s own ih =>
    rw [List.forall_mem_cons] at htoken
    rw [List.map_cons, List.mapM_cons, get_eq rfl htoken.1, ih htoken.2]
    rfl

theorem mapM_fixed? (own : List Site) :
    (own.map fun s => Token.fixed s.text).mapM Token.fixed? = some (own.map Site.text) := by
  induction own with
  | nil => rfl
  | cons s own ih =>
    rw [List.map_cons, List.mapM_cons, ih]
    rfl

/-- The operator of some sites is there if they spell one, and so are its tokens and operands. -/
theorem infixOperation_eq (h : Site.Among own l.tokens) {t : Trie Text (Operator α)}
    (hitem : (t.get? (own.map Site.text)).isSome) :
    (infixOperation l t (own.map Site.index)).map some = .ok (Grammar.infixOperation? l t (own.map Site.index)) := by
  obtain ⟨o, ho⟩ := Option.isSome_iff_exists.1 hitem
  have hne : own.map Site.index ≠ [] := by simpa using h.ne_nil
  have hcuts := cuts_of_among h
  have hfirst : (own.map Site.index).headD 0 ≤ l.size := by
    obtain ⟨i, is, his⟩ := List.exists_cons_of_ne_nil hne
    have := hcuts.inner i (by rw [his]; exact List.mem_cons_self)
    rw [his, List.headD_cons]
    omega
  rw [infixOperation, mapM_get h, Grammar.infixOperation?, Site.filterMap_fixed? h.token]
  simp only [bind, Except.bind, mapM_fixed?, Option.bind_some, ho, splitAtPoints_eq hcuts.toAscending hne, first_eq hne,
    tokenPosition_eq rfl hfirst]
  rfl

/-- What is done with the sites that a scan has found. -/
theorem operationAt_eq (h : Site.Among own l.tokens) {t : Trie Text (Operator α)}
    (hitem : (t.get? (own.map Site.text)).isSome) (marks : List Mark) (same : Option (Group α)) :
    (do
      if ← isEnclosed g l.tokens marks (own.map Site.index) same tighter then return none
      else return some (← infixOperation l t (own.map Site.index)) : Except Failure (Option (Reading α))) =
      .ok (if g.isEnclosed l.tokens marks (own.map Site.index) same tighter then none
        else Grammar.infixOperation? l t (own.map Site.index)) := by
  have hne : own.map Site.index ≠ [] := by simpa using h.ne_nil
  simp only [bind, Except.bind, isEnclosed_eq hne]
  split
  · rfl
  · exact infixOperation_eq h hitem

theorem readRight?_eq (hg : group.Sound) :
    readRight? g l (Mark.ofTokens r l.tokens) group tighter =
      .ok (g.readRight? l (Mark.ofTokens r l.tokens) group tighter) := by
  rw [readRight?, Grammar.readRight?, scanRight_eq]
  cases hscan : Grammar.scanRight group (Mark.ofTokens r l.tokens) fun _ => false with
  | none => rfl
  | some points =>
    obtain ⟨own, rfl, hown, hitem⟩ := Grammar.exists_among_of_scanRight hg hscan
    exact operationAt_eq hown hitem _ _

theorem readLeft?_eq (hg : group.Sound) :
    readLeft? g l (Mark.ofTokens r l.tokens) group tighter =
      .ok (g.readLeft? l (Mark.ofTokens r l.tokens) group tighter) := by
  rw [readLeft?, Grammar.readLeft?, scanLeft_eq]
  cases hscan : Grammar.scanLeft group (Mark.ofTokens r l.tokens) fun _ => false with
  | none => rfl
  | some points =>
    obtain ⟨own, rfl, hown, hitem⟩ := Grammar.exists_among_of_scanLeft hg hscan
    exact operationAt_eq hown hitem _ _

theorem withoutFirst_eq (l : TokenList) : withoutFirst l = .ok l.withoutFirst := by
  rw [withoutFirst, TokenList.withoutFirst]
  split
  · rfl
  · next hne =>
    have hpos := pos_of_not_isEmpty hne
    have hsub : l.subList 1 l.size = .ok (l.slice 1 l.size) := subList_eq rfl rfl (by omega) (Nat.le_refl _)
    rw [hsub]
    rfl

theorem withoutLast_eq (l : TokenList) : withoutLast l = .ok l.withoutLast := by
  rw [withoutLast, TokenList.withoutLast]
  split
  · rfl
  · next hne =>
    have hpos := pos_of_not_isEmpty hne
    have hsub : l.subList 0 (l.size - 1) = .ok (l.slice 0 (l.size - 1)) :=
      subList_eq rfl (by omega) (Nat.zero_le _) (by omega)
    rw [hsub]
    rfl

theorem withoutFirstAndLast_eq (l : TokenList) : withoutFirstAndLast l = .ok l.withoutFirstAndLast := by
  rw [withoutFirstAndLast, TokenList.withoutFirstAndLast]
  split
  · rfl
  · have hsub : l.subList 1 (l.size - 1) = .ok (l.slice 1 (l.size - 1)) :=
      subList_eq rfl (by omega) (by omega) (by omega)
    rw [hsub]
    rfl

theorem readPrefix?_eq : readPrefix? l group = .ok (Grammar.readPrefix? l group) := by
  rw [readPrefix?, Grammar.readPrefix?, withoutFirst_eq]
  cases (l.first?.bind Token.fixed?).bind group.prefixOps.get? with
  | none => rfl
  | some o =>
    simp only [bind, Option.bind_some]
    split <;> rfl

theorem readPostfix?_eq : readPostfix? l group = .ok (Grammar.readPostfix? l group) := by
  rw [readPostfix?, Grammar.readPostfix?, withoutLast_eq]
  cases (l.last?.bind Token.fixed?).bind group.postfixOps.get? with
  | none => rfl
  | some o =>
    simp only [bind, Option.bind_some]
    split
    · rfl
    · rw [tokenPosition_eq (k := l.size - 1) (by omega) (by omega)]
      rfl

/-- Looking for an operation, every access finds what it looks for. -/
theorem readOperation?_eq (hg : ∀ group ∈ groups, group.Sound) :
    readOperation? g l (Mark.ofTokens r l.tokens) groups =
      .ok (g.readOperation? l (Mark.ofTokens r l.tokens) groups) := by
  induction groups with
  | nil => rfl
  | cons group groups ih =>
    rw [List.forall_mem_cons] at hg
    rw [readOperation?, Grammar.readOperation?, readRight?_eq hg.1, readLeft?_eq hg.1, readPrefix?_eq, readPostfix?_eq,
      ih hg.2]
    simp only [bind, Except.bind, pure, Except.pure]
    cases g.readRight? l (Mark.ofTokens r l.tokens) group groups with
    | some operation => rfl
    | none =>
      cases g.readLeft? l (Mark.ofTokens r l.tokens) group groups with
      | some operation => rfl
      | none =>
        cases Grammar.readPrefix? l group with
        | some operation => rfl
        | none => cases Grammar.readPostfix? l group <;> rfl

/-! ## Ends -/

theorem checkEnds_eq (l : TokenList) : checkEnds g source l = lift (g.checkEnds source l) := by
  by_cases hempty : l.isEmpty = true
  · have htokens : l.tokens = [] := by
      rw [TokenList.isEmpty, List.isEmpty_iff] at hempty
      rw [Row.tokens, hempty, List.map_nil]
    rw [checkEnds, Grammar.checkEnds, first?, last?, htokens]
    rfl
  · have hpos := pos_of_not_isEmpty hempty
    have hfirst : l.tokenPosition 0 = .ok (l.positionAt 0) := tokenPosition_eq rfl (Nat.zero_le _)
    have hlast : l.tokenPosition (l.size - 1) = .ok (l.positionAt (l.size - 1)) :=
      tokenPosition_eq (by omega) (Nat.sub_le _ _)
    rw [checkEnds, Grammar.checkEnds]
    simp only [failAt_eq hfirst, failAt_eq hlast]
    cases l.first? with
    | none =>
      cases l.last? with
      | none => rfl
      | some t => simp only [pure]; split <;> rfl
    | some s =>
      cases l.last? with
      | none => simp only [bind, pure]; split <;> rfl
      | some t =>
        simp only [bind, pure]
        split
        · rfl
        · split <;> rfl

/-! ## Calls -/

/-- Looking for an open bracket among the indices of some tokens. -/
theorem findOpen?_eq (l : TokenList) (n : Nat) : ∀ k, k + n ≤ l.size →
    findOpen? l (List.range' k n) = .ok ((((l.tokens.drop k).take n).findIdx? Token.isOpen).map (· + k)) := by
  induction n with
  | zero =>
    intro k _
    rfl
  | succ n ih =>
    intro k hk
    have hlt : k < l.tokens.length := by
      rw [← size_eq]
      omega
    rw [List.range'_succ, findOpen?, get_eq rfl (List.getElem?_eq_getElem hlt), List.drop_eq_getElem_cons hlt,
      List.take_succ_cons, List.findIdx?_cons, ih (k + 1) (by omega)]
    simp only [bind, Except.bind, access, Except.mapError, pure, Except.pure]
    split
    · simp
    · rw [Option.map_map]
      congr 2
      funext i
      simp only [Function.comp_apply]
      omega

theorem splitByFrom_eq (p : Token → Bool) (ts : List Token) : ∀ {start i : Nat} {depth : Int}, start ≤ i →
    i + ts.length = l.size → splitByFrom l p start depth i ts = .ok (l.splitByFrom p start depth i ts) := by
  induction ts with
  | nil =>
    intro start i depth hle hi
    rw [List.length_nil] at hi
    rw [splitByFrom, TokenList.splitByFrom, subList_eq rfl rfl hle (by omega)]
    rfl
  | cons t ts ih =>
    intro start i depth hle hi
    rw [List.length_cons] at hi
    rw [splitByFrom, TokenList.splitByFrom]
    split
    · exact ih (by omega) (by omega)
    · split
      · exact ih (by omega) (by omega)
      · split
        · rw [subList_eq rfl rfl hle (by omega), ih (Nat.le_refl _) (by omega)]
          rfl
        · exact ih (by omega) (by omega)

theorem splitBy_eq (l : TokenList) (p : Token → Bool) : splitBy l p = .ok (l.splitBy p) :=
  splitByFrom_eq p l.tokens (Nat.le_refl 0) (by rw [size_eq, Nat.zero_add])

theorem readArguments_eq (l : TokenList) (name : Text) (args : TokenList) :
    readArguments g source l name args = lift (g.readArguments source l name args) := by
  rw [readArguments, Grammar.readArguments]
  split
  · rfl
  · next hne =>
    have hpos := pos_of_not_isEmpty hne
    split
    · exact failAt_eq (tokenPosition_eq rfl (Nat.zero_le _)) _ _
    · split
      · exact failAt_eq (tokenPosition_eq (by omega) (Nat.sub_le _ _)) _ _
      · rw [splitBy_eq]
        simp only [bind, Except.bind]
        cases g.limits.check .callArguments (args.splitBy Token.isSeparator).length (some l.position) (some source) <;>
          rfl

theorem readCall?_eq (l : TokenList) : readCall? g source l = lift (g.readCall? source l) := by
  rw [readCall?, Grammar.readCall?]
  split
  · rfl
  · next hsize =>
    have hthree : 3 ≤ l.size := by
      simp only [Bool.or_eq_true, decide_eq_true_eq] at hsize
      omega
    have hopen : findOpen? l (List.range' 1 (l.size - 2)) = .ok (Grammar.innerOpen? l.tokens) := by
      rw [findOpen?_eq l (l.size - 2) 1 (by omega), Grammar.innerOpen?, List.dropLast_eq_take, List.length_tail,
        ← List.drop_one, ← size_eq]
      rfl
    rw [hopen]
    cases hi : Grammar.innerOpen? l.tokens with
    | none => rfl
    | some i =>
      obtain ⟨hpos, hlt⟩ := Grammar.bounds_of_innerOpen? hi
      rw [← size_eq] at hlt
      have hrest : l.subList i l.size = .ok (l.slice i l.size) := subList_eq rfl rfl (by omega) (Nat.le_refl _)
      have hname : l.subList 0 i = .ok (l.slice 0 i) := subList_eq rfl rfl (Nat.zero_le _) (by omega)
      have hinner : l.subList (i + 1) (l.size - 1) = .ok (l.slice (i + 1) (l.size - 1)) :=
        subList_eq rfl (by omega) (by omega) (by omega)
      simp only [bind, Except.bind, hrest, hname, hinner, access, Except.mapError]
      split
      · rfl
      · split
        · rw [readArguments_eq]
          cases g.readArguments source l (l.slice 0 i).trimmedText (l.slice (i + 1) (l.size - 1)) <;> rfl
        · split <;> rfl

/-! ## Sections -/

theorem readBare_eq (hg : ∀ group ∈ groups, group.Sound) (l : TokenList) :
    readBare g source groups l = lift (g.readBare source groups l) := by
  rw [readBare, Grammar.readBare, readCall?_eq, readOperation?_eq hg]
  split
  · rfl
  · cases g.readCall? source l with
    | error e => rfl
    | ok call =>
      cases call with
      | some call => rfl
      | none =>
        simp only [bind, pure, Except.bind, Except.pure, lift, Except.mapError]
        cases g.readOperation? l (Mark.ofTokens g.operators l.tokens) groups with
        | some operation => rfl
        | none => cases readNumber? l.text <;> rfl

/-- Reading a section gives what it gives without checks, an error of the text included. -/
theorem read_eq (hg : ∀ group ∈ groups, group.Sound) (l : TokenList) :
    read g source groups l = lift (g.read source groups l) := by
  rw [read, Grammar.read, checkEnds_eq, readBare_eq hg, withoutFirstAndLast_eq]
  cases g.checkEnds source l with
  | error e => rfl
  | ok _ => simp only [bind, pure, Except.bind, Except.pure, lift, Except.mapError]; split <;> rfl

/-! ## Trees -/

theorem buildArguments_eq {checked : TokenList → Except Failure (Tree α)}
    {buildSection : TokenList → Except ExprError (Tree α)} (h : ∀ l, checked l = lift (buildSection l))
    (name part : Text) (args : List TokenList) :
    buildArguments source checked name part args =
      lift (Grammar.buildArguments source buildSection name part args) := by
  induction args with
  | nil => rfl
  | cons arg args ih =>
    rw [buildArguments, Grammar.buildArguments, h, ih]
    split
    · rfl
    · cases buildSection arg with
      | error e => rfl
      | ok tree => cases Grammar.buildArguments source buildSection name part args <;> rfl

theorem mapM_eq {checked : TokenList → Except Failure (Tree α)} {buildSection : TokenList → Except ExprError (Tree α)}
    (h : ∀ l, checked l = lift (buildSection l)) (operands : List TokenList) :
    operands.mapM checked = lift (operands.mapM buildSection) := by
  induction operands with
  | nil => rfl
  | cons operand operands ih =>
    rw [List.mapM_cons, List.mapM_cons, h, ih]
    cases buildSection operand with
    | error e => rfl
    | ok tree => cases operands.mapM buildSection <;> rfl

/-- Building a tree gives what it gives without checks. -/
theorem build_eq (hg : ∀ group ∈ groups, group.Sound) (levels : Nat) : ∀ l,
    build g source groups levels l = lift (g.build source groups levels l) := by
  induction levels with
  | zero =>
    intro l
    rfl
  | succ levels ih =>
    intro l
    rw [build, Grammar.build, read_eq hg]
    cases g.read source groups l with
    | error e => rfl
    | ok reading =>
      cases reading with
      | brackets inner => exact ih inner
      | reference name | number value => rfl
      | call name args =>
        simp only [bind, Except.bind, lift, Except.mapError, buildArguments_eq ih]
        cases Grammar.buildArguments source (g.build source groups levels) name l.text args <;> rfl
      | operation position operator operands =>
        simp only [bind, Except.bind, lift, Except.mapError, mapM_eq ih]
        cases operands.mapM (g.build source groups levels) <;> rfl

theorem parse_eq (hg : ∀ group ∈ g.operators.groups.1, group.Sound) (l : TokenList) :
    parse g source l = lift (g.parse source l) := by
  rw [parse, Grammar.parse, build_eq hg]
  cases g.build source g.operators.groups.1 g.limits.treeDepth.toNat l with
  | error e => rfl
  | ok tree =>
    simp only [bind, Except.bind, lift, Except.mapError]
    cases g.limits.check .treeNodes tree.nodeCount (some l.position) (some source) <;> rfl

/-- A bracket at fault is a token of the list. -/
theorem checkBrackets_eq (l : TokenList) (source : Text) : checkBrackets l source = lift (l.checkBrackets source) := by
  rw [checkBrackets, TokenList.checkBrackets]
  cases h : l.bracketFault? with
  | none => rfl
  | some f =>
    cases f with
    | unexpectedClose i =>
      have hi := (List.getElem?_eq_some_iff.1 (standsIn_of_bracketFault? h)).1
      rw [← size_eq] at hi
      exact failAt_eq (tokenPosition_eq rfl (Nat.le_of_lt hi)) source (.unexpectedClose source)
    | unmatchedOpen i =>
      have hi := (List.getElem?_eq_some_iff.1 (standsIn_of_bracketFault? h)).1
      rw [← size_eq] at hi
      exact failAt_eq (tokenPosition_eq rfl (Nat.le_of_lt hi)) source (.unmatchedOpen source)

end Operations

/-! ## Texts -/

variable {κ : Type} {b : Builder κ}

theorem parseText_eq (hr : b.operators.Reachable) (text : Text) : parseText b text = lift (b.parse text) := by
  rw [parseText, Builder.parse]
  cases b.tokenize text with
  | error e => rfl
  | ok tokens =>
    simp only [bind, Except.bind, lift, Except.mapError, checkBrackets_eq]
    cases tokens.checkBrackets text with
    | error e => rfl
    | ok _ => exact parse_eq (fun _ hm => hr.wellFormed.sound hm) tokens

/-- Building a text comes to what it comes to without checks, and never to a lapse. -/
theorem buildText_eq (hr : b.operators.Reachable) (text : Text) : buildText b text = .ok (b.build text) := by
  rw [buildText, Builder.build, parseText_eq hr]
  split
  · rfl
  · cases b.parse text <;> rfl

end Checked

end Mixfix
