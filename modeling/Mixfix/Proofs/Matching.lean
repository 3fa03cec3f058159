import Mathlib.Data.List.TakeDrop
import Mathlib.Data.Nat.Find
import Mixfix.Proofs.Sections

/-!
# Which bracket is at fault

Two brackets are a pair if balanced tokens stand between them (`Pairs`). The check of brackets goes from left to right
with the indices of the brackets that are open, and what it has seen is balanced but for those (`Opened`). So it stops
at the first close bracket that has no open one before it (`FirstSurplus`), and at the end the outermost index that is
left is that of the first open bracket without a partner (`FirstUnpaired`).

All that is known of the check is `TokenList.checkBrackets_exact`.
-/

namespace Mixfix

/-! ## More close than open brackets -/

/-- No prefix has more close than open brackets. -/
def NoSurplus (ts : List Token) : Prop := ∀ u, u <+: ts → 0 ≤ bracketDepth u

/-- The tokens up to an index are the shortest prefix with more close than open brackets. -/
structure FirstSurplus (ts : List Token) (i : Nat) : Prop where
  lt : i < ts.length
  surplus : bracketDepth (ts.take (i + 1)) < 0
  least : ∀ n ≤ i, 0 ≤ bracketDepth (ts.take n)

variable {ts u v m : List Token} {i : Nat}

theorem Balanced.noSurplus (h : Balanced ts) : NoSurplus ts := by
  rintro u ⟨v, huv⟩
  exact h.depth_prefix u v huv.symm

theorem Balanced.of_noSurplus (h : NoSurplus ts) (hd : bracketDepth ts = 0) : Balanced ts :=
  ⟨hd, fun u v huv => h u ⟨v, huv.symm⟩⟩

theorem NoSurplus.append (hu : NoSurplus u) (hv : NoSurplus v) : NoSurplus (u ++ v) := by
  rintro x ⟨y, hxy⟩
  rcases List.append_eq_append_iff.1 hxy with ⟨z, hu', -⟩ | ⟨z, rfl, hz⟩
  · exact hu x ⟨z, hu'.symm⟩
  · have hwhole := hu u List.prefix_rfl
    have hrest := hv z ⟨y, hz.symm⟩
    rw [bracketDepth_append]
    omega

theorem noSurplus_open (h : NoSurplus m) : NoSurplus (.fixed Token.openText :: m) := by
  intro u hu
  rcases List.prefix_cons_iff.1 hu with rfl | ⟨u', rfl, hu'⟩
  · exact Int.le_refl 0
  · have := h u' hu'
    rw [bracketDepth_cons, Token.weight_open]
    omega

theorem Token.neg_one_le_weight (t : Token) : -1 ≤ t.weight := by
  rw [weight]
  split
  · decide
  · split <;> decide

theorem Token.eq_close_of_weight {t : Token} (h : t.weight < 0) : t = .fixed closeText := by
  rw [weight] at h
  split at h
  · exact absurd h (by decide)
  · split at h
    · next hc => exact isClose_iff.1 hc
    · exact absurd h (by decide)

/-- What is not free of a surplus has a first one. -/
theorem exists_firstSurplus (h : ¬ NoSurplus ts) : ∃ i, FirstSurplus ts i := by
  have hsome : ∃ n, bracketDepth (ts.take n) < 0 := by
    simp only [NoSurplus, not_forall, Int.not_le] at h
    obtain ⟨u, hu, hd⟩ := h
    exact ⟨u.length, by rwa [← List.prefix_iff_eq_take.1 hu]⟩
  obtain ⟨n, hn, hleast⟩ := Nat.findX hsome
  match n with
  | 0 => exact absurd hn (by simp)
  | i + 1 =>
    have hleast' : ∀ n ≤ i, 0 ≤ bracketDepth (ts.take n) := fun n hni => Int.not_lt.1 (hleast n (by omega))
    refine ⟨i, ?_, hn, hleast'⟩
    by_contra hlen
    -- beyond the end, one token more is no token more
    have hi := hleast' i (Nat.le_refl i)
    rw [List.take_of_length_le (by omega)] at hn hi
    omega

/-- The first surplus is a close bracket behind balanced tokens. -/
theorem FirstSurplus.split (h : FirstSurplus ts i) :
    ∃ u v, ts = u ++ .fixed Token.closeText :: v ∧ u.length = i ∧ Balanced u := by
  have hlt := h.lt
  have htake : ts.take (i + 1) = ts.take i ++ [ts[i]] := by simp
  have hdepth := h.surplus
  have hbefore := h.least i (Nat.le_refl i)
  have hweight := Token.neg_one_le_weight (ts[i])
  rw [htake, bracketDepth_append, bracketDepth_cons, bracketDepth_nil] at hdepth
  refine ⟨ts.take i, ts.drop (i + 1), ?_, List.length_take_of_le (Nat.le_of_lt h.lt),
    .of_noSurplus (fun u hu => ?_) (by omega)⟩
  · rw [← Token.eq_close_of_weight (t := ts[i]) (by omega), List.cons_getElem_drop_succ, List.take_append_drop]
  · have hle : u.length ≤ i := Nat.le_trans hu.length_le (List.length_take_le i ts)
    rw [List.prefix_iff_eq_take.1 (hu.trans (List.take_prefix i ts))]
    exact h.least u.length hle

/-- A close bracket behind balanced tokens is the first surplus. -/
theorem firstSurplus_of_balanced (h : Balanced u) : FirstSurplus (u ++ .fixed Token.closeText :: v) u.length where
  lt := by simp
  surplus := by
    have htake : (u ++ .fixed Token.closeText :: v).take (u.length + 1) = u ++ [.fixed Token.closeText] := by
      simp [List.take_append]
    rw [htake, bracketDepth_append, h.depth_eq]
    decide
  least n hn := by
    rw [List.take_append_of_le_length hn]
    exact h.noSurplus _ (List.take_prefix n u)

theorem FirstSurplus.not_noSurplus (h : FirstSurplus ts i) : ¬ NoSurplus ts := fun hno =>
  absurd (hno _ (List.take_prefix _ ts)) (Int.not_le.2 h.surplus)

/-! ## Pairs of brackets -/

/-- At two indices stand an open bracket and a close bracket, with balanced tokens between them. -/
def Pairs (ts : List Token) (i j : Nat) : Prop :=
  ∃ u m v, ts = u ++ .fixed Token.openText :: (m ++ .fixed Token.closeText :: v) ∧ Balanced m ∧ u.length = i ∧
    u.length + 1 + m.length = j

/-- At an index stands the leftmost open bracket that is in no pair. -/
structure FirstUnpaired (ts : List Token) (i : Nat) : Prop where
  opens : ts[i]? = some (.fixed Token.openText)
  unpaired : ∀ j, ¬ Pairs ts i j
  paired_before : ∀ k < i, ts[k]? = some (.fixed Token.openText) → ∃ j, Pairs ts k j

theorem Pairs.append {j : Nat} (h : Pairs u i j) (v : List Token) : Pairs (u ++ v) i j := by
  obtain ⟨u', m, v', rfl, hm, hi, hj⟩ := h
  exact ⟨u', m, v' ++ v, by simp, hm, hi, hj⟩

/-- An open bracket among balanced tokens is in a pair. -/
theorem Balanced.exists_pairs (h : Balanced ts) (hi : ts[i]? = some (.fixed Token.openText)) : ∃ j, Pairs ts i j := by
  obtain ⟨hlt, hget⟩ := List.getElem?_eq_some_iff.1 hi
  have hsplit : ts = ts.take i ++ .fixed Token.openText :: ts.drop (i + 1) := by
    rw [← hget, List.cons_getElem_drop_succ, List.take_append_drop]
  have hlength : (ts.take i).length = i := List.length_take_of_le (Nat.le_of_lt hlt)
  have hbefore := h.depth_prefix _ _ hsplit
  have htotal := h.depth_eq
  rw [hsplit, bracketDepth_append, bracketDepth_cons, Token.weight_open] at htotal
  -- what follows the bracket closes it, since all brackets are closed in the end
  have hsurplus : ¬ NoSurplus (ts.drop (i + 1)) := fun hno => by
    have := hno _ List.prefix_rfl
    omega
  obtain ⟨k, hk⟩ := exists_firstSurplus hsurplus
  obtain ⟨m, v, hrest, -, hm⟩ := hk.split
  rw [hrest] at hsplit
  exact ⟨_, ts.take i, m, v, hsplit, hm, hlength, rfl⟩

/-- An open bracket that nothing behind it closes is the first unpaired one, if balanced tokens stand before it. -/
theorem firstUnpaired_of_noSurplus (hu : Balanced u) (hm : NoSurplus m) :
    FirstUnpaired (u ++ .fixed Token.openText :: m) u.length where
  opens := by simp
  unpaired := by
    rintro j ⟨u', m', v, hts, hm', hlength, -⟩
    obtain ⟨-, hrest⟩ := List.append_inj hts hlength.symm
    obtain ⟨-, rfl⟩ := List.cons.inj hrest
    have := hm (m' ++ [.fixed Token.closeText]) ⟨v, by simp⟩
    rw [bracketDepth_append, hm'.depth_eq] at this
    exact absurd this (by decide)
  paired_before k hk hopens := by
    rw [List.getElem?_append_left hk] at hopens
    obtain ⟨j, hj⟩ := hu.exists_pairs hopens
    exact ⟨j, hj.append _⟩

/-! ## Brackets that are open -/

/-- The tokens are balanced but for open brackets at some indices, innermost first. -/
inductive Opened : List Token → List Nat → Prop where
  | balanced {ts : List Token} : Balanced ts → Opened ts []
  | opens {u m : List Token} {opened : List Nat} : Opened u opened → Balanced m →
      Opened (u ++ .fixed Token.openText :: m) (u.length :: opened)

namespace Opened

variable {opened : List Nat}

theorem append (h : Opened u opened) (hm : Balanced m) : Opened (u ++ m) opened := by
  cases h with
  | balanced hu => exact .balanced (hu.append hm)
  | opens hu hm' =>
    rw [List.append_assoc, List.cons_append]
    exact .opens hu (hm'.append hm)

/-- A close bracket closes the innermost open bracket. -/
theorem close (h : Opened u (i :: opened)) : Opened (u ++ [.fixed Token.closeText]) opened := by
  cases h with
  | opens hu hm =>
    rw [List.append_assoc]
    exact hu.append hm.wrap

theorem balanced_of_nil (h : Opened u []) : Balanced u := by
  cases h with
  | balanced hu => exact hu

theorem noSurplus (h : Opened u opened) : NoSurplus u := by
  induction h with
  | balanced hu => exact hu.noSurplus
  | opens _ hm ih => exact ih.append (noSurplus_open hm.noSurplus)

/-- The outermost index is that of the first unpaired open bracket. -/
theorem firstUnpaired (h : Opened u opened) (hi : opened.getLast? = some i) : FirstUnpaired u i := by
  have hsplit : ∃ u' m, u = u' ++ .fixed Token.openText :: m ∧ Balanced u' ∧ NoSurplus m ∧ u'.length = i := by
    induction h with
    | balanced _ => cases hi
    | @opens u m opened hu hm ih =>
      cases opened with
      | nil => exact ⟨u, m, rfl, hu.balanced_of_nil, hm.noSurplus, Option.some.inj hi⟩
      | cons j outer =>
        obtain ⟨u', m', rfl, hu', hm', hlength⟩ := ih (by rwa [List.getLast?_cons_cons] at hi)
        refine ⟨u', m' ++ .fixed Token.openText :: m, by simp, hu', ?_, hlength⟩
        exact hm'.append (noSurplus_open hm.noSurplus)
  obtain ⟨u', m, rfl, hu', hm, rfl⟩ := hsplit
  exact firstUnpaired_of_noSurplus hu' hm

end Opened

/-! ## The check -/

namespace TokenList

/-- What is right about tokens, given what is found at fault in their brackets. -/
def Verdict (ts : List Token) : Option BracketFault → Prop
  | none => Balanced ts
  | some (.unexpectedClose i) => FirstSurplus ts i
  | some (.unmatchedOpen i) => NoSurplus ts ∧ FirstUnpaired ts i

theorem verdict_of_opened (rest : List Token) : ∀ {done : List Token} {opened : List Nat}, Opened done opened →
    Verdict (done ++ rest) (bracketFaultFrom opened done.length rest) := by
  induction rest with
  | nil =>
    intro done opened h
    rw [List.append_nil, bracketFaultFrom]
    cases hlast : opened.getLast? with
    | none =>
      obtain rfl := List.getLast?_eq_none_iff.1 hlast
      exact h.balanced_of_nil
    | some i => exact ⟨h.noSurplus, h.firstUnpaired hlast⟩
  | cons t rest ih =>
    intro done opened h
    have hdone : done ++ t :: rest = (done ++ [t]) ++ rest := by simp
    have hlength : (done ++ [t]).length = done.length + 1 := by simp
    rw [bracketFaultFrom.eq_def]
    simp only [← hlength]
    split
    · next ho =>
      obtain rfl := Token.isOpen_iff.1 ho
      rw [hdone]
      exact ih (.opens h .nil)
    · split
      · next hc =>
        obtain rfl := Token.isClose_iff.1 hc
        cases opened with
        | nil => exact firstSurplus_of_balanced h.balanced_of_nil
        | cons i outer =>
          rw [hdone]
          exact ih h.close
      · next ho hc =>
        rw [hdone]
        exact ih (h.append (.singleton (by simp [Token.isPlain, ho, hc])))

/-- The verdict on a list holds. -/
theorem verdict_bracketFault? (l : TokenList) : Verdict l.tokens l.bracketFault? :=
  verdict_of_opened l.tokens (.balanced .nil)

/-- The error about the bracket at an index. -/
def bracketError (l : TokenList) (source : Text) (cause : Cause) (i : Nat) : ExprError :=
  { cause, position := some (l.positionAt i), expression := some source }

/-- The check accepts a balanced list, or fails at the first surplus, or without one at the first unpaired bracket. -/
theorem checkBrackets_cases (l : TokenList) (source : Text) :
    Balanced l.tokens ∧ l.checkBrackets source = .ok () ∨
    (∃ i, FirstSurplus l.tokens i ∧
      l.checkBrackets source = .error (l.bracketError source (.unexpectedClose source) i)) ∨
    NoSurplus l.tokens ∧ ∃ i, FirstUnpaired l.tokens i ∧
      l.checkBrackets source = .error (l.bracketError source (.unmatchedOpen source) i) := by
  have hverdict := l.verdict_bracketFault?
  rw [checkBrackets]
  revert hverdict
  rcases l.bracketFault? with _ | ⟨i | i⟩
  · exact fun hbalanced => .inl ⟨hbalanced, rfl⟩
  · exact fun hsurplus => .inr (.inl ⟨i, hsurplus, rfl⟩)
  · rintro ⟨hno, hunpaired⟩
    exact .inr (.inr ⟨hno, i, hunpaired, rfl⟩)

/-- The check of brackets accepts exactly the balanced lists. It fails with a close bracket exactly if some prefix has
more close than open brackets, at the last token of the shortest such prefix, and on other lists that are not balanced
at the leftmost open bracket that is in no pair. A balanced list is in brackets exactly if it is a balanced list between
two brackets. -/
theorem checkBrackets_exact (l : TokenList) (source : Text) :
    (l.checkBrackets source = .ok () ↔ Balanced l.tokens) ∧
    ((∃ e, l.checkBrackets source = .error e ∧ e.code = .unexpectedCloseBracket) ↔
      ∃ u, u <+: l.tokens ∧ bracketDepth u < 0) ∧
    ((∃ u, u <+: l.tokens ∧ bracketDepth u < 0) → ∃ i, FirstSurplus l.tokens i ∧
      l.checkBrackets source = .error (l.bracketError source (.unexpectedClose source) i)) ∧
    ((∀ u, u <+: l.tokens → 0 ≤ bracketDepth u) → ¬ Balanced l.tokens → ∃ i, FirstUnpaired l.tokens i ∧
      l.checkBrackets source = .error (l.bracketError source (.unmatchedOpen source) i)) ∧
    (Balanced l.tokens → (l.isInBrackets = true ↔
      ∃ m, l.tokens = .fixed Token.openText :: (m ++ [.fixed Token.closeText]) ∧ Balanced m)) := by
  have hsurplus : (∃ u, u <+: l.tokens ∧ bracketDepth u < 0) ↔ ¬ NoSurplus l.tokens := by
    simp only [NoSurplus, not_forall, Int.not_le, exists_prop]
  rw [hsurplus]
  refine ⟨l.checkBrackets_eq_ok_iff source, ?_, fun hno => ?_, fun hno hnot => ?_, areInBrackets_iff⟩
  · rcases l.checkBrackets_cases source with ⟨hb, heq⟩ | ⟨i, hi, heq⟩ | ⟨hno, i, hi, heq⟩
    · simp [heq, hb.noSurplus]
    · exact iff_of_true ⟨_, heq, rfl⟩ hi.not_noSurplus
    · simp [heq, hno, bracketError, ExprError.code, Cause.code]
  · rcases l.checkBrackets_cases source with ⟨hb, -⟩ | ⟨i, hi, heq⟩ | ⟨hno', -⟩
    · exact absurd hb.noSurplus hno
    · exact ⟨i, hi, heq⟩
    · exact absurd hno' hno
  · rcases l.checkBrackets_cases source with ⟨hb, -⟩ | ⟨i, hi, -⟩ | ⟨-, i, hi, heq⟩
    · exact absurd hb hnot
    · exact absurd hno hi.not_noSurplus
    · exact ⟨i, hi, heq⟩

/-- A list of brackets, open where there is a `true`. -/
def brackets (opens : List Bool) : TokenList :=
  adjoining (opens.map fun isOpen => .fixed (if isOpen then Token.openText else Token.closeText))

theorem checkBrackets_exact_sample :
    ((∃ u, u <+: (brackets [true, false, false, true]).tokens ∧ bracketDepth u < 0) ∧
      ∃ i, FirstSurplus (brackets [true, false, false, true]).tokens i ∧
        (brackets [true, false, false, true]).checkBrackets [] =
          .error ((brackets [true, false, false, true]).bracketError [] (.unexpectedClose []) i)) ∧
    ((∀ u, u <+: (brackets [true, true, false]).tokens → 0 ≤ bracketDepth u) ∧
      ¬ Balanced (brackets [true, true, false]).tokens ∧
      ∃ i, FirstUnpaired (brackets [true, true, false]).tokens i ∧
        (brackets [true, true, false]).checkBrackets [] =
          .error ((brackets [true, true, false]).bracketError [] (.unmatchedOpen []) i)) ∧
    Balanced (brackets [true, true, false, false]).tokens ∧
    (brackets [true, true, false, false]).isInBrackets = true := by
  have hsurplus : ∃ u, u <+: (brackets [true, false, false, true]).tokens ∧ bracketDepth u < 0 :=
    ⟨(brackets [true, false, false]).tokens, ⟨[.fixed Token.openText], rfl⟩, by decide⟩
  have hno : NoSurplus (brackets [true, true, false]).tokens := noSurplus_open (Balanced.wrap .nil).noSurplus
  have hnot : ¬ Balanced (brackets [true, true, false]).tokens := fun h => absurd h.depth_eq (by decide)
  have hbalanced : Balanced (brackets [true, true, false, false]).tokens := .wrap (.wrap .nil)
  obtain ⟨-, -, hfirst, -⟩ := checkBrackets_exact (brackets [true, false, false, true]) []
  obtain ⟨-, -, -, hunpaired, -⟩ := checkBrackets_exact (brackets [true, true, false]) []
  obtain ⟨-, -, -, -, hwithin⟩ := checkBrackets_exact (brackets [true, true, false, false]) []
  exact ⟨⟨hsurplus, hfirst hsurplus⟩, ⟨hno, hnot, hunpaired hno hnot⟩, hbalanced,
    (hwithin hbalanced).2 ⟨_, rfl, .wrap .nil⟩⟩

end TokenList

end Mixfix
