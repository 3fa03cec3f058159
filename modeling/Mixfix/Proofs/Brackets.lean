import Mathlib.Algebra.Ring.Int.Defs
import Mixfix.TokenList.Bracket

/-!
# Bracket depth and balanced tokens

The depth of tokens is the number of open brackets less the number of close brackets (`bracketDepth`); tokens are
balanced if every prefix has a depth of at least zero and the whole has depth zero (`Balanced`).

* No fault is found in the brackets of a list exactly if its tokens are balanced (`bracketFault?_eq_none_iff`), and a
  fault that is found is about a bracket of the list (`standsIn_of_bracketFault?`).
* Balanced tokens are in brackets exactly if they are balanced tokens between an open and a close bracket
  (`areInBrackets_iff`).
-/

namespace Mixfix

namespace Token

theorem isOpen_iff {t : Token} : t.isOpen = true ↔ t = .fixed openText := by
  cases t <;> simp [isOpen, isFixed]

theorem isClose_iff {t : Token} : t.isClose = true ↔ t = .fixed closeText := by
  cases t <;> simp [isClose, isFixed]

theorem isSeparator_iff {t : Token} : t.isSeparator = true ↔ t = .fixed separatorText := by
  cases t <;> simp [isSeparator, isFixed]

/-- Neither an open nor a close bracket. -/
def isPlain (t : Token) : Bool := !t.isOpen && !t.isClose

/-- A bracket or a separator. -/
def isBuiltin (t : Token) : Bool := t.isOpen || t.isClose || t.isSeparator

theorem isPlain_of_not_builtin {t : Token} (h : t.isBuiltin = false) : t.isPlain = true := by
  simp only [isBuiltin, Bool.or_eq_false_iff] at h
  simp [isPlain, h.1.1, h.1.2]

theorem isBuiltin_fixed {t : Text} (h : t ∉ builtinTexts) : (Token.fixed t).isBuiltin = false := by
  simp only [builtinTexts, List.mem_cons, not_or] at h
  simp [isBuiltin, isOpen, isClose, isSeparator, isFixed, h.1, h.2.1, h.2.2.1]

/-- How a token changes the bracket depth. -/
def weight (t : Token) : Int := if t.isOpen then 1 else if t.isClose then -1 else 0

@[simp] theorem weight_open : weight (.fixed openText) = 1 := rfl

@[simp] theorem weight_close : weight (.fixed closeText) = -1 := rfl

@[simp] theorem weight_raw (t : Text) : weight (.raw t) = 0 := rfl

@[simp] theorem weight_number (t : Text) (v : Float) : weight (.number t v) = 0 := rfl

theorem weight_of_plain {t : Token} (h : t.isPlain = true) : t.weight = 0 := by
  simp only [isPlain, Bool.and_eq_true, Bool.not_eq_true'] at h
  simp [weight, h.1, h.2]

end Token

/-! ## Depth -/

/-- The number of open brackets less the number of close brackets. -/
def bracketDepth (ts : List Token) : Int := (ts.map Token.weight).sum

@[simp] theorem bracketDepth_nil : bracketDepth [] = 0 := rfl

@[simp] theorem bracketDepth_cons (t : Token) (ts : List Token) :
    bracketDepth (t :: ts) = t.weight + bracketDepth ts := by simp [bracketDepth]

@[simp] theorem bracketDepth_append (u v : List Token) :
    bracketDepth (u ++ v) = bracketDepth u + bracketDepth v := by simp [bracketDepth]

@[simp] theorem bracketDepth_reverse (u : List Token) : bracketDepth u.reverse = bracketDepth u := by
  induction u with
  | nil => rfl
  | cons t u ih => simp [ih]; omega

theorem bracketDepth_of_plain {ts : List Token} (h : ∀ t ∈ ts, t.isPlain = true) : bracketDepth ts = 0 := by
  induction ts with
  | nil => rfl
  | cons t ts ih =>
    rw [bracketDepth_cons, Token.weight_of_plain (h t List.mem_cons_self),
      ih fun t ht => h t (List.mem_cons_of_mem _ ht)]
    rfl

/-- A lower bound for the depth of every prefix, by the first token. -/
theorem forall_prefix_cons {b n : Int} {t : Token} {ts : List Token} :
    (∀ u v, t :: ts = u ++ v → b ≤ n + bracketDepth u) ↔
      b ≤ n ∧ ∀ u v, ts = u ++ v → b ≤ n + t.weight + bracketDepth u := by
  constructor
  · intro h
    refine ⟨by simpa using h [] (t :: ts) rfl, fun u v huv => ?_⟩
    have := h (t :: u) v (by rw [huv]; rfl)
    rw [bracketDepth_cons] at this
    omega
  · rintro ⟨h₀, h⟩ u v huv
    match u with
    | [] => simpa using h₀
    | s :: u =>
      rw [List.cons_append, List.cons.injEq] at huv
      have := h u v huv.2
      rw [bracketDepth_cons, ← huv.1]
      omega

/-! ## Balanced tokens -/

/-- Every prefix opens at least as many brackets as it closes, and the whole as many. -/
structure Balanced (ts : List Token) : Prop where
  depth_eq : bracketDepth ts = 0
  depth_prefix : ∀ u v, ts = u ++ v → 0 ≤ bracketDepth u

namespace Balanced

theorem nil : Balanced [] := by
  refine ⟨rfl, fun u v h => ?_⟩
  obtain ⟨rfl, -⟩ := List.append_eq_nil_iff.1 h.symm
  exact Int.le_refl 0

theorem append {u v : List Token} (hu : Balanced u) (hv : Balanced v) : Balanced (u ++ v) := by
  refine ⟨by rw [bracketDepth_append, hu.depth_eq, hv.depth_eq]; rfl, fun x y h => ?_⟩
  rcases List.append_eq_append_iff.1 h with ⟨z, rfl, h'⟩ | ⟨z, h', -⟩
  · rw [bracketDepth_append, hu.depth_eq]
    have := hv.depth_prefix z y h'
    omega
  · exact hu.depth_prefix x z h'

theorem of_plain {ts : List Token} (h : ∀ t ∈ ts, t.isPlain = true) : Balanced ts := by
  refine ⟨bracketDepth_of_plain h, fun u v huv => ?_⟩
  have hu := bracketDepth_of_plain fun t ht => h t (by rw [huv]; exact List.mem_append_left _ ht)
  omega

theorem singleton {t : Token} (h : t.isPlain = true) : Balanced [t] :=
  of_plain fun s hs => by rw [List.mem_singleton.1 hs]; exact h

theorem wrap {m : List Token} (h : Balanced m) :
    Balanced (.fixed Token.openText :: (m ++ [.fixed Token.closeText])) := by
  refine ⟨by simp [h.depth_eq], fun u v huv => ?_⟩
  match u with
  | [] => exact Int.le_refl 0
  | t :: u =>
    simp only [List.cons_append, List.cons.injEq] at huv
    obtain ⟨rfl, huv⟩ := huv
    rw [bracketDepth_cons, Token.weight_open]
    rcases List.append_eq_append_iff.1 huv with ⟨z, rfl, hz⟩ | ⟨z, hm, -⟩
    · rw [bracketDepth_append, h.depth_eq]
      match z with
      | [] => decide
      | [s] => obtain ⟨rfl, -⟩ := List.cons.inj hz; decide
      | s :: s' :: z => simp at hz
    · have := h.depth_prefix u z hm
      omega

/-- What stands before a place outside of brackets is balanced. -/
theorem left {u v : List Token} (h : Balanced (u ++ v)) (hu : bracketDepth u = 0) : Balanced u :=
  ⟨hu, fun x y hxy => h.depth_prefix x (y ++ v) (by rw [hxy, List.append_assoc])⟩

/-- What stands behind a place outside of brackets is balanced. -/
theorem right {u v : List Token} (h : Balanced (u ++ v)) (hu : bracketDepth u = 0) : Balanced v := by
  have hd := h.depth_eq
  rw [bracketDepth_append, hu] at hd
  refine ⟨by omega, fun x y hxy => ?_⟩
  have := h.depth_prefix (u ++ x) y (by rw [hxy, List.append_assoc])
  rw [bracketDepth_append, hu] at this
  omega

/-- What stands between two places outside of brackets is balanced. -/
theorem slice {ts : List Token} (h : Balanced ts) {a b : Nat} (hab : a ≤ b) (ha : bracketDepth (ts.take a) = 0)
    (hb : bracketDepth (ts.take b) = 0) : Balanced ((ts.drop a).take (b - a)) := by
  have hsplit : ts.take b = ts.take a ++ (ts.drop a).take (b - a) := by
    rw [← List.take_add, Nat.add_sub_cancel' hab]
  rw [← List.take_append_drop b ts] at h
  have hleft := h.left hb
  rw [hsplit] at hleft
  exact hleft.right ha

theorem tail {t : Token} {v : List Token} (h : Balanced (t :: v)) (ht : t.weight = 0) : Balanced v :=
  right (u := [t]) h (by simp [ht])

theorem dropLast {u : List Token} {t : Token} (h : Balanced (u ++ [t])) (ht : t.weight = 0) : Balanced u := by
  have hd := h.depth_eq
  simp only [bracketDepth_append, bracketDepth_cons, ht, bracketDepth_nil] at hd
  exact h.left (by omega)

end Balanced

/-! ## Faults -/

namespace TokenList

theorem bracketFaultFrom_eq_none_iff (ts : List Token) : ∀ (opened : List Nat) (i : Nat),
    bracketFaultFrom opened i ts = none ↔
      opened.length + bracketDepth ts = 0 ∧ ∀ u v, ts = u ++ v → 0 ≤ opened.length + bracketDepth u := by
  induction ts with
  | nil =>
    intro opened i
    cases opened with
    | nil => simp [bracketFaultFrom]
    | cons o opened =>
      have : (o :: opened).getLast? ≠ none := by simp
      simp [bracketFaultFrom]
      omega
  | cons t ts ih =>
    intro opened i
    have h₀ : (0 : Int) ≤ opened.length := Int.natCast_nonneg _
    simp only [forall_prefix_cons, bracketDepth_cons, h₀, true_and]
    rw [bracketFaultFrom.eq_def]
    simp only
    by_cases ho : t.isOpen
    · have hw : t.weight = 1 := by simp [Token.weight, ho]
      rw [if_pos ho, ih, hw]
      simp only [List.length_cons, Int.natCast_add]
      constructor
      · rintro ⟨h₁, h₂⟩
        exact ⟨by omega, fun u v huv => by have := h₂ u v huv; omega⟩
      · rintro ⟨h₁, h₂⟩
        exact ⟨by omega, fun u v huv => by have := h₂ u v huv; omega⟩
    · by_cases hc : t.isClose
      · have hw : t.weight = -1 := by simp [Token.weight, ho, hc]
        rw [if_neg ho, if_pos hc, hw]
        cases opened with
        | nil =>
          simp only [reduceCtorEq, List.length_nil, false_iff, not_and]
          intro _ h
          have := h [] ts rfl
          simp at this
        | cons o opened =>
          simp only [ih, List.length_cons, Int.natCast_add]
          constructor
          · rintro ⟨h₁, h₂⟩
            exact ⟨by omega, fun u v huv => by have := h₂ u v huv; omega⟩
          · rintro ⟨h₁, h₂⟩
            exact ⟨by omega, fun u v huv => by have := h₂ u v huv; omega⟩
      · have hw : t.weight = 0 := by simp [Token.weight, ho, hc]
        rw [if_neg ho, if_neg hc, ih, hw]
        simp

/-- No fault is found exactly if the tokens are balanced. -/
theorem bracketFault?_eq_none_iff (l : TokenList) : l.bracketFault? = none ↔ Balanced l.tokens := by
  rw [bracketFault?, bracketFaultFrom_eq_none_iff]
  simp only [List.length_nil, Int.natCast_zero, Int.zero_add]
  exact ⟨fun h => ⟨h.1, h.2⟩, fun h => ⟨h.depth_eq, h.depth_prefix⟩⟩

/-- Brackets are accepted exactly if the tokens are balanced. -/
theorem checkBrackets_eq_ok_iff (l : TokenList) (source : Text) :
    l.checkBrackets source = .ok () ↔ Balanced l.tokens := by
  rw [← bracketFault?_eq_none_iff, checkBrackets]
  cases l.bracketFault? with
  | none => simp
  | some f => cases f <;> simp

/-- The bracket that a fault is about stands at its index. -/
def BracketFault.StandsIn (ts : List Token) : BracketFault → Prop
  | .unexpectedClose i => ts[i]? = some (.fixed Token.closeText)
  | .unmatchedOpen i => ts[i]? = some (.fixed Token.openText)

theorem standsIn_of_bracketFaultFrom {ts : List Token} {f : BracketFault} (rest : List Token) :
    ∀ {done : List Token} {opened : List Nat}, ts = done ++ rest →
      (∀ j ∈ opened, ts[j]? = some (.fixed Token.openText)) →
      bracketFaultFrom opened done.length rest = some f → f.StandsIn ts := by
  induction rest with
  | nil =>
    intro done opened _ hopened h
    obtain ⟨j, hj, rfl⟩ := Option.map_eq_some_iff.1 h
    exact hopened j (List.mem_of_getLast? hj)
  | cons t rest ih =>
    intro done opened hts hopened h
    have hts' : ts = (done ++ [t]) ++ rest := by rw [hts]; simp
    have hlength : (done ++ [t]).length = done.length + 1 := by simp
    have htoken : ts[done.length]? = some t := by rw [hts]; simp
    rw [bracketFaultFrom.eq_def] at h
    simp only [← hlength] at h
    split at h
    · next ho =>
      rw [Token.isOpen_iff] at ho
      exact ih hts' (List.forall_mem_cons.2 ⟨by rw [htoken, ho], hopened⟩) h
    · split at h
      · next hc =>
        rw [Token.isClose_iff] at hc
        cases opened with
        | nil =>
          cases h
          rw [BracketFault.StandsIn, htoken, hc]
        | cons j outer => exact ih hts' (List.forall_mem_cons.1 hopened).2 h
      · exact ih hts' hopened h

/-- A fault is about a bracket of the list. -/
theorem standsIn_of_bracketFault? {l : TokenList} {f : BracketFault} (h : l.bracketFault? = some f) :
    f.StandsIn l.tokens :=
  @standsIn_of_bracketFaultFrom l.tokens f l.tokens [] [] rfl (by simp) h

/-! ## Tokens in brackets -/

/-- The depth stays open exactly if no prefix closes the last open bracket. -/
theorem staysOpen_iff (ts : List Token) : ∀ d : Nat, 1 ≤ d →
    (staysOpen d ts = true ↔ ∀ u v, ts = u ++ v → 1 ≤ d + bracketDepth u) := by
  induction ts with
  | nil =>
    intro d hd
    simp only [staysOpen, true_iff]
    intro u v h
    obtain ⟨rfl, -⟩ := List.append_eq_nil_iff.1 h.symm
    rw [bracketDepth_nil]
    omega
  | cons t ts ih =>
    intro d hd
    have h₀ : (1 : Int) ≤ d := by omega
    simp only [forall_prefix_cons, h₀, true_and]
    rw [staysOpen]
    by_cases ho : t.isOpen
    · have hw : t.weight = 1 := by simp [Token.weight, ho]
      rw [if_pos ho, ih (d + 1) (by omega), hw]
      simp only [Int.natCast_add, Int.natCast_one]
    · by_cases hc : t.isClose
      · have hw : t.weight = -1 := by simp [Token.weight, ho, hc]
        rw [if_neg ho, if_pos hc, hw]
        by_cases hd1 : d = 1
        · subst hd1
          simp only [bne_self_eq_false, Bool.false_and, Bool.false_eq_true, false_iff]
          intro h
          have := h [] ts rfl
          simp at this
        · have hne : (d != 1) = true := by simpa using hd1
          rw [hne, Bool.true_and, ih (d - 1) (by omega)]
          have hcast : ((d - 1 : Nat) : Int) = d + -1 := by omega
          rw [hcast]
      · have hw : t.weight = 0 := by simp [Token.weight, ho, hc]
        rw [if_neg ho, if_neg hc, ih d hd, hw]
        simp

/-- Tokens in brackets are an open bracket, tokens that close no bracket but those they open, and a close bracket. -/
theorem areInBrackets_iff_staysOpen {ts : List Token} : areInBrackets ts = true ↔
    ∃ m, ts = .fixed Token.openText :: (m ++ [.fixed Token.closeText]) ∧ ∀ u v, m = u ++ v → 0 ≤ bracketDepth u := by
  match ts with
  | [] => simp [areInBrackets]
  | t :: ts =>
    simp only [areInBrackets, Bool.and_eq_true, Option.any_eq_true, Token.isOpen_iff, Token.isClose_iff,
      staysOpen_iff _ 1 (Nat.le_refl 1), List.cons.injEq]
    constructor
    · rintro ⟨⟨rfl, c, hc, rfl⟩, hstay⟩
      obtain ⟨m, rfl⟩ := List.getLast?_eq_some_iff.1 hc
      refine ⟨m, ⟨rfl, rfl⟩, fun u v huv => ?_⟩
      rw [List.dropLast_concat] at hstay
      have := hstay u v huv
      omega
    · rintro ⟨m, ⟨rfl, rfl⟩, hm⟩
      refine ⟨⟨rfl, _, by simp, rfl⟩, fun u v huv => ?_⟩
      rw [List.dropLast_concat] at huv
      have := hm u v huv
      omega

/-- Balanced tokens are in brackets exactly if they are balanced tokens between brackets. -/
theorem areInBrackets_iff {ts : List Token} (h : Balanced ts) : areInBrackets ts = true ↔
    ∃ m, ts = .fixed Token.openText :: (m ++ [.fixed Token.closeText]) ∧ Balanced m := by
  rw [areInBrackets_iff_staysOpen]
  constructor
  · rintro ⟨m, rfl, hm⟩
    have hd := h.depth_eq
    simp only [bracketDepth_cons, bracketDepth_append, Token.weight_open, Token.weight_close, bracketDepth_nil] at hd
    exact ⟨m, rfl, by omega, hm⟩
  · rintro ⟨m, rfl, hm⟩
    exact ⟨m, rfl, hm.depth_prefix⟩

/-- Where brackets end balanced tokens, they hold balanced tokens, and what stands before them closes its brackets. -/
theorem areInBrackets_append {u v : List Token} (h : Balanced (u ++ v)) (hv : areInBrackets v = true) :
    bracketDepth u = 0 ∧ ∃ m, v = .fixed Token.openText :: (m ++ [.fixed Token.closeText]) ∧ Balanced m := by
  obtain ⟨m, rfl, hm⟩ := areInBrackets_iff_staysOpen.1 hv
  have htotal := h.depth_eq
  have hu := h.depth_prefix u _ rfl
  have hinner := hm m [] (by simp)
  simp only [bracketDepth_append, bracketDepth_cons, Token.weight_open, Token.weight_close, bracketDepth_nil] at htotal
  exact ⟨by omega, m, rfl, by omega, hm⟩

/-- Balanced tokens with a token outside of brackets are not in brackets. -/
theorem areInBrackets_eq_false {u v : List Token} {t : Token} (hu : bracketDepth u = 0) (ht : t.isPlain = true) :
    areInBrackets (u ++ t :: v) = false := by
  rw [Bool.eq_false_iff, Ne, areInBrackets_iff_staysOpen]
  rintro ⟨m, hm, hpre⟩
  match u with
  | [] =>
    obtain ⟨rfl, -⟩ := List.cons.inj hm
    exact absurd ht (by decide)
  | o :: u =>
    rw [List.cons_append, List.cons.injEq] at hm
    obtain ⟨rfl, hm'⟩ := hm
    rw [bracketDepth_cons, Token.weight_open] at hu
    rcases List.append_eq_append_iff.1 hm' with ⟨z, rfl, hz⟩ | ⟨z, rfl, hz⟩
    · have := hpre u z rfl
      omega
    · match z with
      | [] =>
        obtain ⟨rfl, -⟩ := List.cons.inj hz
        exact absurd ht (by decide)
      | z₀ :: z => simp at hz

end TokenList

end Mixfix
