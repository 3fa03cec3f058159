import Mathlib.Data.List.Basic
import Mixfix.Proofs.Sections
import Mixfix.Scan

/-!
# The sites of tokens

The sites of tokens can be told token by token: a token outside of brackets is one if it may be part of an infix
operator between what stands before and behind it (`Site.ofTokens`, `Site.mem_ofTokens`). A forward scan sees these
sites in order (`Site.forward_ofTokens`), a backward scan of balanced tokens sees them in reverse
(`Site.backward_ofTokens`), and sites that are to be ignored are left out if they are those of a balanced part.

Whether a token may be part of an infix operator depends on the tokens around it up to the next operands; it stays so
when more tokens are put around. Tokens that can be an operand of an operator (`Registry.Operand`) leave a token between
them a site wherever they stand (`Site.inTokens_infix`).
-/

namespace Mixfix

/-! ## Runs of operator tokens -/

namespace Registry

variable {α : Type} (r : Registry α)

/-- The operator tokens that the tokens start with satisfy a test, and something else follows them. -/
def MeetsOperand (p : Token → Bool) : List Token → Prop
  | [] => False
  | t :: ts => if r.isOperatorToken t then p t = true ∧ MeetsOperand p ts else True

variable {r} {p : Token → Bool} {t : Token} {ts : List Token}

theorem meetsOperand_cons (h : r.isOperatorToken t = true) :
    r.MeetsOperand p (t :: ts) ↔ p t = true ∧ r.MeetsOperand p ts := by
  rw [MeetsOperand, if_pos h]

theorem meetsOperand_iff :
    r.MeetsOperand p ts ↔ r.hasOperandBeyond ts = true ∧ (r.runBeside ts).all p = true := by
  induction ts with
  | nil => simp [MeetsOperand, hasOperandBeyond]
  | cons t ts ih =>
    by_cases ht : r.isOperatorToken t
    · have hbeyond : r.hasOperandBeyond (t :: ts) = r.hasOperandBeyond ts := by simp [hasOperandBeyond, ht]
      have hrun : r.runBeside (t :: ts) = t :: r.runBeside ts := by simp [runBeside, ht]
      rw [meetsOperand_cons ht, ih, hbeyond, hrun, List.all_cons, Bool.and_eq_true]
      tauto
    · simp [MeetsOperand, hasOperandBeyond, runBeside, ht]

/-- A token may be part of an infix operator if only postfix tokens stand between it and the operand before it, and only
prefix tokens between it and the operand behind it. -/
theorem canBeInfix_iff {before behind : List Token} : r.canBeInfix before behind = true ↔
    r.MeetsOperand r.isPostfixToken before ∧ r.MeetsOperand r.isPrefixToken behind := by
  simp only [canBeInfix, Bool.and_eq_true, meetsOperand_iff]
  tauto

/-- A token that may be part of an infix operator has others before and behind it. -/
theorem ne_nil_of_canBeInfix {before behind : List Token} (h : r.canBeInfix before behind = true) :
    before ≠ [] ∧ behind ≠ [] := by
  obtain ⟨hbefore, hbehind⟩ := canBeInfix_iff.1 h
  constructor
  · rintro rfl
    exact hbefore
  · rintro rfl
    exact hbehind

theorem MeetsOperand.append (h : r.MeetsOperand p ts) (us : List Token) : r.MeetsOperand p (ts ++ us) := by
  induction ts with
  | nil => cases h
  | cons t ts ih =>
    rw [MeetsOperand] at h
    rw [List.cons_append, MeetsOperand]
    split
    · next ht => rw [if_pos ht] at h; exact ⟨h.1, ih h.2⟩
    · trivial

/-- An operand is met among the first tokens, or they are operator tokens and it is met behind them. -/
theorem meetsOperand_append {us : List Token} : r.MeetsOperand p (ts ++ us) ↔
    r.MeetsOperand p ts ∨ (∀ t ∈ ts, r.isOperatorToken t = true ∧ p t = true) ∧ r.MeetsOperand p us := by
  induction ts with
  | nil => simp [MeetsOperand]
  | cons t ts ih =>
    by_cases ht : r.isOperatorToken t
    · simp only [List.cons_append, MeetsOperand, ht, if_true, ih, List.forall_mem_cons, true_and]
      tauto
    · simp [MeetsOperand, ht]

theorem meetsOperand_of_not (h : r.isOperatorToken t = false) : r.MeetsOperand p (t :: ts) := by
  simp [MeetsOperand, h]

theorem MeetsOperand.cons (h : r.MeetsOperand p ts) (ht : p t = true) : r.MeetsOperand p (t :: ts) := by
  rw [MeetsOperand]
  split
  · exact ⟨ht, h⟩
  · trivial

/-- Balanced tokens that can stand before and behind the token of an infix operator: prefix tokens may come first and
postfix tokens last, but no other operator tokens, and no separator stands outside of brackets. -/
structure Operand (r : Registry α) (ts : List Token) : Prop where
  balanced : Balanced ts
  unseparated : ∀ i, TokenList.splitPoints Token.isSeparator 0 i ts = []
  starts : r.MeetsOperand r.isPrefixToken ts
  ends : r.MeetsOperand r.isPostfixToken ts.reverse

namespace Operand

open TokenList

variable {u v m : List Token}

theorem canBeInfix (hu : r.Operand u) (hv : r.Operand v) (before behind : List Token) :
    r.canBeInfix (u.reverse ++ before) (v ++ behind) = true :=
  canBeInfix_iff.2 ⟨hu.ends.append before, hv.starts.append behind⟩

theorem ne_nil (h : r.Operand u) : u ≠ [] := by
  rintro rfl
  exact h.starts

theorem not_separator (h : r.Operand (u ++ t :: v)) (hu : bracketDepth u = 0) : t.isSeparator = false := by
  rw [Bool.eq_false_iff]
  intro ht
  have hplain : t.isPlain = true := by rw [Token.isSeparator_iff.1 ht]; rfl
  have hmem : 0 + u.length ∈ splitPoints Token.isSeparator 0 0 (u ++ t :: v) :=
    mem_splitPoints.2 ⟨u, t, v, rfl, rfl, by omega, hplain, ht⟩
  rw [h.unseparated] at hmem
  cases hmem

theorem head_not_separator (h : r.Operand (t :: v)) : t.isSeparator = false := h.not_separator (u := []) rfl

theorem last_not_separator (h : r.Operand (u ++ [t])) : t.isSeparator = false := by
  by_cases ht : t.isSeparator
  · have hdepth := h.balanced.depth_eq
    have hweight : (Token.fixed Token.separatorText).weight = 0 := rfl
    rw [Token.isSeparator_iff.1 ht, bracketDepth_append, bracketDepth_cons, hweight] at hdepth
    exact h.not_separator (v := []) (by simpa using hdepth)
  · simpa using ht

theorem unseparated_singleton (hb : t.isBuiltin = false) (i : Nat) : splitPoints Token.isSeparator 0 i [t] = [] := by
  simp only [Token.isBuiltin, Bool.or_eq_false_iff] at hb
  simp [splitPoints, hb.2]

theorem unseparated_brackets {m : List Token} (hm : Balanced m) (i : Nat) :
    splitPoints Token.isSeparator 0 i (.fixed Token.openText :: (m ++ [.fixed Token.closeText])) = [] := by
  have hinner (i : Nat) : splitPoints Token.isSeparator 1 i m = [] :=
    splitPoints_eq_nil (fun u v huv => by have := hm.depth_prefix u v huv; omega) i
  have hopen : (Token.fixed Token.openText).isPlain = false := rfl
  have hclose : (Token.fixed Token.closeText).isPlain = false := rfl
  rw [splitPoints, if_neg (by simp [hopen]), splitPoints_append]
  simp [hinner, splitPoints, hclose]

/-- Operands stay without separators when a token is put between them. -/
theorem unseparated_append (hu : Balanced u) (hus : ∀ i, splitPoints Token.isSeparator 0 i u = [])
    (hvs : ∀ i, splitPoints Token.isSeparator 0 i v = []) (i : Nat) :
    splitPoints Token.isSeparator 0 i (u ++ v) = [] := by
  rw [splitPoints_append, hu.depth_eq, hus, Int.add_zero, hvs, List.append_nil]

theorem singleton (hb : t.isBuiltin = false) (ht : r.isOperatorToken t = false) : r.Operand [t] where
  balanced := .singleton (Token.isPlain_of_not_builtin hb)
  unseparated := unseparated_singleton hb
  starts := meetsOperand_of_not ht
  ends := meetsOperand_of_not ht

theorem infixed (hu : r.Operand u) (hv : r.Operand v) (hb : t.isBuiltin = false) : r.Operand (u ++ t :: v) where
  balanced := hu.balanced.append ((Balanced.singleton (Token.isPlain_of_not_builtin hb)).append hv.balanced)
  unseparated := unseparated_append hu.balanced hu.unseparated
    (unseparated_append (u := [t]) (.singleton (Token.isPlain_of_not_builtin hb)) (unseparated_singleton hb)
      hv.unseparated)
  starts := hu.starts.append _
  ends := by
    rw [List.reverse_append, List.reverse_cons, List.append_assoc]
    exact hv.ends.append _

theorem prefixed (hv : r.Operand v) (hb : t.isBuiltin = false) (hp : r.isPrefixToken t = true) :
    r.Operand (t :: v) where
  balanced := (Balanced.singleton (Token.isPlain_of_not_builtin hb)).append hv.balanced
  unseparated :=
    unseparated_append (u := [t]) (.singleton (Token.isPlain_of_not_builtin hb)) (unseparated_singleton hb)
      hv.unseparated
  starts := hv.starts.cons hp
  ends := by
    rw [List.reverse_cons]
    exact hv.ends.append _

theorem postfixed (hu : r.Operand u) (hb : t.isBuiltin = false) (hp : r.isPostfixToken t = true) :
    r.Operand (u ++ [t]) where
  balanced := hu.balanced.append (.singleton (Token.isPlain_of_not_builtin hb))
  unseparated := unseparated_append hu.balanced hu.unseparated (unseparated_singleton hb)
  starts := hu.starts.append _
  ends := by
    rw [List.reverse_append]
    exact hu.ends.cons hp

end Operand

/-- Brackets are no operator tokens. -/
structure SparesBrackets (r : Registry α) : Prop where
  opening : r.isOperatorToken (.fixed Token.openText) = false
  closing : r.isOperatorToken (.fixed Token.closeText) = false

theorem Operand.brackets (hr : r.SparesBrackets) {m : List Token} (hm : Balanced m) :
    r.Operand (.fixed Token.openText :: (m ++ [.fixed Token.closeText])) where
  balanced := hm.wrap
  unseparated := unseparated_brackets hm
  starts := meetsOperand_of_not hr.opening
  ends := by
    rw [List.reverse_cons, List.reverse_append]
    exact meetsOperand_of_not hr.closing

theorem Operand.called (hr : r.SparesBrackets) (hb : t.isBuiltin = false) (ht : r.isOperatorToken t = false)
    {m : List Token} (hm : Balanced m) :
    r.Operand (t :: .fixed Token.openText :: (m ++ [.fixed Token.closeText])) where
  balanced := (Balanced.singleton (Token.isPlain_of_not_builtin hb)).append hm.wrap
  unseparated := unseparated_append (u := [t]) (.singleton (Token.isPlain_of_not_builtin hb)) (unseparated_singleton hb)
    (unseparated_brackets hm)
  starts := meetsOperand_of_not ht
  ends := by
    rw [List.reverse_cons, List.reverse_cons, List.reverse_append]
    exact meetsOperand_of_not hr.closing

end Registry

/-! ## Sites, token by token -/

namespace Site

attribute [ext] Site

variable {α : Type} (r : Registry α)

/-- The sites among tokens between others, from an index on, when `depth` brackets are open. The tokens before them are
given in reverse. -/
def inTokens (before behind : List Token) (index : Nat) (depth : Int) : List Token → List Site
  | [] => []
  | t :: ts =>
    (if depth = 0 ∧ t.isPlain = true ∧ r.isInfixToken t = true ∧ r.canBeInfix before (ts ++ behind) = true then
      [⟨index, t.text⟩] else []) ++ inTokens (t :: before) behind (index + 1) (depth + t.weight) ts

/-- The sites of the tokens of a section. -/
def ofTokens (ts : List Token) : List Site := inTokens r [] [] 0 0 ts

variable {r} {before behind : List Token} {index : Nat} {depth : Int}

theorem inTokens_append (u v : List Token) : inTokens r before behind index depth (u ++ v) =
    inTokens r before (v ++ behind) index depth u ++
      inTokens r (u.reverse ++ before) behind (index + u.length) (depth + bracketDepth u) v := by
  induction u generalizing before index depth with
  | nil => simp [inTokens]
  | cons t u ih =>
    rw [List.cons_append, inTokens, inTokens, ih, List.append_assoc]
    simp [Int.add_assoc, Nat.add_comm, Nat.add_left_comm]

/-- Within brackets there are no sites. -/
theorem inTokens_eq_nil {ts : List Token} (h : ∀ u v, ts = u ++ v → 1 ≤ depth + bracketDepth u) :
    inTokens r before behind index depth ts = [] := by
  induction ts generalizing before index depth with
  | nil => rfl
  | cons t ts ih =>
    rw [forall_prefix_cons] at h
    rw [inTokens, if_neg fun hs => by omega, List.nil_append]
    exact ih h.2

theorem inTokens_brackets {m : List Token} (hm : Balanced m) :
    inTokens r before behind index 0 (.fixed Token.openText :: (m ++ [.fixed Token.closeText])) = [] := by
  have hopen : (Token.fixed Token.openText).isPlain = false := rfl
  have hclose : (Token.fixed Token.closeText).isPlain = false := rfl
  have hinner (before behind : List Token) (index : Nat) : inTokens r before behind index 1 m = [] :=
    inTokens_eq_nil fun u v huv => by
      have := hm.depth_prefix u v huv
      omega
  rw [inTokens, if_neg (by simp [hopen]), inTokens_append]
  simp [inTokens, hinner, hclose]

theorem inTokens_singleton {t : Token} (ht : r.isInfixToken t = false) :
    inTokens r before behind index depth [t] = [] := by
  simp [inTokens, ht]

/-- The token of an infix operator between operands is a site. -/
theorem inTokens_infix {u v : List Token} {t : Text} (hu : r.Operand u) (hv : r.Operand v)
    (ht : (Token.fixed t).isPlain = true) (hi : r.isInfixToken (.fixed t) = true) :
    inTokens r before behind index 0 (u ++ .fixed t :: v) =
      inTokens r before (.fixed t :: (v ++ behind)) index 0 u ++
        ⟨index + u.length, t⟩ :: inTokens r (.fixed t :: (u.reverse ++ before)) behind (index + u.length + 1) 0 v := by
  rw [inTokens_append, inTokens, hu.balanced.depth_eq, if_pos ⟨by omega, ht, hi, hu.canBeInfix hv before behind⟩,
    Token.weight_of_plain ht]
  rfl

/-! ## Where sites stand -/

variable (r) in
/-- A token outside of brackets that may be one of an infix operator, with the tokens before and behind it. -/
structure Splits (before : List Token) (t : Text) (behind : List Token) : Prop where
  depth_eq : bracketDepth before = 0
  plain : (Token.fixed t).isPlain = true
  infixToken : r.isInfixToken (.fixed t) = true
  candidate : r.canBeInfix before.reverse behind = true

theorem mem_inTokens {s : Site} {ts : List Token} : s ∈ inTokens r before behind index depth ts ↔
    ∃ u v, ts = u ++ .fixed s.text :: v ∧ s.index = index + u.length ∧ depth + bracketDepth u = 0 ∧
      (Token.fixed s.text).isPlain = true ∧ r.isInfixToken (.fixed s.text) = true ∧
        r.canBeInfix (u.reverse ++ before) (v ++ behind) = true := by
  induction ts generalizing before index depth with
  | nil => simp [inTokens]
  | cons t ts ih =>
    rw [inTokens, List.mem_append, ih]
    constructor
    · rintro (hs | ⟨u, v, rfl, hi, hd, h⟩)
      · split at hs
        · next hc =>
          obtain ⟨hd, hp, hi, hc⟩ := hc
          rw [List.mem_singleton.1 hs]
          cases t with
          | fixed t => exact ⟨[], ts, rfl, rfl, by simpa using hd, hp, hi, hc⟩
          | raw t | number t x => cases hi
        · cases hs
      · refine ⟨t :: u, v, rfl, by rw [hi, List.length_cons]; omega, by rw [bracketDepth_cons]; omega, ?_⟩
        simpa using h
    · rintro ⟨u, v, huv, hi, hd, hp, hinf, hc⟩
      match u with
      | [] =>
        obtain ⟨rfl, rfl⟩ := List.cons.inj huv
        refine Or.inl ?_
        rw [if_pos ⟨by simpa using hd, hp, hinf, hc⟩, List.mem_singleton]
        exact Site.ext hi rfl
      | t' :: u =>
        obtain ⟨rfl, rfl⟩ := List.cons.inj huv
        refine Or.inr ⟨u, v, rfl, by rw [hi, List.length_cons]; omega,
          by rw [bracketDepth_cons] at hd; omega, hp, hinf, ?_⟩
        simpa using hc

theorem mem_ofTokens {s : Site} {ts : List Token} : s ∈ ofTokens r ts ↔
    ∃ u v, ts = u ++ .fixed s.text :: v ∧ s.index = u.length ∧ Splits r u s.text v := by
  rw [ofTokens, mem_inTokens]
  constructor
  · rintro ⟨u, v, rfl, hi, hd, hp, hinf, hc⟩
    exact ⟨u, v, rfl, by omega, by omega, hp, hinf, by simpa using hc⟩
  · rintro ⟨u, v, rfl, hi, hd, hp, hinf, hc⟩
    exact ⟨u, v, rfl, by omega, by omega, hp, hinf, by simpa using hc⟩

/-- A site keeps its text where it stands. -/
theorem getElem?_of_mem {s : Site} {ts : List Token} (h : s ∈ ofTokens r ts) : ts[s.index]? = some (.fixed s.text) := by
  obtain ⟨u, v, rfl, hi, -⟩ := mem_ofTokens.1 h
  simp [hi]

/-- Tokens that stand where some sites do spell what the sites do. -/
theorem filterMap_fixed? {own : List Site} {ts : List Token} (h : ∀ s ∈ own, ts[s.index]? = some (.fixed s.text)) :
    (own.map Site.index).filterMap (fun i => (ts[i]?).bind Token.fixed?) = own.map Site.text := by
  rw [List.filterMap_map, ← List.filterMap_eq_map]
  refine List.filterMap_congr fun s hs => ?_
  rw [Function.comp_apply, h s hs]
  rfl

theorem bounds_of_mem {s : Site} {ts : List Token} (h : s ∈ inTokens r before behind index depth ts) :
    index ≤ s.index ∧ s.index < index + ts.length := by
  obtain ⟨u, v, rfl, hi, -⟩ := mem_inTokens.1 h
  simp
  omega

/-- Sites are in ascending order. -/
theorem pairwise_inTokens (ts : List Token) :
    (inTokens r before behind index depth ts).Pairwise fun a b => a.index < b.index := by
  induction ts generalizing before index depth with
  | nil => exact List.Pairwise.nil
  | cons t ts ih =>
    rw [inTokens, List.pairwise_append]
    refine ⟨?_, ih, fun a ha b hb => ?_⟩
    · split
      · exact List.pairwise_singleton _ _
      · exact List.Pairwise.nil
    · split at ha
      · rw [List.mem_singleton.1 ha]
        exact (bounds_of_mem hb).1
      · cases ha

theorem pairwise_ofTokens (ts : List Token) : (ofTokens r ts).Pairwise fun a b => a.index < b.index :=
  pairwise_inTokens ts

/-- A site of a part outside of brackets is a site of the whole. -/
theorem mem_ofTokens_append {s : Site} {ts pre post : List Token} (hpre : bracketDepth pre = 0)
    (h : s ∈ ofTokens r ts) : ⟨pre.length + s.index, s.text⟩ ∈ ofTokens r (pre ++ ts ++ post) := by
  obtain ⟨u, v, rfl, hi, hd, hp, hinf, hc⟩ := mem_ofTokens.1 h
  rw [Registry.canBeInfix_iff] at hc
  refine mem_ofTokens.2 ⟨pre ++ u, v ++ post, by simp, by simp [hi], by simp [hpre, hd], hp, hinf, ?_⟩
  rw [Registry.canBeInfix_iff, List.reverse_append]
  exact ⟨hc.1.append _, hc.2.append _⟩

end Site

/-! ## What the scans see -/

namespace Mark

/-- How a mark changes the bracket depth. -/
def weight : Mark → Int
  | opening => 1
  | closing => -1
  | _ => 0

theorem weight_ofToken {α : Type} (r : Registry α) (before : List Token) (t : Token) (behind : List Token) :
    (ofToken r before t behind).weight = t.weight := by
  rw [ofToken, Token.weight]
  repeat' split
  all_goals rfl

end Mark

namespace Site

variable {α : Type} {r : Registry α} {before behind : List Token} {index : Nat} {depth : Int}

variable (r) in
/-- The indexed marks of tokens between others. -/
def marksIn (before behind : List Token) (index : Nat) : List Token → List (Nat × Mark)
  | [] => []
  | t :: ts => (index, Mark.ofToken r before t (ts ++ behind)) :: marksIn (t :: before) behind (index + 1) ts

theorem indexed_ofTokens (ts : List Token) : indexed (Mark.ofTokens r ts) = marksIn r [] [] 0 ts := by
  have hfrom (before : List Token) (index : Nat) : ((Mark.ofTokensFrom r before ts).zipIdx index).map
      (fun m => (m.2, m.1)) = marksIn r before [] index ts := by
    induction ts generalizing before index with
    | nil => rfl
    | cons t ts ih => simp [Mark.ofTokensFrom, marksIn, ih]
  exact hfrom [] 0

theorem marksIn_append (u v : List Token) : marksIn r before behind index (u ++ v) =
    marksIn r before (v ++ behind) index u ++ marksIn r (u.reverse ++ before) behind (index + u.length) v := by
  induction u generalizing before index with
  | nil => rfl
  | cons t u ih =>
    rw [List.cons_append, marksIn, marksIn, ih, List.append_assoc]
    simp [Nat.add_comm, Nat.add_left_comm]

theorem index_of_mem_marksIn {m : Nat × Mark} {ts : List Token} (h : m ∈ marksIn r before behind index ts) :
    index ≤ m.1 ∧ m.1 < index + ts.length := by
  induction ts generalizing before index with
  | nil => cases h
  | cons t ts ih =>
    rw [List.length_cons]
    rcases List.mem_cons.1 h with rfl | h
    · exact ⟨Nat.le_refl _, by omega⟩
    · have := ih h
      omega

/-- The bracket depth of marks. -/
def markDepth (ms : List (Nat × Mark)) : Int := (ms.map fun m => m.2.weight).sum

theorem markDepth_marksIn (ts : List Token) : markDepth (marksIn r before behind index ts) = bracketDepth ts := by
  induction ts generalizing before index with
  | nil => rfl
  | cons t ts ih =>
    rw [bracketDepth_cons, ← @ih (t :: before) (index + 1)]
    simp [markDepth, marksIn, Mark.weight_ofToken]

theorem ofMarks_cons (m : Nat × Mark) (ms : List (Nat × Mark)) : ofMarks depth (m :: ms) =
    ofMarks depth [m] ++ ofMarks (depth + m.2.weight) ms := by
  obtain ⟨i, m⟩ := m
  cases m with
  | opening | closing | other => simp [ofMarks, Mark.weight, Int.sub_eq_add_neg]
  | candidate t => by_cases hd : depth = 0 <;> simp [ofMarks, Mark.weight, hd]

theorem ofMarks_append (u v : List (Nat × Mark)) :
    ofMarks depth (u ++ v) = ofMarks depth u ++ ofMarks (depth + markDepth u) v := by
  induction u generalizing depth with
  | nil => simp [ofMarks, markDepth]
  | cons m u ih =>
    rw [List.cons_append, ofMarks_cons, ih, ofMarks_cons m u, List.append_assoc]
    simp [markDepth, Int.add_assoc]

/-- The sites among the marks of tokens are those of the tokens. -/
theorem ofMarks_marksIn (ts : List Token) :
    ofMarks depth (marksIn r before behind index ts) = inTokens r before behind index depth ts := by
  induction ts generalizing before index depth with
  | nil => rfl
  | cons t ts ih =>
    rw [marksIn, ofMarks_cons, inTokens, ih, Mark.weight_ofToken]
    congr 1
    rw [Mark.ofToken]
    by_cases ho : t.isOpen
    · simp [ho, ofMarks, Token.isPlain]
    · by_cases hc : t.isClose
      · simp [ho, hc, ofMarks, Token.isPlain]
      · by_cases hd : depth = 0 <;> by_cases hi : r.isInfixToken t <;>
          by_cases hb : r.canBeInfix before (ts ++ behind) <;>
            simp [ho, hc, hd, hi, hb, ofMarks, Token.isPlain]

/-- Marks in the order of a backward scan. -/
def backwardMarks (ms : List (Nat × Mark)) : List (Nat × Mark) := ms.reverse.map fun m => (m.1, m.2.reversed)

theorem backwardMarks_cons (m : Nat × Mark) (ms : List (Nat × Mark)) :
    backwardMarks (m :: ms) = backwardMarks ms ++ [(m.1, m.2.reversed)] := by simp [backwardMarks]

theorem markDepth_backwardMarks (ms : List (Nat × Mark)) : markDepth (backwardMarks ms) = -markDepth ms := by
  induction ms with
  | nil => rfl
  | cons m ms ih =>
    have hweight : m.2.reversed.weight = -m.2.weight := by cases m.2 <;> rfl
    rw [markDepth] at ih
    rw [backwardMarks_cons, markDepth, List.map_append, List.sum_append, ih]
    simp only [hweight, markDepth, List.map_cons, List.map_nil, List.sum_cons, List.sum_nil]
    omega

/-- Read backwards, marks have the same sites in reverse, if the depth at the other end is taken into account. -/
theorem ofMarks_backwardMarks (ms : List (Nat × Mark)) :
    ofMarks depth (backwardMarks ms) = (ofMarks (depth - markDepth ms) ms).reverse := by
  induction ms generalizing depth with
  | nil => rfl
  | cons m ms ih =>
    have hdepth : markDepth (m :: ms) = m.2.weight + markDepth ms := by simp [markDepth]
    have hsingle (d : Int) : ofMarks d [(m.1, m.2.reversed)] = (ofMarks (d - m.2.weight) [m]).reverse := by
      obtain ⟨i, m⟩ := m
      cases m with
      | opening | closing | other => rfl
      | candidate t => by_cases hd : d = 0 <;> simp [ofMarks, Mark.reversed, Mark.weight, hd]
    have hbehind : depth - (m.2.weight + markDepth ms) + m.2.weight = depth - markDepth ms := by omega
    have hat : depth + -markDepth ms - m.2.weight = depth - (m.2.weight + markDepth ms) := by omega
    rw [backwardMarks_cons, ofMarks_append, ih, markDepth_backwardMarks, hsingle, ofMarks_cons m ms,
      List.reverse_append, hdepth, hbehind, hat]

/-- Indices of a part of some tokens. -/
def inPart (start stop : Nat) (i : Nat) : Bool := start ≤ i && i < stop

/-- The sites that are left when a part of the tokens is ignored. -/
def outside (start stop : Nat) (sites : List Site) : List Site := sites.filter fun s => !inPart start stop s.index

theorem filter_outside {β : Type} {index : β → Nat} {start stop : Nat} {u m v : List β} (hu : ∀ x ∈ u, index x < start)
    (hm : ∀ x ∈ m, start ≤ index x ∧ index x < stop) (hv : ∀ x ∈ v, stop ≤ index x) :
    (u ++ m ++ v).filter (fun x => !inPart start stop (index x)) = u ++ v := by
  rw [List.filter_append, List.filter_append, List.filter_eq_self.2, List.filter_eq_nil_iff.2, List.filter_eq_self.2,
    List.append_nil]
  · exact fun x hx => by simp [inPart, hv x hx]
  · exact fun x hx => by simp [inPart, hm x hx]
  · exact fun x hx => by simp [inPart, hu x hx]

variable {a b c : List Token}

theorem marksIn_outside :
    (marksIn r [] [] 0 (a ++ b ++ c)).filter (fun m => !inPart a.length (a.length + b.length) m.1) =
      marksIn r [] (b ++ c) 0 a ++ marksIn r (b.reverse ++ a.reverse) [] (a.length + b.length) c := by
  have hsplit : marksIn r [] [] 0 (a ++ b ++ c) = marksIn r [] (b ++ c) 0 a ++ marksIn r a.reverse c a.length b ++
      marksIn r (b.reverse ++ a.reverse) [] (a.length + b.length) c := by
    simp [marksIn_append]
  rw [hsplit]
  refine filter_outside (fun x hx => ?_) (fun x hx => index_of_mem_marksIn hx) fun x hx => (index_of_mem_marksIn hx).1
  have := index_of_mem_marksIn hx
  omega

/-- Leaving out a part that closes the brackets it opens leaves the sites before and behind it. -/
theorem outside_ofTokens (hb : bracketDepth b = 0) :
    outside a.length (a.length + b.length) (ofTokens r (a ++ b ++ c)) =
      inTokens r [] (b ++ c) 0 0 a ++
        inTokens r (b.reverse ++ a.reverse) [] (a.length + b.length) (bracketDepth a) c := by
  have hsplit : ofTokens r (a ++ b ++ c) = inTokens r [] (b ++ c) 0 0 a ++
      inTokens r a.reverse c a.length (bracketDepth a) b ++
        inTokens r (b.reverse ++ a.reverse) [] (a.length + b.length) (bracketDepth a) c := by
    simp [ofTokens, inTokens_append, hb]
  rw [hsplit]
  refine filter_outside (fun x hx => ?_) (fun x hx => bounds_of_mem hx) fun x hx => (bounds_of_mem hx).1
  have := bounds_of_mem hx
  omega

theorem ofMarks_outside (hb : bracketDepth b = 0) :
    ofMarks 0 ((marksIn r [] [] 0 (a ++ b ++ c)).filter fun m => !inPart a.length (a.length + b.length) m.1) =
      outside a.length (a.length + b.length) (ofTokens r (a ++ b ++ c)) := by
  rw [marksIn_outside, outside_ofTokens hb, ofMarks_append, ofMarks_marksIn, markDepth_marksIn, ofMarks_marksIn,
    Int.zero_add]

/-- A forward scan sees the sites in order. -/
theorem forward_ofTokens (ts : List Token) : forward (Mark.ofTokens r ts) 0 (fun _ => false) = ofTokens r ts := by
  rw [forward, indexed_ofTokens, List.drop_zero, List.filter_eq_self.2 (by simp), ofMarks_marksIn, ofTokens]

theorem forward_outside (hb : bracketDepth b = 0) :
    forward (Mark.ofTokens r (a ++ b ++ c)) 0 (inPart a.length (a.length + b.length)) =
      outside a.length (a.length + b.length) (ofTokens r (a ++ b ++ c)) := by
  rw [forward, indexed_ofTokens, List.drop_zero, ofMarks_outside hb]

/-- A backward scan from the last mark on. -/
theorem backward_eq (ts : List Token) (skip : Nat → Bool) :
    backward (Mark.ofTokens r ts) ((Mark.ofTokens r ts).length - 1) skip =
      ofMarks 0 (backwardMarks ((marksIn r [] [] 0 ts).filter fun m => !skip m.1)) := by
  have hlength : (indexed (Mark.ofTokens r ts)).length ≤ (Mark.ofTokens r ts).length - 1 + 1 := by
    simp [indexed]
    omega
  rw [backward, List.take_of_length_le hlength, indexed_ofTokens, backwardMarks, List.filter_reverse]

/-- A backward scan of balanced tokens sees the sites in reverse. -/
theorem backward_ofTokens {ts : List Token} (h : Balanced ts) :
    backward (Mark.ofTokens r ts) ((Mark.ofTokens r ts).length - 1) (fun _ => false) = (ofTokens r ts).reverse := by
  rw [backward_eq, List.filter_eq_self.2 (by simp), ofMarks_backwardMarks, markDepth_marksIn, h.depth_eq,
    ofMarks_marksIn, ofTokens]
  rfl

theorem backward_outside (h : Balanced (a ++ b ++ c)) (hb : bracketDepth b = 0) :
    backward (Mark.ofTokens r (a ++ b ++ c)) ((Mark.ofTokens r (a ++ b ++ c)).length - 1)
        (inPart a.length (a.length + b.length)) =
      (outside a.length (a.length + b.length) (ofTokens r (a ++ b ++ c))).reverse := by
  have hdepth : markDepth ((marksIn r [] [] 0 (a ++ b ++ c)).filter
      fun m => !inPart a.length (a.length + b.length) m.1) = 0 := by
    have htotal := h.depth_eq
    rw [bracketDepth_append, bracketDepth_append, hb] at htotal
    rw [marksIn_outside, markDepth, List.map_append, List.sum_append]
    change markDepth _ + markDepth _ = 0
    rw [markDepth_marksIn, markDepth_marksIn]
    omega
  rw [backward_eq, ofMarks_backwardMarks, hdepth, ← ofMarks_outside hb]
  rfl

end Site

end Mixfix
