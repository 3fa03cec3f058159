import Mixfix.Operator.Registry
import Mixfix.TokenList.Basic

/-!
# Scanning for infix operators

A token may be read as one of an infix operator if there are operands on both sides of the run of operator tokens
around it, every token before it in the run can be postfix and every one behind it prefix (`Registry.canBeInfix`).

A scan goes from mark to mark and follows the operators of a trie along the candidates outside of brackets, forwards
(`Scan.forward`) or backwards against reversed operators (`Scan.backward`). It answers with the first operator that it
completes. A candidate that the operator in hand does not go on with may begin another one of the trie: the scan is
started anew at that very index, and what it finds is passed over whole, as its operands are.

The `Site`s of a section are its candidates outside of brackets. What a scan finds can be told along the sites alone
(`Scan.seek`); as far as that goes, there is no difference between the directions.
-/

namespace Mixfix

/-! ## Candidates -/

namespace Registry

variable {α : Type} (r : Registry α)

/-- The tokens next to a token, nearest first, up to the first that is no operator token. -/
def runBeside (beside : List Token) : List Token := beside.takeWhile r.isOperatorToken

/-- Whether something stands beyond the run of operator tokens next to a token. -/
def hasOperandBeyond (beside : List Token) : Bool := !(beside.dropWhile r.isOperatorToken).isEmpty

/-- Whether a token may be part of an infix operator, for the tokens before it and behind it, nearest first. -/
def canBeInfix (before behind : List Token) : Bool :=
  r.hasOperandBeyond before && r.hasOperandBeyond behind && (r.runBeside before).all r.isPostfixToken &&
    (r.runBeside behind).all r.isPrefixToken

end Registry

/-- How a scan sees a token. -/
inductive Mark where
  | opening
  | closing
  /-- A token that may be part of an infix operator. -/
  | candidate (text : Text)
  | other
  deriving Repr, DecidableEq

namespace Mark

/-- The mark of the same token when the section is read backwards. -/
def reversed : Mark → Mark
  | opening => closing
  | closing => opening
  | m => m

/-- The mark of a token between others. -/
def ofToken {α : Type} (r : Registry α) (before : List Token) (t : Token) (behind : List Token) : Mark :=
  if t.isOpen then opening
  else if t.isClose then closing
  else if r.isInfixToken t && r.canBeInfix before behind then candidate t.text
  else other

/-- The marks of the tokens behind the ones that are given in reverse. -/
def ofTokensFrom {α : Type} (r : Registry α) (before : List Token) : List Token → List Mark
  | [] => []
  | t :: behind => ofToken r before t behind :: ofTokensFrom r (t :: before) behind

/-- The marks of the tokens of a section. -/
def ofTokens {α : Type} (r : Registry α) (tokens : List Token) : List Mark := ofTokensFrom r [] tokens

end Mark

/-! ## Scans from mark to mark -/

namespace Scan

variable {β : Type}

/-- Indices that a forward scan finds, in ascending order: at least one, and none below `low`. -/
structure Ahead (low : Nat) where
  indices : List Nat
  ne_nil : indices ≠ []
  low_le : ∀ i ∈ indices, low ≤ i

namespace Ahead

variable {low : Nat}

/-- The last of the indices. -/
def last (a : Ahead low) : Nat := a.indices.getLast a.ne_nil

theorem getLast?_indices (a : Ahead low) : a.indices.getLast? = some a.last :=
  List.getLast?_eq_some_getLast a.ne_nil

theorem low_le_last (a : Ahead low) : low ≤ a.last := a.low_le _ (List.getLast_mem a.ne_nil)

/-- An index, and those that are found behind it, if any are. -/
def cons (i : Nat) (hi : low ≤ i) : Option (Ahead low) → Ahead low
  | some a => ⟨i :: a.indices, List.cons_ne_nil i _, List.forall_mem_cons.2 ⟨hi, a.low_le⟩⟩
  | none => ⟨[i], List.cons_ne_nil i [], by simpa using hi⟩

end Ahead

/-- Indices that a backward scan finds, in ascending order: at least one, and all of them below `high`. -/
structure Behind (high : Nat) where
  indices : List Nat
  ne_nil : indices ≠ []
  lt_high : ∀ i ∈ indices, i < high

namespace Behind

variable {high : Nat}

/-- The first of the indices. -/
def first (b : Behind high) : Nat := b.indices.head b.ne_nil

theorem head?_indices (b : Behind high) : b.indices.head? = some b.first :=
  List.head?_eq_some_head b.ne_nil

theorem first_lt_high (b : Behind high) : b.first < high := b.lt_high _ (List.head_mem b.ne_nil)

/-- An index, and those that are found before it, if any are. -/
def concat (i : Nat) (hi : i < high) : Option (Behind high) → Behind high
  | some b => ⟨b.indices ++ [i], by simp, by simpa [or_imp, forall_and, hi] using b.lt_high⟩
  | none => ⟨[i], List.cons_ne_nil i [], by simpa using hi⟩

end Behind

/-- Zero if the operators of a node go on with a mark, and otherwise one. -/
def stall (node : Trie Text β) : Option Mark → Nat
  | some (.candidate text) => if (node.follow? text).isSome then 0 else 1
  | _ => 1

theorem stall_le (node : Trie Text β) (m : Option Mark) : stall node m ≤ 1 := by
  unfold stall
  split
  · split <;> omega
  · omega

/-- Where the operator in hand does not go on and another one begins, a scan from the root is nearer to its end. -/
theorem stall_lt {root node : Trie Text β} {m : Option Mark} {text : Text} (hm : m = some (.candidate text))
    (hn : node.follow? text = none) (hr : (root.follow? text).isSome) : stall root m < stall node m := by
  simp [hm, stall, hn, hr]

/-- Scans forwards from the index `i` on, when `depth` brackets are open: `node` is what is left of the operators that
begin with the candidates taken so far, and `root` holds all operators. An operator that is complete is taken with what
extends it, if something does. -/
def forwardFrom (marks : Array Mark) (skip : Nat → Bool) (low : Nat) (root node : Trie Text β) (depth : Int) (i : Nat)
    (hi : low ≤ i) : Option (Ahead low) :=
  have hi' : low ≤ i + 1 := Nat.le_succ_of_le hi
  if _hlt : i < marks.size then
    if skip i then forwardFrom marks skip low root node depth (i + 1) hi'
    else
      match _hm : marks[i]? with
      | some .opening => forwardFrom marks skip low root node (depth + 1) (i + 1) hi'
      | some .closing => forwardFrom marks skip low root node (depth - 1) (i + 1) hi'
      | some (.candidate text) =>
        if depth = 0 then
          match _hn : node.follow? text with
          | some next =>
            if next.hasRootItem then some (.cons i hi (forwardFrom marks skip low next next 0 (i + 1) hi'))
            else (forwardFrom marks skip low root next depth (i + 1) hi').map fun rest => .cons i hi (some rest)
          | none =>
            if _hr : (root.follow? text).isSome then
              -- the scan that looks for the other operator is at the same index, but its node goes on with the mark
              match forwardFrom marks skip i root root 0 i (Nat.le_refl i) with
              | some nested =>
                forwardFrom marks skip low root node depth (nested.last + 1)
                  (Nat.le_succ_of_le (Nat.le_trans hi nested.low_le_last))
              | none => forwardFrom marks skip low root node depth (i + 1) hi'
            else forwardFrom marks skip low root node depth (i + 1) hi'
        else forwardFrom marks skip low root node depth (i + 1) hi'
      | _ => forwardFrom marks skip low root node depth (i + 1) hi'
  else none
termination_by 2 * (marks.size - i) + stall node marks[i]?
decreasing_by
  all_goals
    first
    | exact Nat.add_lt_add_left (stall_lt _hm _hn _hr) _
    | (have hstall := stall_le node marks[i + 1]?; omega)
    | (have hstall := stall_le next marks[i + 1]?; omega)
    | (have hstall := stall_le node marks[nested.last + 1]?; have := nested.low_le_last; omega)

/-- Scans backwards from the last of the first `count` indices on. -/
def backwardFrom (marks : Array Mark) (skip : Nat → Bool) (high : Nat) (root node : Trie Text β) (depth : Int) :
    (count : Nat) → count ≤ high → Option (Behind high)
  | 0, _ => none
  | i + 1, hi =>
    have hi' : i ≤ high := Nat.le_of_succ_le hi
    if skip i then backwardFrom marks skip high root node depth i hi'
    else
      match _hm : marks[i]? with
      | some .closing => backwardFrom marks skip high root node (depth + 1) i hi'
      | some .opening => backwardFrom marks skip high root node (depth - 1) i hi'
      | some (.candidate text) =>
        if depth = 0 then
          match _hn : node.follow? text with
          | some next =>
            if next.hasRootItem then some (.concat i hi (backwardFrom marks skip high next next 0 i hi'))
            else (backwardFrom marks skip high root next depth i hi').map fun rest => .concat i hi (some rest)
          | none =>
            if _hr : (root.follow? text).isSome then
              match backwardFrom marks skip (i + 1) root root 0 (i + 1) (Nat.le_refl (i + 1)) with
              | some nested =>
                backwardFrom marks skip high root node depth nested.first
                  (Nat.le_trans (Nat.le_of_lt nested.first_lt_high) hi)
              | none => backwardFrom marks skip high root node depth i hi'
            else backwardFrom marks skip high root node depth i hi'
        else backwardFrom marks skip high root node depth i hi'
      | _ => backwardFrom marks skip high root node depth i hi'
termination_by count => 2 * count + stall node marks[count - 1]?
decreasing_by
  all_goals
    first
    | exact Nat.add_lt_add_left (stall_lt _hm _hn _hr) _
    | (have hstall := stall_le node marks[i - 1]?; omega)
    | (have hstall := stall_le next marks[i - 1]?; omega)
    | (have hstall := stall_le node marks[nested.first - 1]?; have := nested.first_lt_high; omega)

/-- The indices of the leftmost complete operator of a trie, from an index on. -/
def forward (t : Trie Text β) (marks : List Mark) (start : Nat) (skip : Nat → Bool) : Option (List Nat) :=
  (forwardFrom marks.toArray skip start t t 0 start (Nat.le_refl start)).map Ahead.indices

/-- The indices of the rightmost complete operator of a trie of reversed operators, up to an index. -/
def backward (t : Trie Text β) (marks : List Mark) (start : Nat) (skip : Nat → Bool) : Option (List Nat) :=
  (backwardFrom marks.toArray skip (start + 1) t t 0 (start + 1) (Nat.le_refl (start + 1))).map Behind.indices

end Scan

/-! ## Sites -/

/-- A candidate outside of brackets: where it stands, and its text. -/
structure Site where
  index : Nat
  text : Text
  deriving Repr, DecidableEq

namespace Site

/-- The sites among indexed marks, when `depth` brackets are open. -/
def ofMarks (depth : Int) : List (Nat × Mark) → List Site
  | [] => []
  | (_, .opening) :: rest => ofMarks (depth + 1) rest
  | (_, .closing) :: rest => ofMarks (depth - 1) rest
  | (i, .candidate text) :: rest => if depth = 0 then ⟨i, text⟩ :: ofMarks depth rest else ofMarks depth rest
  | (_, .other) :: rest => ofMarks depth rest

/-- Marks with their indices. -/
def indexed (marks : List Mark) : List (Nat × Mark) := marks.zipIdx.map fun m => (m.2, m.1)

/-- The sites from an index on, from left to right, where `skip` holds of the indices that are ignored. -/
def forward (marks : List Mark) (start : Nat) (skip : Nat → Bool) : List Site :=
  ofMarks 0 (((indexed marks).drop start).filter fun m => !skip m.1)

/-- The sites up to an index, from right to left, where `skip` holds of the indices that are ignored. -/
def backward (marks : List Mark) (start : Nat) (skip : Nat → Bool) : List Site :=
  ofMarks 0 ((((indexed marks).take (start + 1)).reverse.filter fun m => !skip m.1).map fun m => (m.1, m.2.reversed))

end Site

/-! ## Scans along sites -/

/-- The sites that spell an operator, in the order of the scan, and how many sites the scan passed up to the last. -/
structure Found where
  sites : List Site
  passed : Nat
  deriving Repr, DecidableEq

namespace Found

/-- Puts a site before those found behind it. -/
def after (s : Site) (f : Found) : Found := ⟨s :: f.sites, f.passed + 1⟩

end Found

namespace Scan

variable {β : Type}

/-- Follows operators along sites, after passing over `pass` of them: `node` is what is left of the operators that begin
with the sites found so far, and `root` holds all operators. An operator that is complete is taken with what extends it,
if something does. A site that leads on from `root` but not from `node` begins another operator; if that one is
complete, its sites are passed over. -/
def seek (root node : Trie Text β) : Nat → List Site → Option Found
  | _, [] => none
  | pass + 1, _ :: rest => seek root node pass rest |>.map fun f => { f with passed := f.passed + 1 }
  | 0, s :: rest =>
    match node.follow? s.text with
    | some next =>
      if next.hasRootItem then some (((seek next next 0 rest).getD ⟨[], 0⟩).after s)
      else (seek root next 0 rest).map (Found.after s)
    | none =>
      let nested :=
        match root.follow? s.text with
        | none => none
        | some next =>
          if next.hasRootItem then some ((seek next next 0 rest).getD ⟨[], 0⟩) else seek root next 0 rest
      (seek root node ((nested.map Found.passed).getD 0) rest).map fun f => { f with passed := f.passed + 1 }

end Scan

end Mixfix
