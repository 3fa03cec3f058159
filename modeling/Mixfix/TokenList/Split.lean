import Mixfix.TokenList.Basic

/-!
# Splitting token lists

Four ways to split a list around some of its tokens, which are dropped: at every token of a kind (`splitBy`), at the
first tokens that spell a sequence (`splitBySequence`), at the last ones (`splitBySequenceInReverse`), and at given
indices (`splitAtPoints`, and `cutAt` for indices that are in order). The first three look only at tokens outside of
brackets, counting brackets from the side they start at; a bracket itself never matches.
-/

namespace Mixfix

namespace TokenList

variable (l : TokenList)

/-! ## At indices -/

/-- The slices between ascending indices, from `start` on. -/
def cutFrom (start : Nat) : List Nat → List TokenList
  | [] => [l.slice start l.size]
  | p :: ps => l.slice start p :: cutFrom (p + 1) ps

/-- The slices around the tokens at ascending indices. -/
def cutAt (points : List Nat) : List TokenList := cutFrom l 0 points

/-- The slices around the tokens at the given indices, in any order and with repeats. The indices -1 and the size stand
for the ends of the list and split nothing. -/
def splitAtPoints (points : List Int) : Except SliceError (List TokenList) :=
  let inner := (points.filter fun (p : Int) => p != -1 && p != l.size).eraseDups.mergeSort
  if inner.isEmpty then .ok [l]
  else if inner.any fun (p : Int) => p < 0 || l.size < p then .error .pointOutside
  else .ok (l.cutAt (inner.map Int.toNat))

/-! ## At a token -/

/-- Splits what follows the index `i`: `depth` brackets are open, and the current part began at `start`. -/
def splitByFrom (p : Token → Bool) (start : Nat) (depth : Int) : Nat → List Token → List TokenList
  | i, [] => [l.slice start i]
  | i, t :: ts =>
    if t.isOpen then splitByFrom p start (depth + 1) (i + 1) ts
    else if t.isClose then splitByFrom p start (depth - 1) (i + 1) ts
    else if depth = 0 && p t then l.slice start i :: splitByFrom p (i + 1) depth (i + 1) ts
    else splitByFrom p start depth (i + 1) ts

/-- The parts between the tokens outside of brackets that satisfy a test. -/
def splitBy (p : Token → Bool) : List TokenList := splitByFrom l p 0 0 0 l.tokens

/-! ## At a sequence of tokens -/

/-- Whether some token other than a bracket stands outside of brackets. -/
def hasTopLevelToken (depth : Int) : List Token → Bool
  | [] => false
  | t :: ts =>
    if t.isOpen then hasTopLevelToken (depth + 1) ts
    else if t.isClose then hasTopLevelToken (depth - 1) ts
    else depth == 0 || hasTopLevelToken depth ts

/-- Finds the rest of a sequence behind the index `i`. -/
def splitBySequenceFrom (start : Nat) (depth : Int) : Nat → List Token → List Token → Option (List TokenList)
  | _, _, [] => some [l.slice start l.size]
  | _, [], _ :: _ => none
  | i, t :: ts, s :: ss =>
    if t.isOpen then splitBySequenceFrom start (depth + 1) (i + 1) ts (s :: ss)
    else if t.isClose then splitBySequenceFrom start (depth - 1) (i + 1) ts (s :: ss)
    else if depth = 0 && t == s then
      (splitBySequenceFrom (i + 1) depth (i + 1) ts ss).map (l.slice start i :: ·)
    else splitBySequenceFrom start depth (i + 1) ts (s :: ss)

/-- The parts between the first tokens outside of brackets that spell the sequence, or nothing if some token of it is
missing. The empty sequence cannot be compared with a token outside of brackets. -/
def splitBySequence (sequence : List Token) : Except SliceError (Option (List TokenList)) :=
  if sequence.isEmpty && hasTopLevelToken 0 l.tokens then .error .emptySequence
  else .ok (splitBySequenceFrom l 0 0 0 l.tokens sequence)

/-- Finds the rest of a reversed sequence among the reversed tokens before the index `stop`; `parts` are the parts from
`stop` on. The count of the tokens left is the index behind the current one. -/
def splitBySequenceBack (stop : Nat) (depth : Int) (parts : List TokenList) :
    List Token → List Token → Option (List TokenList)
  | _, [] => some (l.slice 0 stop :: parts)
  | [], _ :: _ => none
  | t :: ts, s :: ss =>
    if t.isClose then splitBySequenceBack stop (depth + 1) parts ts (s :: ss)
    else if t.isOpen then splitBySequenceBack stop (depth - 1) parts ts (s :: ss)
    else if depth = 0 && t == s then
      splitBySequenceBack ts.length depth (l.slice (ts.length + 1) stop :: parts) ts ss
    else splitBySequenceBack stop depth parts ts (s :: ss)

/-- The parts between the last tokens outside of brackets that spell the sequence, searching backwards, or nothing if
some token of it is missing. -/
def splitBySequenceInReverse (sequence : List Token) : Except SliceError (Option (List TokenList)) :=
  if sequence.isEmpty && hasTopLevelToken 0 (l.tokens.reverse) then .error .emptySequence
  else .ok (splitBySequenceBack l l.size 0 [] l.tokens.reverse sequence.reverse)

end TokenList

end Mixfix
