import Mixfix.Error
import Mixfix.TokenList.Basic

/-!
# Brackets

A list is in brackets if its first token is an open bracket and its last token the one that closes it
(`TokenList.isInBrackets`). `TokenList.checkBrackets` fails at the first close bracket without an open one before it, or
else at the first open bracket that is never closed.
-/

namespace Mixfix

namespace TokenList

/-- Whether `depth` open brackets, and those that follow, leave at least one open throughout. -/
def staysOpen (depth : Nat) : List Token → Bool
  | [] => true
  | t :: ts =>
    if t.isOpen then staysOpen (depth + 1) ts
    else if t.isClose then depth != 1 && staysOpen (depth - 1) ts
    else staysOpen depth ts

/-- Whether the first and last of the tokens are a matching pair of brackets, if every bracket among them matches. -/
def areInBrackets : List Token → Bool
  | [] => false
  | t :: ts => t.isOpen && ts.getLast?.any Token.isClose && staysOpen 1 ts.dropLast

/-- Whether the first and last token are a matching pair of brackets, if every bracket of the list matches. -/
def isInBrackets (l : TokenList) : Bool := areInBrackets l.tokens

/-- What is wrong with the brackets of a list, by index. -/
inductive BracketFault where
  | unexpectedClose (index : Nat)
  | unmatchedOpen (index : Nat)
  deriving Repr, DecidableEq

/-- Looks for the first fault from the index `i` on, when the brackets at the indices `opened` are open, innermost
first. -/
def bracketFaultFrom (opened : List Nat) : Nat → List Token → Option BracketFault
  | _, [] => opened.getLast?.map .unmatchedOpen
  | i, t :: ts =>
    if t.isOpen then bracketFaultFrom (i :: opened) (i + 1) ts
    else if t.isClose then
      match opened with
      | [] => some (.unexpectedClose i)
      | _ :: outer => bracketFaultFrom outer (i + 1) ts
    else bracketFaultFrom opened (i + 1) ts

/-- The first fault in the brackets of a list. -/
def bracketFault? (l : TokenList) : Option BracketFault := bracketFaultFrom [] 0 l.tokens

/-- Fails if some bracket of the list has no partner; `source` is the expression that the error names. -/
def checkBrackets (l : TokenList) (source : Text) : Except ExprError Unit :=
  match l.bracketFault? with
  | none => .ok ()
  | some (.unexpectedClose i) =>
    .error { cause := .unexpectedClose source, position := some (l.positionAt i), expression := some source }
  | some (.unmatchedOpen i) =>
    .error { cause := .unmatchedOpen source, position := some (l.positionAt i), expression := some source }

end TokenList

end Mixfix
