import Mixfix.Limits
import Mixfix.Number
import Mixfix.Scan
import Mixfix.TokenList.Bracket
import Mixfix.TokenList.Split
import Mixfix.Tree

/-!
# Parsing token lists

A section of a token list is read as the first of these that fits: what stands in its brackets, a variable, a call, an
operation or a number literal (`Grammar.read`). Reading a section fixes the root of its tree and the sections below
it; the choice is never taken back, so the tree is built by reading section after section (`Grammar.build`).

An operation is looked for by priority, lowest first, so that the operator that binds loosest becomes the root. Within a
priority, right-associative infix operators come before left-associative ones, then prefix, then postfix operators
(`Grammar.rootOf?`). An infix operator is passed over if it lies within one that binds tighter
(`Grammar.isEnclosed`).

Every level of the tree, and every pair of brackets, counts towards the depth; a section beyond the allowed depth is an
error, so building recurses on the depth that is left.
-/

namespace Mixfix

/-- What a text is parsed against. -/
structure Grammar (α : Type) where
  operators : Registry α
  vars : List Text
  functions : List Text
  limits : Limits

/-- The root of a section: what it is, and the sections below it. -/
inductive Reading (α : Type) where
  /-- The section is another one in brackets. -/
  | brackets (inner : TokenList)
  | reference (name : Text)
  | call (name : Text) (args : List TokenList)
  | operation (position : Int) (operator : Operator α) (operands : List TokenList)
  | number (value : Float)

namespace Grammar

variable {α : Type} (g : Grammar α) (source : Text)

/-- The sections below a root. -/
def sections : Reading α → List TokenList
  | .brackets inner => [inner]
  | .reference _ => []
  | .call _ args => args
  | .operation _ _ operands => operands
  | .number _ => []

/-- The error with a cause at a position of the source. -/
def errorAt (position : Int) (cause : Cause) : ExprError :=
  { cause, position := some position, expression := some source }

/-! ## Ends -/

/-- Fails if the section starts with an operator token that is not prefix, or ends with one that is not postfix. -/
def checkEnds (l : TokenList) : Except ExprError Unit := do
  if let some first := l.first? then
    if g.operators.isOperatorToken first && !g.operators.isPrefixToken first then
      throw (errorAt source (l.positionAt 0) (.leadingOperator first.text))
  if let some last := l.last? then
    if g.operators.isOperatorToken last && !g.operators.isPostfixToken last then
      throw (errorAt source (l.positionAt (l.size - 1)) (.trailingOperator last.text))

/-! ## Calls -/

/-- The index of the first open bracket that is neither the first nor the last token. -/
def innerOpen? (tokens : List Token) : Option Nat :=
  (tokens.tail.dropLast.findIdx? Token.isOpen).map (· + 1)

/-- The sections of the arguments of a call, when `args` are the tokens in its brackets. -/
def readArguments (l : TokenList) (name : Text) (args : TokenList) : Except ExprError (List TokenList) :=
  if args.isEmpty then .ok []
  else if args.firstIs Token.isSeparator then
    .error (errorAt source (args.positionAt 0) (.leadingSeparator name l.text))
  else if args.lastIs Token.isSeparator then
    .error (errorAt source (args.positionAt (args.size - 1)) (.trailingSeparator name l.text))
  else do
    let parts := args.splitBy Token.isSeparator
    g.limits.check .callArguments parts.length (some l.position) (some source)
    return parts

/-- Reads a call: text, and behind it brackets that close at the end of the section. Text that is no function is an
error, unless some operator token may still explain the section. -/
def readCall? (l : TokenList) : Except ExprError (Option (Reading α)) :=
  if l.size < 3 || !l.lastIs Token.isClose then .ok none
  else
    match innerOpen? l.tokens with
    | none => .ok none
    | some i =>
      if !(l.slice i l.size).isInBrackets then .ok none
      else
        let name := (l.slice 0 i).trimmedText
        if g.functions.contains name then do
          let args ← g.readArguments source l name (l.slice (i + 1) (l.size - 1))
          return some (.call name args)
        else if l.tokens.any g.operators.isOperatorToken then .ok none
        else .error (errorAt source l.position (.unrecognisedFunction name l.text))

/-! ## Operations -/

/-- Whether a match is strictly around the indices from `first` to `last`. -/
def encloses (first last : Nat) (found : Option (List Nat)) : Bool :=
  match found with
  | some points => points.head?.any (· < first) && points.getLast?.any (last < ·)
  | none => false

/-- The rightmost left-associative operator of a group, outside of the ignored indices. -/
def scanLeft (group : Group α) (marks : List Mark) (skip : Nat → Bool) : Option (List Nat) :=
  if group.left.isEmpty then none else Scan.backward group.leftReversed marks (marks.length - 1) skip

/-- The leftmost right-associative operator of a group, outside of the ignored indices. -/
def scanRight (group : Group α) (marks : List Mark) (skip : Nat → Bool) : Option (List Nat) :=
  if group.right.isEmpty then none else Scan.forward group.right marks 0 skip

/-- The start and the end of the runs of operator tokens around the first and last of some indices. -/
def runAround (tokens : List Token) (first last : Nat) : Nat × Nat :=
  (first - (g.operators.runBeside (tokens.take first).reverse).length,
   last + (g.operators.runBeside (tokens.drop (last + 1))).length + 1)

/-- Whether an infix operator at some indices lies within one that binds tighter: one of the groups `tighter`, or a
left-associative one of `same`, whose tokens stand on both sides of it. -/
def isEnclosed (tokens : List Token) (marks : List Mark) (points : List Nat) (same : Option (Group α))
    (tighter : List (Group α)) : Bool :=
  match points.head?, points.getLast? with
  | some first, some last =>
    let (start, stop) := g.runAround tokens first last
    let skip := fun i => start ≤ i && i < stop
    (same.any fun group => encloses first last (scanLeft group marks skip)) ||
      tighter.any fun group =>
        encloses first last (scanRight group marks skip) || encloses first last (scanLeft group marks skip)
  | _, _ => false

/-- The operation of the infix operator whose tokens stand at some indices. -/
def infixOperation? (l : TokenList) (t : Trie Text (Operator α)) (points : List Nat) : Option (Reading α) := do
  let operator ← t.get? (points.filterMap fun i => (l.tokens[i]?).bind Token.fixed?)
  return .operation (l.positionAt (points.headD 0)) operator (l.cutAt points)

/-- The operation of the leftmost right-associative operator of a group. -/
def readRight? (l : TokenList) (marks : List Mark) (group : Group α) (tighter : List (Group α)) :
    Option (Reading α) := do
  let points ← scanRight group marks fun _ => false
  if g.isEnclosed l.tokens marks points (some group) tighter then none else infixOperation? l group.right points

/-- The operation of the rightmost left-associative operator of a group. -/
def readLeft? (l : TokenList) (marks : List Mark) (group : Group α) (tighter : List (Group α)) :
    Option (Reading α) := do
  let points ← scanLeft group marks fun _ => false
  if g.isEnclosed l.tokens marks points none tighter then none else infixOperation? l group.left points

/-- The operation of a prefix operator of a group at the start of a section. -/
def readPrefix? (l : TokenList) (group : Group α) : Option (Reading α) := do
  let operator ← (l.first?.bind Token.fixed?).bind group.prefixOps.get?
  if l.size < 2 then none else some (.operation l.position operator [l.withoutFirst])

/-- The operation of a postfix operator of a group at the end of a section. -/
def readPostfix? (l : TokenList) (group : Group α) : Option (Reading α) := do
  let operator ← (l.last?.bind Token.fixed?).bind group.postfixOps.get?
  if l.size < 2 then none else some (.operation (l.positionAt (l.size - 1)) operator [l.withoutLast])

/-- The operation of the first group that has one. -/
def readOperation? (l : TokenList) (marks : List Mark) : List (Group α) → Option (Reading α)
  | [] => none
  | group :: tighter =>
    (g.readRight? l marks group tighter).orElse fun _ =>
      (g.readLeft? l marks group tighter).orElse fun _ =>
        (readPrefix? l group).orElse fun _ =>
          (readPostfix? l group).orElse fun _ => readOperation? l marks tighter

/-! ## Sections -/

/-- Reads a section that is not in brackets. -/
def readBare (groups : List (Group α)) (l : TokenList) : Except ExprError (Reading α) := do
  if g.vars.contains l.trimmedText then
    return .reference l.trimmedText
  if let some call ← g.readCall? source l then
    return call
  if let some operation := g.readOperation? l (Mark.ofTokens g.operators l.tokens) groups then
    return operation
  if let some value := readNumber? l.text then
    return .number value
  throw (errorAt source l.position (.unparsable source l.text))

/-- Reads the root of a section. -/
def read (groups : List (Group α)) (l : TokenList) : Except ExprError (Reading α) := do
  g.checkEnds source l
  if l.isInBrackets then
    return .brackets l.withoutFirstAndLast
  g.readBare source groups l

/-! ## Trees -/

/-- Builds the tree of each argument in turn; an argument without tokens is an error. -/
def buildArguments (buildSection : TokenList → Except ExprError (Tree α)) (name part : Text) :
    List TokenList → Except ExprError (List (Tree α))
  | [] => .ok []
  | arg :: args => do
    if arg.isEmpty then
      throw (errorAt source arg.offset (.emptyArgument name part))
    let tree ← buildSection arg
    let trees ← buildArguments buildSection name part args
    return tree :: trees

/-- Builds the tree of a section, when `levels` levels of depth are left. -/
def build (groups : List (Group α)) : (levels : Nat) → TokenList → Except ExprError (Tree α)
  | 0, l => .error (g.limits.exceeded .treeDepth (g.limits.treeDepth.toNat + 1) (some l.position) (some source))
  | levels + 1, l => do
    match ← g.read source groups l with
    | .brackets inner => build groups levels inner
    | .reference name => return .reference l.position name
    | .number value => return .number l.position value
    | .call name args =>
      return .call l.position name (← buildArguments source (build groups levels) name l.text args)
    | .operation position operator operands =>
      return .operation position operator (← operands.mapM (build groups levels))

/-- The tree of a token list that covers the whole source. -/
def parse (l : TokenList) : Except ExprError (Tree α) := do
  let tree ← g.build source g.operators.groups.1 g.limits.treeDepth.toNat l
  g.limits.check .treeNodes tree.nodeCount (some l.position) (some source)
  return tree

end Grammar

end Mixfix
