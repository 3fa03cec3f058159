import Mixfix.Builder

/-!
# Checked accesses

A token, its position, a part of a list, a branch of a trie or the operator of some tokens may not be there. The
functions of this module read, parse and build as those of `Grammar` and `Builder` do, but they look before each such
access and fail with a `Lapse` if there is nothing. A lapse is no error of the text: whoever asks for a report of a
build (`Checked.tryBuild`) gets a report of every error, but a lapse would come through.
-/

namespace Mixfix

/-- An access to what is not there. -/
inductive Lapse where
  /-- A token, a place or a part that the list does not have. -/
  | slice (e : SliceError)
  /-- A branch that the trie does not have. -/
  | noBranch
  /-- Tokens that are those of no operator. -/
  | noOperator
  deriving Repr, DecidableEq

/-- How reading with checked accesses can fail: the text is at fault, or an access is. -/
inductive Failure where
  | error (e : ExprError)
  | lapse (l : Lapse)
  deriving Repr, DecidableEq

namespace Checked

variable {β : Type}

/-- A result that is found without an access. -/
def lift (r : Except ExprError β) : Except Failure β := r.mapError .error

/-- The result of an access to a token list. -/
def access (r : Except SliceError β) : Except Failure β := r.mapError fun e => .lapse (.slice e)

/-- Fails with an error at a position that has to be found. -/
def failAt (source : Text) (position : Except SliceError Int) (cause : Cause) : Except Failure β := do
  throw (.error (Grammar.errorAt source (← access position) cause))

/-! ## Indices -/

/-- The first of some indices. -/
def first (is : List Nat) : Except Failure Nat :=
  match is.head? with
  | some i => .ok i
  | none => .error (.lapse (.slice .emptySequence))

/-- The last of some indices. -/
def last (is : List Nat) : Except Failure Nat :=
  match is.getLast? with
  | some i => .ok i
  | none => .error (.lapse (.slice .emptySequence))

/-! ## Parts -/

/-- The list without its first token. -/
def withoutFirst (l : TokenList) : Except Failure TokenList :=
  if l.isEmpty then .ok (.empty l.offset) else access (l.subList 1 l.size)

/-- The list without its last token. -/
def withoutLast (l : TokenList) : Except Failure TokenList :=
  if l.isEmpty then .ok (.empty l.offset) else access (l.subList 0 (l.size - 1))

/-- The list without its first and last token. -/
def withoutFirstAndLast (l : TokenList) : Except Failure TokenList :=
  if l.size ≤ 1 then .ok (.empty l.offset) else access (l.subList 1 (l.size - 1))

/-- Splits what follows an index, as `TokenList.splitByFrom` does. -/
def splitByFrom (l : TokenList) (p : Token → Bool) (start : Nat) (depth : Int) :
    Nat → List Token → Except Failure (List TokenList)
  | i, [] => do return [← access (l.subList start i)]
  | i, t :: ts =>
    if t.isOpen then splitByFrom l p start (depth + 1) (i + 1) ts
    else if t.isClose then splitByFrom l p start (depth - 1) (i + 1) ts
    else if depth = 0 && p t then do
      let part ← access (l.subList start i)
      let parts ← splitByFrom l p (i + 1) depth (i + 1) ts
      return part :: parts
    else splitByFrom l p start depth (i + 1) ts

/-- The parts between the tokens outside of brackets that satisfy a test. -/
def splitBy (l : TokenList) (p : Token → Bool) : Except Failure (List TokenList) := splitByFrom l p 0 0 0 l.tokens

/-! ## Scans -/

/-- The node at the end of the edge with a key, if an item sits there or below. -/
def follow? (t : Trie Text β) (k : Text) : Except Failure (Option (Trie Text β)) :=
  if t.hasItemsUnder k then
    match t.branch? k with
    | some b => .ok (some b)
    | none => .error (.lapse .noBranch)
  else .ok none

/-- Follows operators along sites, as `Scan.seek` does. -/
def seek (root node : Trie Text β) : Nat → List Site → Except Failure (Option Found)
  | _, [] => .ok none
  | pass + 1, _ :: rest => do
    let found ← seek root node pass rest
    return found.map fun f => { f with passed := f.passed + 1 }
  | 0, s :: rest => do
    match ← follow? node s.text with
    | some next =>
      if next.hasRootItem then
        let found ← seek next next 0 rest
        return some ((found.getD ⟨[], 0⟩).after s)
      else
        let found ← seek root next 0 rest
        return found.map (Found.after s)
    | none =>
      match ← follow? root s.text with
      | some next =>
        if next.hasRootItem then
          let nested ← seek next next 0 rest
          let found ← seek root node (nested.getD ⟨[], 0⟩).passed rest
          return found.map fun f => { f with passed := f.passed + 1 }
        else
          let nested ← seek root next 0 rest
          let found ← seek root node ((nested.map Found.passed).getD 0) rest
          return found.map fun f => { f with passed := f.passed + 1 }
      | none =>
        let found ← seek root node 0 rest
        return found.map fun f => { f with passed := f.passed + 1 }

section Parsing

variable {α : Type} (g : Grammar α) (source : Text)

/-- The rightmost left-associative operator of a group, outside of the ignored indices. -/
def scanLeft (group : Group α) (marks : List Mark) (skip : Nat → Bool) : Except Failure (Option (List Nat)) :=
  if group.left.isEmpty then .ok none
  else do
    let found ← seek group.leftReversed group.leftReversed 0 (Site.backward marks (marks.length - 1) skip)
    return found.map fun f => (f.sites.map Site.index).reverse

/-- The leftmost right-associative operator of a group, outside of the ignored indices. -/
def scanRight (group : Group α) (marks : List Mark) (skip : Nat → Bool) : Except Failure (Option (List Nat)) :=
  if group.right.isEmpty then .ok none
  else do
    let found ← seek group.right group.right 0 (Site.forward marks 0 skip)
    return found.map fun f => f.sites.map Site.index

/-! ## Ends -/

/-- Fails if the section starts with an operator token that is not prefix, or ends with one that is not postfix. -/
def checkEnds (l : TokenList) : Except Failure Unit := do
  if let some first := l.first? then
    if g.operators.isOperatorToken first && !g.operators.isPrefixToken first then
      failAt source (l.tokenPosition 0) (.leadingOperator first.text)
  if let some last := l.last? then
    if g.operators.isOperatorToken last && !g.operators.isPostfixToken last then
      failAt source (l.tokenPosition (l.size - 1)) (.trailingOperator last.text)

/-! ## Calls -/

/-- The first of some indices at which an open bracket stands. -/
def findOpen? (l : TokenList) : List Nat → Except Failure (Option Nat)
  | [] => .ok none
  | i :: is => do if (← access (l.get i)).isOpen then return some i else findOpen? l is

/-- The sections of the arguments of a call, when `args` are the tokens in its brackets. -/
def readArguments (l : TokenList) (name : Text) (args : TokenList) : Except Failure (List TokenList) :=
  if args.isEmpty then .ok []
  else if args.firstIs Token.isSeparator then
    failAt source (args.tokenPosition 0) (.leadingSeparator name l.text)
  else if args.lastIs Token.isSeparator then
    failAt source (args.tokenPosition (args.size - 1)) (.trailingSeparator name l.text)
  else do
    let parts ← splitBy args Token.isSeparator
    lift (g.limits.check .callArguments parts.length (some l.position) (some source))
    return parts

/-- Reads a call: text, and behind it brackets that close at the end of the section. -/
def readCall? (l : TokenList) : Except Failure (Option (Reading α)) :=
  if l.size < 3 || !l.lastIs Token.isClose then .ok none
  else do
    match ← findOpen? l (List.range' 1 (l.size - 2)) with
    | none => return none
    | some i =>
      let rest ← access (l.subList i l.size)
      if !rest.isInBrackets then return none
      else
        let name := (← access (l.subList 0 i)).trimmedText
        if g.functions.contains name then
          let inner ← access (l.subList (i + 1) (l.size - 1))
          let args ← readArguments g source l name inner
          return some (.call name args)
        else if l.tokens.any g.operators.isOperatorToken then return none
        else throw (.error (Grammar.errorAt source l.position (.unrecognisedFunction name l.text)))

/-! ## Operations -/

/-- Whether a match is strictly around the indices from `first` to `last`. -/
def encloses (start stop : Nat) (found : Option (List Nat)) : Except Failure Bool :=
  match found with
  | none => .ok false
  | some points => do return (← first points) < start && stop < (← last points)

/-- Whether an operator of one of the groups is strictly around some indices. -/
def enclosesAny (start stop : Nat) (marks : List Mark) (skip : Nat → Bool) :
    List (Group α) → Except Failure Bool
  | [] => .ok false
  | group :: groups => do
    if ← encloses start stop (← scanRight group marks skip) then return true
    else if ← encloses start stop (← scanLeft group marks skip) then return true
    else enclosesAny start stop marks skip groups

/-- Whether an infix operator at some indices lies within one that binds tighter. -/
def isEnclosed (tokens : List Token) (marks : List Mark) (points : List Nat) (same : Option (Group α))
    (tighter : List (Group α)) : Except Failure Bool := do
  let start ← first points
  let stop ← last points
  let (runStart, runStop) := g.runAround tokens start stop
  let skip := fun i => runStart ≤ i && i < runStop
  match same with
  | none => enclosesAny start stop marks skip tighter
  | some group =>
    if ← encloses start stop (← scanLeft group marks skip) then return true
    else enclosesAny start stop marks skip tighter

/-- The operation of the infix operator whose tokens stand at some indices. -/
def infixOperation (l : TokenList) (t : Trie Text (Operator α)) (points : List Nat) :
    Except Failure (Reading α) := do
  let tokens ← points.mapM fun (i : Nat) => access (l.get i)
  match (tokens.mapM Token.fixed?).bind t.get? with
  | none => throw (.lapse .noOperator)
  | some operator =>
    let operands ← access (l.splitAtPoints (points.map Int.ofNat))
    let position ← access (l.tokenPosition (← first points))
    return .operation position operator operands

/-- The operation of the leftmost right-associative operator of a group. -/
def readRight? (l : TokenList) (marks : List Mark) (group : Group α) (tighter : List (Group α)) :
    Except Failure (Option (Reading α)) := do
  match ← scanRight group marks fun _ => false with
  | none => return none
  | some points =>
    if ← isEnclosed g l.tokens marks points (some group) tighter then return none
    else return some (← infixOperation l group.right points)

/-- The operation of the rightmost left-associative operator of a group. -/
def readLeft? (l : TokenList) (marks : List Mark) (group : Group α) (tighter : List (Group α)) :
    Except Failure (Option (Reading α)) := do
  match ← scanLeft group marks fun _ => false with
  | none => return none
  | some points =>
    if ← isEnclosed g l.tokens marks points none tighter then return none
    else return some (← infixOperation l group.left points)

/-- The operation of a prefix operator of a group at the start of a section. -/
def readPrefix? (l : TokenList) (group : Group α) : Except Failure (Option (Reading α)) :=
  match (l.first?.bind Token.fixed?).bind group.prefixOps.get? with
  | none => .ok none
  | some operator =>
    if l.size < 2 then .ok none else do return some (.operation l.position operator [← withoutFirst l])

/-- The operation of a postfix operator of a group at the end of a section. -/
def readPostfix? (l : TokenList) (group : Group α) : Except Failure (Option (Reading α)) :=
  match (l.last?.bind Token.fixed?).bind group.postfixOps.get? with
  | none => .ok none
  | some operator =>
    if l.size < 2 then .ok none
    else do
      let operand ← withoutLast l
      let position ← access (l.tokenPosition (l.size - 1))
      return some (.operation position operator [operand])

/-- The operation of the first group that has one. -/
def readOperation? (l : TokenList) (marks : List Mark) : List (Group α) → Except Failure (Option (Reading α))
  | [] => .ok none
  | group :: tighter => do
    if let some operation ← readRight? g l marks group tighter then return some operation
    else if let some operation ← readLeft? g l marks group tighter then return some operation
    else if let some operation ← readPrefix? l group then return some operation
    else if let some operation ← readPostfix? l group then return some operation
    else readOperation? l marks tighter

/-! ## Sections -/

/-- Reads a section that is not in brackets. -/
def readBare (groups : List (Group α)) (l : TokenList) : Except Failure (Reading α) := do
  if g.vars.contains l.trimmedText then return .reference l.trimmedText
  else if let some call ← readCall? g source l then return call
  else if let some operation ← readOperation? g l (Mark.ofTokens g.operators l.tokens) groups then return operation
  else if let some value := readNumber? l.text then return .number value
  else throw (.error (Grammar.errorAt source l.position (.unparsable source l.text)))

/-- Reads the root of a section. -/
def read (groups : List (Group α)) (l : TokenList) : Except Failure (Reading α) := do
  checkEnds g source l
  if l.isInBrackets then return .brackets (← withoutFirstAndLast l)
  else readBare g source groups l

/-! ## Trees -/

/-- Builds the tree of each argument in turn; an argument without tokens is an error. -/
def buildArguments (buildSection : TokenList → Except Failure (Tree α)) (name part : Text) :
    List TokenList → Except Failure (List (Tree α))
  | [] => .ok []
  | arg :: args =>
    if arg.isEmpty then .error (.error (Grammar.errorAt source arg.offset (.emptyArgument name part)))
    else do
      let tree ← buildSection arg
      let trees ← buildArguments buildSection name part args
      return tree :: trees

/-- Builds the tree of a section, when `levels` levels of depth are left. -/
def build (groups : List (Group α)) : (levels : Nat) → TokenList → Except Failure (Tree α)
  | 0, l => .error (.error
      (g.limits.exceeded .treeDepth (g.limits.treeDepth.toNat + 1) (some l.position) (some source)))
  | levels + 1, l => do
    match ← read g source groups l with
    | .brackets inner => build groups levels inner
    | .reference name => return .reference l.position name
    | .number value => return .number l.position value
    | .call name args =>
      return .call l.position name (← buildArguments source (build groups levels) name l.text args)
    | .operation position operator operands =>
      return .operation position operator (← operands.mapM (build groups levels))

/-- The tree of a token list that covers the whole source. -/
def parse (l : TokenList) : Except Failure (Tree α) := do
  let tree ← build g source g.operators.groups.1 g.limits.treeDepth.toNat l
  lift (g.limits.check .treeNodes tree.nodeCount (some l.position) (some source))
  return tree

end Parsing

/-- Fails if some bracket of the list has no partner. -/
def checkBrackets (l : TokenList) (source : Text) : Except Failure Unit :=
  match l.bracketFault? with
  | none => .ok ()
  | some (.unexpectedClose i) => failAt source (l.tokenPosition i) (.unexpectedClose source)
  | some (.unmatchedOpen i) => failAt source (l.tokenPosition i) (.unmatchedOpen source)

end Checked

/-! ## Reports -/

/-- What a build came to: an expression, or what is wrong with the text. -/
structure BuildReport (κ : Type) where
  expression : Option (Expression κ)
  success : Bool
  error : Option String
  code : Option ErrorCode

/-- The report of a build. -/
def BuildReport.ofResult {κ : Type} : Except BuildError (Expression κ) → BuildReport κ
  | .ok e => { expression := some e, success := true, error := none, code := none }
  | .error e => { expression := none, success := false, error := some e.message, code := some e.code }

namespace Checked

variable {κ : Type}

/-- The tree of a text. -/
def parseText (b : Builder κ) (text : Text) : Except Failure (Tree (Action κ)) := do
  let tokens ← lift (b.tokenize text)
  checkBrackets tokens text
  parse b.grammar text tokens

/-- The expression of a text, or what is wrong with the text. -/
def buildText (b : Builder κ) (text : Text) : Except Lapse (Except BuildError (Expression κ)) :=
  if text.isAllBlank then .ok (.error .blank)
  else
    match parseText b text with
    | .ok tree => .ok (.ok ⟨tree, b.vars, b.functions, text⟩)
    | .error (.error e) => .ok (.error (.error e))
    | .error (.lapse l) => .error l

/-- Builds the expression of a text and reports the outcome. -/
def tryBuild (b : Builder κ) (text : Text) : Except Lapse (BuildReport κ) :=
  (buildText b text).map BuildReport.ofResult

end Checked

end Mixfix
