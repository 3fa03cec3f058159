import Mixfix.Document.Yaml.Lexeme

/-!
# Nodes of a YAML text

A document is one node: a scalar, a sequence or a mapping, where a missing node is an empty plain scalar. An alias
stands for the node of its anchor, which comes before it (`Node.ofLexemes?`).

Reading is by recursive descent over the lexemes. Every call takes fuel, of which the number of lexemes needs no more
than a fixed multiple.
-/

namespace Mixfix.Yaml

/-- A node, with its tag if it has one. -/
inductive Node where
  | scalar (tag : Option Text) (plain : Bool) (text : Text)
  | sequence (tag : Option Text) (items : List Node)
  | mapping (tag : Option Text) (entries : List (Node × Node))
  /-- A scalar that is no text. -/
  | unpaired
  deriving Inhabited

namespace Node

/-- A node that is missing. -/
def missing : Node := .scalar none true []

/-- Lexemes that are left, and the anchors so far. -/
structure State where
  lexemes : List Lexeme
  anchors : List (Text × Node)

/-- Readers of lexemes. -/
abbrev Reader := StateT State Option

/-- Whether the next lexeme is one of some. -/
def nextIs (p : Lexeme → Bool) : Reader Bool := do return (← get).lexemes.head?.any p

/-- Whether there is a lexeme that is none of some. -/
def goesOn (stops : List Lexeme) : Reader Bool := nextIs fun x => !stops.contains x

/-- Passes over the next lexeme. -/
def skip : Reader Unit := modify fun s => { s with lexemes := s.lexemes.tail }

/-- Passes over a lexeme if it is next, and tells whether it was. -/
def accept (x : Lexeme) : Reader Bool := do
  if ← nextIs (· == x) then
    skip
    return true
  else return false

/-- Passes over a lexeme, which has to be next. -/
def expect (x : Lexeme) : Reader Unit := do
  if !(← accept x) then failure

/-- The tag that a handle and a suffix stand for. -/
def resolveTag : Option Text → Text → Text
  | none, suffix => suffix
  | some handle, suffix => if handle == ['!', '!'] then "tag:yaml.org,2002:".toList ++ suffix else handle ++ suffix

/-- An anchor and a tag, in either order and each at most once. -/
def properties : (fuel : Nat) → Option Text → Option Text → Reader (Option Text × Option Text)
  | 0, _, _ => failure
  | fuel + 1, anchor, tag => do
    match (← get).lexemes.head?, anchor, tag with
    | some (.anchor name), none, _ => skip; properties fuel (some name) tag
    | some (.tag handle suffix), _, none => skip; properties fuel anchor (some (resolveTag handle suffix))
    | _, _, _ => return (anchor, tag)

/-- Remembers the node of an anchor, which no other node may have. -/
def bindAnchor (anchor : Option Text) (n : Node) : Reader Node := do
  match anchor with
  | none => return n
  | some name =>
    if ((← get).anchors.lookup name).isSome then failure
    modify fun s => { s with anchors := (name, n) :: s.anchors }
    return n

mutual

/-- A node. Blocks are allowed if `block` holds, and a sequence that is not indented if `indentless` holds. -/
def node (block indentless : Bool) : (fuel : Nat) → Reader Node
  | 0 => failure
  | fuel + 1 => do
    if let some (.alias name) := (← get).lexemes.head? then
      skip
      let some n := (← get).anchors.lookup name | failure
      return n
    let (anchor, tag) ← properties 3 none none
    let n ← content block indentless (anchor.isSome || tag.isSome) tag fuel
    bindAnchor anchor n

/-- A node behind its anchor and tag. -/
def content (block indentless marked : Bool) (tag : Option Text) : (fuel : Nat) → Reader Node
  | 0 => failure
  | fuel + 1 => do
    match (← get).lexemes.head? with
    | some (.scalar text plain) =>
      skip
      if tag == some ['!'] then return .scalar none true text else return .scalar tag plain text
    | some .unpaired => skip; return .unpaired
    | some .flowSequenceStart => skip; return .sequence tag (← flowItems true fuel)
    | some .flowMappingStart => skip; return .mapping tag (← flowEntries true fuel)
    | some .sequenceStart => if block then skip; return .sequence tag (← blockItems fuel) else empty
    | some .mappingStart => if block then skip; return .mapping tag (← blockEntries fuel) else empty
    | some .entry => if indentless then return .sequence tag (← looseItems fuel) else empty
    | _ => empty
where
  /-- A node of nothing but its anchor and tag. -/
  empty : Reader Node := if marked then return .scalar (tag.filter (· != ['!'])) true [] else failure

/-- The entries of a block sequence, up to its end. -/
def blockItems : (fuel : Nat) → Reader (List Node)
  | 0 => failure
  | fuel + 1 => do
    if ← accept .entry then
      let item ← if ← goesOn [.entry, .blockEnd] then node true false fuel else pure missing
      return item :: (← blockItems fuel)
    else
      expect .blockEnd
      return []

/-- The entries of a sequence that is not indented. -/
def looseItems : (fuel : Nat) → Reader (List Node)
  | 0 => failure
  | fuel + 1 => do
    if ← accept .entry then
      let item ← if ← goesOn [.entry, .key, .value, .blockEnd] then node true false fuel else pure missing
      return item :: (← looseItems fuel)
    else return []

/-- The entries of a block mapping, up to its end. -/
def blockEntries : (fuel : Nat) → Reader (List (Node × Node))
  | 0 => failure
  | fuel + 1 => do
    if ← accept .key then
      let key ← if ← goesOn [.key, .value, .blockEnd] then node true true fuel else pure missing
      let value ←
        if ← accept .value then
          if ← goesOn [.key, .value, .blockEnd] then node true true fuel else pure missing
        else pure missing
      return (key, value) :: (← blockEntries fuel)
    else
      expect .blockEnd
      return []

/-- The entries of a sequence in brackets, up to its end. A key makes an entry a mapping of one entry. -/
def flowItems (first : Bool) : (fuel : Nat) → Reader (List Node)
  | 0 => failure
  | fuel + 1 => do
    if ← accept .flowSequenceEnd then return []
    else
      if !first then expect .flowEntry
      if ← accept .key then
        let key ← if ← goesOn [.value, .flowEntry, .flowSequenceEnd] then node false false fuel else pure missing
        let value ← flowValue .flowSequenceEnd fuel
        return .mapping none [(key, value)] :: (← flowItems false fuel)
      else if ← accept .flowSequenceEnd then return []
      else
        let item ← node false false fuel
        return item :: (← flowItems false fuel)

/-- The value of an entry in brackets, if there is one. -/
def flowValue (close : Lexeme) : (fuel : Nat) → Reader Node
  | 0 => failure
  | fuel + 1 => do
    if ← accept .value then
      if ← goesOn [.flowEntry, close] then node false false fuel else return missing
    else return missing

/-- The entries of a mapping in braces, up to its end. A node that is no key has no value. -/
def flowEntries (first : Bool) : (fuel : Nat) → Reader (List (Node × Node))
  | 0 => failure
  | fuel + 1 => do
    if ← accept .flowMappingEnd then return []
    else
      if !first then expect .flowEntry
      if ← accept .key then
        let key ← if ← goesOn [.value, .flowEntry, .flowMappingEnd] then node false false fuel else pure missing
        let value ← flowValue .flowMappingEnd fuel
        return (key, value) :: (← flowEntries false fuel)
      else if ← accept .flowMappingEnd then return []
      else
        let key ← node false false fuel
        return (key, missing) :: (← flowEntries false fuel)

end

/-! ## Documents -/

/-- Whether a lexeme is a directive. -/
def isDirective : Lexeme → Bool
  | .directive _ => true
  | _ => false

/-- Passes over lexemes while they are of a class. -/
def skipWhile (p : Lexeme → Bool) : Reader Unit := modify fun s => { s with lexemes := s.lexemes.dropWhile p }

/-- The text of the name of the directive that gives the version. -/
def versionName : Text := "YAML".toList

/-- Passes over directives, at most one of which gives the version. -/
def skipDirectives : Reader Unit := do
  let directives := (← get).lexemes.takeWhile isDirective
  if 1 < (directives.filter (· == .directive versionName)).length then failure
  skipWhile isDirective

/-- A document that begins with its start line. -/
def explicitDocument (fuel : Nat) : Reader Node := do
  skipDirectives
  expect .documentStart
  if ← nextIs fun x => !(isDirective x || x == .documentStart || x == .documentEnd) then node true false fuel
  else return missing

/-- The only document of a stream, if there is one. -/
def stream (fuel : Nat) : Reader (Option Node) := do
  let explicit ← nextIs fun x => isDirective x || x == .documentStart
  if (← get).lexemes.isEmpty then return none
  else
    let n ← if explicit then explicitDocument fuel else node true false fuel
    skipWhile (· == .documentEnd)
    if (← get).lexemes.isEmpty then return some n else failure

/-- The node of the only document that lexemes write, if they write any. -/
def ofLexemes? (xs : List Lexeme) : Option (Option Node) :=
  ((stream (4 * xs.length + 8)).run ⟨xs, []⟩).map Prod.fst

end Node

end Mixfix.Yaml
