import Mixfix.Document.Yaml.Scalar

/-!
# Lexemes of a YAML text

A YAML text is a row of lexemes: indicators, scalars, and the starts and ends of blocks that its indentation marks
(`Lexeme.ofText?`). What turns out to be a key only at its colon is found by keeping the places where a key may have
begun (`KeyPlace`), one for each depth of brackets; a key has to end on its line.

Each step reads at least one character or the end, so the length of the text bounds their number.
-/

namespace Mixfix.Yaml

/-- A lexeme. -/
inductive Lexeme where
  | directive (name : Text)
  | documentStart
  | documentEnd
  | sequenceStart
  | mappingStart
  | blockEnd
  | flowSequenceStart
  | flowSequenceEnd
  | flowMappingStart
  | flowMappingEnd
  | entry
  | flowEntry
  | key
  | value
  | alias (name : Text)
  | anchor (name : Text)
  | tag (handle : Option Text) (suffix : Text)
  | scalar (text : Text) (plain : Bool)
  /-- A quoted scalar with half of a surrogate pair, which is no text. -/
  | unpaired
  deriving DecidableEq

/-- A place where a key may have begun: the number of lexemes before it, where it stands, and whether the block cannot
go on without it. -/
structure KeyPlace where
  count : Nat
  required : Bool
  index : Nat
  line : Nat
  column : Nat

/-- The state of the reader. -/
structure Reader where
  cursor : Cursor
  lexemes : Array Lexeme := #[]
  flowDepth : Nat := 0
  indent : Int := -1
  outer : List Int := []
  keyAllowed : Bool := true
  places : List (Nat × KeyPlace) := []
  finished : Bool := false

namespace Reader

/-- The longest key, in characters. -/
def maxKeyLength : Nat := 1024

/-- The reader with one more lexeme. -/
def emit (x : Lexeme) (s : Reader) : Reader := { s with lexemes := s.lexemes.push x }

/-- The reader behind the next characters. -/
def pass (n : Nat) (s : Reader) : Reader := { s with cursor := s.cursor.advance n }

/-! ## Places of keys -/

/-- Forgets the places whose line has ended; a required key has to have come by then. -/
def dropStale (s : Reader) : Option Reader :=
  let stale (p : Nat × KeyPlace) := p.2.line != s.cursor.line || maxKeyLength < s.cursor.index - p.2.index
  if s.places.any fun p => stale p && p.2.required then none
  else some { s with places := s.places.filter fun p => !stale p }

/-- Forgets the place at the current depth; a required key has to have come by then. -/
def dropPlace (s : Reader) : Option Reader :=
  match s.places.lookup s.flowDepth with
  | none => some s
  | some p => if p.required then none else some { s with places := s.places.filter fun q => q.1 != s.flowDepth }

/-- Notes that a key may begin here. -/
def savePlace (s : Reader) : Option Reader :=
  if s.keyAllowed then do
    let required := s.flowDepth == 0 && s.indent == s.cursor.column
    let s ← s.dropPlace
    let place : KeyPlace := ⟨s.lexemes.size, required, s.cursor.index, s.cursor.line, s.cursor.column⟩
    return { s with places := (s.flowDepth, place) :: s.places }
  else some s

/-! ## Indentation -/

/-- Ends the blocks that are indented by more than a column. -/
def unwind (column : Int) (s : Reader) : Reader :=
  if s.flowDepth != 0 then s
  else
    let rec go (s : Reader) (indent : Int) : List Int → Reader
      | [] => { s with indent, outer := [] }
      | i :: is => if column < indent then go (s.emit .blockEnd) i is else { s with indent, outer := i :: is }
    go s s.indent s.outer

/-- Whether a column begins a block, and the reader inside that block. -/
def addIndent (column : Nat) (s : Reader) : Bool × Reader :=
  if s.indent < column then (true, { s with outer := s.indent :: s.outer, indent := column }) else (false, s)

/-- Begins a block at the current column if it is further in, unless inside of brackets. -/
def openBlock (start : Lexeme) (s : Reader) : Option Reader :=
  if s.flowDepth != 0 then some s
  else if !s.keyAllowed then none
  else
    let (opens, s) := s.addIndent s.cursor.column
    some (if opens then s.emit start else s)

/-! ## Lexemes -/

/-- Skips spaces, comments and line breaks; behind a line break a key may begin. -/
def skipToLexeme : (fuel : Nat) → Reader → Reader
  | 0, s => s
  | fuel + 1, s =>
    let c := s.cursor.skip (· == ' ')
    let c := if c.rest.head? == some '#' then c.skip fun ch => !isBreak ch else c
    match c.lineBreak? with
    | some (_, c) => skipToLexeme fuel { s with cursor := c, keyAllowed := s.keyAllowed || s.flowDepth == 0 }
    | none => { s with cursor := c }

/-- Ends every block, as before a line that stands outside of the document. -/
def leaveBlocks (s : Reader) : Option Reader := (s.unwind (-1)).dropPlace.map fun s => { s with keyAllowed := false }

/-- The end of the text. -/
def finish (s : Reader) : Option Reader := s.leaveBlocks.map fun s => { s with places := [], finished := true }

/-- A directive: a name and anything behind it on the line. The version of the text has to be 1. -/
def directive (s : Reader) : Option Reader := do
  let s ← s.leaveBlocks
  let (name, c) := s.cursor.next.span isWord
  if name.isEmpty || !atEndOr (fun ch => ch == ' ' || isBreak ch) c.rest then none
  else
    let (line, c) := c.span fun ch => !isBreak ch
    if name == "TAG".toList || (name == "YAML".toList && !"1.".toList.isPrefixOf (line.dropWhile (· == ' '))) then none
    else return { s with cursor := c }.emit (.directive name)

/-- A line that starts or ends a document. -/
def separator (x : Lexeme) (s : Reader) : Option Reader := s.leaveBlocks.map fun s => (s.emit x).pass 3

/-- An opening bracket or brace. -/
def flowStart (x : Lexeme) (s : Reader) : Option Reader := do
  let s ← s.savePlace
  return { s with flowDepth := s.flowDepth + 1, keyAllowed := true }.emit x |>.pass 1

/-- A closing bracket or brace. -/
def flowEnd (x : Lexeme) (s : Reader) : Option Reader := do
  let s ← s.dropPlace
  if s.flowDepth = 0 then none
  else return { s with flowDepth := s.flowDepth - 1, keyAllowed := false }.emit x |>.pass 1

/-- A comma. -/
def flowEntry (s : Reader) : Option Reader :=
  s.dropPlace.map fun s => { s with keyAllowed := true }.emit .flowEntry |>.pass 1

/-- A dash before an entry of a block. -/
def blockEntry (s : Reader) : Option Reader := do
  let s ← s.openBlock .sequenceStart
  let s ← { s with keyAllowed := true }.dropPlace
  return s.emit .entry |>.pass 1

/-- A question mark before a key. -/
def explicitKey (s : Reader) : Option Reader := do
  let s ← s.openBlock .mappingStart
  let s ← { s with keyAllowed := s.flowDepth == 0 }.dropPlace
  return s.emit .key |>.pass 1

/-- A colon before a value: behind a key whose place was noted, or else behind an empty or explicit one. -/
def value (s : Reader) : Option Reader :=
  match s.places.lookup s.flowDepth with
  | some p =>
    let places := s.places.filter fun q => q.1 != s.flowDepth
    let (opens, s) := if s.flowDepth = 0 then s.addIndent p.column else (false, s)
    let front := if opens then #[Lexeme.mappingStart, .key] else #[.key]
    let lexemes := s.lexemes.extract 0 p.count ++ front ++ s.lexemes.extract p.count s.lexemes.size
    some ({ s with places, lexemes, keyAllowed := false }.emit .value |>.pass 1)
  | none => do
    let s ← s.openBlock .mappingStart
    let s ← { s with keyAllowed := s.flowDepth == 0 }.dropPlace
    return s.emit .value |>.pass 1

/-- A name behind an asterisk or an ampersand. -/
def named (x : Text → Lexeme) (s : Reader) : Option Reader := do
  let s ← s.savePlace
  let (name, c) := s.cursor.next.span isWord
  let closes (ch : Char) := isWhite ch || ['?', ':', ',', ']', '\x7d', '%', '@', '\x60'].contains ch
  if name.isEmpty || !atEndOr closes c.rest then none
  else return { s with cursor := c, keyAllowed := false }.emit (x name)

/-- The characters of the suffix of a tag. -/
def isTagChar (c : Char) : Bool :=
  c.isAlphanum || ("-;/?:@&=+$,_.~*'()[]".toList).contains c

/-- A tag: in angle brackets, alone, or behind one or two exclamation marks. -/
def tag (s : Reader) : Option Reader := do
  let s ← s.savePlace
  let (handle, suffix, c) ←
    match s.cursor.next.rest with
    | [] => some (none, ['!'], s.cursor.next)
    | '<' :: _ =>
      let (suffix, c) := (s.cursor.advance 2).span isTagChar
      if suffix.isEmpty || c.rest.head? != some '>' then none else some (none, suffix, c.next)
    | ch :: _ =>
      if isWhite ch then some (none, ['!'], s.cursor.next)
      else
        let (handle, c) : Text × Cursor :=
          if ch == '!' then (['!', '!'], s.cursor.advance 2) else (['!'], s.cursor.next)
        let (suffix, c) := c.span isTagChar
        if suffix.isEmpty then none else some (some handle, suffix, c)
  if atEndOr (fun ch => ch == ' ' || isBreak ch) c.rest then
    return { s with cursor := c, keyAllowed := false }.emit (.tag handle suffix)
  else none

/-- A scalar in quotes. -/
def quotedScalar (double : Bool) (s : Reader) : Option Reader := do
  let s ← s.savePlace
  let c := s.cursor.next
  let (chars, c) ← c.quoted? double (c.rest.length + 1)
  let lexeme :=
    match chars.mapM id with
    | some text => Lexeme.scalar text false
    | none => .unpaired
  return { s with cursor := c, keyAllowed := false }.emit lexeme

/-- A scalar of indented lines. -/
def blockScalar (fold : Bool) (s : Reader) : Option Reader := do
  let s ← { s with keyAllowed := true }.dropPlace
  let (text, c) ← s.cursor.next.block? fold s.indent
  return { s with cursor := c }.emit (.scalar text false)

/-- A scalar of plain words. -/
def plainScalar (s : Reader) : Option Reader := do
  let s ← s.savePlace
  let (text, c, broken) := s.cursor.plain (s.flowDepth != 0) (s.indent + 1)
  return { s with cursor := c, keyAllowed := broken }.emit (.scalar text true)

/-- The indicators, none of which starts a plain scalar by itself. -/
def indicators : Text := "-?:,[]\x7b\x7d#&*!|>'\"%@\x60".toList

/-- Whether a plain scalar starts with a character before a text. -/
def startsPlain (inFlow : Bool) (c : Char) (rest : Text) : Bool :=
  (!isWhite c && !indicators.contains c) ||
    (!atEndOr isWhite rest && (c == '-' || (!inFlow && (c == '?' || c == ':'))))

/-- Reads one lexeme, or the end. -/
def step (s : Reader) : Option Reader := do
  let s ← (s.skipToLexeme (s.cursor.rest.length + 1)).dropStale
  let s := s.unwind s.cursor.column
  let inFlow := s.flowDepth != 0
  match s.cursor.rest with
  | [] => s.finish
  | c :: rest =>
    let alone := atEndOr isWhite rest
    if s.cursor.column == 0 && c == '%' then s.directive
    else if s.cursor.column == 0 && s.cursor.atSeparator then
      s.separator (if c == '-' then .documentStart else .documentEnd)
    else if c == '[' then s.flowStart .flowSequenceStart
    else if c == '\x7b' then s.flowStart .flowMappingStart
    else if c == ']' then s.flowEnd .flowSequenceEnd
    else if c == '\x7d' then s.flowEnd .flowMappingEnd
    else if c == ',' then s.flowEntry
    else if c == '-' && alone then s.blockEntry
    else if c == '?' && (inFlow || alone) then s.explicitKey
    else if c == ':' && (inFlow || alone) then s.value
    else if c == '*' then s.named .alias
    else if c == '&' then s.named .anchor
    else if c == '!' then s.tag
    else if c == '|' && !inFlow then s.blockScalar false
    else if c == '>' && !inFlow then s.blockScalar true
    else if c == '\'' then s.quotedScalar false
    else if c == '"' then s.quotedScalar true
    else if startsPlain inFlow c rest then s.plainScalar
    else none

/-- Reads lexemes up to the end. -/
def run : (fuel : Nat) → Reader → Option (List Lexeme)
  | 0, _ => none
  | fuel + 1, s => do
    let s ← s.step
    if s.finished then return s.lexemes.toList else s.run fuel

end Reader

namespace Lexeme

/-- The lexemes of a text. A mark of the byte order at its start is left out. -/
def ofText? (t : Text) : Option (List Lexeme) :=
  let t := if t.head?.any fun c => c.toNat == 0xFEFF then t.tail else t
  if t.all isPrintable then Reader.run (t.length + 2) { cursor := .ofText t } else none

end Lexeme

end Mixfix.Yaml
