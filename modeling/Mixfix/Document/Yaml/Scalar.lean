import Mixfix.Document.Yaml.Cursor
import Mixfix.Text.Digit

/-!
# Scalars of a YAML text

The texts that quotes, block indicators and plain words write (`Cursor.quoted?`, `Cursor.block?`, `Cursor.plain`). A
single line break in a quoted or plain scalar reads as a space, and further ones as themselves.

Each loop takes at least one character in a round, so the length of what is left bounds its rounds.
-/

namespace Mixfix.Yaml

namespace Cursor

/-- The text of folded line breaks: the first is a space unless others follow or it is a separator of its own. -/
def folded (first : Char) (others : Text) : Text :=
  if first != '\n' then first :: others else if others.isEmpty then [' '] else others

/-! ## Quoted scalars -/

/-- The line breaks that are next, between spaces and tabs. A document separator has no place among them. -/
def quotedBreaks? : (fuel : Nat) → Cursor → Option (Text × Cursor)
  | 0, _ => none
  | fuel + 1, c =>
    if c.atSeparator then none
    else
      let c := c.skip fun ch => ch == ' ' || ch == '\t'
      match c.lineBreak? with
      | none => some ([], c)
      | some (b, c) => (quotedBreaks? fuel c).map fun r => (b :: r.1, r.2)

/-- The spaces and line breaks that are next in a quoted scalar. -/
def quotedSpaces? (c : Cursor) : Option (Text × Cursor) :=
  let (white, c) := c.span fun ch => ch == ' ' || ch == '\t'
  if c.rest.isEmpty then none
  else
    match c.lineBreak? with
    | none => some (white, c)
    | some (b, c) => (quotedBreaks? (c.rest.length + 1) c).map fun r => (folded b r.1, r.2)

/-- What the one-letter escapes stand for. -/
def escapes : List (Char × Nat) :=
  [('0', 0), ('a', 7), ('b', 8), ('t', 9), ('\t', 9), ('n', 10), ('v', 11), ('f', 12), ('r', 13), ('e', 27), (' ', 32),
   ('"', 34), ('\\', 92), ('/', 47), ('N', 0x85), ('_', 0xA0), ('L', 0x2028), ('P', 0x2029)]

/-- How many digits in base 16 follow an escape. -/
def escapeWidths : List (Char × Nat) := [('x', 2), ('u', 4), ('U', 8)]

/-- The character of a number, none for half of a surrogate pair; nothing beyond the last character. -/
def charOf? (n : Nat) : Option (Option Char) :=
  if 0x110000 ≤ n then none
  else if 0xD800 ≤ n && n < 0xE000 then some none
  else some (some (Char.ofNat n))

/-- What an escape stands for, at the character behind its backslash. -/
def escape? (c : Cursor) : Option (List (Option Char) × Cursor) :=
  match c.rest with
  | [] => none
  | ch :: _ =>
    match escapes.lookup ch, escapeWidths.lookup ch with
    | some n, _ => some ([some (Char.ofNat n)], c.next)
    | none, some width => do
      let digits := (c.rest.drop 1).take width
      if digits.length < width then none
      else
        let decoded ← charOf? (← Text.ofAscii? 16 digits)
        return ([decoded], c.advance (width + 1))
    | none, none =>
      match c.lineBreak? with
      | some (_, c) => (quotedBreaks? (c.rest.length + 1) c).map fun r => (r.1.map some, r.2)
      | none => none

/-- The characters of a quoted scalar behind its opening quote, none for half of a surrogate pair. -/
def quoted? (double : Bool) : (fuel : Nat) → Cursor → Option (List (Option Char) × Cursor)
  | 0, _ => none
  | fuel + 1, c =>
    let more (front : List (Option Char)) (c : Cursor) := (quoted? double fuel c).map fun r => (front ++ r.1, r.2)
    match c.rest with
    | [] => none
    | '\'' :: '\'' :: _ => if double then more [some '\''] c.next else more [some '\''] (c.advance 2)
    | '\'' :: _ => if double then more [some '\''] c.next else some ([], c.next)
    | '"' :: _ => if double then some ([], c.next) else more [some '"'] c.next
    | '\\' :: _ => if double then (escape? c.next).bind fun r => more r.1 r.2 else more [some '\\'] c.next
    | ch :: _ =>
      if isWhite ch then (quotedSpaces? c).bind fun r => more (r.1.map some) r.2 else more [some ch] c.next

/-! ## Plain scalars -/

/-- Whether a plain scalar ends before a text: at white space, at a colon that ends a key, and inside brackets at
their punctuation. -/
def endsPlain (inFlow : Bool) (t : Text) : Bool :=
  match t with
  | [] => true
  | c :: rest =>
    isWhite c ||
      (c == ':' && atEndOr (fun d => isWhite d || (inFlow && [',', '[', ']', '\x7b', '\x7d'].contains d)) rest) ||
      (inFlow && [',', '?', '[', ']', '\x7b', '\x7d'].contains c)

/-- The length of the word of a plain scalar at the start of a text. -/
def plainLength (inFlow : Bool) : Text → Nat
  | [] => 0
  | c :: rest => if endsPlain inFlow (c :: rest) then 0 else plainLength inFlow rest + 1

/-- The line breaks that are next, between spaces; nothing if a document separator follows. -/
def plainBreaks? : (fuel : Nat) → Cursor → Option Text × Cursor
  | 0, c => (none, c)
  | fuel + 1, c =>
    if c.atSeparator then (none, c)
    else
      let c := c.skip (· == ' ')
      match c.lineBreak? with
      | none => (some [], c)
      | some (b, c) =>
        let (others, c) := plainBreaks? fuel c
        (others.map (b :: ·), c)

/-- The spaces and line breaks behind a word, the cursor behind them, and whether there was a line break. -/
def plainSpaces (c : Cursor) : Text × Cursor × Bool :=
  let (white, c) := c.span (· == ' ')
  match c.lineBreak? with
  | none => (white, c, false)
  | some (b, c) =>
    let (others, c) := plainBreaks? (c.rest.length + 1) c
    (((others.map (folded b)).getD []), c, true)

/-- The words of a plain scalar behind the spaces `before`, for a least column `indent`, and whether the last thing
passed over was a line break. -/
def plainWords (inFlow : Bool) (indent : Int) (before : Text) (broken : Bool) : (fuel : Nat) → Cursor →
    Text × Cursor × Bool
  | 0, c => ([], c, broken)
  | fuel + 1, c =>
    let length := if c.rest.head? == some '#' then 0 else plainLength inFlow c.rest
    if length = 0 then ([], c, broken)
    else
      let word := before ++ c.rest.take length
      let (white, c, broken) := plainSpaces (c.advance length)
      if white.isEmpty || c.rest.head? == some '#' || (!inFlow && (c.column : Int) < indent) then (word, c, broken)
      else
        let (more, c, broken) := plainWords inFlow indent white broken fuel c
        (word ++ more, c, broken)

/-- A plain scalar, the cursor behind it and the white space that follows, and whether that ends in a new line. -/
def plain (inFlow : Bool) (indent : Int) (c : Cursor) : Text × Cursor × Bool :=
  plainWords inFlow indent [] false (c.rest.length + 1) c

/-! ## Block scalars -/

/-- What becomes of the line breaks at the end of a block scalar. -/
inductive Chomping where
  | strip
  | clip
  | keep
  deriving DecidableEq

/-- A chomping indicator. -/
def chomping? : Text → Option Chomping
  | '+' :: _ => some .keep
  | '-' :: _ => some .strip
  | _ => none

/-- An indentation indicator. -/
def indentation? : Text → Option Nat
  | c :: _ => Text.asciiDigit? 10 c
  | [] => none

/-- The indicators of a block scalar, in either order. -/
def indicators? (c : Cursor) : Option (Chomping × Option Nat × Cursor) := do
  let (chomping, increment, c) :=
    match chomping? c.rest with
    | some ch =>
      match indentation? c.next.rest with
      | some n => (ch, some n, c.advance 2)
      | none => (ch, none, c.next)
    | none =>
      match indentation? c.rest with
      | some n =>
        match chomping? c.next.rest with
        | some ch => (ch, some n, c.advance 2)
        | none => (.clip, some n, c.next)
      | none => (.clip, none, c)
  if increment == some 0 || !atEndOr (fun ch => ch == ' ' || isBreak ch) c.rest then none
  else return (chomping, increment, c)

/-- The cursor behind the rest of a line that holds nothing but spaces and a comment. -/
def blankLine? (c : Cursor) : Option Cursor :=
  let c := c.skip (· == ' ')
  let c := if c.rest.head? == some '#' then c.skip fun ch => !isBreak ch else c
  if c.rest.isEmpty then some c else c.lineBreak?.map Prod.snd

/-- The line breaks before the first line of a block scalar, and the greatest column on the way. -/
def leadingBreaks : (fuel : Nat) → Nat → Cursor → Text × Nat × Cursor
  | 0, widest, c => ([], widest, c)
  | fuel + 1, widest, c =>
    match c.lineBreak? with
    | some (b, c) =>
      let (others, widest, c) := leadingBreaks fuel widest c
      (b :: others, widest, c)
    | none =>
      if c.rest.head? == some ' ' then leadingBreaks fuel (max widest c.next.column) c.next else ([], widest, c)

/-- The cursor behind spaces up to a column. -/
def skipIndent (indent : Nat) (c : Cursor) : Cursor :=
  c.advance (min (indent - c.column) (c.rest.takeWhile (· == ' ')).length)

/-- The line breaks between lines of a block scalar. -/
def blockBreaks (indent : Nat) : (fuel : Nat) → Cursor → Text × Cursor
  | 0, c => ([], c)
  | fuel + 1, c =>
    let c := c.skipIndent indent
    match c.lineBreak? with
    | some (b, c) =>
      let (others, c) := blockBreaks indent fuel c
      (b :: others, c)
    | none => ([], c)

/-- The lines of a block scalar, behind the line breaks `breaks`. -/
def blockLines (fold : Bool) (chomping : Chomping) (indent : Nat) (breaks : Text) : (fuel : Nat) → Cursor →
    Text × Cursor
  | 0, c => ([], c)
  | fuel + 1, c =>
    let (line, c') := c.span fun ch => !isBreak ch
    let (ending, c') :=
      match c'.lineBreak? with
      | some (b, c') => ([b], c')
      | none => ([], c')
    let (others, c') := blockBreaks indent (c'.rest.length + 1) c'
    if c'.column = indent && !c'.rest.isEmpty then
      let isText (t : Text) := !startsWith (fun ch => ch == ' ' || ch == '\t') t
      let joint :=
        if fold && ending == ['\n'] && isText c.rest && isText c'.rest then (if others.isEmpty then [' '] else [])
        else ending
      let (more, c') := blockLines fold chomping indent others fuel c'
      (breaks ++ line ++ joint ++ more, c')
    else
      let close :=
        match chomping with
        | .strip => []
        | .clip => ending
        | .keep => ending ++ others
      (breaks ++ line ++ close, c')

/-- The text of a block scalar behind its indicator, inside a block of the given indentation. -/
def block? (fold : Bool) (outer : Int) (c : Cursor) : Option (Text × Cursor) := do
  let (chomping, increment, c) ← indicators? c
  let c ← blankLine? c
  let least := (max (outer + 1) 1).toNat
  let (breaks, indent, c) :=
    match increment with
    | none =>
      let (breaks, widest, c) := leadingBreaks (c.rest.length + 1) 0 c
      (breaks, max least widest, c)
    | some n =>
      let (breaks, c) := blockBreaks (least + n - 1) (c.rest.length + 1) c
      (breaks, least + n - 1, c)
  if c.column = indent && !c.rest.isEmpty then
    return blockLines fold chomping indent breaks (c.rest.length + 1) c
  else return (if chomping = .keep then breaks else [], c)

end Cursor

end Mixfix.Yaml
