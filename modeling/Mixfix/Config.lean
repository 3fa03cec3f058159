import Mixfix.Builder
import Mixfix.Document.Json
import Mixfix.Document.Yaml

/-!
# Configurations of builders

A configuration says what a builder starts from, and adds variables, tokens and limits. It is read from a document
(`Config.ofDocument`), or from a text in JSON or YAML (`Config.load`), where a text whose first character other than a
blank opens a bracket or a brace is taken for JSON.

Each field has two names, of which the first that is there counts. Values convert where nothing is lost: truth values
from zero, one and certain words, numbers from truth values and from texts that write them. Unknown fields are ignored.
-/

namespace Mixfix

/-- A checked configuration. -/
structure Config where
  includeDefaults : Bool := true
  comparativeOperators : Bool := false
  vars : Table Text Float := {}
  tokens : List Text := []
  limits : Limits := {}

namespace Config

/-! ## Conversions -/

/-- White space around texts that write numbers: as `Text.isBlank`, without the information separators. -/
def isMargin (c : Char) : Bool := Text.isBlank c && !(28 ≤ c.toNat && c.toNat ≤ 31)

/-- The words for each truth value, in lower case. -/
def trueWords : List Text := ["1", "true", "t", "yes", "y", "on"].map String.toList

/-- The words for falsehood, in lower case. -/
def falseWords : List Text := ["0", "false", "f", "no", "n", "off"].map String.toList

/-- The truth value of a word in any case. -/
def boolOfWord? (t : Text) : Option Bool :=
  let word := t.map Char.toLower
  if trueWords.contains word then some true else if falseWords.contains word then some false else none

/-- The truth value of a document. -/
def bool? : Document → Option Bool
  | .bool b => some b
  | .int n => if n = 1 then some true else if n = 0 then some false else none
  | .float x => if x == 1.0 then some true else if x == 0.0 then some false else none
  | .text t => boolOfWord? t
  | _ => none

/-- Whether underscores in a text stand alone between other characters. -/
def hasSingleLines (t : Text) : Bool :=
  t.contains '_' && !t.head?.any (· == '_') && !t.getLast?.any (· == '_') &&
    (t.zip t.tail).all fun p => p.1 != '_' || p.2 != '_'

/-- The number of a text without blanks and underscores: a decimal in ASCII digits, an infinity or not a number. -/
def floatOfWord? (t : Text) : Option Float :=
  let (negative, body) := Literal.spanSign t
  let word := body.map Char.toLower
  if word == "inf".toList || word == "infinity".toList then some (if negative then -1.0 / 0.0 else 1.0 / 0.0)
  else if word == "nan".toList then some (0.0 / 0.0)
  else if body.all fun c => c.toNat < 128 then (Literal.decimal? negative body).map Literal.value
  else none

/-- The number that a text writes, between white space or else with single underscores in it. -/
def floatOfText? (t : Text) : Option Float :=
  match floatOfWord? (t.trimBy isMargin) with
  | some x => some x
  | none => if hasSingleLines t then floatOfWord? (t.filter (· != '_')) else none

/-- The number of a document. -/
def float? : Document → Option Float
  | .bool b => some (if b then 1.0 else 0.0)
  | .int n =>
    let x := Decimal.toFloat ⟨n < 0, n.natAbs, 0⟩
    if x.isInf then none else some x
  | .float x => some x
  | .text t => floatOfText? t
  | _ => none

/-- The text before a point with nothing but zeros behind it. -/
def dropZeroFraction (t : Text) : Text :=
  match t.dropWhile (· != '.') with
  | _ :: zeros => if zeros.all (· == '0') then t.takeWhile (· != '.') else t
  | [] => t

/-- The whole number that a text writes, in decimal digits with single underscores between them. -/
def intOfText? (t : Text) : Option Int :=
  let (negative, body) := Literal.spanSign (dropZeroFraction (t.trimBy isMargin))
  let digits := if hasSingleLines body then body.filter (· != '_') else body
  if digits.isEmpty || Document.maxIntDigits < digits.length || !digits.all Char.isDigit then none
  else
    let n : Int := Text.ofAscii digits
    some (if negative then -n else n)

/-- The whole number that a double is, if it is one and a machine word of 64 bits holds it. -/
def intOfFloat? (x : Float) : Option Int :=
  if Arithmetic.isWhole x && x.abs < 9223372036854775808.0 then some x.toInt64.toInt else none

/-- The whole number of a document. -/
def int? : Document → Option Int
  | .bool b => some (if b then 1 else 0)
  | .int n => some n
  | .float x => intOfFloat? x
  | .text t => intOfText? t
  | _ => none

/-! ## Fields -/

/-- The entries of a mapping. -/
abbrev Entries := List (Document × Document)

/-- The value of a field under the first of its names that is there. -/
def field? (names : String × String) (entries : Entries) : Option Document :=
  (Document.field? names.1.toList entries).orElse fun _ => Document.field? names.2.toList entries

/-- The value of a field, or a default if it is not there. -/
def fieldOr {α : Type} (default : α) (read? : Document → Option α) (names : String × String) (entries : Entries) :
    Option α :=
  match field? names entries with
  | none => some default
  | some d => read? d

/-- Whether every key is a text. -/
def hasTextKeys (entries : Entries) : Bool :=
  entries.all fun e =>
    match e.1 with
    | .text _ => true
    | _ => false

/-- The variables of a document: numbers by name. -/
def vars? : Document → Option (Table Text Float)
  | .mapping entries => entries.foldlM (fun t e => do
      match e.1 with
      | .text name => return t.insert name (← float? e.2)
      | _ => none) {}
  | _ => none

/-- The tokens of a document: a list of texts. -/
def tokens? : Document → Option (List Text)
  | .list items => items.mapM fun d =>
      match d with
      | .text t => some t
      | _ => none
  | _ => none

/-- A limit of a document: a positive whole number, or null for the default. -/
def limit? (default : Int) : Document → Option Int
  | .null => some default
  | d => (int? d).bind fun n => if 0 < n then some n else none

/-- The limits of a document, null for the defaults. -/
def limits? : Document → Option Limits
  | .null => some {}
  | .mapping entries => do
    if !hasTextKeys entries then failure
    let standard : Limits := {}
    let read (default : Int) (names : String × String) := fieldOr default (limit? default) names entries
    return {
      expressionLength := ← read standard.expressionLength ("maxExpressionLength", "max_expression_length")
      treeDepth := ← read standard.treeDepth ("maxAstDepth", "max_ast_depth")
      treeNodes := ← read standard.treeNodes ("maxAstNodes", "max_ast_nodes")
      callArguments := ← read standard.callArguments ("maxFunctionArgs", "max_function_args") }
  | _ => none

/-- The configuration of the entries of a mapping, if every field has a value of its kind. -/
def ofEntries? (entries : Entries) : Option Config := do
  if !hasTextKeys entries then failure
  return {
    includeDefaults := ← fieldOr true bool? ("includeDefaults", "include_defaults") entries
    comparativeOperators := ← fieldOr false bool? ("comparativeOperators", "comparative_operators") entries
    vars := ← fieldOr {} vars? ("variables", "variables") entries
    tokens := ← fieldOr [] tokens? ("tokens", "tokens") entries
    limits := ← fieldOr {} limits? ("expressionLimits", "expression_limits") entries }

/-! ## Documents and texts -/

/-- The two formats of texts. -/
inductive Format where
  | json
  | yaml
  deriving Repr, DecidableEq

/-- Why a document or text is no configuration. -/
inductive Failure where
  /-- The document is none of the values that configurations are written as. -/
  | notAnObject (kind : String)
  /-- Some field has no value of its kind. -/
  | invalid
  /-- The text is not of its format. -/
  | unreadable
  /-- The text holds a document that is no mapping. -/
  | noObjectIn (format : Format)
  deriving Repr, DecidableEq

namespace Failure

/-- The wording of each failure. -/
def message : Failure → String
  | notAnObject kind => "Expression builder configuration must be an object, got " ++ kind
  | invalid => "Invalid expression builder configuration"
  | unreadable => "Failed to parse expression builder configuration"
  | noObjectIn .json =>
    "Failed to parse expression builder configuration: Parsed JSON configuration must be an object"
  | noObjectIn .yaml =>
    "Failed to parse expression builder configuration: Parsed YAML configuration must be an object"

/-- The error of a failure. -/
def error (f : Failure) : ExprError := { cause := .configuration f.message }

end Failure

/-- The name of the kind of a document, in messages. -/
def kindName : Document → String
  | .null => "NoneType"
  | .bool _ => "bool"
  | .int _ => "int"
  | .float _ => "float"
  | .text _ => "str"
  | .list _ => "list"
  | .mapping _ => "dict"
  | .other => "object"

/-- The configuration of a document; null is the default one. -/
def ofDocument : Document → Except Failure Config
  | .null => .ok {}
  | .mapping entries =>
    match ofEntries? entries with
    | some c => .ok c
    | none => .error .invalid
  | d => .error (.notAnObject (kindName d))

/-- The format that a text seems to have. -/
def formatOf (t : Text) : Format :=
  match t.dropWhile Text.isBlank with
  | '\x7b' :: _ => .json
  | '[' :: _ => .json
  | _ => .yaml

/-- Reads the mapping that a text writes; a YAML text without a document is an empty one. -/
def readEntries (format : Format) (t : Text) : Except Failure Entries :=
  match format, (match format with
    | .json => Json.read? t
    | .yaml => Yaml.read? t) with
  | _, none => .error .unreadable
  | _, some (.mapping entries) => .ok entries
  | .yaml, some .null => .ok []
  | format, some _ => .error (.noObjectIn format)

/-- The configuration that a text writes, in the format given or else in the one it seems to have. -/
def load (t : Text) (format : Option Format) : Except Failure Config := do
  ofDocument (.mapping (← readEntries (format.getD (formatOf t)) t))

/-! ## Builders -/

/-- The builder of a configuration. -/
def builder {κ : Type} (c : Config) : Except RegistrationError (Builder κ) := do
  let start : Builder κ := if c.includeDefaults then .standard c.limits else .bare c.limits
  let compared := if c.comparativeOperators then start.withComparisons else start
  let split ← c.tokens.foldlM Builder.withToken compared
  return c.vars.entries.foldl (fun b e => b.withVariable e.1 e.2) split

end Config

end Mixfix
