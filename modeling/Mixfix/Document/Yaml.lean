import Mixfix.Document.Yaml.Node
import Mixfix.Document.Yaml.Plain

/-!
# Reading YAML

`Yaml.read?` reads a text of at most one document of YAML 1.1, without tag directives and with the tags of the core
types only. A text without a document is null. In a mapping the value of the key `<<`, a mapping or a sequence of
mappings, has its entries put before those of the mapping.
-/

namespace Mixfix.Yaml

/-- The tag of a core type. -/
def coreTag (name : String) : Text := ("tag:yaml.org,2002:" ++ name).toList

/-- The kind that a tag asks for, if it is that of a scalar. -/
def kindOfTag? (tag : Text) : Option Plain.Kind :=
  [("null", Plain.Kind.null), ("bool", .bool), ("int", .int), ("float", .float), ("str", .text)].findSome? fun p =>
    if tag == coreTag p.1 then some p.2 else none

/-- The tag of a collection is missing, says nothing, or is the given one. -/
def fits (tag : Option Text) (name : String) : Bool :=
  match tag with
  | none => true
  | some t => t == ['!'] || t == coreTag name

namespace Node

/-- What a plain scalar without a tag stands for. -/
def plainKind? : Node → Option Plain.Kind
  | .scalar none true text => some (Plain.kind text)
  | _ => none

/-- Whether a node is the key that merges a mapping. -/
def isMergeKey (n : Node) : Bool := n.plainKind? == some .merge

/-- A key, where the sign for the default value is text. -/
def asKey (n : Node) : Node :=
  match n with
  | .scalar none true text => if Plain.kind text = .default then .scalar none false text else n
  | _ => n

/-- The entries of the mappings of a list, those of later mappings first. -/
def entriesOfAll? : List Node → Option (List (Node × Node))
  | [] => some []
  | .mapping _ es :: ns => (entriesOfAll? ns).map (· ++ es)
  | _ => none

/-- The entries that a value merges. -/
def mergedEntries? : Node → Option (List (Node × Node))
  | .mapping _ es => some es
  | .sequence _ ns => entriesOfAll? ns
  | _ => none

/-- The entries of a mapping with those that are merged into it in front, as deep as the fuel goes. -/
def flatten? : (fuel : Nat) → List (Node × Node) → Option (List (Node × Node))
  | 0, _ => none
  | fuel + 1, entries => do
    let merged ← (entries.filter fun e => e.1.isMergeKey).mapM fun e => e.2.mergedEntries?
    let own := (entries.filter fun e => !e.1.isMergeKey).map fun e => (e.1.asKey, e.2)
    if merged.isEmpty then return own
    else return (← merged.mapM (flatten? fuel)).flatten ++ own

/-- The value of a scalar. -/
def scalarValue? (tag : Option Text) (plain : Bool) (text : Text) : Option Document :=
  match tag with
  | none => if plain then Plain.value? text (Plain.kind text) else some (.text text)
  | some tag => (kindOfTag? tag).bind (Plain.value? text)

/-- The value of a node, as deep as the fuel goes. Lists and mappings are no keys. -/
def value? : (fuel : Nat) → Node → Option Document
  | 0, _ => none
  | _ + 1, .scalar tag plain text => scalarValue? tag plain text
  | _ + 1, .unpaired => some .other
  | fuel + 1, .sequence tag items =>
    if fits tag "seq" then (items.mapM (value? fuel)).map .list else none
  | fuel + 1, .mapping tag entries =>
    if fits tag "map" then do
      let entries ← flatten? (fuel + 1) entries
      let bound ← entries.foldlM (fun bound e => do
        let key ← value? fuel e.1
        if !key.isKey then failure
        return Document.bind key (← value? fuel e.2) bound) []
      return .mapping bound
    else none

end Node

/-- Reads a text of at most one document. -/
def read? (t : Text) : Option Document := do
  match ← Node.ofLexemes? (← Lexeme.ofText? t) with
  | none => return .null
  | some n => n.value? (t.length + 2)

end Mixfix.Yaml
