import Stylesheet.Load.Scalar
import Stylesheet.Tree.Node

/-!
# Fields of nodes

Which fields a node of each kind has in JSON, and how a node is put together from the fields that were found.
A field may be required, have a default, or be optional; optional fields alone accept `null`. A list of the fields may
end in front of fields that have a default, and of some optional ones.
-/

namespace Stylesheet

inductive FieldType
  | text
  /-- A text, empty by default. -/
  | defaultText
  | optionalText
  | boolean
  /-- A truth value, false by default. -/
  | flag
  | real
  | line
  | node
  | optionalNode
  | nodes
  | arguments
  | body
  | path
  /-- An expression, empty by default. -/
  | expression
  | optionalExpression
  /-- An optional expression that no list ends in front of. -/
  | iterable
  | params
  | quoted
  | entries
deriving Repr, DecidableEq

abbrev Schema := List (String × FieldType)

inductive Part
  | absent
  | text (s : String)
  | flag (b : Bool)
  | real (x : Float)
  | line (n : Nat)
  | node (n : Node)
  | nodes (ns : List Node)
  | body (b : Body Node)
  | expression (e : Expression Node)
  | params (ids : List (Identifier Node))
  | quoted (q : QuotedText)
  | entries (es : List (String × Node))

/-- Fields in the order of reading. -/
abbrev Parts := List (String × Part)

namespace Part

def text? : Part → Option String | text s => some s | _ => none
def flag? : Part → Option Bool | flag b => some b | _ => none
def real? : Part → Option Float | real x => some x | _ => none
def line? : Part → Option Nat | line n => some n | _ => none
def node? : Part → Option Node | node n => some n | _ => none
def nodes? : Part → Option (List Node) | nodes ns => some ns | _ => none
def body? : Part → Option (Body Node) | body b => some b | _ => none
def expression? : Part → Option (Expression Node) | expression e => some e | _ => none
def params? : Part → Option (List (Identifier Node)) | params ids => some ids | _ => none
def quoted? : Part → Option QuotedText | quoted q => some q | _ => none
def entries? : Part → Option (List (String × Node)) | entries es => some es | _ => none

end Part

namespace Parts

def optional {α : Type} (view : Part → Option α) (ps : Parts) (key : String) : Option α :=
  (ps.lookup key).bind view

def required {α : Type} (view : Part → Option α) (ps : Parts) (key : String) : Except LoadFault α :=
  match optional view ps key with
  | some a => .ok a
  | none => .error (.missing key)

def flag (ps : Parts) (key : String) : Bool := (optional Part.flag? ps key).getD false

def nodes (ps : Parts) (key : String) : List Node := (optional Part.nodes? ps key).getD []

def expression (ps : Parts) (key : String) : Expression Node := (optional Part.expression? ps key).getD {}

def line (ps : Parts) : Option Nat := optional Part.line? ps "lineno"

def body (ps : Parts) : Option (Body Node) := optional Part.body? ps "block"

end Parts

namespace FieldType

def isOptional : FieldType → Bool
  | optionalText | line | optionalNode | body | optionalExpression | iterable => true
  | _ => false

/-- What a field that is not optional holds if it is missing. -/
def default? : FieldType → Option Part
  | defaultText => some (.text "")
  | flag => some (.flag false)
  | nodes | arguments => some (.nodes [])
  | expression => some (.expression {})
  | params => some (.params [])
  | entries => some (.entries [])
  | _ => none

/-- Whether a list of the fields may end in front of the field. -/
def mayMiss : FieldType → Bool
  | optionalText | optionalNode | optionalExpression => true
  | type => type.default?.isSome

end FieldType

namespace Schema

def identifier : Schema :=
  [("name", .text), ("val", .optionalNode), ("mixin", .flag), ("rest", .flag), ("lineno", .line)]

def listOf : Schema := [("nodes", .nodes), ("lineno", .line)]

def arguments : Schema := [("nodes", .nodes)]

def quoted : Schema := [("val", .text), ("quote", .defaultText)]

def comment : Schema := [("str", .text), ("suppress", .flag), ("lineno", .line)]

def ofKind : Kind → Schema
  | .null => []
  | .literal => [("val", .text), ("lineno", .line)]
  | .identifier => identifier
  | .number => [("val", .real), ("type", .optionalText)]
  | .quoted => quoted
  | .boolean => [("val", .boolean)]
  | .color => [("raw", .text)]
  | .expression => listOf
  | .arguments => arguments
  | .block => listOf
  | .selector => [("segments", .nodes), ("lineno", .line)]
  | .ruleSet => [("nodes", .nodes), ("block", .body), ("lineno", .line)]
  | .property => [("segments", .nodes), ("expr", .expression), ("lineno", .line)]
  | .call => [("name", .text), ("args", .arguments), ("block", .body), ("lineno", .line)]
  | .callable => [("name", .text), ("params", .params), ("block", .body), ("lineno", .line)]
  | .returned => [("expr", .expression), ("lineno", .line)]
  | .conditional =>
    [("cond", .node), ("block", .body), ("elses", .nodes), ("negate", .flag), ("lineno", .line)]
  | .loop =>
    [("val", .text), ("key", .optionalText), ("expr", .iterable), ("block", .body), ("lineno", .line)]
  | .binary => [("op", .text), ("left", .node), ("right", .node)]
  | .unary => [("op", .text), ("expr", .node)]
  | .keyframes => [("segments", .nodes), ("block", .body), ("lineno", .line)]
  | .media => [("val", .node), ("block", .body), ("lineno", .line)]
  | .queryList => [("nodes", .nodes)]
  | .query => [("nodes", .nodes), ("type", .optionalNode), ("predicate", .optionalText)]
  | .feature => [("segments", .nodes), ("expr", .optionalExpression)]
  | .supports => [("condition", .node), ("block", .body), ("lineno", .line)]
  | .xmlNamespace => [("val", .node), ("prefix", .optionalText), ("lineno", .line)]
  | .charset => [("val", .quoted), ("lineno", .line)]
  | .importSheet => [("path", .path), ("lineno", .line)]
  | .extend => [("selectors", .nodes), ("lineno", .line)]
  | .atRule => [("type", .text), ("segments", .nodes), ("block", .body), ("lineno", .line)]
  | .comment => comment
  | .member => [("left", .node), ("right", .node)]
  | .mapLiteral => [("vals", .entries), ("lineno", .line)]

end Schema

/-- The name and the fields of the record in a field, if it is no node. -/
def FieldType.record? : FieldType → Option (String × Schema)
  | body => some ("Block", Schema.listOf)
  | path | expression | optionalExpression | iterable => some ("Expression", Schema.listOf)
  | arguments => some ("Arguments", Schema.arguments)
  | quoted => some ("Str", Schema.quoted)
  | _ => none

namespace Assemble

open Parts

def identifier (ps : Parts) : Except LoadFault (Identifier Node) := do
  return {
    name := ← required Part.text? ps "name"
    value := optional Part.node? ps "val"
    placeholder := flag ps "mixin"
    rest := flag ps "rest"
    line := line ps }

def expression (ps : Parts) : Expression Node := ⟨nodes ps "nodes", line ps⟩

def body (ps : Parts) : Body Node := ⟨nodes ps "nodes", line ps⟩

def quoted (ps : Parts) : Except LoadFault QuotedText := do
  return ⟨← required Part.text? ps "val", (optional Part.text? ps "quote").getD ""⟩

def comment (ps : Parts) : Except LoadFault Comment := do
  return ⟨← required Part.text? ps "str", flag ps "suppress", line ps⟩

/-- The value of a field that holds a record, from the parts of the record. -/
def part (type : FieldType) (ps : Parts) : Except LoadFault Part :=
  match type with
  | .body => return .body (body ps)
  | .arguments => return .nodes (nodes ps "nodes")
  | .quoted => return .quoted (← quoted ps)
  | _ => return .expression (expression ps)

/-- Required fields are looked for in the order of their declaration. -/
def node (kind : Kind) (ps : Parts) : Except LoadFault Node := do
  match kind with
  | .null => return .null
  | .literal => return .literal (← required Part.text? ps "val") (line ps)
  | .identifier => return .identifier (← identifier ps)
  | .number => return .number (← required Part.real? ps "val") (optional Part.text? ps "type")
  | .quoted => return .quoted (← quoted ps)
  | .boolean => return .boolean (← required Part.flag? ps "val")
  | .color => return .color (← required Part.text? ps "raw")
  | .expression => return .expression (expression ps)
  | .arguments => return .arguments (nodes ps "nodes")
  | .block => return .block (body ps)
  | .selector => return .selector (nodes ps "segments") (line ps)
  | .ruleSet => return .ruleSet (nodes ps "nodes") (Parts.body ps) (line ps)
  | .property => return .property (nodes ps "segments") (Parts.expression ps "expr") (line ps)
  | .call => return .call (← required Part.text? ps "name") (nodes ps "args") (Parts.body ps) (line ps)
  | .callable =>
    return .callable (← required Part.text? ps "name") ((optional Part.params? ps "params").getD [])
      (Parts.body ps) (line ps)
  | .returned => return .returned (Parts.expression ps "expr") (line ps)
  | .conditional =>
    return .conditional (← required Part.node? ps "cond") (Parts.body ps) (nodes ps "elses")
      (flag ps "negate") (line ps)
  | .loop =>
    return .loop (← required Part.text? ps "val") (optional Part.text? ps "key")
      (optional Part.expression? ps "expr") (Parts.body ps) (line ps)
  | .binary =>
    return .binary (← required Part.text? ps "op") (← required Part.node? ps "left")
      (← required Part.node? ps "right")
  | .unary => return .unary (← required Part.text? ps "op") (← required Part.node? ps "expr")
  | .keyframes => return .keyframes (nodes ps "segments") (Parts.body ps) (line ps)
  | .media => return .media (← required Part.node? ps "val") (Parts.body ps) (line ps)
  | .queryList => return .queryList (nodes ps "nodes")
  | .query =>
    return .query (nodes ps "nodes") (optional Part.node? ps "type") (optional Part.text? ps "predicate")
  | .feature => return .feature (nodes ps "segments") (optional Part.expression? ps "expr")
  | .supports => return .supports (← required Part.node? ps "condition") (Parts.body ps) (line ps)
  | .xmlNamespace =>
    return .xmlNamespace (← required Part.node? ps "val") (optional Part.text? ps "prefix") (line ps)
  | .charset => return .charset (← required Part.quoted? ps "val") (line ps)
  | .importSheet => return .importSheet (← required Part.expression? ps "path") (line ps)
  | .extend => return .extend (nodes ps "selectors") (line ps)
  | .atRule =>
    return .atRule (← required Part.text? ps "type") (nodes ps "segments") (Parts.body ps) (line ps)
  | .comment => return .comment (← comment ps)
  | .member => return .member (← required Part.node? ps "left") (← required Part.node? ps "right")
  | .mapLiteral => return .mapLiteral ((optional Part.entries? ps "vals").getD []) (line ps)

end Assemble

end Stylesheet
