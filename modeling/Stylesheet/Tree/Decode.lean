import Stylesheet.Tree.Entries
import Stylesheet.Tree.Schema

/-!
# Trees from JSON

Fields are decoded in reading order and the first fault is kept; fields that a node does not have are ignored. A list
stands for a record if its items are the fields in order, behind the tag if the record is a node. Inside a complete
value a node may also give the number of its kind as its tag.
-/

namespace Stylesheet.Decode

def knownTags : List String := Kind.all.map Kind.tag

def tagText (tag : String) : Except LoadFault Kind :=
  match Kind.ofTag? tag with
  | some kind => .ok kind
  | none => .error (.unknownTag tag knownTags)

def tag : Json → Except LoadFault Kind
  | .text s => tagText s
  | .number (.integer (.ofNat n)) =>
    match Kind.all[n]? with
    | some kind => .ok kind
    | none => .error (.wrongValue (.integer n) (.tagNumber Kind.all.length))
  | j => .error (.wrongType j.found .tag)

/-- The kind that the entries of a node name, once and anywhere among them. -/
def kind (seen : Option Kind) : List (String × Json) → Except LoadFault Kind
  | [] =>
    match seen with
    | some k => .ok k
    | none => .error (.missing "__type")
  | (key, j) :: es =>
    if key = "__type" then
      match seen with
      | some _ => .error (.duplicate key)
      | none => do kind (some (← tag j)) es
    else kind seen es

/-- A field whose value holds no nodes: a single value, an absent one, or one of a wrong type. -/
def leaf (type : FieldType) (j : Json) : Except LoadFault Part :=
  let refused (expected : Expected) : Except LoadFault Part :=
    match type.isOptional, j with
    | true, .null => .ok .absent
    | _, _ => .error (.wrongType j.found expected)
  match type with
  | .text | .defaultText => (text j).map .text
  | .optionalText => (optional text j).map fun s => s.elim .absent .text
  | .boolean | .flag => (boolean j).map .flag
  | .real => (real j).map .real
  | .line => (optional natural j).map fun n => n.elim .absent .line
  | .node | .optionalNode => refused .node
  | .nodes | .params => refused .list
  | .entries => refused .record
  | .arguments => refused (.fields "Arguments")
  | .body => refused (.fields "Block")
  | .path | .expression | .optionalExpression | .iterable => refused (.fields "Expression")
  | .quoted => refused (.fields "Str")

mutual

def node : Json → Except LoadFault Node
  | .record es => do
    let k ← kind none es
    Assemble.node k (← fields (Schema.ofKind k) [] es)
  | .list [] => .error (.missing "__type")
  | .list (j :: js) => do
    let k ← tag j
    Assemble.node k (← row k.recordName 0 (Schema.ofKind k) js)
  | j => .error (.wrongType j.found .node)
termination_by structural j => j

def param : Json → Except LoadFault (Identifier Node)
  | .record es => do Assemble.identifier (← fields Schema.identifier [] es)
  | .list js => do Assemble.identifier (← row "Ident" 0 Schema.identifier js)
  | j => .error (.wrongType j.found (.fields "Ident"))
termination_by structural j => j

def part (type : FieldType) : Json → Except LoadFault Part
  | .record es =>
    match type with
    | .node | .optionalNode => do
      let k ← kind none es
      return .node (← Assemble.node k (← fields (Schema.ofKind k) [] es))
    | .entries => do return .entries (Entries.distinct (← entries es))
    | _ =>
      match type.record? with
      | some (_, schema) => do Assemble.part type (← fields schema [] es)
      | none => leaf type (.record es)
  | .list js =>
    match type with
    | .node | .optionalNode =>
      match js with
      | [] => .error (.missing "__type")
      | j :: js => do
        let k ← tag j
        return .node (← Assemble.node k (← row k.recordName 0 (Schema.ofKind k) js))
    | .nodes => do return .nodes (← nodes js)
    | .params => do return .params (← params js)
    | _ =>
      match type.record? with
      | some (name, schema) => do Assemble.part type (← row name 0 schema js)
      | none => leaf type (.list js)
  | j => leaf type j
termination_by structural j => j

/-- The known fields among the entries; `seen` are those already met. -/
def fields (schema : Schema) (seen : List String) : List (String × Json) → Except LoadFault Parts
  | [] => .ok []
  | (key, j) :: es =>
    match schema.lookup key with
    | none => fields schema seen es
    | some type =>
      if key ∈ seen then .error (.duplicate key)
      else do
        let p ← part type j
        return (key, p) :: (← fields schema (key :: seen) es)
termination_by structural es => es

/-- The fields in a list, each at its place; `place` counts those before. -/
def row (name : String) (place : Nat) (schema : Schema) : List Json → Except LoadFault Parts
  | [] => do
    LoadFault.atEnd name place (schema.map fun field => field.2.mayMiss)
    return []
  | j :: js =>
    match schema with
    | [] => .error (.wrongLength (place + js.length + 1) (.items place))
    | (key, type) :: ahead => do
      let p ← part type j
      return (key, p) :: (← row name (place + 1) ahead js)
termination_by structural js => js

def nodes : List Json → Except LoadFault (List Node)
  | [] => .ok []
  | j :: js => do return (← node j) :: (← nodes js)
termination_by structural js => js

def params : List Json → Except LoadFault (List (Identifier Node))
  | [] => .ok []
  | j :: js => do return (← param j) :: (← params js)
termination_by structural js => js

def entries : List (String × Json) → Except LoadFault (List (String × Node))
  | [] => .ok []
  | (k, j) :: es => do return (k, ← node j) :: (← entries es)
termination_by structural es => es

end

end Stylesheet.Decode
