import Stylesheet.Json.Printer
import Stylesheet.Tree.Node

/-!
# Trees as JSON

Every field is written out, absent ones as `null`. Nodes carry the tag of their kind; bodies, expressions,
parameters and other parts of a fixed type carry none.
-/

namespace Stylesheet.Encode

def listOf (items : List Json) (line : Option Nat) : Json :=
  .record [("nodes", .list items), ("lineno", .ofNat? line)]

def quoted (q : QuotedText) : Json := .record [("val", .text q.text), ("quote", .text q.quote)]

def identifierFields (id : Identifier Node) (value : Json) : List (String × Json) :=
  [("name", .text id.name), ("val", value), ("mixin", .boolean id.placeholder), ("rest", .boolean id.rest),
    ("lineno", .ofNat? id.line)]

def tagged (kind : Kind) (fields : List (String × Json)) : Json :=
  .record (("__type", .text kind.tag) :: fields)

mutual

def node : Node → Json
  | .null => tagged .null []
  | .literal text line => tagged .literal [("val", .text text), ("lineno", .ofNat? line)]
  | .identifier id => tagged .identifier (identifierFields id (optional id.value))
  | .number value suffix => tagged .number [("val", .number (.real value)), ("type", .ofString? suffix)]
  | .quoted q => tagged .quoted [("val", .text q.text), ("quote", .text q.quote)]
  | .boolean value => tagged .boolean [("val", .boolean value)]
  | .color text => tagged .color [("raw", .text text)]
  | .expression e => tagged .expression [("nodes", .list (nodes e.operands)), ("lineno", .ofNat? e.line)]
  | .arguments args => tagged .arguments [("nodes", .list (nodes args))]
  | .block body => tagged .block [("nodes", .list (nodes body.statements)), ("lineno", .ofNat? body.line)]
  | .selector segments line => tagged .selector
    [("segments", .list (nodes segments)), ("lineno", .ofNat? line)]
  | .ruleSet selectors b line => tagged .ruleSet
    [("nodes", .list (nodes selectors)), ("block", body b), ("lineno", .ofNat? line)]
  | .property segments value line => tagged .property
    [("segments", .list (nodes segments)), ("expr", listOf (nodes value.operands) value.line),
      ("lineno", .ofNat? line)]
  | .call name args b line => tagged .call
    [("name", .text name), ("args", .record [("nodes", .list (nodes args))]), ("block", body b),
      ("lineno", .ofNat? line)]
  | .callable name ps b line => tagged .callable
    [("name", .text name), ("params", .list (params ps)), ("block", body b), ("lineno", .ofNat? line)]
  | .returned value line => tagged .returned
    [("expr", listOf (nodes value.operands) value.line), ("lineno", .ofNat? line)]
  | .conditional condition b alternatives negated line => tagged .conditional
    [("cond", node condition), ("block", body b), ("elses", .list (nodes alternatives)),
      ("negate", .boolean negated), ("lineno", .ofNat? line)]
  | .loop item key iterable b line => tagged .loop
    [("val", .text item), ("key", .ofString? key), ("expr", expression iterable), ("block", body b),
      ("lineno", .ofNat? line)]
  | .binary operator left right => tagged .binary
    [("op", .text operator), ("left", node left), ("right", node right)]
  | .unary operator operand => tagged .unary [("op", .text operator), ("expr", node operand)]
  | .keyframes segments b line => tagged .keyframes
    [("segments", .list (nodes segments)), ("block", body b), ("lineno", .ofNat? line)]
  | .media query b line => tagged .media [("val", node query), ("block", body b), ("lineno", .ofNat? line)]
  | .queryList queries => tagged .queryList [("nodes", .list (nodes queries))]
  | .query features medium predicate => tagged .query
    [("nodes", .list (nodes features)), ("type", optional medium),
      ("predicate", .ofString? predicate)]
  | .feature segments value => tagged .feature
    [("segments", .list (nodes segments)), ("expr", expression value)]
  | .supports condition b line => tagged .supports
    [("condition", node condition), ("block", body b), ("lineno", .ofNat? line)]
  | .xmlNamespace value shortName line => tagged .xmlNamespace
    [("val", node value), ("prefix", .ofString? shortName), ("lineno", .ofNat? line)]
  | .charset encoding line => tagged .charset [("val", quoted encoding), ("lineno", .ofNat? line)]
  | .importSheet path line => tagged .importSheet
    [("path", listOf (nodes path.operands) path.line), ("lineno", .ofNat? line)]
  | .extend selectors line => tagged .extend
    [("selectors", .list (nodes selectors)), ("lineno", .ofNat? line)]
  | .atRule name segments b line => tagged .atRule
    [("type", .text name), ("segments", .list (nodes segments)), ("block", body b), ("lineno", .ofNat? line)]
  | .comment c => tagged .comment
    [("str", .text c.text), ("suppress", .boolean c.suppressed), ("lineno", .ofNat? c.line)]
  | .member left right => tagged .member [("left", node left), ("right", node right)]
  | .mapLiteral es line => tagged .mapLiteral [("vals", .record (entries es)), ("lineno", .ofNat? line)]
termination_by structural n => n

def nodes : List Node → List Json
  | [] => []
  | n :: ns => node n :: nodes ns
termination_by structural ns => ns

def optional : Option Node → Json
  | none => .null
  | some n => node n
termination_by structural n => n

def params : List (Identifier Node) → List Json
  | [] => []
  | id :: ids => .record (identifierFields id (optional id.value)) :: params ids
termination_by structural ids => ids

def body : Option (Body Node) → Json
  | none => .null
  | some b => listOf (nodes b.statements) b.line
termination_by structural b => b

def expression : Option (Expression Node) → Json
  | none => .null
  | some e => listOf (nodes e.operands) e.line
termination_by structural e => e

def entries : List (String × Node) → List (String × Json)
  | [] => []
  | (k, n) :: es => (k, node n) :: entries es
termination_by structural es => es

end

def sheet (s : Sheet) : Json := .record [("nodes", .list (nodes s.statements))]

end Stylesheet.Encode
