import Stylesheet.Tree.Kind

/-!
# Trees of sheets

A sheet is a list of statements. Every node that comes from source text has the line it starts on; nodes made
by a program may have none.
-/

namespace Stylesheet

/-- A name, bound to a value in an assignment, a definition or a parameter with a default. -/
structure Identifier (α : Type) where
  name : String
  value : Option α := none
  /-- A place inside a mixin that its caller fills. -/
  placeholder : Bool := false
  /-- Takes all remaining arguments. -/
  rest : Bool := false
  line : Option Nat := none

/-- Operands separated by spaces. -/
structure Expression (α : Type) where
  operands : List α := []
  line : Option Nat := none

/-- The statements of a rule, a callable or a branch. -/
structure Body (α : Type) where
  statements : List α := []
  line : Option Nat := none

structure QuotedText where
  text : String
  quote : String := ""
deriving DecidableEq

/-- The text holds its delimiters. -/
structure Comment where
  text : String
  /-- Not worth keeping when the output is compressed. -/
  suppressed : Bool := false
  line : Option Nat := none
deriving DecidableEq

inductive Node
  | null
  | literal (text : String) (line : Option Nat)
  | identifier (id : Identifier Node)
  | number (value : Float) (suffix : Option String)
  | quoted (q : QuotedText)
  | boolean (value : Bool)
  | color (text : String)
  | expression (e : Expression Node)
  | arguments (args : List Node)
  | block (body : Body Node)
  | selector (segments : List Node) (line : Option Nat)
  | ruleSet (selectors : List Node) (body : Option (Body Node)) (line : Option Nat)
  | property (segments : List Node) (value : Expression Node) (line : Option Nat)
  | call (name : String) (args : List Node) (body : Option (Body Node)) (line : Option Nat)
  | callable (name : String) (params : List (Identifier Node)) (body : Option (Body Node)) (line : Option Nat)
  | returned (value : Expression Node) (line : Option Nat)
  | conditional (condition : Node) (body : Option (Body Node)) (alternatives : List Node) (negated : Bool)
      (line : Option Nat)
  | loop (item : String) (key : Option String) (iterable : Option (Expression Node))
      (body : Option (Body Node)) (line : Option Nat)
  | binary (operator : String) (left right : Node)
  | unary (operator : String) (operand : Node)
  | keyframes (segments : List Node) (body : Option (Body Node)) (line : Option Nat)
  | media (query : Node) (body : Option (Body Node)) (line : Option Nat)
  | queryList (queries : List Node)
  | query (features : List Node) (medium : Option Node) (predicate : Option String)
  | feature (segments : List Node) (value : Option (Expression Node))
  | supports (condition : Node) (body : Option (Body Node)) (line : Option Nat)
  | xmlNamespace (value : Node) (shortName : Option String) (line : Option Nat)
  | charset (encoding : QuotedText) (line : Option Nat)
  | importSheet (path : Expression Node) (line : Option Nat)
  | extend (selectors : List Node) (line : Option Nat)
  | atRule (name : String) (segments : List Node) (body : Option (Body Node)) (line : Option Nat)
  | comment (c : Comment)
  | member (left right : Node)
  | mapLiteral (entries : List (String × Node)) (line : Option Nat)

structure Sheet where
  statements : List Node := []

namespace Node

def kind : Node → Kind
  | null => .null
  | literal .. => .literal
  | identifier .. => .identifier
  | number .. => .number
  | quoted .. => .quoted
  | boolean .. => .boolean
  | color .. => .color
  | expression .. => .expression
  | arguments .. => .arguments
  | block .. => .block
  | selector .. => .selector
  | ruleSet .. => .ruleSet
  | property .. => .property
  | call .. => .call
  | callable .. => .callable
  | returned .. => .returned
  | conditional .. => .conditional
  | loop .. => .loop
  | binary .. => .binary
  | unary .. => .unary
  | keyframes .. => .keyframes
  | media .. => .media
  | queryList .. => .queryList
  | query .. => .query
  | feature .. => .feature
  | supports .. => .supports
  | xmlNamespace .. => .xmlNamespace
  | charset .. => .charset
  | importSheet .. => .importSheet
  | extend .. => .extend
  | atRule .. => .atRule
  | comment .. => .comment
  | member .. => .member
  | mapLiteral .. => .mapLiteral

/-- The operands, statements or parts that a node lists; a node of another shape lists none. -/
def children : Node → List Node
  | expression e => e.operands
  | arguments args => args
  | block body => body.statements
  | ruleSet selectors _ _ => selectors
  | queryList queries => queries
  | query features _ _ => features
  | _ => []

/-- The line a node starts on. Values other than literals, names, expressions, calls and maps carry none. -/
def line : Node → Option Nat
  | literal _ line => line
  | identifier id => id.line
  | expression e => e.line
  | block body => body.line
  | selector _ line => line
  | ruleSet _ _ line => line
  | property _ _ line => line
  | call _ _ _ line => line
  | callable _ _ _ line => line
  | returned _ line => line
  | conditional _ _ _ _ line => line
  | loop _ _ _ _ line => line
  | keyframes _ _ line => line
  | media _ _ line => line
  | supports _ _ line => line
  | xmlNamespace _ _ line => line
  | charset _ line => line
  | importSheet _ line => line
  | extend _ line => line
  | atRule _ _ _ line => line
  | comment c => c.line
  | mapLiteral _ line => line
  | _ => none

end Node

/-- Whether a name is bound; a bound null node counts as no value. -/
def Identifier.isBound (id : Identifier Node) : Bool :=
  match id.value with
  | none | some .null => false
  | some _ => true

def Node.bareName? : Node → Option String
  | identifier id => if id.isBound then none else some id.name
  | _ => none

end Stylesheet
