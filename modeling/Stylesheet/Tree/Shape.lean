import Stylesheet.Tree.Node

/-!
# Shapes that decide the output

Sheets do not tell functions from mixins, maps from plain values or ranges from lists. Each decision looks
at a fixed part of the tree.
-/

namespace Stylesheet

inductive DefinitionKind
  | function
  | mixin
deriving Repr, DecidableEq

/-- A callable whose first statement is a declaration or a rule set is a mixin, any other one a function. -/
def DefinitionKind.ofBody : List Node → DefinitionKind
  | .property .. :: _ => .mixin
  | .ruleSet .. :: _ => .mixin
  | _ => .function

def DefinitionKind.name : DefinitionKind → String
  | function => "Function"
  | mixin => "Mixin"

namespace Node

def isMapLiteral : Node → Bool
  | mapLiteral .. => true
  | _ => false

def isExpression : Node → Bool
  | expression _ => true
  | _ => false

def chainStart? : Node → Option String
  | member left _ => chainStart? left
  | identifier id => some id.name
  | _ => none

def quotedText? : Node → Option QuotedText
  | quoted q => some q
  | _ => none

end Node

mutual

/-- Whether the node is a call that hands a block to its mixin, or a list that ends in one. -/
def Node.handsBlock : Node → Bool
  | .call _ _ body _ => body.isSome
  | .expression e => lastHandsBlock e.operands
  | _ => false
termination_by structural n => n

def lastHandsBlock : List Node → Bool
  | [] => false
  | [n] => n.handsBlock
  | _ :: ns => lastHandsBlock ns
termination_by structural ns => ns

end

namespace Operator

def spelling : String → String
  | "&&" => "and"
  | "||" => "or"
  | "!" => "not"
  | other => other

/-- Two dots include the end of a range, three exclude it. -/
def spansRange (operator : String) : Bool := operator == ".." || operator == "..."

end Operator

structure Range where
  operator : String
  left : Node
  right : Node

mutual

/-- The first range in a node or in the lists it consists of. -/
def Node.range? : Node → Option Range
  | .binary operator left right =>
    if Operator.spansRange operator then some ⟨operator, left, right⟩ else none
  | .expression e => firstRange? e.operands
  | _ => none
termination_by structural n => n

def firstRange? : List Node → Option Range
  | [] => none
  | n :: ns => n.range? <|> firstRange? ns
termination_by structural ns => ns

end

/-- An assigned value is a map if one of its operands is a map literal. -/
def Expression.holdsMap (e : Expression Node) : Bool := e.operands.any Node.isMapLiteral

def Expression.handsBlock (e : Expression Node) : Bool := lastHandsBlock e.operands

/-- The name assigned inside a declaration, if the value is one assignment and nothing else. -/
def Expression.inlineName? (e : Expression Node) : Option String :=
  match e.operands with
  | [.identifier id] =>
    match id.value with
    | some (.expression _) => some id.name
    | _ => none
  | _ => none

end Stylesheet
