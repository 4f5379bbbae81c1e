import Stylesheet.Render.AtRule
import Stylesheet.Render.Branching
import Stylesheet.Render.Callable
import Stylesheet.Render.Comment
import Stylesheet.Render.Definition

/-!
# Rendering trees

One recursion over the nodes and the lists they hold; what is written for a kind of node is in the module of
its construct. The rendering of bare names is an argument, so that what they read as in a part of a sheet can be told by
another function that spells them.
-/

namespace Stylesheet.Render

open Rendering

mutual

def nodeWith (ref : Identifier Node → Rendering String) : Node → Rendering String
  | .null => return ""
  | .literal text _ => return text
  | .identifier ⟨name, value, placeholder, rest, line⟩ =>
    match value with
    | none => ref ⟨name, none, placeholder, rest, line⟩
    | some .null => ref ⟨name, some .null, placeholder, rest, line⟩
    | some (.expression e) => assignment name e (eachWith ref e.operands)
    | some (.callable definedName ps b l) => nodeWith ref (.callable definedName ps b l)
    | some v => boundValue name line (nodeWith ref v)
  | .number value suffix => return number value ++ suffix.getD ""
  | .quoted q => return quoted q
  | .boolean value => return if value then "true" else "false"
  | .color text => return text
  | .expression e => expression e (eachWith ref e.operands)
  | .arguments args => arguments (eachWith ref args)
  | .block b => bodyWith ref b
  | .selector segments _ => selector segments (eachWith ref segments)
  | .ruleSet _ none _ => missing .ruleSet .body
  | .ruleSet selectors (some b) line => ruleSet line (eachWith ref selectors) (bodyWith ref b)
  | .property segments value line =>
    property line (named segments (eachWith ref segments)) value (expression value (eachWith ref value.operands))
  | .call name args none line => call name line (eachWith ref args) none
  | .call name args (some b) line => call name line (eachWith ref args) (some (bodyWith ref b))
  | .callable _ _ none _ => missing .callable .body
  | .callable name ps (some b) line =>
    callable name line (.ofBody b.statements) (ps.map (·.name)) (paramsWith ref ps) (bodyWith ref b)
  | .returned value line => returned line (expression value (eachWith ref value.operands))
  | .conditional _ none _ _ _ => missing .conditional .body
  | .conditional condition (some b) alts negated line =>
    conditional (.leading line) negated (nodeWith ref condition) (bodyWith ref b) (alternativesWith ref alts)
  | .loop _ _ none _ _ => missing .loop .iterable
  | .loop _ _ (some _) none _ => missing .loop .body
  | .loop item key (some e) (some b) line =>
    loop item key line e (rangesWith ref e.operands) (eachWith ref e.operands) (bodyWith ref b)
  | .binary operator left right => do
    let leftText ← nodeWith ref left
    let rightText ← nodeWith ref right
    return binary operator right leftText rightText
  | .unary operator operand => return unary operator (← nodeWith ref operand)
  | .keyframes _ none _ => missing .keyframes .body
  | .keyframes segments (some b) line =>
    keyframes line segments b.statements (eachWith ref segments) (bodyWith ref b)
  | .media _ none _ => missing .media .body
  | .media q (some b) line => conditionRule "@media " line (nodeWith ref q) (bodyWith ref b)
  | .queryList queries => return ", ".intercalate (← eachWith ref queries)
  | .query features medium predicate => do
    let mediumText ← optionalWith ref medium
    return query predicate mediumText (← eachWith ref features)
  | .feature segments none => return feature (← named segments (eachWith ref segments)) none
  | .feature segments (some value) => do
    let name ← named segments (eachWith ref segments)
    return feature name (some (← expression value (eachWith ref value.operands)))
  | .supports _ none _ => missing .supports .body
  | .supports condition (some b) line =>
    conditionRule "@supports " line (nodeWith ref condition) (bodyWith ref b)
  | .xmlNamespace value shortName line => xmlNamespace line shortName (nodeWith ref value)
  | .charset encoding line => charset line encoding
  | .importSheet path line => importSheet line path.operands (eachWith ref path.operands)
  | .extend selectors line => extend line selectors (eachWith ref selectors)
  | .atRule name segments none line => atRule name line segments (eachWith ref segments) none
  | .atRule name segments (some b) line =>
    atRule name line segments (eachWith ref segments) (some (bodyWith ref b))
  | .comment c => comment c false
  | .member left right => member left right (nodeWith ref left) (nodeWith ref right)
  | .mapLiteral es line => mapLiteral line (entriesWith ref es)
termination_by structural n => n

def eachWith (ref : Identifier Node → Rendering String) : List Node → Rendering (List String)
  | [] => return []
  | n :: ns => do
    let text ← nodeWith ref n
    return text :: (← eachWith ref ns)
termination_by structural ns => ns

def bodyWith (ref : Identifier Node → Rendering String) : Body Node → Rendering String
  | ⟨ss, _⟩ => block (statementsWith ref none ss)
termination_by structural b => b

def optionalWith (ref : Identifier Node → Rendering String) : Option Node → Rendering String
  | none => return ""
  | some n => nodeWith ref n
termination_by structural n => n

/-- Statements in a row; `previous` is the line of the one before. A comment on that line stays there. -/
def statementsWith (ref : Identifier Node → Rendering String) (previous : Option Nat) :
    List Node → Rendering String
  | [] => return ""
  | .comment c :: ns => do
    let text ← comment c (c.line.isSome && previous == c.line)
    return text ++ (← statementsWith ref c.line ns)
  | n :: ns => do
    let text ← nodeWith ref n
    return text ++ (← statementsWith ref n.line ns)
termination_by structural ns => ns

def alternativesWith (ref : Identifier Node → Rendering String) : List Node → Rendering (List String)
  | [] => return []
  | .conditional condition (some b) alts negated _ :: ns => do
    let text ← chained <|
      conditional .chained negated (nodeWith ref condition) (bodyWith ref b) (alternativesWith ref alts)
    return text :: (← alternativesWith ref ns)
  | .block b :: ns => do
    let text ← chained (otherwise (bodyWith ref b))
    return text :: (← alternativesWith ref ns)
  | .conditional .. :: _ => chained (missing .conditional .body)
  | _ :: _ => chained (missing .conditional .elseBody)
termination_by structural ns => ns

/-- What a loop over a range goes through: ranges, lists of them, and single values. -/
def rangesWith (ref : Identifier Node → Rendering String) : List Node → Rendering (List String)
  | [] => return []
  | .binary operator left right :: ns => do
    let text ←
      if Operator.spansRange operator then do
        let start ← nodeWith ref left
        let stop ← nodeWith ref right
        pure (bounds operator start stop)
      else nodeWith ref (.binary operator left right)
    return text :: (← rangesWith ref ns)
  | .expression e :: ns => do
    let text := " ".intercalate (← rangesWith ref e.operands)
    return text :: (← rangesWith ref ns)
  | n :: ns => do
    let text ← nodeWith ref n
    return text :: (← rangesWith ref ns)
termination_by structural ns => ns

def paramsWith (ref : Identifier Node → Rendering String) : List (Identifier Node) → Rendering (List String)
  | [] => return []
  | id :: ids => do
    let text ← param id (optionalWith ref id.value)
    return text :: (← paramsWith ref ids)
termination_by structural ids => ids

def entriesWith (ref : Identifier Node → Rendering String) :
    List (String × Node) → Rendering (List (String × String))
  | [] => return []
  | (key, n) :: es => do
    let text ← nodeWith ref n
    return (key, text) :: (← entriesWith ref es)
termination_by structural es => es

end

abbrev node : Node → Rendering String := nodeWith reference

abbrev each : List Node → Rendering (List String) := eachWith reference

abbrev body : Body Node → Rendering String := bodyWith reference

abbrev optional : Option Node → Rendering String := optionalWith reference

abbrev statements : Option Nat → List Node → Rendering String := statementsWith reference

abbrev alternatives : List Node → Rendering (List String) := alternativesWith reference

abbrev ranges : List Node → Rendering (List String) := rangesWith reference

abbrev params : List (Identifier Node) → Rendering (List String) := paramsWith reference

abbrev entries : List (String × Node) → Rendering (List (String × String)) := entriesWith reference

end Stylesheet.Render
