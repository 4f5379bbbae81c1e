import Stylesheet.Decimal.Layout
import Stylesheet.Decimal.Word
import Stylesheet.Render.Pass
import Stylesheet.Text.Blank
import Stylesheet.Tree.Shape

/-!
# Values

Numbers, lists of operands, operations, calls, members and map literals. A construct takes the renderings of
its parts and runs each of them where its text belongs.
-/

namespace Stylesheet.Render

open Rendering

/-- Digits without an exponent; of two equally short decimals the one further from zero. -/
def numberLayout : DecimalLayout where
  tie := .up
  positional _ := true
  pointZero := false
  infinity := "inf"
  nan := "NaN"

/-- Integral values are written without a fraction, and only as far as 64 bits reach. -/
def number (x : Float) : String :=
  match FloatClass.ofFloat x with
  | .finite negative magnitude =>
    match magnitude.toNat? with
    | some n => toString (Word.clamp (if negative then -n else n))
    | none => numberLayout.write x
  | _ => numberLayout.write x

def quoted (q : QuotedText) : String := q.quote ++ q.text ++ q.quote

/-- In a declaration, lists inside a list are told apart by commas. -/
def separator (inValue : Bool) (operand : Node) : String :=
  if inValue && !operand.children.isEmpty then ", " else " "

def joinOperands (inValue : Bool) (operands : List Node) (texts : List String) : String :=
  match operands.zip texts with
  | [] => ""
  | (_, text) :: rest => text ++ String.join (rest.map fun (n, t) => separator inValue n ++ t)

/-- The start of a statement whose value is returned. -/
def returnStart (line : Option Nat) : Rendering String := do
  return (← lineStart line) ++ (← dialect).returnWord

/-- A list of operands. As a statement of a function it is the value to return, and the breaks before it are
taken first. Addresses hold no white space. -/
def expression (e : Expression Node) (texts : Rendering (List String)) : Rendering String := do
  let inside ← observe (·.inAny [.expression, .arguments, .declarationValue, .mapLiteral, .condition])
  let inValue ← observe (·.inAny [.declarationValue])
  let returned ← observe fun p => p.returning && !inside
  let before ← if returned then returnStart e.line else pure ""
  let text := joinOperands inValue e.operands (← within [.expression] texts)
  let isAddress ← observe fun p => p.inAny [.call] && p.callName == some "url"
  return before ++ if isAddress then Text.removeBlanks text else text

def arguments (texts : Rendering (List String)) : Rendering String :=
  within [.arguments] do return ", ".intercalate ((← texts).map (Text.dropTrailing ';'))

/-- The start of a call that is a statement; it has a line of its own even if no break is owed. -/
def inclusionStart (owed : String) : Rendering String := do
  return (if owed.isEmpty then "\n" else owed) ++ (← indent) ++ (← dialect).inclusion

/-- A call. As a statement it includes a mixin and is terminated, unless it hands a block to the mixin. -/
def call (name : String) (line : Option Nat) (args : Rendering (List String))
    (body : Option (Rendering String)) : Rendering String := do
  let owed ← lineBreaks line
  let inside ← observe
    (·.inAny [.declarationValue, .mapLiteral, .xmlNamespace, .keyframes, .arguments, .condition])
  let statement ← observe fun p => !p.returning && !inside
  let before ← if statement then inclusionStart owed else pure owed
  let args ← calling name (arguments args)
  let called := before ++ name ++ "(" ++ args ++ ")"
  match body with
  | some body => return called ++ (← body)
  | none => return called ++ if statement then ";" else ""

def binary (operator : String) (right : Node) (leftText rightText : String) : String :=
  let grouped := if right.isExpression then "(" ++ rightText ++ ")" else rightText
  leftText ++ " " ++ Operator.spelling operator ++ " " ++ grouped

def unary (operator operand : String) : String := Operator.spelling operator ++ "(" ++ operand ++ ")"

/-- A member of a chain. If the chain starts from a map it is a look-up, in which bare names stand for
themselves. -/
def member (left right : Node) (leftText rightText : Rendering String) : Rendering String := do
  let ofMap ← observe fun p => (left.chainStart?.map p.registry.knowsMap).getD false
  if ofMap then
    let owner ← match left.bareName? with
      | some name => variableRef name
      | none => leftText
    let key ← match right.bareName? with
      | some name => pure name
      | none => rightText
    let quote := (← read).quote.toString
    return "map-get(" ++ owner ++ ", " ++ quote ++ key ++ quote ++ ")"
  else
    let owner ← leftText
    let key ← rightText
    return owner ++ "." ++ key

/-- A map, one entry on a line. The lines are not those of the sheet, so the pass moves on by one for each
entry and two for the parentheses. -/
def mapLiteral (line : Option Nat) (entries : Rendering (List (String × String))) : Rendering String := do
  let quote := (← read).quote.toString
  let entries ← deeper do
    let pad ← indent
    let entries ← within [.mapLiteral] entries
    return entries.map fun (key, value) =>
      "\n" ++ pad ++ quote ++ key ++ quote ++ ": " ++ Text.eraseFirst ';' value
  if let some line := line then
    modify (·.skipTo (line + entries.length + 2))
  return "(" ++ ",".intercalate entries ++ "\n" ++ (← indent) ++ ")"

end Stylesheet.Render
