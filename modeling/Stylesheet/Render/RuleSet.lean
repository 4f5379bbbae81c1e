import Stylesheet.Render.Pass
import Stylesheet.Text.Blank
import Stylesheet.Tree.Shape

/-!
# Blocks, selectors and rule sets
-/

namespace Stylesheet.Render

open Rendering

/-- Name pieces in a row; a piece that is a list of operands is interpolated. -/
def joinSegments (segments : List Node) (texts : List String) : String :=
  String.join <| (segments.zip texts).map fun (n, text) =>
    if n.isExpression then "#\x7b" ++ text ++ "\x7d" else text

def named (segments : List Node) (texts : Rendering (List String)) : Rendering String := do
  return joinSegments segments (← texts)

/-- Puts the return keyword after the white space at the start of a body. A value that shared the line of the
header gets one of its own. -/
def insertReturn (keyword body : String) : Rendering String := do
  let margin := Text.margin body
  let content := Text.trimStart body
  if Text.contains "\n" margin then return margin ++ keyword ++ content
  else
    modify Pass.nextLine
    return "\n" ++ (← indent) ++ keyword ++ content

def terminated (text : String) : String :=
  if Text.endsWith ';' text || Text.endsWith '\x7d' text then text else text ++ ";"

/-- The body of a function returns its value, if it does not do so in its own words. -/
def withReturn (body : String) : Rendering String := do
  let inCallable ← observe (·.inAny [.callableBody])
  let returning ← observe (·.returning)
  if inCallable && returning then
    let keyword := (← dialect).returnWord
    let found := Text.contains (Text.dropTrailing ' ' keyword) body
    return terminated (← if found then pure body else insertReturn keyword body)
  else return body

/-- Statements in braces, one level deeper and starting on a line of their own. -/
def block (statements : Rendering String) : Rendering String := do
  let body ← deeper do
    let body ← withReturn (← statements)
    if Text.startsWith '\n' body then return body
    else return "\n" ++ (← indent) ++ Text.trimStart body
  return " \x7b" ++ body ++ "\n" ++ (← indent) ++ "\x7d"

/-- A selector takes the line of its last piece. -/
def selector (segments : List Node) (texts : Rendering (List String)) : Rendering String := do
  let before ← lineStart (segments.getLast?.bind Node.line)
  return before ++ (← named segments texts)

/-- A selector keeps the break before it, but not its indentation on the line of the one before. -/
def alignSelector (text : String) : String := if Text.startsWith '\n' text then text else Text.trimStart text

def joinSelectors (texts : List String) : String :=
  match texts.map alignSelector with
  | [] => ""
  | first :: rest =>
    first ++ String.join (rest.map fun t => (if Text.startsWith '\n' t then "," else ", ") ++ t)

/-- Whether the step of an animation is computed, and not interpolated already. -/
def isComputedStep (step : String) : Bool :=
  !Text.contains "#\x7b" step && step.toList.any ['-', '*', '+', '/', '$'].contains

def ruleSet (line : Option Nat) (selectors : Rendering (List String)) (body : Rendering String) :
    Rendering String := do
  let before ← lineStart line
  let head := joinSelectors (← selectors)
  let body ← body
  let inKeyframes ← observe (·.inAny [.keyframes])
  let head := if inKeyframes && isComputedStep head then "#\x7b" ++ head ++ "\x7d" else head
  return before ++ head ++ body

end Stylesheet.Render
