import Stylesheet.Render.Pass
import Stylesheet.Text.Blank
import Stylesheet.Tree.Shape

/-!
# Names and declarations

A bare name is a variable, an earlier declaration that gives its value, a place filled by the caller of a
mixin, or plain text. A bound name is an assignment.
-/

namespace Stylesheet.Render

open Rendering

/-- What a bare name reads as. Inside a call only parameters are looked up; in any other expression an earlier
declaration of the name goes first. -/
def referenceText (d : Dialect) (p : Pass) (id : Identifier Node) : String :=
  let variableText := d.variableRef id.name
  let isOwn := p.registry.knowsParam id.name
  let known := if p.registry.knowsVariable id.name || isOwn then variableText else id.name
  let outside :=
    if id.placeholder then if id.name = "block" then d.content else d.interpolation id.name
    else if id.rest then known ++ "..." else known
  if p.inAny [.expression] then
    if p.inAny [.call] then if isOwn then variableText else id.name
    else (p.registry.valueOf? id.name).getD outside
  else outside

def reference (id : Identifier Node) : Rendering String := do
  let d ← dialect
  observe fun p => referenceText d p id

/-- An assignment of a list of operands. The name is known as a map while its value is rendered, and as a
variable after that. In a call the assignment is an argument and starts no line. -/
def assignment (name : String) (value : Expression Node) (texts : Rendering (List String)) :
    Rendering String := do
  if value.holdsMap then register (·.addMap name)
  let inCall ← observe (·.inAny [.call])
  let before ← if inCall then pure "" else lineStart value.line
  let texts ← within [.declarationValue] texts
  register (·.addVariable name)
  return before ++ (← variableRef name) ++ ": " ++ Text.dropTrailing ';' (" ".intercalate texts) ++ ";"

def boundValue (name : String) (line : Option Nat) (value : Rendering String) : Rendering String := do
  let before ← lineStart line
  let value ← within [.declarationValue] value
  register (·.addVariable name)
  return before ++ (← variableRef name) ++ ": " ++ Text.dropTrailing ';' value ++ ";"

/-- A declaration. If its value is an assignment, that becomes a statement in front of it. -/
def property (line : Option Nat) (name : Rendering String) (value : Expression Node)
    (valueText : Rendering String) : Rendering String := do
  let before ← lineStart line
  within [.declarationValue] do
    let name ← name
    let slot ← observe (·.registry.nextSlot)
    register (·.openDeclaration name)
    let text ← valueText
    match value.inlineName? with
    | some inner =>
      let reference ← variableRef inner
      register fun r => (r.addVariable inner).closeDeclaration slot reference
      return before ++ Text.trimStart text ++ "\n" ++ (← indent) ++ name ++ ": " ++ reference ++ ";"
    | none =>
      register (·.closeDeclaration slot text)
      let terminator := if Text.endsWith ';' text || value.handsBlock then "" else ";"
      return before ++ name ++ ": " ++ text ++ terminator

end Stylesheet.Render
