import Stylesheet.Render.Pass
import Stylesheet.Tree.Shape

/-!
# Callables

A callable is a function or a mixin, by its first statement. Inside a function, values at the level of
statements are returned.
-/

namespace Stylesheet.Render

open Rendering

def defaultValue (value : Rendering String) : Rendering String := do
  return ": " ++ Text.dropTrailing ';' (← within [.declarationValue] value)

/-- One parameter, with its default if it has one. It is a variable from there on. -/
def param (id : Identifier Node) (value : Rendering String) : Rendering String := do
  let name ← variableRef id.name
  let value ← if id.isBound then defaultValue value else pure ""
  register (·.addVariable id.name)
  return name ++ value ++ if id.rest then "..." else ""

def callableHead (d : Dialect) (kind : DefinitionKind) (name params : String) : String :=
  match kind with
  | .function => "@function " ++ name ++ "(" ++ params ++ ")"
  | .mixin => d.mixinSignature name params

/-- A definition. After it nothing is returned and no parameter is known, in a callable around it either. -/
def callable (name : String) (line : Option Nat) (kind : DefinitionKind) (paramNames : List String)
    (params : Rendering (List String)) (body : Rendering String) : Rendering String := do
  let before ← lineStart line
  register (·.setParams paramNames)
  modify fun p => { p with returning := kind == .function }
  let (params, body) ← within [.callableBody] do
    let params ← params
    let body ← body
    return (", ".intercalate params, body)
  modify fun p => { p with returning := false }
  register (·.clearParams)
  return before ++ callableHead (← dialect) kind name params ++ body

def returned (line : Option Nat) (value : Rendering String) : Rendering String := do
  let before ← lineStart line
  let value ← within [.expression] value
  return before ++ (← dialect).returnWord ++ Text.dropTrailing ';' value ++ ";"

end Stylesheet.Render
