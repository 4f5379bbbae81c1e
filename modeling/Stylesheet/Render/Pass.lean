import Stylesheet.Render.Fault
import Stylesheet.Render.Registry
import Stylesheet.Settings

/-!
# State of a rendering pass

Depth, source line, place in the tree and known names, threaded through one conversion. The breaks owed before
a node are the lines between it and the last line that was emitted.
-/

namespace Stylesheet

/-- Where in the tree the pass is; several can hold at once. -/
inductive Place
  | mapLiteral
  | callableBody
  | declarationValue
  | xmlNamespace
  | keyframes
  | arguments
  | expression
  /-- The head of a conditional or a loop. -/
  | condition
  | call
deriving Repr, DecidableEq

def Place.all : List Place :=
  [mapLiteral, callableBody, declarationValue, xmlNamespace, keyframes, arguments, expression, condition,
    call]

structure Pass where
  depth : Nat := 0
  /-- The last source line whose breaks were emitted. -/
  line : Nat := 1
  places : List Place := []
  /-- The call whose arguments are being rendered. -/
  callName : Option String := none
  /-- Whether values at the level of statements are returned. -/
  returning : Bool := false
  registry : Registry := {}
deriving Repr, DecidableEq

namespace Pass

def owed (p : Pass) (line : Nat) : Nat := line - p.line

def skipTo (p : Pass) (line : Nat) : Pass := { p with line := max p.line line }

def nextLine (p : Pass) : Pass := { p with line := p.line + 1 }

def indent (p : Pass) : String := Text.repeated (2 * p.depth) ' '

def inAny (p : Pass) (places : List Place) : Bool := places.any p.places.contains

end Pass

/-- Rendering in a style, with the state of the pass. -/
abbrev Rendering (α : Type) := ReaderT Style (StateT Pass (Except Fault)) α

namespace Rendering

def missing {α : Type} (kind : Kind) (part : NeededPart) : Rendering α := throw (.missing kind part)

def dialect : Rendering Dialect := do return (← read).dialect

/-- A part of the state as it is now. -/
def observe {α : Type} (view : Pass → α) : Rendering α := do return view (← get)

def indent : Rendering String := observe Pass.indent

/-- The breaks owed before a line, which then counts as emitted. A node without a line owes nothing. -/
def lineBreaks : Option Nat → Rendering String
  | none => return ""
  | some line => do
    let owed ← observe (·.owed line)
    modify fun p => { p with line }
    return Text.repeated owed '\n'

/-- The breaks owed before a line and the indentation after them. -/
def lineStart (line : Option Nat) : Rendering String := do
  return (← lineBreaks line) ++ (← indent)

/-- Runs `act` in `places` as well, and leaves them again. -/
def within {α : Type} (places : List Place) (act : Rendering α) : Rendering α := do
  let outer ← observe (·.places)
  modify fun p => { p with places := places ++ p.places }
  let a ← act
  modify fun p => { p with places := outer }
  return a

def deeper {α : Type} (act : Rendering α) : Rendering α := do
  modify fun p => { p with depth := p.depth + 1 }
  let a ← act
  modify fun p => { p with depth := p.depth - 1 }
  return a

/-- Runs `act` for the arguments of the call `name`. -/
def calling {α : Type} (name : String) (act : Rendering α) : Rendering α := do
  let outer ← observe (·.callName)
  modify fun p => { p with callName := some name }
  let a ← within [.call] act
  modify fun p => { p with callName := outer }
  return a

def register (change : Registry → Registry) : Rendering Unit :=
  modify fun p => { p with registry := change p.registry }

def variableRef (name : String) : Rendering String := do return (← dialect).variableRef name

end Rendering

end Stylesheet
