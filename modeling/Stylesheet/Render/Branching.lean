import Stylesheet.Render.Pass
import Stylesheet.Tree.Shape

/-!
# Conditionals and loops
-/

namespace Stylesheet.Render

open Rendering

/-- How a branch starts: after the breaks it owes, or behind the brace of the branch before. -/
inductive BranchStart
  | leading (line : Option Nat)
  | chained
deriving Repr, DecidableEq

def BranchStart.text : BranchStart → Rendering String
  | leading line => do return (← lineStart line) ++ "@if "
  | chained => return " @else if "

def conditional (start : BranchStart) (negated : Bool) (condition body : Rendering String)
    (alternatives : Rendering (List String)) : Rendering String := do
  let before ← start.text
  let condition ← within [.condition] condition
  let condition := if negated then "not (" ++ condition ++ ")" else condition
  let body ← body
  return before ++ condition ++ body ++ String.join (← alternatives)

/-- An alternative stands on the line after the brace before it. -/
def chained {α : Type} (text : Rendering α) : Rendering α := do
  modify Pass.nextLine
  text

def otherwise (body : Rendering String) : Rendering String := do return " @else" ++ (← body)

/-- The bounds of a range: `through` includes the end, `to` does not. -/
def bounds (operator left right : String) : String :=
  left ++ (if operator = "..." then " to " else " through ") ++ right

/-- The head of a loop over a range names the item alone. -/
def forHead (item : String) (ranges : Rendering (List String)) : Rendering String := do
  let ranges ← ranges
  return "@for " ++ (← variableRef item) ++ " from " ++ ", ".intercalate ranges

/-- In a list to go through, a bare name is a variable whether it is known or not. -/
def joinItems (d : Dialect) (items : List Node) (texts : List String) : String :=
  ", ".intercalate <| (items.zip texts).map fun (n, text) => (n.bareName?.map d.variableRef).getD text

def eachHead (item : String) (key : Option String) (items : List Node) (texts : Rendering (List String)) :
    Rendering String := do
  let d ← dialect
  let names := ", ".intercalate ((item :: key.toList).map d.variableRef)
  return "@each " ++ names ++ " in " ++ joinItems d items (← texts)

/-- A loop over a range, if there is one in what is gone through, else over a list. -/
def loop (item : String) (key : Option String) (line : Option Nat) (iterable : Expression Node)
    (ranges items : Rendering (List String)) (body : Rendering String) : Rendering String := do
  let before ← lineStart line
  register (·.addVariable item)
  if let some key := key then register (·.addVariable key)
  let head ← within [.condition] <|
    if (firstRange? iterable.operands).isSome then forHead item ranges
    else eachHead item key iterable.operands items
  return before ++ head ++ (← body)

end Stylesheet.Render
