import Stylesheet.Tree.Kind

/-!
# Faults of rendering

The nodes that no text can be given for. Any of them ends the whole conversion.
-/

namespace Stylesheet

/-- What a node cannot be rendered without. -/
inductive NeededPart
  | body
  | iterable
  | selectors
  | elseBody
deriving Repr, DecidableEq

inductive Fault
  | missing (kind : Kind) (part : NeededPart)
  /-- Keyframes that start with an expression instead of a step. -/
  | unresolvedKeyframes (name : String)
deriving Repr, DecidableEq

def NeededPart.phrase : NeededPart → String
  | body => "block"
  | iterable => "expr"
  | selectors => "selectors"
  | elseBody => "else block"

def Fault.message : Fault → String
  | missing kind part => "Codegen error: " ++ kind.tag ++ " is missing its " ++ part.phrase
  | unresolvedKeyframes name =>
    "Codegen error: please check that @keyframes " ++ name ++ " is written correctly"

end Stylesheet
