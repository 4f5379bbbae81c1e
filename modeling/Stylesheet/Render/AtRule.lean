import Stylesheet.Render.RuleSet
import Stylesheet.Render.Value

/-!
# At-rules
-/

namespace Stylesheet.Render

open Rendering

/-- The engines that keyframes are repeated for, before the standard rule. -/
def engines : List String := ["-webkit-", "-moz-", "-ms-", "-o-", "-khtml-"]

/-- The rule, and one copy of it for each engine. -/
def withEngines (vendorCopies : Bool) (pad rule : String) : String :=
  let copy (engine : String) := "@" ++ engine ++ "keyframes " ++ rule ++ "\n" ++ pad
  String.join (if vendorCopies then engines.map copy else []) ++ "@keyframes " ++ rule

/-- The body is rendered once for all copies. It has to start with a step. -/
def keyframes (line : Option Nat) (segments statements : List Node) (texts : Rendering (List String))
    (body : Rendering String) : Rendering String :=
  within [.keyframes] do
    let before ← lineStart line
    let name ← named segments texts
    if (statements.head?.map Node.isExpression).getD false then throw (.unresolvedKeyframes name)
    let rule := name ++ (← body)
    return before ++ withEngines (← read).vendorCopies (← indent) rule

def conditionRule (keyword : String) (line : Option Nat) (condition body : Rendering String) :
    Rendering String := do
  let before ← lineStart line
  let condition ← condition
  return before ++ keyword ++ condition ++ (← body)

/-- Medium and features joined by `and`; a predicate is about all of them. -/
def query (predicate : Option String) (medium : String) (features : List String) : String :=
  let conditions := " and ".intercalate (if medium.isEmpty then features else medium :: features)
  match predicate with
  | some p => p ++ " " ++ conditions
  | none => conditions

def feature (name : String) (value : Option String) : String :=
  match value with
  | some v => "(" ++ name ++ ": " ++ v ++ ")"
  | none => "(" ++ name ++ ")"

def xmlNamespace (line : Option Nat) (shortName : Option String) (value : Rendering String) :
    Rendering String := do
  let before ← lineStart line
  let value ← within [.xmlNamespace] value
  return before ++ "@namespace " ++ (shortName.map (· ++ " ")).getD "" ++ Text.dropTrailing ';' value ++ ";"

def charset (line : Option Nat) (encoding : QuotedText) : Rendering String := do
  return (← lineStart line) ++ "@charset " ++ quoted encoding ++ ";"

def sheetEnding : String := ".styl"

/-- The path of an imported sheet, in the files of the output. -/
def outputPath (d : Dialect) (path : String) : String :=
  match Text.before? sheetEnding path with
  | some stem => stem ++ d.fileEnding
  | none => path

/-- Quoted pieces give their text without quotes. -/
def joinPath (pieces : List Node) (texts : List String) : String :=
  String.join <| (pieces.zip texts).map fun (n, text) => (n.quotedText?.map (·.text)).getD text

def pathQuote (pieces : List Node) : String :=
  (((pieces.filterMap Node.quotedText?).map (·.quote)).find? fun q => !q.isEmpty).getD ""

def importSheet (line : Option Nat) (pieces : List Node) (texts : Rendering (List String)) :
    Rendering String := do
  let before ← lineStart line
  let path := outputPath (← dialect) (joinPath pieces (← texts))
  return before ++ "@import " ++ pathQuote pieces ++ path ++ pathQuote pieces ++ ";"

def extend (line : Option Nat) (selectors : List Node) (texts : Rendering (List String)) :
    Rendering String := do
  if selectors.isEmpty then missing .extend .selectors
  let before ← lineStart line
  return before ++ "@extend " ++ ", ".intercalate ((← texts).map Text.trimStart) ++ ";"

def atRule (name : String) (line : Option Nat) (segments : List Node) (texts : Rendering (List String))
    (body : Option (Rendering String)) : Rendering String := do
  let before ← lineStart line
  let texts ← texts
  let head := "@" ++ name ++ if segments.isEmpty then "" else " " ++ joinSegments segments texts
  match body with
  | some body => return before ++ head ++ (← body)
  | none => return before ++ head ++ ";"

end Stylesheet.Render
