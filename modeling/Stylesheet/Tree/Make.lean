import Stylesheet.Tree.Entries
import Stylesheet.Tree.Node

/-!
# Building trees by hand
-/

namespace Stylesheet.Make

def literal (text : String) : Node := .literal text none

def name (text : String) : Node := .identifier { name := text }

def expression (operands : List Node) (line : Nat) : Expression Node := ⟨operands, some line⟩

def operandList (operands : List Node) (line : Nat) : Node := .expression (expression operands line)

def body (statements : List Node) (line : Nat) : Body Node := ⟨statements, some line⟩

def assignment (text : String) (operands : List Node) (line : Nat) : Node :=
  .identifier { name := text, value := some (operandList operands line), line := some line }

/-- An empty suffix stands for none. -/
def number (value : Float) (suffix : String) : Node :=
  .number value (if suffix.isEmpty then none else some suffix)

def quoted (text quote : String) : Node := .quoted ⟨text, quote⟩

def property (text : String) (operands : List Node) (line : Nat) : Node :=
  .property [literal text] (expression operands line) (some line)

def selector (text : String) (line : Nat) : Node := .selector [.literal text (some line)] (some line)

/-- A rule set with one selector. -/
def ruleSet (text : String) (line : Nat) (statements : List Node) : Node :=
  .ruleSet [selector text line] (some (body statements line)) (some line)

/-- A call; each argument is an expression of its own. -/
def call (text : String) (args : List Node) (line : Nat) : Node :=
  .call text (args.map fun a => operandList [a] line) none (some line)

def callable (text : String) (params : List String) (statements : List Node) (line : Nat) : Node :=
  let params := params.map fun p => { name := p, line := some line }
  let definition := .callable text params (some (body statements line)) (some line)
  .identifier { name := text, value := some definition, line := some line }

def binary (operator : String) (left right : Node) : Node := .binary operator left right

def member (left right : Node) : Node := .member left right

def mapLiteral (entries : List (String × Node)) (line : Nat) : Node :=
  .mapLiteral (Entries.distinct (entries.map fun (k, v) => (k, operandList [v] line))) (some line)

def comment (text : String) (line : Nat) : Node := .comment { text, line := some line }

end Stylesheet.Make
