import Stylesheet.Text.Edit

/-!
# Output dialects

The two brace-and-semicolon dialects and how each of them spells variables, mixins and interpolation.
-/

namespace Stylesheet

inductive Dialect
  | scss
  | less
deriving Repr, DecidableEq

namespace Dialect

def all : List Dialect := [scss, less]

def name : Dialect → String
  | scss => "scss"
  | less => "less"

def ofName? (s : String) : Option Dialect := all.find? (·.name == s)

theorem mem_all (d : Dialect) : d ∈ all := by cases d <;> decide

theorem ofName?_name (d : Dialect) : ofName? d.name = some d := by cases d <;> decide

def sigil : Dialect → Char
  | scss => '$'
  | less => '@'

/-- A name without the dollar sign it may be written with. -/
def bare (name : String) : String := (Text.after? "$" name).getD name

/-- A reference to the variable `name`; a dollar sign written in the sheet is replaced, not doubled. -/
def variableRef (d : Dialect) (name : String) : String := d.sigil.toString ++ bare name

def fileEnding : Dialect → String
  | scss => ".scss"
  | less => ".less"

def mixinSignature (d : Dialect) (name params : String) : String :=
  (match d with | scss => "@mixin " | less => ".") ++ name ++ "(" ++ params ++ ")"

/-- What stands before the inclusion of a mixin. -/
def inclusion : Dialect → String
  | scss => "@include "
  | less => "."

/-- What stands before the value of a function. One dialect has no functions and takes the other's word. -/
def returnWord : Dialect → String
  | scss => "@return "
  | less => "@return "

/-- The place of the block handed to a mixin. -/
def content : Dialect → String
  | scss => "@content"
  | less => "@content"

def interpolation (d : Dialect) (name : String) : String :=
  (match d with | scss => "#\x7b$" | less => "@\x7b") ++ bare name ++ "\x7d"

end Dialect

end Stylesheet
