/-!
# Kinds of nodes

The kinds that a sheet's tree is built of, with the tag that each one carries in JSON.
-/

namespace Stylesheet

inductive Kind
  | null
  | literal
  | identifier
  | number
  | quoted
  | boolean
  | color
  | expression
  | arguments
  | block
  | selector
  | ruleSet
  | property
  | call
  | callable
  | returned
  | conditional
  | loop
  | binary
  | unary
  | keyframes
  | media
  | queryList
  | query
  | feature
  | supports
  | xmlNamespace
  | charset
  | importSheet
  | extend
  | atRule
  | comment
  | member
  | mapLiteral
deriving Repr, DecidableEq

namespace Kind

/-- All kinds; a number in place of a tag counts along this list. -/
def all : List Kind :=
  [null, literal, identifier, number, quoted, boolean, color, expression, arguments, block, selector, ruleSet,
    property, call, callable, returned, conditional, loop, binary, unary, keyframes, media, queryList, query,
    feature, supports, xmlNamespace, charset, importSheet, extend, atRule, comment, member, mapLiteral]

def tag : Kind → String
  | null => "Null"
  | literal => "Literal"
  | identifier => "Ident"
  | number => "Unit"
  | quoted => "String"
  | boolean => "Boolean"
  | color => "RGBA"
  | expression => "Expression"
  | arguments => "Arguments"
  | block => "Block"
  | selector => "Selector"
  | ruleSet => "Group"
  | property => "Property"
  | call => "Call"
  | callable => "Function"
  | returned => "Return"
  | conditional => "If"
  | loop => "Each"
  | binary => "BinOp"
  | unary => "UnaryOp"
  | keyframes => "Keyframes"
  | media => "Media"
  | queryList => "QueryList"
  | query => "Query"
  | feature => "Feature"
  | supports => "Supports"
  | xmlNamespace => "Namespace"
  | charset => "Charset"
  | importSheet => "Import"
  | extend => "Extend"
  | atRule => "Atrule"
  | comment => "Comment"
  | member => "Member"
  | mapLiteral => "Object"

/-- The name that faults give to the fields of the kind. -/
def recordName : Kind → String
  | quoted => "Str"
  | color => "Rgba"
  | k => k.tag

def ofTag? (tag : String) : Option Kind := all.find? (·.tag == tag)

theorem mem_all (k : Kind) : k ∈ all := by cases k <;> decide

theorem ofTag?_tag (k : Kind) : ofTag? k.tag = some k := by cases k <;> decide

end Kind

end Stylesheet
