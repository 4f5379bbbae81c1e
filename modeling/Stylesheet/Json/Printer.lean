import Stylesheet.Decimal.Layout
import Stylesheet.Json.Value

/-!
# Printing JSON

Compact text without white space. Of the characters in strings only quotes, backslashes and control
characters are escaped.
-/

namespace Stylesheet.Json

/-- Sixteen places are written positionally, integral values end in `.0`, and of two equally short decimals
the even one is taken. -/
def realLayout : DecimalLayout where
  tie := .toEven
  positional e := -5 ≤ e && e ≤ 15
  pointZero := true
  infinity := "inf"
  nan := "NaN"

def hexDigit (n : Nat) : Char := Nat.digitChar n

def escapeChar (c : Char) : List Char :=
  if c = '"' then ['\\', '"']
  else if c = '\\' then ['\\', '\\']
  else if c = '\n' then ['\\', 'n']
  else if c = '\r' then ['\\', 'r']
  else if c = '\t' then ['\\', 't']
  else if c = '\x08' then ['\\', 'b']
  else if c = '\x0c' then ['\\', 'f']
  else if c.toNat < 32 then ['\\', 'u', '0', '0', hexDigit (c.toNat / 16), hexDigit (c.toNat % 16)]
  else [c]

def printText (s : String) : List Char := '"' :: s.toList.flatMap escapeChar ++ ['"']

/-- A double that is not finite has no number text. -/
def printNumber : Number → List Char
  | .integer n => (toString n).toList
  | .real x => if x.isFinite then (realLayout.write x).toList else "null".toList

mutual

def printChars : Json → List Char
  | .null => "null".toList
  | .boolean true => "true".toList
  | .boolean false => "false".toList
  | .number n => printNumber n
  | .text s => printText s
  | .list [] => ['[', ']']
  | .list (j :: js) => '[' :: printChars j ++ printItems js
  | .record [] => ['\x7b', '\x7d']
  | .record ((k, j) :: es) => '\x7b' :: printText k ++ ':' :: printChars j ++ printEntries es

/-- The items after the first one, and the closing bracket. -/
def printItems : List Json → List Char
  | [] => [']']
  | j :: js => ',' :: printChars j ++ printItems js

/-- The entries after the first one, and the closing bracket. -/
def printEntries : List (String × Json) → List Char
  | [] => ['\x7d']
  | (k, j) :: es => ',' :: printText k ++ ':' :: printChars j ++ printEntries es

end

def print (j : Json) : String := .ofList j.printChars

end Stylesheet.Json
