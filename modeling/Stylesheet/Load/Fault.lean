import Stylesheet.Json.Printer
import Stylesheet.Text.Quoted

/-!
# Faults of loading

Why a text does not give the data it should: either it is no JSON within the limits, which has no text of its
own, or a value in it is not the expected one.
-/

namespace Stylesheet

inductive Found
  | null
  | boolean (b : Bool)
  | integer (n : Int)
  | real (x : Float)
  | text (s : String)
  | list
  | record

inductive Expected
  | text
  | boolean
  | real
  | natural
  | character
  | list
  | record
  /-- A record with known fields. -/
  | fields (name : String)
  | node
  | tag
  /-- The number of one of `count` tags. -/
  | tagNumber (count : Nat)
  /-- A list of the fields of a record. -/
  | fieldList (name : String) (count : Nat)
  /-- A list of so many items. -/
  | items (count : Nat)

inductive LoadFault
  | malformed
  | missing (field : String)
  | duplicate (field : String)
  | unknownTag (tag : String) (known : List String)
  | wrongType (found : Found) (expected : Expected)
  | wrongValue (found : Found) (expected : Expected)
  | wrongLength (found : Nat) (expected : Expected)

def Json.found : Json → Found
  | .null => .null
  | .boolean b => .boolean b
  | .number (.integer n) => .integer n
  | .number (.real x) => .real x
  | .text s => .text s
  | .list _ => .list
  | .record _ => .record

private def ticked (s : String) : String := "`" ++ s ++ "`"

def Found.phrase : Found → String
  | .null => "null"
  | .boolean b => "boolean " ++ ticked (if b then "true" else "false")
  | .integer n => "integer " ++ ticked (toString n)
  | .real x => "floating point " ++ ticked (Json.realLayout.write x)
  | .text s => "string " ++ Text.quoted s
  | .list => "sequence"
  | .record => "map"

private def elements (count : Nat) : String := if count = 1 then "1 element" else toString count ++ " elements"

def Expected.phrase : Expected → String
  | .text => "a string"
  | .boolean => "a boolean"
  | .real => "f64"
  | .natural => "usize"
  | .character => "a character"
  | .list => "a sequence"
  | .record => "a map"
  | .fields name => "struct " ++ name
  | .node => "internally tagged enum Node"
  | .tag => "variant identifier"
  | .tagNumber count => "variant index 0 <= i < " ++ toString count
  | .fieldList name count => "struct " ++ name ++ " with " ++ elements count
  | .items count => elements count ++ " in sequence"

private def oneOf : List String → String
  | [] => "there are no variants"
  | [a] => "expected " ++ ticked a
  | [a, b] => "expected " ++ ticked a ++ " or " ++ ticked b
  | known => "expected one of " ++ ", ".intercalate (known.map ticked)

namespace LoadFault

def message? : LoadFault → Option String
  | .malformed => none
  | .missing field => some ("missing field " ++ ticked field)
  | .duplicate field => some ("duplicate field " ++ ticked field)
  | .unknownTag tag known => some ("unknown variant " ++ ticked tag ++ ", " ++ oneOf known)
  | .wrongType found expected => some ("invalid type: " ++ found.phrase ++ ", expected " ++ expected.phrase)
  | .wrongValue found expected => some ("invalid value: " ++ found.phrase ++ ", expected " ++ expected.phrase)
  | .wrongLength found expected => some ("invalid length " ++ toString found ++ ", expected " ++ expected.phrase)

/-- A list may end in front of fields that may all be missing; `ahead` says so of each one. -/
def atEnd (name : String) (place : Nat) (ahead : List Bool) : Except LoadFault Unit :=
  match ahead.findIdx? (!·) with
  | none => .ok ()
  | some i => .error (.wrongLength (place + i) (.fieldList name (place + ahead.length)))

end LoadFault

end Stylesheet
