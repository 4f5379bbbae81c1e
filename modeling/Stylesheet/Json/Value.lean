/-!
# JSON values

Records keep the order of their entries and repeated keys.
-/

namespace Stylesheet

/-- An integer of 64 bits, signed or unsigned, or any other number as a double. -/
inductive Json.Number
  | integer (n : Int)
  | real (x : Float)

inductive Json
  | null
  | boolean (b : Bool)
  | number (n : Json.Number)
  | text (s : String)
  | list (items : List Json)
  | record (entries : List (String × Json))

namespace Json

mutual

def depth : Json → Nat
  | .list items => listDepth items + 1
  | .record entries => recordDepth entries + 1
  | _ => 0

def listDepth : List Json → Nat
  | [] => 0
  | j :: js => max j.depth (listDepth js)

def recordDepth : List (String × Json) → Nat
  | [] => 0
  | (_, j) :: es => max j.depth (recordDepth es)

end

/-- A natural number as JSON, `null` if it is absent. -/
def ofNat? : Option Nat → Json
  | none => .null
  | some n => .number (.integer n)

def ofString? : Option String → Json
  | none => .null
  | some s => .text s

end Json

end Stylesheet
