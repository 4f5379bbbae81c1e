import Stylesheet.Load.Fault

/-!
# Decoding single values

A text, a flag, a number: each accepts one kind of value and names what it found instead.
-/

namespace Stylesheet.Decode

def text : Json → Except LoadFault String
  | .text s => .ok s
  | j => .error (.wrongType j.found .text)

def boolean : Json → Except LoadFault Bool
  | .boolean b => .ok b
  | j => .error (.wrongType j.found .boolean)

def real : Json → Except LoadFault Float
  | .number (.integer n) => .ok (Float.ofInt n)
  | .number (.real x) => .ok x
  | j => .error (.wrongType j.found .real)

/-- Doubles do not count as natural numbers, integral ones neither. -/
def natural : Json → Except LoadFault Nat
  | .number (.integer n) =>
    match n with
    | .ofNat m => .ok m
    | .negSucc _ => .error (.wrongValue (.integer n) .natural)
  | j => .error (.wrongType j.found .natural)

/-- A text of one code point. -/
def character : Json → Except LoadFault Char
  | .text s =>
    match s.toList with
    | [c] => .ok c
    | _ => .error (.wrongValue (.text s) .character)
  | j => .error (.wrongType j.found .character)

/-- `null` stands for an absent value. -/
def optional {α : Type} (decode : Json → Except LoadFault α) : Json → Except LoadFault (Option α)
  | .null => .ok none
  | j => (decode j).map some

end Stylesheet.Decode
