import Stylesheet.Decimal.Word

/-!
# Binary fractions

A finite double is `± significand * 2 ^ exponent`. This module takes the bit layout apart and answers
when the value is an integer.
-/

namespace Stylesheet

/-- The magnitude `significand * 2 ^ exponent`. -/
structure Binary where
  significand : Nat
  exponent : Int
deriving Repr, DecidableEq

inductive FloatClass
  | nan
  | infinite (negative : Bool)
  | finite (negative : Bool) (magnitude : Binary)
deriving Repr, DecidableEq

/-- The field of 52 bits below the exponent. -/
def Binary.fractionSize : Nat := 0x10000000000000

namespace FloatClass

open Binary (fractionSize)

/-- Reads the sign, the exponent and the fraction of the 64 bits of a double. -/
def ofBits (bits : Nat) : FloatClass :=
  let negative := bits / Word.signedLimit % 2 == 1
  let exponent := bits / fractionSize % 2048
  let fraction := bits % fractionSize
  if exponent = 2047 then
    if fraction = 0 then .infinite negative else .nan
  else if exponent = 0 then .finite negative ⟨fraction, -1074⟩
  else .finite negative ⟨fraction + fractionSize, exponent - 1075⟩

def ofFloat (x : Float) : FloatClass := ofBits x.toBits.toNat

end FloatClass

namespace Binary

def toNat? (b : Binary) : Option Nat :=
  if 0 ≤ b.exponent then some (b.significand * Nat.pow 2 b.exponent.toNat)
  else
    let unit := Nat.pow 2 (-b.exponent).toNat
    if b.significand % unit = 0 then some (b.significand / unit) else none

/-- The reals that round to the value, in units of a quarter of its last place. Below a power of two the
neighbouring value is half as far, unless the exponent is already the least one. -/
def roundingBounds (b : Binary) : Nat × Nat :=
  let m := 4 * b.significand
  (if b.significand = fractionSize ∧ -1074 < b.exponent then m - 1 else m - 2, m + 2)

end Binary

end Stylesheet
