/-!
# Reading scaled numbers

A number text gives a significand of at most 64 bits and a decimal exponent. The value is the significand
rounded to a double and then multiplied or divided once by a power of ten, which is not always the double
nearest to the text.
-/

namespace Stylesheet.Decimal

def powerOfTen (e : Nat) : Float := Float.ofScientific 1 false e

def greatestExponent : Nat := 308

/-- Divides by `10 ^ e`, in steps where the power alone would be infinite. -/
def scaleDown (x : Float) (e : Nat) : Float :=
  if e ≤ greatestExponent then x / powerOfTen e
  else if x == 0 then x
  else scaleDown (x / powerOfTen greatestExponent) (e - greatestExponent)
termination_by e
decreasing_by simp only [greatestExponent] at *; omega

/-- Multiplies by `10 ^ e`; `none` if the product is beyond the finite doubles. -/
def scaleUp? (x : Float) (e : Nat) : Option Float :=
  if e ≤ greatestExponent then
    let y := x * powerOfTen e
    if y.isInf then none else some y
  else if x == 0 then some x
  else none

/-- The value of `significand * 10 ^ exponent`, for a significand below `2 ^ 64`. -/
def toFloat? (negative : Bool) (significand : Nat) (exponent : Int) : Option Float :=
  let x := significand.toUInt64.toFloat
  let magnitude :=
    if 0 ≤ exponent then scaleUp? x exponent.toNat else some (scaleDown x (-exponent).toNat)
  magnitude.map fun y => if negative then -y else y

end Stylesheet.Decimal
