import Stylesheet.Decimal.Shortest
import Stylesheet.Text.Edit

/-!
# Decimal layouts

Writing a shortest decimal positionally or with an exponent, as a layout says.
-/

namespace Stylesheet

/-- How doubles are written. The exponent that decides is the one of the first digit. -/
structure DecimalLayout where
  tie : Tie
  positional : Int → Bool
  /-- Whether an integral value ends in `.0`. -/
  pointZero : Bool
  infinity : String
  nan : String

namespace Decimal

private def zeros (n : Nat) : List Char := List.replicate n '0'

def positional (pointZero : Bool) (d : Decimal) : List Char :=
  let ds := d.digits
  if 0 ≤ d.exponent then
    ds ++ zeros d.exponent.toNat ++ if pointZero then ['.', '0'] else []
  else
    let fraction := (-d.exponent).toNat
    if fraction < ds.length then ds.take (ds.length - fraction) ++ '.' :: ds.drop (ds.length - fraction)
    else '0' :: '.' :: zeros (fraction - ds.length) ++ ds

def exponentText (e : Int) : List Char := (if 0 ≤ e then '+' else '-') :: (toString e.natAbs).toList

/-- One digit, the point, the other digits and the exponent. -/
def scientific (d : Decimal) : List Char :=
  let ds := d.digits
  let exponent := d.exponent + (ds.length - 1 : Nat)
  let mantissa := match ds with
    | c :: c' :: cs => c :: '.' :: c' :: cs
    | short => short
  mantissa ++ 'e' :: exponentText exponent

def leadingExponent (d : Decimal) : Int := d.exponent + (d.digits.length - 1 : Nat)

def write (layout : DecimalLayout) (d : Decimal) : List Char :=
  if layout.positional d.leadingExponent then positional layout.pointZero d else scientific d

end Decimal

def DecimalLayout.write (layout : DecimalLayout) (x : Float) : String :=
  let sign (negative : Bool) (s : String) := if negative then "-" ++ s else s
  match FloatClass.ofFloat x with
  | .nan => layout.nan
  | .infinite negative => sign negative layout.infinity
  | .finite negative magnitude =>
    sign negative (.ofList (Decimal.write layout (Decimal.shortest layout.tie magnitude)))

end Stylesheet
