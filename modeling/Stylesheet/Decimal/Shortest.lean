import Stylesheet.Decimal.Binary

/-!
# Shortest decimals

Of the decimals that read back as a given double, the one with the fewest digits, and of those the nearest.
The search goes from coarse decimal grids to fine ones; if a point of a grid lies in the rounding interval,
so does one of the value's two neighbours on that grid.
-/

namespace Stylesheet

/-- The number `coefficient * 10 ^ exponent`. -/
structure Decimal where
  coefficient : Nat
  exponent : Int
deriving Repr, DecidableEq

/-- Where a value half way between two equally short decimals goes. -/
inductive Tie
  | up
  | toEven
deriving Repr, DecidableEq

namespace Decimal

/-- Integers in the ratio of `c * 10 ^ k` and `u * 2 ^ e`. -/
def commonScale (c : Nat) (k : Int) (u : Nat) (e : Int) : Nat × Nat :=
  (c * Nat.pow 10 k.toNat * Nat.pow 2 (-e).toNat, u * Nat.pow 2 e.toNat * Nat.pow 10 (-k).toNat)

/-- Whether `c * 10 ^ k` rounds to `b`. The ends of the interval belong to even significands. -/
def roundsTo (b : Binary) (c : Nat) (k : Int) : Bool :=
  let (low, high) := b.roundingBounds
  let (x, lo) := commonScale c k low (b.exponent - 2)
  let (x', hi) := commonScale c k high (b.exponent - 2)
  if b.significand % 2 = 0 then lo ≤ x && x' ≤ hi else lo < x && x' < hi

/-- The point of the grid `10 ^ k` that rounds to `b` and is nearest to it. -/
def onGrid? (tie : Tie) (b : Binary) (k : Int) : Option Nat :=
  let (unit, value) := commonScale 1 k b.significand b.exponent
  let below := value / unit
  let above := below + 1
  match roundsTo b below k, roundsTo b above k with
  | false, false => none
  | true, false => some below
  | false, true => some above
  | true, true =>
    match compare (2 * (value % unit)) unit with
    | .lt => some below
    | .gt => some above
    | .eq => match tie with
      | .up => some above
      | .toEven => some (if below % 2 = 0 then below else above)

/-- The first grid with a hit, from `10 ^ k` on downwards. -/
def search (tie : Tie) (b : Binary) : Nat → Int → Decimal
  | 0, k => ⟨0, k⟩
  | n + 1, k => match onGrid? tie b k with
    | some c => ⟨c, k⟩
    | none => search tie b n (k - 1)

/-- Moves zeros at the end of the coefficient into the exponent. -/
def normalize : Nat → Decimal → Decimal
  | 0, d => d
  | n + 1, d =>
    if d.coefficient ≠ 0 ∧ d.coefficient % 10 = 0 then normalize n ⟨d.coefficient / 10, d.exponent + 1⟩
    else d

/-- The decimal logarithm of two is below 30103 / 100000, so the first grid is too coarse by at most two
places, and seventeen digits always suffice. -/
def shortest (tie : Tie) (b : Binary) : Decimal :=
  if b.significand = 0 then ⟨0, 0⟩
  else
    let top : Int := (b.significand.log2 + 1 + b.exponent) * 30103 / 100000 + 1
    normalize 20 (search tie b 24 top)

def digits (d : Decimal) : List Char := (Nat.repr d.coefficient).toList

end Decimal

end Stylesheet
