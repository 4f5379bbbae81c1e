/-!
# Numbers of 64 bits
-/

namespace Stylesheet.Word

/-- One more than the greatest number without a sign. -/
def unsignedLimit : Nat := 0x10000000000000000

/-- One more than the greatest number with a sign; the least one is this far below zero. -/
def signedLimit : Nat := 0x8000000000000000

def clamp (n : Int) : Int :=
  if n < -signedLimit then -signedLimit
  else if (signedLimit : Int) ≤ n then signedLimit - 1
  else n

end Stylesheet.Word
