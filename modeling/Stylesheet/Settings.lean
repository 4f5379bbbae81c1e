import Stylesheet.Dialect

/-!
# Settings of a conversion
-/

namespace Stylesheet

/-- What the rendering of a node depends on besides the node. -/
structure Style where
  /-- Around keys of maps; strings of the sheet keep their own quotes. -/
  quote : Char := '\''
  dialect : Dialect := .scss
  /-- Whether keyframes are repeated for each engine. -/
  vendorCopies : Bool := true
deriving Repr, DecidableEq

structure Settings extends Style where
  /-- Spaces before every line that is not blank, to embed the text into a host document. -/
  hostIndent : Nat := 0
deriving Repr, DecidableEq

end Stylesheet
