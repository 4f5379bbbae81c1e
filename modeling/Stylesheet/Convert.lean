import Stylesheet.Render.Node

/-!
# Conversion of sheets
-/

namespace Stylesheet

/-- Puts `width` spaces before every line that is not blank. -/
def indentLines (width : Nat) (cs : List Char) : List Char :=
  Text.joinLines <| (Text.splitLines cs).map fun line =>
    if line.all Text.isBlank then line else List.replicate width ' ' ++ line

/-- The text of a sheet without the line feed at its end, and the pass as it is then. -/
def Sheet.render (s : Sheet) (style : Style) : Except Fault (String × Pass) :=
  (Render.statements none s.statements).run style |>.run {}

/-- The whole sheet in the dialect of the settings, ending in a line feed. -/
def Sheet.convert (s : Sheet) (settings : Settings) : Except Fault String := do
  let (text, _) ← s.render settings.toStyle
  return .ofList (indentLines settings.hostIndent text.toList ++ ['\n'])

end Stylesheet
