import Stylesheet.Render.Pass
import Stylesheet.Tree.Node

/-!
# Comments

Comments are marked to be kept by tools that compress the output.
-/

namespace Stylesheet.Render

open Rendering

/-- Adds the mark to an opening delimiter, unless it is there or the comment is not worth keeping. -/
def keptText (c : Comment) : String :=
  match Text.after? "/*" c.text with
  | some rest => if c.suppressed || Text.startsWith '!' rest then c.text else "/*!" ++ rest
  | none => c.text

/-- A comment, after a space if it shares the line of the statement before it, else on its own line. The pass
goes on from its last line. -/
def comment (c : Comment) (sameLine : Bool) : Rendering String := do
  let before ← if sameLine then pure " " else lineStart c.line
  if let some line := c.line then
    modify fun p => { p with line := line + c.text.toList.count '\n' }
  return before ++ keptText c

end Stylesheet.Render
