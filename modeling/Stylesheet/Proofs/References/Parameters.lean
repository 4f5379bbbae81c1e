import Stylesheet.Convert
import Stylesheet.Proofs.Constructs
import Stylesheet.Proofs.References.Trees

/-!
# Parameters of callables

In a callable its parameters are known, and a reference to one of them is written as the variable. What a declaration
of that name was given goes first, but not in the arguments of a call.
-/

namespace Stylesheet

open Rendering

namespace Render

variable {names : List String} {inCalls : Bool}

end Render

end Stylesheet
