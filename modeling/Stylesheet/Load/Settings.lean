import Stylesheet.Load.Scalar
import Stylesheet.Load.Reading
import Stylesheet.Settings

/-!
# Loading settings

Every field is optional and other fields are ignored.
-/

namespace Stylesheet

open Reading

def Dialect.ofTag (tag : String) : Except LoadFault Dialect :=
  match ofName? tag with
  | some d => .ok d
  | none => .error (.unknownTag tag (all.map name))

/-- A dialect is named by a string; anything else is malformed. -/
def Dialect.decode : Json → Except LoadFault Dialect
  | .text tag => ofTag tag
  | _ => .error .malformed

def Dialect.load (text : String) : Except LoadFault Dialect := Reading.run (scalar decode) text

namespace Settings

structure Fields where
  quote : Option Char := none
  dialect : Option Dialect := none
  vendorCopies : Option Bool := none
  hostIndent : Option Nat := none

def field (seen : Fields) (key : String) : Reading Fields := fun cs => do
  match key with
  | "quote" =>
    let (quote, left) ← once key seen.quote (scalar Decode.character) cs
    return ({ seen with quote }, left)
  | "dialect" =>
    let (dialect, left) ← once key seen.dialect (scalar Dialect.decode) cs
    return ({ seen with dialect }, left)
  | "autoprefix" =>
    let (vendorCopies, left) ← once key seen.vendorCopies (scalar Decode.boolean) cs
    return ({ seen with vendorCopies }, left)
  | "hostIndent" =>
    let (hostIndent, left) ← once key seen.hostIndent (scalar Decode.natural) cs
    return ({ seen with hostIndent }, left)
  | _ =>
    let ((), left) ← skip cs
    return (seen, left)

def known : List (String × Bool) := [("quote", true), ("dialect", true), ("autoprefix", true), ("hostIndent", true)]

def ofFields (found : Fields) : Settings :=
  let absent : Settings := {}
  { quote := found.quote.getD absent.quote
    dialect := found.dialect.getD absent.dialect
    vendorCopies := found.vendorCopies.getD absent.vendorCopies
    hostIndent := found.hostIndent.getD absent.hostIndent }

def load (text : String) : Except LoadFault Settings :=
  (Reading.run (fields "Options" known field {}) text).map ofFields

end Settings

end Stylesheet
