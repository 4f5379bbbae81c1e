import Stylesheet.Decimal.Word
import Stylesheet.Settings
import Stylesheet.Text.Edit

/-!
# Invocations

What the arguments of the command ask for. Arguments are taken from the left; an option stands at most once,
its value in the same argument or in the next one, and a next argument that looks like an option is no value.
-/

namespace Stylesheet.Command

inductive Invocation
  | version
  | check (path : String)
  /-- Without an output path the text goes to standard output. -/
  | convert (path : String) (settings : Settings) (output : Option String)
deriving Repr, DecidableEq

/-- The options of a conversion that have a value. -/
inductive ValueOption
  | dialect
  | quote
  | hostIndent
  | output
deriving Repr, DecidableEq

def ValueOption.ofLongName? : String → Option ValueOption
  | "dialect" => some dialect
  | "quote" => some quote
  | "host-indent" => some hostIndent
  | "output" => some output
  | _ => none

/-- Decimal digits after an optional plus sign, within 64 bits. -/
def natural? (text : String) : Option Nat :=
  let digits := (Text.after? "+" text).getD text |>.toList
  if digits.isEmpty || !digits.all Char.isDigit then none
  else
    let n := digits.foldl (fun n c => n * 10 + (c.toNat - '0'.toNat)) 0
    if n < Word.unsignedLimit then some n else none

def character? (text : String) : Option Char :=
  match text.toList with
  | [c] => some c
  | _ => none

/-- What was met so far. -/
structure Given where
  path : Option String := none
  dialect : Option Dialect := none
  quote : Option Char := none
  hostIndent : Option Nat := none
  output : Option String := none
  noVendorCopies : Bool := false
deriving Repr, DecidableEq

namespace Given

/-- The value, for what was not given yet. -/
def first? {α : Type} (given value : Option α) : Option α := if given.isSome then none else value

/-- Takes up the value of an option. An output path is not empty. -/
def put? (g : Given) (option : ValueOption) (value : String) : Option Given := do
  match option with
  | .dialect => return { g with dialect := ← first? g.dialect (Dialect.ofName? value) }
  | .quote => return { g with quote := ← first? g.quote (character? value) }
  | .hostIndent => return { g with hostIndent := ← first? g.hostIndent (natural? value) }
  | .output => return { g with output := ← first? g.output (if value.isEmpty then none else some value) }

def putPath? (g : Given) (path : String) : Option Given := do
  return { g with path := ← first? g.path (some path) }

def settings (g : Given) : Settings :=
  let default : Settings := {}
  { quote := g.quote.getD default.quote
    dialect := g.dialect.getD default.dialect
    vendorCopies := !g.noVendorCopies
    hostIndent := g.hostIndent.getD default.hostIndent }

end Given

inductive Argument
  /-- Ends the options. -/
  | stop
  | long (name : String) (value : Option String)
  | short (name : Char) (attached : String)
  /-- A path, or a single hyphen. -/
  | plain (text : String)
deriving Repr, DecidableEq

def Argument.ofText (text : String) : Argument :=
  match text.toList with
  | ['-', '-'] => .stop
  | '-' :: '-' :: rest =>
    let name := String.ofList (rest.takeWhile (· != '='))
    match rest.dropWhile (· != '=') with
    | '=' :: value => .long name (some (.ofList value))
    | _ => .long name none
  | '-' :: c :: rest => .short c (.ofList rest)
  | _ => .plain text

/-- All arguments from here on are paths. -/
def paths? (g : Given) : List String → Option Given
  | [] => some g
  | text :: rest => do paths? (← g.putPath? text) rest

def given? (g : Given) : List String → Option Given
  | [] => some g
  | text :: rest =>
    match Argument.ofText text with
    | .stop => paths? g rest
    | .plain path => do given? (← g.putPath? path) rest
    | .long "no-autoprefix" none =>
      if g.noVendorCopies then none else given? { g with noVendorCopies := true } rest
    | .long name (some value) => do given? (← g.put? (← ValueOption.ofLongName? name) value) rest
    | .long name none =>
      match ValueOption.ofLongName? name, rest with
      | some option, value :: rest' =>
        match Argument.ofText value with
        | .plain value => do given? (← g.put? option value) rest'
        | _ => none
      | _, _ => none
    | .short 'o' "" =>
      match rest with
      | value :: rest' =>
        match Argument.ofText value with
        | .plain value => do given? (← g.put? .output value) rest'
        | _ => none
      | [] => none
    | .short 'o' attached => do given? (← g.put? .output ((Text.after? "=" attached).getD attached)) rest
    | .short _ _ => none

def checked? (path : Option String) : List String → Option String
  | [] => path
  | text :: rest =>
    match Argument.ofText text, path with
    | .plain p, none => checked? (some p) rest
    | .stop, none => match rest with
      | [p] => some p
      | _ => none
    | .stop, some p => if rest.isEmpty then some p else none
    | _, _ => none

/-- The whole command line; `none` if it is not well formed. A request for help counts as none. -/
def Invocation.ofArguments? : List String → Option Invocation
  | [] => none
  | first :: rest =>
    match Argument.ofText first with
    | .long "version" none => some .version
    | .short 'V' _ => some .version
    | .plain "check" => (checked? none rest).map .check
    | .plain "convert" => do
      let g ← given? {} rest
      return .convert (← g.path) g.settings g.output
    | _ => none

end Stylesheet.Command
