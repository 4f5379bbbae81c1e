import Stylesheet.Command.Files

/-!
# The program

Reads and writes the real files; what is read, written and printed is decided by `Command.reply`.
-/

namespace Stylesheet.Program

open Command

/-- The fault that the system names by its number, which some calls give with the other sign. -/
def faultOfCode? (code : UInt32) : Option PathFault := PathFault.ofCode? (min code.toNat (0 - code).toNat)

def pathFault? : IO.Error → Option PathFault
  | .noFileOrDirectory _ code _ => faultOfCode? code
  | .inappropriateType _ code _ => faultOfCode? code
  | .invalidArgument _ code _ => faultOfCode? code
  | _ => none

def reason (e : IO.Error) : String :=
  match pathFault? e, e with
  | some fault, _ => fault.reason
  | none, .permissionDenied .. => "Permission denied (os error 13)"
  | none, e => toString e

/-- Reads a path as far as it can be read as text. -/
def read (path : String) : IO Source := do
  try
    let bytes ← IO.FS.readBinFile path
    match String.fromUTF8? bytes with
    | some s => return .text s
    | none => return .unreadable "stream did not contain valid UTF-8"
  catch e =>
    match pathFault? e with
    | some .isDirectory => return .unreadable PathFault.isDirectory.reason
    | some _ => return .absent
    | none => return .unreadable (reason e)

def inputPath? : Invocation → Option String
  | .version => none
  | .check path => some path
  | .convert path _ _ => some path

def finish (outcome : Outcome) : IO UInt32 := do
  IO.print outcome.out
  IO.eprint outcome.err
  return outcome.code.toUInt32

def start (arguments : List String) : IO UInt32 := do
  let source ← match (Invocation.ofArguments? arguments).bind inputPath? with
    | some path => read path
    | none => pure .absent
  match reply .ample (fun _ => source) arguments with
  | .done outcome => finish outcome
  | .save path text =>
    try
      IO.FS.writeFile path text
      finish (saved path none)
    catch e => finish (saved path (some (reason e)))

end Stylesheet.Program

def main (arguments : List String) : IO UInt32 := Stylesheet.Program.start arguments
