import Stylesheet.Command.Reply

/-!
# Systems

What the command finds around it. The system decides which paths can be read and written, whatever is in its way, and
what each attempt leaves behind; the command asks it to read one path, and to write one if it has a text for it.
-/

namespace Stylesheet.Command

structure System where
  Files : Type
  /-- Where a file can be. -/
  Place : Type
  /-- The bytes of the file at a place, if there is one. -/
  bytes? : Files → Place → Option ByteArray
  /-- The place of the file that a path leads to, or that a write would put there; a directory or a device has none. -/
  place? : Files → String → Option Place
  read : Files → String → Source
  /-- Why an attempt to write a text failed, if it did, and the files after it. -/
  write : Files → String → String → Option String × Files
  memory : Memory

namespace System

/-- Runs the command, and gives the files afterwards. -/
def run (system : System) (files : system.Files) (arguments : List String) : Outcome × system.Files :=
  match reply system.memory (system.read files) arguments with
  | .done outcome => (outcome, files)
  | .save path text =>
    let (failed, after) := system.write files path text
    (saved path failed, after)

end System

end Stylesheet.Command
