import Stylesheet.Command.Invocation
import Stylesheet.Convert
import Stylesheet.Load.Tree

/-!
# Replies

What the command does with an invocation, once it is known how the input path reads. At most one file is
written, and only with the complete text.
-/

namespace Stylesheet.Command

/-- How a path reads: its file may be missing, it may give no text for any reason, or a text. -/
inductive Source
  | absent
  | unreadable (reason : String)
  | text (s : String)
deriving Repr, DecidableEq

structure Outcome where
  code : Nat
  out : String := ""
  err : String := ""
deriving Repr, DecidableEq

/-- The end of a run that gets too little memory. -/
structure Crash where
  code : Nat
  err : String := ""
  failed : code ≠ 0
deriving Repr, DecidableEq

/-- Whether the work on a text under some settings crashes. -/
abbrev Memory := String → Settings → Option Crash

def Memory.ample : Memory := fun _ _ => none

inductive Reply
  | done (outcome : Outcome)
  /-- The text is to be written to the path, and the outcome depends on that. -/
  | save (path text : String)
deriving Repr, DecidableEq

def versionNumber : String := "0.1.0"

def failure (line : String) : Outcome := { code := 1, err := line ++ "\n" }

def usageFailure : Outcome := { code := 2 }

def contentAt (path : String) : Source → Except Outcome String
  | .absent => .error (failure ("Error: file not found: " ++ path))
  | .unreadable reason => .error (failure ("Error reading " ++ path ++ ": " ++ reason))
  | .text s => .ok s

/-- The text that a sheet is loaded from, converted. -/
def convertContent (content : String) (settings : Settings) : Except Outcome String :=
  match Sheet.load content with
  | .error _ => .error (failure "Tree error")
  | .ok sheet =>
    match sheet.convert settings with
    | .ok text => .ok text
    | .error fault => .error (failure fault.message)

/-- The converted text of the sheet at a path. A crash ends the run before anything is printed. -/
def convertPath (memory : Memory) (path : String) (source : Source) (settings : Settings) : Except Outcome String := do
  let content ← contentAt path source
  match memory content settings with
  | some crash => .error { code := crash.code, err := crash.err }
  | none => convertContent content settings

def Invocation.reply (memory : Memory) (source : String → Source) : Invocation → Reply
  | .version => .done { code := 0, out := "stylus-convert " ++ versionNumber ++ "\n" }
  | .check path =>
    match convertPath memory path (source path) {} with
    | .error outcome => .done outcome
    | .ok _ => .done { code := 0, err := "OK: " ++ path ++ "\n" }
  | .convert path settings output =>
    match convertPath memory path (source path) settings with
    | .error outcome => .done outcome
    | .ok text =>
      match output with
      | none => .done { code := 0, out := text }
      | some target => .save target text

def reply (memory : Memory) (source : String → Source) (arguments : List String) : Reply :=
  match Invocation.ofArguments? arguments with
  | some invocation => invocation.reply memory source
  | none => .done usageFailure

/-- The outcome of a write, which may have failed for a reason. -/
def saved (path : String) : (failed : Option String) → Outcome
  | none => { code := 0, err := "Converted: " ++ path ++ "\n" }
  | some reason => failure ("Error writing " ++ path ++ ": " ++ reason)

end Stylesheet.Command
