import Stylesheet.Command.System

/-!
# Files

A system whose files are texts that can all be read and written. A path is followed part by part, either from the
working directory or from the root. Outside the working directory nothing is known but the directories above
it, those that every system has and the null device.
-/

namespace Stylesheet.Command

inductive PathFault
  | absent
  | notDirectory
  | isDirectory
  | nameTooLong
deriving Repr, DecidableEq

namespace PathFault

def all : List PathFault := [absent, notDirectory, isDirectory, nameTooLong]

def code : PathFault → Nat
  | absent => 2
  | notDirectory => 20
  | isDirectory => 21
  | nameTooLong => 36

def phrase : PathFault → String
  | absent => "No such file or directory"
  | notDirectory => "Not a directory"
  | isDirectory => "Is a directory"
  | nameTooLong => "File name too long"

def reason (f : PathFault) : String := f.phrase ++ " (os error " ++ toString f.code ++ ")"

def ofCode? (code : Nat) : Option PathFault := all.find? (·.code == code)

theorem ofCode?_code (f : PathFault) : ofCode? f.code = some f := by cases f <;> decide

end PathFault

/-- A directory that places are told from. -/
inductive Base
  | working
  /-- The parent of the working directory, or the directory so many levels above that. -/
  | above (levels : Nat)
  | root
deriving Repr, DecidableEq

def Base.parent : Base → Base
  | working => above 0
  | above levels => above (levels + 1)
  | root => root

/-- A place of a file or a directory, by the names that lead to it. -/
structure Location where
  base : Base := .working
  names : List String
deriving Repr, DecidableEq

namespace Location

def parent (l : Location) : Location :=
  if l.names = [] then { l with base := l.base.parent } else { l with names := l.names.dropLast }

def child (l : Location) (name : String) : Location := { l with names := l.names ++ [name] }

/-- Whether `l` is `directory` or a place below it. -/
def within (directory l : Location) : Bool :=
  directory.base == l.base && directory.names.isPrefixOf l.names

end Location

inductive Item
  | file (text : String)
  | directory
  /-- Reads as empty and keeps nothing. -/
  | device
  | absent
deriving Repr, DecidableEq

/-- The directories that every system has at its root. -/
def systemDirectories : List String :=
  ["bin", "dev", "etc", "home", "lib", "media", "mnt", "opt", "proc", "root", "run", "sbin", "srv", "sys",
    "tmp", "usr", "var"]

/-- What is at a place where no file of the command is. -/
def defaultItem (l : Location) : Item :=
  match l.base, l.names with
  | _, [] => .directory
  | .root, [name] => if name ∈ systemDirectories then .directory else .absent
  | .root, ["dev", "null"] => .device
  | _, _ => .absent

/-- The greatest number of bytes in a name. -/
def nameLimit : Nat := 255

/-- One more than the greatest number of bytes in a path. -/
def pathLimit : Nat := 4096

def pathParts (path : String) : List String :=
  go path.toList
where
  /-- The parts of the characters left. -/
  go : List Char → List String
    | [] => [""]
    | c :: cs =>
      if c = '/' then "" :: go cs
      else match go cs with
        | [] => [String.singleton c]
        | part :: parts => (String.singleton c ++ part) :: parts

def pathStart (path : String) : Location :=
  { base := if Text.startsWith '/' path then .root else .working, names := [] }

structure Files where
  texts : List (Location × String) := []
deriving Repr, DecidableEq

namespace Files

/-- A file, a directory that has files below it, or what is there anyway. -/
def item (fs : Files) (l : Location) : Item :=
  match fs.texts.lookup l with
  | some text => .file text
  | none => if fs.texts.any fun f => l.within f.1 then .directory else defaultItem l

/-- Follows one part of a path. Only a directory can be passed through. -/
def step (fs : Files) (l : Location) (part : String) : Except PathFault Location :=
  match fs.item l with
  | .absent => .error .absent
  | .file _ | .device => .error .notDirectory
  | .directory =>
    if part = "" ∨ part = "." then .ok l
    else if part = ".." then .ok l.parent
    else if nameLimit < part.utf8ByteSize then .error .nameTooLong
    else .ok (l.child part)

def walk (fs : Files) (l : Location) : List String → Except PathFault Location
  | [] => .ok l
  | part :: parts => do walk fs (← fs.step l part) parts

/-- Follows the given parts of a path, which has to be one. -/
def follow (fs : Files) (path : String) (parts : List String) : Except PathFault Location :=
  if path.isEmpty then .error .absent
  else if pathLimit ≤ path.utf8ByteSize then .error .nameTooLong
  else fs.walk (pathStart path) parts

/-- A path that cannot be followed is one of nothing. -/
def read (fs : Files) (path : String) : Source :=
  match fs.follow path (pathParts path) with
  | .error _ => .absent
  | .ok l =>
    match fs.item l with
    | .file text => .text text
    | .device => .text ""
    | .directory => .unreadable PathFault.isDirectory.reason
    | .absent => .absent

/-- Puts a file where one is already, or at the end. -/
def put (l : Location) (text : String) : List (Location × String) → List (Location × String)
  | [] => [(l, text)]
  | f :: fs => if f.1 = l then (l, text) :: fs else f :: put l text fs

/-- The place that a path of a file to write leads to. A path that ends in a slash names a directory, whether
there is one or not. -/
def target (fs : Files) (path : String) : Except PathFault Location :=
  if Text.endsWith '/' path then do
    let _ ← fs.follow path ((pathParts (Text.dropTrailing '/' path)).dropLast ++ ["."])
    .error .isDirectory
  else fs.follow path (pathParts path)

/-- Writes a whole file. -/
def write (fs : Files) (path text : String) : Except PathFault Files := do
  let l ← fs.target path
  match fs.item l with
  | .directory => .error .isDirectory
  | .device => return fs
  | _ => return ⟨put l text fs.texts⟩

/-- An attempt to write a file, and why it failed if it did. -/
def attempt (fs : Files) (path text : String) : Option String × Files :=
  match fs.write path text with
  | .ok after => (none, after)
  | .error fault => (some fault.reason, fs)

def place? (fs : Files) (path : String) : Option Location :=
  match fs.target path with
  | .error _ => none
  | .ok l =>
    match fs.item l with
    | .file _ | .absent => some l
    | .directory | .device => none

def bytes? (fs : Files) (l : Location) : Option ByteArray :=
  match fs.item l with
  | .file text => some text.toUTF8
  | _ => none

def system : System where
  Files := Files
  Place := Location
  bytes? := bytes?
  place? := place?
  read := read
  write := attempt
  memory := .ample

end Files

/-- Runs the command among files that can all be read and written. -/
def run (fs : Files) (arguments : List String) : Outcome × Files := Files.system.run fs arguments

end Stylesheet.Command
