import Stylesheet.Load.Reading
import Stylesheet.Tree.Decode

/-!
# Loading trees

A sheet is read as it comes: a fault in one of its statements is found before anything after that statement is
looked at. A statement itself is read to its end first, all but its tag, which is the first item of a statement that is
written as a list.
-/

namespace Stylesheet.Load

open Reading
open Json (depthLimit)
open Json.Reader (skipSpace)

/-- The kind, if the tag was met, and the other entries met so far, the last one first. -/
abbrev NodeEntries := Option Kind × List (String × Json)

/-- At this level a tag is a text. -/
def textTag : Json → Except LoadFault Kind
  | .text s => Decode.tagText s
  | j => .error (.wrongType j.found .tag)

def nodeEntry (depth : Nat) (seen : NodeEntries) (key : String) : Reading NodeEntries := fun cs => do
  if key = "__type" then
    let (kind, left) ← once key seen.1 (scalar textTag) cs
    return ((kind, seen.2), left)
  else
    let (j, left) ← value depth cs
    return ((seen.1, (key, j) :: seen.2), left)

/-- The tag of a node that is written as a list, and the items behind it. -/
def tagged (depth : Nat) : Reading (Kind × List Json)
  | ']' :: _ => .error (.missing "__type")
  | cs => do
    let (kind, rest) ← scalar textTag cs
    match skipSpace rest with
    | ',' :: rest' =>
      let (js, left) ← items (value depth) rest'.length (skipSpace rest')
      return ((kind, js), left)
    | ']' :: left => return ((kind, []), left)
    | _ => .error .malformed

/-- A node with room for `depth` brackets, its own included. -/
def node : (depth : Nat) → Reading Node
  | 0, _ => .error .malformed
  | depth + 1, '[' :: rest => do
    let ((k, js), left) ← tagged depth (skipSpace rest)
    return (← Assemble.node k (← Decode.row k.recordName 0 (Schema.ofKind k) js), left)
  | depth + 1, cs => do
    let ((kind, entries), left) ← record .node (nodeEntry depth) (none, []) cs
    match kind with
    | none => .error (.missing "__type")
    | some k => return (← Assemble.node k (← Decode.fields (Schema.ofKind k) [] entries.reverse), left)

def nodes (depth : Nat) : Reading (List Node) := list (node (depth - 1))

structure ListFields where
  items : Option (List Node) := none
  line : Option (Option Nat) := none

def listField (withLine : Bool) (seen : ListFields) (key : String) : Reading ListFields := fun cs => do
  if key = "nodes" then
    let (items, left) ← once key seen.items (nodes (depthLimit - 1)) cs
    return ({ seen with items }, left)
  else if withLine ∧ key = "lineno" then
    let (line, left) ← once key seen.line (scalar (Decode.optional Decode.natural)) cs
    return ({ seen with line }, left)
  else
    let ((), left) ← skip cs
    return (seen, left)

def sheet : Reading Sheet := fun cs => do
  let (found, left) ← fields "Root" [("nodes", true)] (listField false) {} cs
  return (⟨found.items.getD []⟩, left)

def expression : Reading (Expression Node) := fun cs => do
  let (found, left) ← fields "Expression" [("nodes", true), ("lineno", false)] (listField true) {} cs
  return (⟨found.items.getD [], found.line.join⟩, left)

structure CommentFields where
  text : Option String := none
  suppressed : Option Bool := none
  line : Option (Option Nat) := none

def commentField (seen : CommentFields) (key : String) : Reading CommentFields := fun cs => do
  match key with
  | "str" =>
    let (text, left) ← once key seen.text (scalar Decode.text) cs
    return ({ seen with text }, left)
  | "suppress" =>
    let (suppressed, left) ← once key seen.suppressed (scalar Decode.boolean) cs
    return ({ seen with suppressed }, left)
  | "lineno" =>
    let (line, left) ← once key seen.line (scalar (Decode.optional Decode.natural)) cs
    return ({ seen with line }, left)
  | _ =>
    let ((), left) ← skip cs
    return (seen, left)

def comment : Reading Comment := fun cs => do
  let (found, left) ←
    fields "Comment" [("str", false), ("suppress", true), ("lineno", false)] commentField {} cs
  match found.text with
  | none => .error (.missing "str")
  | some text => return (⟨text, found.suppressed.getD false, found.line.join⟩, left)

end Load

/-- Loads a sheet from its JSON text. -/
def Sheet.load (text : String) : Except LoadFault Sheet := Reading.run Load.sheet text

def Node.load (text : String) : Except LoadFault Node := Reading.run (Load.node Json.depthLimit) text

def Node.loadList (text : String) : Except LoadFault (List Node) :=
  Reading.run (Load.nodes Json.depthLimit) text

def Expression.load (text : String) : Except LoadFault (Expression Node) := Reading.run Load.expression text

def Comment.load (text : String) : Except LoadFault Comment := Reading.run Load.comment text

end Stylesheet
