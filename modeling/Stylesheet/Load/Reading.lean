import Stylesheet.Json.Reader
import Stylesheet.Load.Fault

/-!
# Reading data as it comes

Readers that judge each part of a text before they look at the next one, so that the first fault in reading
order is the one reported.
-/

namespace Stylesheet

/-- Takes the characters ahead, and gives data with the characters left. -/
abbrev Reading (α : Type) := List Char → Except LoadFault (α × List Char)

namespace Reading

open Json.Reader

def ofReader {α : Type} (reader : List Char → Option (α × List Char)) : Reading α := fun cs =>
  match reader cs with
  | some found => .ok found
  | none => .error .malformed

/-- A complete value inside at most `depth` further brackets. -/
def value (depth : Nat) : Reading Json := fun cs => ofReader (value? (fuelFor cs) depth) cs

def skip : Reading Unit := ofReader fun cs => (skip? (fuelFor cs) cs).map fun left => ((), left)

/-- A value without brackets. An opening bracket already shows that it is none, and nothing after the bracket
is read. -/
def scalar {α : Type} (decode : Json → Except LoadFault α) : Reading α := fun cs => do
  let (j, left) ← match cs with
    | '[' :: _ => pure (.list [], cs)
    | '\x7b' :: _ => pure (.record [], cs)
    | _ => ofReader scalar? cs
  return (← decode j, left)

def unexpected {α : Type} (expected : Expected) : Reading α :=
  scalar fun j => .error (.wrongType j.found expected)

/-- The entries of a record after its bracket, each taken up into a state as it is met. -/
def entries {σ : Type} (step : σ → String → Reading σ) : (fuel : Nat) → σ → Reading σ
  | 0, _, _ => .error .malformed
  | fuel + 1, state, cs => do
    let (key, rest) ← ofReader key? cs
    let (state, rest) ← step state key rest
    match skipSpace rest with
    | ',' :: rest' => entries step fuel state (skipSpace rest')
    | '\x7d' :: left => return (state, left)
    | _ => .error .malformed

def record {σ : Type} (expected : Expected) (step : σ → String → Reading σ) (start : σ) : Reading σ
  | '\x7b' :: rest =>
    match skipSpace rest with
    | '\x7d' :: left => .ok (start, left)
    | cs => entries step cs.length start cs
  | cs => unexpected expected cs

/-- The fields of a record that is written as a list, after its bracket. Each one stands at its place; whether it
may be missing at the end is given beside its key. -/
def row {σ : Type} (name : String) (step : σ → String → Reading σ) :
    (place : Nat) → (ahead : List (String × Bool)) → σ → Reading σ
  | _, [], state, cs =>
    match skipSpace cs with
    | ']' :: left => return (state, left)
    | _ => .error .malformed
  | place, (key, mayMiss) :: ahead, state, cs =>
    match place, skipSpace cs with
    | place, ']' :: left => do
      LoadFault.atEnd name place (mayMiss :: ahead.map Prod.snd)
      return (state, left)
    | 0, cs => do
      let (state, rest) ← step state key cs
      row name step 1 ahead state rest
    | place + 1, ',' :: cs => do
      let (state, rest) ← step state key (skipSpace cs)
      row name step (place + 2) ahead state rest
    | _, _ => .error .malformed

/-- A record with known fields, by their keys or by their places. -/
def fields {σ : Type} (name : String) (known : List (String × Bool)) (step : σ → String → Reading σ) (start : σ) :
    Reading σ
  | '[' :: rest => row name step 0 known start rest
  | cs => record (.fields name) step start cs

def items {α : Type} (item : Reading α) : (fuel : Nat) → Reading (List α)
  | 0, _ => .error .malformed
  | fuel + 1, cs => do
    let (a, rest) ← item cs
    match skipSpace rest with
    | ',' :: rest' =>
      let (as, left) ← items item fuel (skipSpace rest')
      return (a :: as, left)
    | ']' :: left => return ([a], left)
    | _ => .error .malformed

def list {α : Type} (item : Reading α) : Reading (List α)
  | '[' :: rest =>
    match skipSpace rest with
    | ']' :: left => .ok ([], left)
    | cs => items item cs.length cs
  | cs => unexpected .list cs

def once {α : Type} (field : String) (seen : Option α) (reader : Reading α) : Reading (Option α) :=
  fun cs =>
  match seen with
  | some _ => .error (.duplicate field)
  | none => do
    let (a, left) ← reader cs
    return (some a, left)

/-- Reads a text that holds the data and white space around it. -/
def run {α : Type} (reader : Reading α) (text : String) : Except LoadFault α := do
  let (a, rest) ← reader (skipSpace text.toList)
  if skipSpace rest = [] then return a else .error .malformed

end Reading

end Stylesheet
