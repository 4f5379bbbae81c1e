import Stylesheet.Decimal.Scaled
import Stylesheet.Decimal.Word
import Stylesheet.Json.Value

/-!
# Reading JSON

Each reader takes the characters ahead and gives a value with the characters left, or nothing if the text is
not JSON, holds a number beyond the doubles, or opens more brackets than allowed. A value that is only
skipped is held to the grammar alone.
-/

namespace Stylesheet.Json

/-- How many brackets may be open at a time. -/
def depthLimit : Nat := 127

namespace Reader

def isSpace (c : Char) : Bool := c == ' ' || c == '\n' || c == '\t' || c == '\r'

def skipSpace (cs : List Char) : List Char := cs.dropWhile isSpace

def hexValue? (c : Char) : Option Nat :=
  if c.isDigit then some (c.toNat - '0'.toNat)
  else if 'a' ≤ c ∧ c ≤ 'f' then some (c.toNat - 'a'.toNat + 10)
  else if 'A' ≤ c ∧ c ≤ 'F' then some (c.toNat - 'A'.toNat + 10)
  else none

def unit16? (a b c d : Char) : Option Nat := do
  let a ← hexValue? a
  let b ← hexValue? b
  let c ← hexValue? c
  let d ← hexValue? d
  return ((a * 16 + b) * 16 + c) * 16 + d

def isHighSurrogate (n : Nat) : Bool := 0xd800 ≤ n && n ≤ 0xdbff

def isLowSurrogate (n : Nat) : Bool := 0xdc00 ≤ n && n ≤ 0xdfff

/-- The character that an escape of one letter stands for. -/
def simpleEscape? (c : Char) : Option Char :=
  match c with
  | '"' => some '"'
  | '\\' => some '\\'
  | '/' => some '/'
  | 'b' => some '\x08'
  | 'f' => some '\x0c'
  | 'n' => some '\n'
  | 'r' => some '\r'
  | 't' => some '\t'
  | _ => none

/-- What follows an opening quote, up to the closing one. Surrogates count in pairs only, and control
characters have to be escaped. -/
def stringTail : List Char → Option (List Char × List Char)
  | [] => none
  | '"' :: rest => some ([], rest)
  | '\\' :: 'u' :: a :: b :: c :: d :: rest => do
    let high ← unit16? a b c d
    if isLowSurrogate high then none
    else if isHighSurrogate high then
      match rest with
      | '\\' :: 'u' :: a' :: b' :: c' :: d' :: rest' => do
        let low ← unit16? a' b' c' d'
        if isLowSurrogate low then
          let (s, left) ← stringTail rest'
          return (Char.ofNat (0x10000 + (high - 0xd800) * 0x400 + (low - 0xdc00)) :: s, left)
        else none
      | _ => none
    else
      let (s, left) ← stringTail rest
      return (Char.ofNat high :: s, left)
  | '\\' :: e :: rest => do
    let c ← simpleEscape? e
    let (s, left) ← stringTail rest
    return (c :: s, left)
  | c :: rest => do
    if c.toNat < 32 ∨ c = '\\' then none
    else
      let (s, left) ← stringTail rest
      return (c :: s, left)

/-- Passes over a string; the units of an escape need not form characters. -/
def skipStringTail : List Char → Option (List Char)
  | [] => none
  | '"' :: rest => some rest
  | '\\' :: 'u' :: a :: b :: c :: d :: rest => do
    let _ ← unit16? a b c d
    skipStringTail rest
  | '\\' :: e :: rest => do
    let _ ← simpleEscape? e
    skipStringTail rest
  | c :: rest => if c.toNat < 32 ∨ c = '\\' then none else skipStringTail rest

structure NumberText where
  negative : Bool
  whole : List Char
  fraction : List Char
  /-- The exponent, if one is written. -/
  exponent : Option Int

def digits (cs : List Char) : List Char × List Char := (cs.takeWhile Char.isDigit, cs.dropWhile Char.isDigit)

def digitValue (c : Char) : Nat := c.toNat - '0'.toNat

def natOfDigits (ds : List Char) : Nat := ds.foldl (fun n c => n * 10 + digitValue c) 0

/-- The digits after a point; there has to be one. -/
def fraction? : List Char → Option (List Char × List Char)
  | '.' :: rest => match digits rest with
    | ([], _) => none
    | found => some found
  | rest => some ([], rest)

def exponentDigits? (sign : Int) (cs : List Char) : Option (Option Int × List Char) :=
  match digits cs with
  | ([], _) => none
  | (ds, rest) => some (some (sign * natOfDigits ds), rest)

def exponent? : List Char → Option (Option Int × List Char)
  | c :: rest =>
    if c = 'e' ∨ c = 'E' then
      match rest with
      | '+' :: rest' => exponentDigits? 1 rest'
      | '-' :: rest' => exponentDigits? (-1) rest'
      | _ => exponentDigits? 1 rest
    else some (none, c :: rest)
  | [] => some (none, [])

def sign : List Char → Bool × List Char
  | '-' :: rest => (true, rest)
  | rest => (false, rest)

/-- A number of several digits does not start with zero. -/
def numberText? (cs : List Char) : Option (NumberText × List Char) := do
  let (negative, rest) := sign cs
  let (whole, rest) := digits rest
  if whole = [] ∨ (whole.head? = some '0' ∧ whole.length ≠ 1) then none
  else
    let (fraction, rest) ← fraction? rest
    let (exponent, rest) ← exponent? rest
    return (⟨negative, whole, fraction, exponent⟩, rest)

/-- Appends digits to a significand as long as it fits into 64 bits, and counts the digits left over. -/
def fillSignificand : Nat → List Char → Nat × Nat
  | n, [] => (n, 0)
  | n, c :: cs =>
    let m := n * 10 + digitValue c
    if m < Word.unsignedLimit then fillSignificand m cs else (n, cs.length + 1)

/-- Without fraction and exponent, a number that fits into 64 bits is an integer; minus zero is not. -/
def NumberText.value? (t : NumberText) : Option Number :=
  let n := natOfDigits t.whole
  if t.fraction = [] ∧ t.exponent = none ∧ t.negative = false ∧ n < Word.unsignedLimit then some (.integer n)
  else if t.fraction = [] ∧ t.exponent = none ∧ t.negative = true ∧ 0 < n ∧ n ≤ Word.signedLimit then
    some (.integer (-n))
  else
    let (significand, dropped) := fillSignificand 0 t.whole
    let (significand, unused) := fillSignificand significand t.fraction
    let places : Int := (t.fraction.length - unused : Nat)
    (Decimal.toFloat? t.negative significand (dropped - places + t.exponent.getD 0)).map .real

def number? (cs : List Char) : Option (Number × List Char) := do
  let (t, rest) ← numberText? cs
  let n ← t.value?
  return (n, rest)

def word? (word : String) (cs : List Char) : Option (List Char) := word.toList.isPrefixOf? cs

def scalar? : List Char → Option (Json × List Char)
  | '"' :: rest => do
    let (s, rest) ← stringTail rest
    return (.text (.ofList s), rest)
  | 'n' :: rest => (word? "ull" rest).map fun left => (.null, left)
  | 't' :: rest => (word? "rue" rest).map fun left => (.boolean true, left)
  | 'f' :: rest => (word? "alse" rest).map fun left => (.boolean false, left)
  | cs => (number? cs).map fun (n, left) => (.number n, left)

def skipScalar? : List Char → Option (List Char)
  | '"' :: rest => skipStringTail rest
  | 'n' :: rest => word? "ull" rest
  | 't' :: rest => word? "rue" rest
  | 'f' :: rest => word? "alse" rest
  | cs => (numberText? cs).map Prod.snd

def key? : List Char → Option (String × List Char)
  | '"' :: rest => do
    let (s, rest) ← stringTail rest
    match skipSpace rest with
    | ':' :: left => return (.ofList s, skipSpace left)
    | _ => none
  | _ => none

mutual

/-- A value inside at most `depth` further brackets; `fuel` bounds the number of values and entries. -/
def value? : (fuel depth : Nat) → List Char → Option (Json × List Char)
  | 0, _, _ => none
  | fuel + 1, depth, '[' :: rest =>
    match depth, skipSpace rest with
    | 0, _ => none
    | _ + 1, ']' :: left => some (.list [], left)
    | depth + 1, cs => (items? fuel depth cs).map fun (js, left) => (.list js, left)
  | fuel + 1, depth, '\x7b' :: rest =>
    match depth, skipSpace rest with
    | 0, _ => none
    | _ + 1, '\x7d' :: left => some (.record [], left)
    | depth + 1, cs => (entries? fuel depth cs).map fun (es, left) => (.record es, left)
  | _ + 1, _, cs => scalar? cs

def items? : (fuel depth : Nat) → List Char → Option (List Json × List Char)
  | 0, _, _ => none
  | fuel + 1, depth, cs => do
    let (j, rest) ← value? fuel depth cs
    match skipSpace rest with
    | ',' :: rest' =>
      let (js, left) ← items? fuel depth (skipSpace rest')
      return (j :: js, left)
    | ']' :: left => return ([j], left)
    | _ => none

def entries? : (fuel depth : Nat) → List Char → Option (List (String × Json) × List Char)
  | 0, _, _ => none
  | fuel + 1, depth, cs => do
    let (k, rest) ← key? cs
    let (j, rest) ← value? fuel depth rest
    match skipSpace rest with
    | ',' :: rest' =>
      let (es, left) ← entries? fuel depth (skipSpace rest')
      return ((k, j) :: es, left)
    | '\x7d' :: left => return ([(k, j)], left)
    | _ => none

end

mutual

def skip? : (fuel : Nat) → List Char → Option (List Char)
  | 0, _ => none
  | fuel + 1, '[' :: rest =>
    match skipSpace rest with
    | ']' :: left => some left
    | cs => skipItems? fuel cs
  | fuel + 1, '\x7b' :: rest =>
    match skipSpace rest with
    | '\x7d' :: left => some left
    | cs => skipEntries? fuel cs
  | _ + 1, cs => skipScalar? cs

def skipItems? : (fuel : Nat) → List Char → Option (List Char)
  | 0, _ => none
  | fuel + 1, cs => do
    match skipSpace (← skip? fuel cs) with
    | ',' :: rest => skipItems? fuel (skipSpace rest)
    | ']' :: left => return left
    | _ => none

def skipEntries? : (fuel : Nat) → List Char → Option (List Char)
  | 0, _ => none
  | fuel + 1, '"' :: rest => do
    match skipSpace (← skipStringTail rest) with
    | ':' :: rest' =>
      match skipSpace (← skip? fuel (skipSpace rest')) with
      | ',' :: rest'' => skipEntries? fuel (skipSpace rest'')
      | '\x7d' :: left => return left
      | _ => none
    | _ => none
  | _ + 1, _ => none

end

/-- Enough for every value in the text: each step but the last one takes a character. -/
def fuelFor (cs : List Char) : Nat := 2 * cs.length + 1

end Reader

/-- Reads a text that holds one value and white space around it. -/
def read? (text : String) : Option Json := do
  let cs := Reader.skipSpace text.toList
  let (j, rest) ← Reader.value? (Reader.fuelFor cs) depthLimit cs
  if Reader.skipSpace rest = [] then some j else none

end Stylesheet.Json
