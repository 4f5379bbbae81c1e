/-!
# Small edits of text

Searching, cutting and repeating, each stated on the list of characters.
-/

namespace Stylesheet.Text

def startsWith (c : Char) (s : String) : Bool := s.toList.head? == some c

def endsWith (c : Char) (s : String) : Bool := s.toList.getLast? == some c

def dropTrailing (c : Char) (s : String) : String :=
  .ofList (s.toList.reverse.dropWhile (· == c)).reverse

def eraseFirst (c : Char) (s : String) : String := .ofList (s.toList.erase c)

def occursIn (needle : List Char) : List Char → Bool
  | [] => needle.isEmpty
  | c :: cs => needle.isPrefixOf (c :: cs) || occursIn needle cs

def contains (needle s : String) : Bool := occursIn needle.toList s.toList

/-- What follows `lead`, if the text starts with it. -/
def after? (lead s : String) : Option String := (lead.toList.isPrefixOf? s.toList).map .ofList

/-- What precedes `tail`, if the text ends with it. -/
def before? (tail s : String) : Option String := (tail.toList.isSuffixOf? s.toList).map .ofList

def repeated (n : Nat) (c : Char) : String := .ofList (List.replicate n c)

/-- The text between line feeds: one line more than there are line feeds. -/
def splitLines : List Char → List (List Char)
  | [] => [[]]
  | c :: cs =>
    if c = '\n' then [] :: splitLines cs
    else match splitLines cs with
      | [] => [[c]]
      | l :: ls => (c :: l) :: ls

def joinLines (ls : List (List Char)) : List Char := List.intercalate ['\n'] ls

theorem splitLines_ne_nil (cs : List Char) : splitLines cs ≠ [] := by
  cases cs with
  | nil => simp [splitLines]
  | cons c cs =>
    rw [splitLines]
    split
    · simp
    · split <;> simp

theorem newline_not_mem_splitLines {cs l : List Char} (h : l ∈ splitLines cs) : '\n' ∉ l := by
  induction cs generalizing l with
  | nil => simp_all [splitLines]
  | cons c cs ih =>
    rw [splitLines] at h
    split at h
    · rcases List.mem_cons.1 h with rfl | h
      · exact List.not_mem_nil
      · exact ih h
    · next hc =>
      split at h
      · next hs => exact absurd hs (splitLines_ne_nil cs)
      · next l' ls hs =>
        rcases List.mem_cons.1 h with rfl | h
        · have := ih (hs ▸ List.mem_cons_self)
          simp [this, Ne.symm hc]
        · exact ih (hs ▸ List.mem_cons_of_mem _ h)

private theorem joinLines_cons_char (c : Char) (l : List Char) (ls : List (List Char)) :
    joinLines ((c :: l) :: ls) = c :: joinLines (l :: ls) := by
  cases ls <;> simp [joinLines, List.intercalate]

private theorem joinLines_nil_cons {ls : List (List Char)} (h : ls ≠ []) :
    joinLines ([] :: ls) = '\n' :: joinLines ls := by
  cases ls with
  | nil => exact absurd rfl h
  | cons l ls => simp [joinLines, List.intercalate]

theorem joinLines_splitLines (cs : List Char) : joinLines (splitLines cs) = cs := by
  induction cs with
  | nil => rfl
  | cons c cs ih =>
    rw [splitLines]
    split
    · next hc => rw [joinLines_nil_cons (splitLines_ne_nil cs), ih, hc]
    · split
      · next hs => exact absurd hs (splitLines_ne_nil cs)
      · next l ls hs => rw [joinLines_cons_char, ← hs, ih]

end Stylesheet.Text
