import Stylesheet.Proofs.Edits

/-!
# Brackets in texts

A text is bracketed if reading it with a stack of the brackets that are still open ends without any. Only the
brackets of a text count, so edits that leave them alone leave this alone.
-/

namespace Stylesheet.Text

def closer? : Char → Option Char
  | '\x7b' => some '\x7d'
  | '(' => some ')'
  | '[' => some ']'
  | _ => none

def isCloser (c : Char) : Bool := c == '\x7d' || c == ')' || c == ']'

def brackets : List Char := ['\x7b', '\x7d', '(', ')', '[', ']']

def isBracket (c : Char) : Bool := brackets.contains c

/-- What one character does to the closing brackets that are waited for, the innermost first. -/
def bracketStep (c : Char) (stack : List Char) : Option (List Char) :=
  match closer? c with
  | some d => some (d :: stack)
  | none =>
    if isCloser c then
      match stack with
      | d :: rest => if d = c then some rest else none
      | [] => none
    else some stack

/-- The closing brackets that are waited for after a text, unless one came that was not waited for. -/
def waitedFor : List Char → List Char → Option (List Char)
  | stack, [] => some stack
  | stack, c :: cs => (bracketStep c stack).bind fun stack => waitedFor stack cs

/-- Every bracket that is opened is closed by its own kind and in order of nesting, and no other one is closed. -/
def Bracketed (s : String) : Prop := waitedFor [] s.toList = some []

instance (s : String) : Decidable (Bracketed s) := inferInstanceAs (Decidable (_ = _))

/-- What is waited for after a text, as a function of what was before it. -/
def reads (stack : List Char) (s : String) : Option (List Char) := waitedFor stack s.toList

/-- Whatever is waited for before the text, the same is after it. -/
abbrev Nested (s : String) : Prop := ∀ stack, reads stack s = some stack

private theorem bracketStep_of_not_bracket {c : Char} (h : isBracket c = false) (stack : List Char) :
    bracketStep c stack = some stack := by
  have hc : c ∉ brackets := by simpa [isBracket] using h
  simp only [brackets, List.mem_cons, List.not_mem_nil, or_false, not_or] at hc
  have opens : closer? c = none := by
    unfold closer?
    split <;> simp_all
  have closes : isCloser c = false := by simp [isCloser, hc]
  simp [bracketStep, opens, closes]

private theorem bracketStep_append {c : Char} {stack stack' : List Char} (h : bracketStep c stack = some stack')
    (below : List Char) : bracketStep c (stack ++ below) = some (stack' ++ below) := by
  unfold bracketStep at h ⊢
  cases hc : closer? c with
  | some d =>
    simp only [hc, Option.some.injEq] at h ⊢
    rw [← h, List.cons_append]
  | none =>
    simp only [hc] at h ⊢
    by_cases hs : isCloser c
    · cases stack with
      | nil => simp [hs] at h
      | cons d rest => by_cases hd : d = c <;> simp_all
    · simp_all

private theorem waitedFor_append_stack {stack stack' cs : List Char} (h : waitedFor stack cs = some stack')
    (below : List Char) : waitedFor (stack ++ below) cs = some (stack' ++ below) := by
  induction cs generalizing stack with
  | nil =>
    simp only [waitedFor, Option.some.injEq] at h
    rw [waitedFor, h]
  | cons c cs ih =>
    simp only [waitedFor, Option.bind_eq_some_iff] at h
    obtain ⟨next, hn, hcs⟩ := h
    rw [waitedFor, bracketStep_append hn, Option.bind_some]
    exact ih hcs

theorem bracketed_iff_nested (s : String) : Bracketed s ↔ Nested s := by
  constructor
  · intro h stack
    exact waitedFor_append_stack h stack
  · intro h
    exact h []

private theorem waitedFor_append (stack cs ds : List Char) :
    waitedFor stack (cs ++ ds) = (waitedFor stack cs).bind fun stack => waitedFor stack ds := by
  induction cs generalizing stack with
  | nil => rfl
  | cons c cs ih =>
    rw [List.cons_append, waitedFor, waitedFor, Option.bind_assoc]
    congr 1
    funext next
    exact ih next

private theorem waitedFor_filter (stack cs : List Char) :
    waitedFor stack (cs.filter isBracket) = waitedFor stack cs := by
  induction cs generalizing stack with
  | nil => rfl
  | cons c cs ih =>
    by_cases hc : isBracket c
    · rw [List.filter_cons_of_pos hc, waitedFor, waitedFor]
      congr 1
      funext next
      exact ih next
    · have hn : isBracket c = false := by simpa using hc
      rw [List.filter_cons_of_neg hc, waitedFor, bracketStep_of_not_bracket hn, Option.bind_some, ih]

private theorem waitedFor_congr {cs ds : List Char} (h : cs.filter isBracket = ds.filter isBracket)
    (stack : List Char) :
    waitedFor stack cs = waitedFor stack ds := by
  rw [← waitedFor_filter, h, waitedFor_filter]

@[simp] theorem reads_append (stack : List Char) (s t : String) :
    reads stack (s ++ t) = (reads stack s).bind fun stack => reads stack t := by
  rw [reads, String.toList_append, waitedFor_append]
  rfl

theorem nested_of_filter {s t : String} (h : s.toList.filter isBracket = t.toList.filter isBracket)
    (ht : Nested t) : Nested s := fun stack => (waitedFor_congr h stack).trans (ht stack)

theorem isBracket_eq_false {P : Char → Bool} (none : brackets.all fun c => !P c) {c : Char} (h : P c) :
    isBracket c = false := by
  rw [← Bool.not_eq_true, isBracket, List.contains_iff_mem]
  intro hc
  have outside : P c = false := by simpa using List.all_eq_true.1 none c hc
  rw [outside] at h
  cases h

/-- A text without brackets. -/
theorem nested_of_plain {s : String} (h : ∀ c ∈ s.toList, isBracket c = false) : Nested s := by
  refine nested_of_filter (t := "") ?_ fun stack => rfl
  rw [List.filter_eq_nil_iff.2 (by simpa using h)]
  rfl

theorem Bracketed.nested {s : String} (h : Bracketed s) : Nested s := (bracketed_iff_nested s).1 h

variable {s t : String} {d : Char}

theorem Nested.append (hs : Nested s) (ht : Nested t) : Nested (s ++ t) := by
  intro stack
  rw [reads_append, hs, Option.bind_some, ht]

/-- The text opens one bracket more than it closes, and `d` would close that one. -/
def Opens (d : Char) (s : String) : Prop := ∀ stack, reads stack s = some (d :: stack)

def Closes (d : Char) (s : String) : Prop := ∀ stack, reads (d :: stack) s = some stack

theorem Nested.opening (hs : Nested s) (ht : Opens d t) : Opens d (s ++ t) := by
  intro stack
  rw [reads_append, hs, Option.bind_some, ht]

theorem Opens.append (hs : Opens d s) (ht : Nested t) : Opens d (s ++ t) := by
  intro stack
  rw [reads_append, hs, Option.bind_some, ht]

theorem Opens.closing (hs : Opens d s) (ht : Closes d t) : Nested (s ++ t) := by
  intro stack
  rw [reads_append, hs, Option.bind_some, ht]

theorem opens_brace : Opens '\x7d' " \x7b" := fun _ => rfl

theorem closes_brace : Closes '\x7d' "\x7d" := fun _ => rfl

theorem opens_parenthesis : Opens ')' "(" := fun _ => rfl

theorem closes_parenthesis : Closes ')' ")" := fun _ => rfl

theorem isBracket_of_isBlank {c : Char} (h : isBlank c) : isBracket c = false := isBracket_eq_false (by decide) h

theorem nested_repeated (n : Nat) {c : Char} (hc : isBracket c = false) : Nested (repeated n c) := by
  apply nested_of_plain
  intro d hd
  rw [eq_of_mem_repeated hd, hc]

theorem nested_margin (s : String) : Nested (margin s) :=
  nested_of_plain fun _ hc => isBracket_of_isBlank (isBlank_of_mem_margin hc)

end Stylesheet.Text
