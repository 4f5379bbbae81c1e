import Stylesheet.Json.Printer
import Stylesheet.Proofs.Json.Grammar

/-!
# Reading what was printed

A printed value reads back as itself, provided its numbers do and its brackets are not nested too deeply. What
numbers read back is a matter of their layout; natural numbers of 64 bits always do.
-/

namespace Stylesheet.Json

open Reader

private theorem unit16?_of_control {n : Nat} (h : n < 32) :
    unit16? '0' '0' (hexDigit (n / 16)) (hexDigit (n % 16)) = some n := by
  have all : ∀ n < 32, unit16? '0' '0' (hexDigit (n / 16)) (hexDigit (n % 16)) = some n := by decide
  exact all n h

private theorem stringTail_simpleEscape {e c : Char} (h : simpleEscape? e = some c) (rest : List Char) :
    stringTail ('\\' :: e :: rest) = (stringTail rest).map fun (s, left) => (c :: s, left) := by
  have short : ∀ (a b c d : Char) (left : List Char), e = 'u' → rest = a :: b :: c :: d :: left → False := by
    rintro _ _ _ _ _ rfl _
    cases h
  rw [stringTail.eq_4 _ _ short, h]
  cases stringTail rest <;> rfl

private theorem stringTail_control {c : Char} (h : c.toNat < 32) (rest : List Char) :
    stringTail ('\\' :: 'u' :: '0' :: '0' :: hexDigit (c.toNat / 16) :: hexDigit (c.toNat % 16) :: rest) =
      (stringTail rest).map fun (s, left) => (c :: s, left) := by
  have low : isLowSurrogate c.toNat = false := by simp [isLowSurrogate]; omega
  have high : isHighSurrogate c.toNat = false := by simp [isHighSurrogate]; omega
  rw [stringTail.eq_3, unit16?_of_control h]
  cases stringTail rest <;> simp [low, high, Char.ofNat_toNat]

private theorem stringTail_plain {c : Char} (quote : c ≠ '"') (backslash : c ≠ '\\') (h : ¬c.toNat < 32)
    (rest : List Char) : stringTail (c :: rest) = (stringTail rest).map fun (s, left) => (c :: s, left) := by
  rw [stringTail.eq_5]
  · simp [h, backslash]
    cases stringTail rest <;> rfl
  all_goals grind

private theorem stringTail_escapeChar (c : Char) (rest : List Char) :
    stringTail (escapeChar c ++ rest) = (stringTail rest).map fun (s, left) => (c :: s, left) := by
  unfold escapeChar
  split
  · next h => subst h; exact stringTail_simpleEscape rfl rest
  split
  · next h => subst h; exact stringTail_simpleEscape rfl rest
  split
  · next h => subst h; exact stringTail_simpleEscape rfl rest
  split
  · next h => subst h; exact stringTail_simpleEscape rfl rest
  split
  · next h => subst h; exact stringTail_simpleEscape rfl rest
  split
  · next h => subst h; exact stringTail_simpleEscape rfl rest
  split
  · next h => subst h; exact stringTail_simpleEscape rfl rest
  split
  · next h => exact stringTail_control h rest
  · next quote backslash _ _ _ _ _ h => exact stringTail_plain quote backslash h rest

private theorem stringTail_flatMap (s rest : List Char) :
    stringTail (s.flatMap escapeChar ++ '"' :: rest) = some (s, rest) := by
  induction s with
  | nil => simp [stringTail]
  | cons c s ih => rw [List.flatMap_cons, List.append_assoc, stringTail_escapeChar, ih, Option.map_some]

/-- A number can end before these characters: none of them continues it. -/
def EndsNumber (rest : List Char) : Prop := ∀ c ∈ rest.head?, c.isDigit = false ∧ c ∉ ['.', 'e', 'E']

variable {cs rest : List Char}

private theorem digits_append (h : EndsNumber rest) (cs : List Char) :
    digits (cs ++ rest) = ((digits cs).1, (digits cs).2 ++ rest) := by
  induction cs with
  | nil =>
    cases rest with
    | nil => rfl
    | cons c rest => simp [digits, (h c rfl).1]
  | cons c cs ih =>
    by_cases hc : c.isDigit
    · simpa [digits, hc] using ih
    · simp [digits, hc]

private theorem sign_append (h : cs ≠ []) (rest : List Char) :
    sign (cs ++ rest) = ((sign cs).1, (sign cs).2 ++ rest) := by
  cases cs with
  | nil => exact absurd rfl h
  | cons c cs =>
    by_cases hc : c = '-'
    · subst hc
      rfl
    · simp [sign, hc]

private theorem fraction?_point (cs : List Char) :
    fraction? ('.' :: cs) = if (digits cs).1 = [] then none else some (digits cs) := by
  rcases hds : digits cs with ⟨_ | ⟨c, ds⟩, left⟩ <;> simp [fraction?, hds]

private theorem fraction?_of_head? (h : cs.head? ≠ some '.') : fraction? cs = some ([], cs) := by
  cases cs with
  | nil => rfl
  | cons c cs =>
    have hc : c ≠ '.' := fun hc => h (congrArg some hc)
    simp [fraction?, hc]

private theorem EndsNumber.head?_ne (h : EndsNumber rest) {c : Char} (hc : c ∈ ['.', 'e', 'E']) : rest.head? ≠ some c :=
  fun head => (h c head).2 hc

private theorem fraction?_append (h : EndsNumber rest) {ds left : List Char} (found : fraction? cs = some (ds, left)) :
    fraction? (cs ++ rest) = some (ds, left ++ rest) := by
  cases cs with
  | nil =>
    cases found
    exact fraction?_of_head? (h.head?_ne (by simp))
  | cons c cs =>
    by_cases hc : c = '.'
    · subst hc
      rw [fraction?_point] at found
      rw [List.cons_append, fraction?_point, digits_append h]
      split at found
      · cases found
      · next some_digit =>
        rw [if_neg some_digit]
        rw [Option.some.inj found]
    · have other : ∀ cs : List Char, (c :: cs).head? ≠ some '.' := by simpa using hc
      rw [fraction?_of_head? (other cs)] at found
      cases found
      exact fraction?_of_head? (other _)

private theorem exponentDigits?_eq (n : Int) (cs : List Char) : exponentDigits? n cs =
    if (digits cs).1 = [] then none else some (some (n * natOfDigits (digits cs).1), (digits cs).2) := by
  rcases hds : digits cs with ⟨_ | ⟨c, ds⟩, left⟩ <;> simp [exponentDigits?, hds]

private theorem exponentDigits?_append (h : EndsNumber rest) {n : Int} {e : Option Int} {left : List Char}
    (found : exponentDigits? n cs = some (e, left)) : exponentDigits? n (cs ++ rest) = some (e, left ++ rest) := by
  rw [exponentDigits?_eq] at found ⊢
  rw [digits_append h]
  split at found
  · cases found
  · next some_digit =>
    cases found
    rw [if_neg some_digit]

private theorem exponent?_append (h : EndsNumber rest) {e : Option Int} {left : List Char}
    (found : exponent? cs = some (e, left)) : exponent? (cs ++ rest) = some (e, left ++ rest) := by
  cases cs with
  | nil =>
    cases found
    cases rest with
    | nil => rfl
    | cons c rest =>
      have hc : ¬(c = 'e' ∨ c = 'E') := fun hc => (h c rfl).2 (by simp [hc])
      simp [exponent?, hc]
  | cons c cs =>
    simp only [exponent?, List.cons_append] at found ⊢
    split at found
    · next hc =>
      rw [if_pos hc]
      split at found
      · exact exponentDigits?_append h found
      · exact exponentDigits?_append h found
      · next plus minus =>
        cases cs with
        | nil => simp [exponentDigits?, digits] at found
        | cons d cs =>
          have hd : ¬d = '+' ∧ ¬d = '-' := ⟨fun hd => plus cs (hd ▸ rfl), fun hd => minus cs (hd ▸ rfl)⟩
          simpa [hd.1, hd.2] using exponentDigits?_append h found
    · next hc =>
      cases found
      rw [if_neg hc]
      rfl

private theorem numberText?_append (h : EndsNumber rest) {t : NumberText} {left : List Char}
    (found : numberText? cs = some (t, left)) : numberText? (cs ++ rest) = some (t, left ++ rest) := by
  have start : cs ≠ [] := by
    rintro rfl
    exact absurd (length_of_numberText? found) (Nat.not_lt_zero _)
  simp only [numberText?, bind, sign_append start, digits_append h] at found ⊢
  split at found
  · cases found
  · next whole =>
    obtain ⟨⟨ds, left'⟩, hfraction, found⟩ := Option.bind_eq_some_iff.1 found
    obtain ⟨⟨e, left''⟩, hexponent, found⟩ := Option.bind_eq_some_iff.1 found
    cases found
    simp [whole, fraction?_append h hfraction, exponent?_append h hexponent]

private theorem number?_append (h : EndsNumber rest) {n : Number} (found : number? cs = some (n, [])) :
    number? (cs ++ rest) = some (n, rest) := by
  obtain ⟨⟨t, left⟩, htext, found⟩ := Option.bind_eq_some_iff.1 found
  obtain ⟨n, hn, found⟩ := Option.bind_eq_some_iff.1 found
  cases found
  simp [number?, numberText?_append h htext, hn]

def Number.ReadsBack (n : Number) : Prop := number? (printNumber n) = some (n, [])

private theorem natOfDigits_toDigits (n : Nat) : natOfDigits (Nat.toDigits 10 n) = n := by
  have value := @Nat.ofDigitChars_ten_toDigits n
  rw [Nat.ofDigitChars_eq_foldl] at value
  simpa only [natOfDigits, digitValue, Nat.mul_comm] using value

private theorem head?_toDigits {n : Nat} (h : 0 < n) : (Nat.toDigits 10 n).head? ≠ some '0' := by
  induction n using Nat.strongRecOn with
  | ind n ih =>
    rw [Nat.toDigits_eq_if (by decide)]
    split
    · next small =>
      have all : ∀ n < 10, 0 < n → [Nat.digitChar n].head? ≠ some '0' := by decide
      exact all n small h
    · rw [List.head?_append, Option.or_of_isSome (by simp [Nat.toDigits_ne_nil])]
      exact ih (n / 10) (by omega) (by omega)

private theorem toDigits_not_padded (n : Nat) :
    ¬((Nat.toDigits 10 n).head? = some '0' ∧ (Nat.toDigits 10 n).length ≠ 1) := by
  rintro ⟨head, length⟩
  rcases Nat.eq_zero_or_pos n with rfl | h
  · exact length rfl
  · exact head?_toDigits h head

private theorem digits_toDigits (n : Nat) : digits (Nat.toDigits 10 n) = (Nat.toDigits 10 n, []) := by
  have all : ∀ c ∈ Nat.toDigits 10 n, c.isDigit := fun c hc =>
    Nat.isDigit_of_mem_toDigits (by decide) (by decide) hc
  have taken := @List.takeWhile_append_of_pos _ _ _ [] all
  have left := @List.dropWhile_append_of_pos _ _ _ [] all
  simp only [List.append_nil, List.takeWhile_nil, List.dropWhile_nil] at taken left
  rw [digits, taken, left]

private theorem sign_toDigits (n : Nat) : sign (Nat.toDigits 10 n) = (false, Nat.toDigits 10 n) := by
  unfold sign
  split
  · next heq =>
    have minus : '-' ∈ Nat.toDigits 10 n := by simp [heq]
    cases Nat.isDigit_of_mem_toDigits (by decide) (by decide) minus
  · rfl

theorem readsBack_natural {n : Nat} (h : n < Word.unsignedLimit) : (Number.integer n).ReadsBack := by
  have text : printNumber (.integer n) = Nat.toDigits 10 n := Nat.toList_repr
  simp only [Number.ReadsBack, text, number?, numberText?, sign_toDigits, digits_toDigits, 
    toDigits_not_padded, Nat.toDigits_ne_nil, or_self, if_false]
  simp [fraction?, exponent?, NumberText.value?, natOfDigits_toDigits, h]

mutual

def numbers : Json → List Number
  | .number n => [n]
  | .list js => numbersOfItems js
  | .record es => numbersOfEntries es
  | _ => []

def numbersOfItems : List Json → List Number
  | [] => []
  | j :: js => j.numbers ++ numbersOfItems js

def numbersOfEntries : List (String × Json) → List Number
  | [] => []
  | (_, j) :: es => j.numbers ++ numbersOfEntries es

end

def ReadsBack (j : Json) : Prop := ∀ n ∈ j.numbers, n.ReadsBack

private theorem scalar?_text (s : String) (rest : List Char) :
    scalar? (printText s ++ rest) = some (.text s, rest) := by
  simp [printText, scalar?, stringTail_flatMap]

private theorem key?_printText (s : String) (rest : List Char) :
    key? (printText s ++ ':' :: rest) = some (s, skipSpace rest) := by
  simp [printText, key?, stringTail_flatMap, skipSpace, isSpace]

private theorem scalar?_printNumber (h : EndsNumber rest) {n : Number} (back : n.ReadsBack) :
    scalar? (printNumber n ++ rest) = some (.number n, rest) := by
  have found := number?_append h back
  rw [scalar?.eq_5, found, Option.map_some]
  all_goals
    rintro left heq
    rw [heq] at found
    simp [number?, numberText?, sign, digits] at found

private theorem endsNumber_cons {c : Char} (h : c ∈ [',', ']', '\x7d']) (rest :
    List Char) : EndsNumber (c :: rest) := by
  rintro c ⟨⟩
  simp only [List.mem_cons, List.not_mem_nil, or_false] at h
  rcases h with rfl | rfl | rfl <;> decide

private theorem skipSpace_cons {c : Char} (h : isSpace c = false) (rest : List Char) :
    skipSpace (c :: rest) = c :: rest := by
  simp [skipSpace, h]

/-- Whatever part of the text comes next, the value is read in front of it. -/
private def Printed (depth : Nat) (j : Json) : Prop :=
  ∀ {rest : List Char}, EndsNumber rest → Reads depth (j.printChars ++ rest) j rest

private theorem key?_of_printed (k : String) {depth : Nat} {j : Json} (value : Printed depth j)
    (ends : EndsNumber rest) :
    key? (printText k ++ ':' :: (j.printChars ++ rest)) = some (k, j.printChars ++ rest) := by
  rw [key?_printText, (value ends).skipSpace_eq]

mutual

private theorem printed_of_readsBack : ∀ {j : Json} {depth : Nat}, j.depth ≤ depth → j.ReadsBack → Printed depth j
  | .null, _, _, _, _, _ => .scalar rfl
  | .boolean true, _, _, _, _, _ => .scalar rfl
  | .boolean false, _, _, _, _, _ => .scalar rfl
  | .number n, _, _, back, _, ends => .scalar (scalar?_printNumber ends (back n (by simp [numbers])))
  | .text s, _, _, _, _, _ => .scalar (scalar?_text s _)
  | .list [], depth + 1, _, _, _, _ => .emptyList (skipSpace_cons (by decide) _)
  | .list (j :: js), depth + 1, room, back, rest, _ => by
    have rooms := Nat.max_le.1 (Nat.le_of_succ_le_succ room)
    have backs := List.forall_mem_append.1 back
    have inside := readsItems_of_printed (printed_of_readsBack rooms.1 backs.1) js rooms.2 backs.2 rest
    simp only [printChars, List.cons_append, List.append_assoc]
    exact .list (inside.skipSpace_eq.symm ▸ inside)
  | .record [], depth + 1, _, _, _, _ => .emptyRecord (skipSpace_cons (by decide) _)
  | .record ((k, j) :: es), depth + 1, room, back, rest, _ => by
    have rooms := Nat.max_le.1 (Nat.le_of_succ_le_succ room)
    have backs := List.forall_mem_append.1 back
    have inside := readsEntries_of_printed k (printed_of_readsBack rooms.1 backs.1) es rooms.2 backs.2 rest
    simp only [printChars, List.cons_append, List.append_assoc]
    exact .record (inside.skipSpace_eq.symm ▸ inside)

private theorem readsItems_of_printed {depth : Nat} {j : Json} (first : Printed depth j) : ∀ (js : List Json),
    listDepth js ≤ depth → (∀ n ∈ numbersOfItems js, n.ReadsBack) → ∀ rest : List Char,
      ReadsItems depth (j.printChars ++ (printItems js ++ rest)) (j :: js) rest
  | [], _, _, _ => .last (first (endsNumber_cons (by simp) _)) (skipSpace_cons (by decide) _)
  | k :: ks, room, back, rest => by
    have rooms := Nat.max_le.1 room
    have backs := List.forall_mem_append.1 back
    have others := readsItems_of_printed (printed_of_readsBack rooms.1 backs.1) ks rooms.2 backs.2 rest
    simp only [printItems, List.cons_append, List.append_assoc]
    exact .more (first (endsNumber_cons (by simp) _)) (skipSpace_cons (by decide) _)
      (others.skipSpace_eq.symm ▸ others)

private theorem readsEntries_of_printed {depth : Nat} (k : String) {j : Json} (first : Printed depth j) :
    ∀ (es : List (String × Json)), recordDepth es ≤ depth → (∀ n ∈ numbersOfEntries es, n.ReadsBack) →
      ∀ rest : List Char, ReadsEntries depth
        (printText k ++ ':' :: (j.printChars ++ (printEntries es ++ rest))) ((k, j) :: es) rest
  | [], _, _, rest =>
    have ends : EndsNumber ('\x7d' :: rest) := endsNumber_cons (by simp) _
    .last (key?_of_printed k first ends) (first ends) (skipSpace_cons (by decide) _)
  | (k', j') :: es, room, back, rest => by
    have rooms := Nat.max_le.1 room
    have backs := List.forall_mem_append.1 back
    have others := readsEntries_of_printed k' (printed_of_readsBack rooms.1 backs.1) es rooms.2 backs.2 rest
    simp only [printEntries, List.cons_append, List.append_assoc]
    have ends : ∀ left, EndsNumber (',' :: left) := endsNumber_cons (by simp)
    exact .more (key?_of_printed k first (ends _)) (first (ends _)) (skipSpace_cons (by decide) _)
      (others.skipSpace_eq.symm ▸ others)

end

/-- A printed value that is not too deep is read as itself, if its numbers are. -/
theorem read?_print {j : Json} (room : j.depth ≤ depthLimit) (back : j.ReadsBack) : read? j.print = some j := by
  have found : Reads depthLimit (j.printChars ++ []) j [] := printed_of_readsBack room back (by simp [EndsNumber])
  rw [List.append_nil] at found
  refine read?_eq_some_iff.2 ⟨[], ?_, rfl⟩
  rw [print, String.toList_ofList, found.skipSpace_eq]
  exact found

end Stylesheet.Json
