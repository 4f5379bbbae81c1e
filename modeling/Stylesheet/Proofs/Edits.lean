import Mathlib.Data.List.Basic
import Mathlib.Data.List.TakeWhile
import Stylesheet.Convert

/-!
# What edits of texts leave alone

Every edit takes out characters of one kind only, or puts white space in. Of the other characters nothing is
changed, which is stated here as: the characters with a property that those of the kind do not have stay.
-/

namespace Stylesheet

namespace Text

variable {P : Char → Bool}

private theorem filter_dropWhile {α : Type} {P Q : α → Bool} (h : ∀ a, Q a → P a = false) (l : List α) :
    (l.dropWhile Q).filter P = l.filter P := by
  induction l with
  | nil => rfl
  | cons a l ih =>
    by_cases ha : Q a
    · rw [List.dropWhile_cons_of_pos ha, List.filter_cons_of_neg (by simp [h a ha]), ih]
    · rw [List.dropWhile_cons_of_neg ha]

theorem filter_trimStart (h : ∀ c, isBlank c → P c = false) (s : String) :
    (trimStart s).toList.filter P = s.toList.filter P := by
  rw [trimStart, String.toList_ofList]
  exact filter_dropWhile h s.toList

theorem filter_dropTrailing {c : Char} (h : P c = false) (s : String) :
    (dropTrailing c s).toList.filter P = s.toList.filter P := by
  have hc : ∀ a, (a == c) → P a = false := by
    intro a ha
    rw [eq_of_beq ha, h]
  rw [dropTrailing, String.toList_ofList, List.filter_reverse, filter_dropWhile hc, List.filter_reverse,
    List.reverse_reverse]

theorem filter_eraseFirst {c : Char} (h : P c = false) (s : String) :
    (eraseFirst c s).toList.filter P = s.toList.filter P := by
  rw [eraseFirst, String.toList_ofList]
  induction s.toList with
  | nil => rfl
  | cons a l ih =>
    by_cases ha : a = c
    · rw [ha, List.erase_cons_head, List.filter_cons_of_neg (by simp [h])]
    · rw [List.erase_cons_tail (by simpa using ha), List.filter_cons, List.filter_cons, ih]

theorem filter_removeBlanks (h : ∀ c, isBlank c → P c = false) (s : String) :
    (removeBlanks s).toList.filter P = s.toList.filter P := by
  rw [removeBlanks, String.toList_ofList, List.filter_filter]
  apply List.filter_congr
  intro c hc
  cases hb : isBlank c with
  | false => simp
  | true => simp [h c hb]

theorem joinLines_cons_cons (l m : List Char) (ls : List (List Char)) :
    joinLines (l :: m :: ls) = l ++ '\n' :: joinLines (m :: ls) := by
  simp [joinLines, List.intercalate]

private theorem filter_joinLines (h : P '\n' = false) (ls : List (List Char)) :
    (joinLines ls).filter P = (ls.map (·.filter P)).flatten := by
  induction ls with
  | nil => rfl
  | cons l ls ih =>
    cases ls with
    | nil => simp [joinLines, List.intercalate]
    | cons l' ls =>
      rw [joinLines_cons_cons, List.filter_append, List.filter_cons_of_neg (by simp [h]), ih]
      rfl

theorem isBlank_of_mem_margin {s : String} {c : Char} (h : c ∈ (margin s).toList) : isBlank c := by
  rw [margin, String.toList_ofList] at h
  exact List.mem_takeWhile_imp h

theorem eq_of_mem_repeated {c d : Char} {n : Nat} (h : d ∈ (repeated n c).toList) : d = c := by
  rw [repeated, String.toList_ofList] at h
  exact List.eq_of_mem_replicate h

/-- What is taken off at the end is all the one character. -/
theorem dropTrailing_append (c : Char) (s : String) :
    ∃ n, s.toList = (dropTrailing c s).toList ++ List.replicate n c := by
  have only : ∀ d ∈ s.toList.reverse.takeWhile (· == c), d = c := fun d hd =>
    eq_of_beq (List.mem_takeWhile_imp (p := (· == c)) hd)
  refine ⟨(s.toList.reverse.takeWhile (· == c)).length, ?_⟩
  rw [← List.reverse_replicate, ← List.eq_replicate_of_mem only, dropTrailing, String.toList_ofList,
    ← List.reverse_append, List.takeWhile_append_dropWhile, List.reverse_reverse]

theorem append_of_after? {lead s rest : String} (h : after? lead s = some rest) : s = lead ++ rest := by
  obtain ⟨r, hr, rfl⟩ := Option.map_eq_some_iff.1 h
  rw [← String.toList_inj, String.toList_append, String.toList_ofList]
  exact (List.append_eq_of_isPrefixOf?_eq_some hr).symm

theorem append_of_before? {tail s stem : String} (h : before? tail s = some stem) : s = stem ++ tail := by
  obtain ⟨r, hr, rfl⟩ := Option.map_eq_some_iff.1 h
  rw [← String.toList_inj, String.toList_append, String.toList_ofList]
  obtain ⟨r', hr', rfl⟩ := Option.map_eq_some_iff.1 hr
  have hs := (List.append_eq_of_isPrefixOf?_eq_some hr').symm
  rw [← List.reverse_reverse s.toList, hs, List.reverse_append, List.reverse_reverse]

end Text

open Text in
/-- Indentation puts spaces between lines, and nothing else. -/
theorem filter_indentLines {P : Char → Bool} (newline : P '\n' = false) (space : P ' ' = false) (width : Nat)
    (cs : List Char) : (indentLines width cs).filter P = cs.filter P := by
  have same : ∀ l : List Char, (if l.all isBlank then l else List.replicate width ' ' ++ l).filter P =
      l.filter P := by
    intro l
    split
    · rfl
    · rw [List.filter_append, List.filter_replicate_of_neg (by simp [space]), List.nil_append]
  calc (indentLines width cs).filter P
      = ((splitLines cs).map (·.filter P)).flatten := by
        rw [indentLines, filter_joinLines newline, List.map_map]
        congr 1
        exact List.map_congr_left fun l _ => same l
    _ = cs.filter P := by rw [← filter_joinLines newline, joinLines_splitLines]

open Text in
theorem indentLines_zero (cs : List Char) : indentLines 0 cs = cs := by
  have same (line : List Char) : (if line.all isBlank then line else List.replicate 0 ' ' ++ line) = line :=
    ite_self line
  rw [indentLines, List.map_congr_left fun line _ => same line, List.map_id', joinLines_splitLines]

/-- Without an indentation of the host the output is what is rendered and a line feed. -/
theorem Sheet.convert_unindented (s : Sheet) {settings : Settings} (host : settings.hostIndent = 0) :
    s.convert settings = (s.render settings.toStyle).map fun x => x.1 ++ "\n" := by
  rw [convert]
  cases s.render settings.toStyle with
  | error e => rfl
  | ok x =>
    have whole : (.ofList (indentLines settings.hostIndent x.1.toList ++ ['\n']) : String) = x.1 ++ "\n" := by
      rw [host, indentLines_zero, ← String.toList_inj, String.toList_ofList, String.toList_append]
      rfl
    exact congrArg Except.ok whole

end Stylesheet
