import Mathlib.Data.List.Forall2
import Stylesheet.Proofs.Edits
import Stylesheet.Proofs.Indentation.Sheets

/-!
# The indentation of the host

The width of the host's margin is no part of a style, so the text of a sheet is rendered without it and the margin is
put before its lines afterwards. Splitting a text into lines and joining them again loses nothing in either direction,
which makes margins add up and lets them be taken off again.
-/

namespace Stylesheet

namespace Text

private theorem splitLines_of_newline_not_mem {l : List Char} (h : '\n' ∉ l) : splitLines l = [l] := by
  induction l with
  | nil => rfl
  | cons c l ih =>
    rw [List.mem_cons, not_or] at h
    rw [splitLines, if_neg (Ne.symm h.1), ih h.2]

private theorem splitLines_append_newline_append {l : List Char} (h : '\n' ∉ l) (cs : List Char) :
    splitLines (l ++ '\n' :: cs) = l :: splitLines cs := by
  induction l with
  | nil => simp [splitLines]
  | cons c l ih =>
    rw [List.mem_cons, not_or] at h
    rw [List.cons_append, splitLines, if_neg (Ne.symm h.1), ih h.2]

private theorem splitLines_joinLines {ls : List (List Char)} (some : ls ≠ []) (h : ∀ l ∈ ls, '\n' ∉ l) :
    splitLines (joinLines ls) = ls := by
  induction ls with
  | nil => exact absurd rfl some
  | cons l ls ih =>
    have hl := h l List.mem_cons_self
    cases ls with
    | nil =>
      have single : joinLines [l] = l := by simp [joinLines, List.intercalate]
      rw [single, splitLines_of_newline_not_mem hl]
    | cons m ms =>
      rw [joinLines_cons_cons, splitLines_append_newline_append hl,
        ih (List.cons_ne_nil m ms) fun k hk => h k (List.mem_cons_of_mem l hk)]

private theorem splitLines_append_newline (cs : List Char) : splitLines (cs ++ ['\n']) = splitLines cs ++ [[]] := by
  have free (l : List Char) (hl : l ∈ splitLines cs ++ [[]]) : '\n' ∉ l := by
    rcases List.mem_append.1 hl with hl | hl
    · exact newline_not_mem_splitLines hl
    · rw [List.mem_singleton.1 hl]
      exact List.not_mem_nil
  have ends (ls : List (List Char)) (hls : ls ≠ []) : joinLines (ls ++ [[]]) = joinLines ls ++ ['\n'] := by
    induction ls with
    | nil => exact absurd rfl hls
    | cons l ls ih =>
      cases ls with
      | nil => simp [joinLines, List.intercalate]
      | cons m ms =>
        have hm := ih (List.cons_ne_nil m ms)
        rw [List.cons_append] at hm
        rw [List.cons_append, List.cons_append, joinLines_cons_cons, hm, joinLines_cons_cons, List.append_assoc,
          List.cons_append]
  rw [← splitLines_joinLines (by simp) free, ends _ (splitLines_ne_nil cs), joinLines_splitLines]

end Text

open Text

private def withMargin (width : Nat) (line : List Char) : List Char :=
  if line.all isBlank then line else List.replicate width ' ' ++ line

def withoutMargin (width : Nat) (line : List Char) : List Char :=
  if line.all isBlank then line else line.drop width

/-- Takes the margin off every line that is not blank. -/
def outdentLines (width : Nat) (cs : List Char) : List Char :=
  joinLines ((splitLines cs).map (withoutMargin width))

/-- A line with a character to be seen has the margin before it, and a blank one is as it was. -/
structure IsIndented (width : Nat) (line indented : List Char) : Prop where
  shown : (∃ c ∈ line, isBlank c = false) → indented = List.replicate width ' ' ++ line
  blank : (∀ c ∈ line, isBlank c = true) → indented = line

private theorem withMargin_isIndented (width : Nat) (line : List Char) :
    IsIndented width line (withMargin width line) where
  shown := by
    rintro ⟨c, hc, hb⟩
    have hline : ¬ line.all isBlank := fun h => by simp [List.all_eq_true.1 h c hc] at hb
    rw [withMargin, if_neg hline]
  blank h := by rw [withMargin, if_pos (List.all_eq_true.2 h)]

private theorem all_isBlank_withMargin (width : Nat) (line : List Char) :
    (withMargin width line).all isBlank = line.all isBlank := by
  rw [withMargin]
  split
  · rfl
  · have spaces : (List.replicate width ' ').all isBlank :=
      List.all_eq_true.2 fun c hc => by rw [List.eq_of_mem_replicate hc]; decide
    rw [List.all_append, spaces, Bool.true_and]

private theorem newline_not_mem_withMargin {width : Nat} {line : List Char} (h : '\n' ∉ line) :
    '\n' ∉ withMargin width line := by
  rw [withMargin]
  split
  · exact h
  · rw [List.mem_append, not_or]
    exact ⟨fun hm => absurd (List.eq_of_mem_replicate hm) (by decide), h⟩

private theorem withMargin_withMargin (a b : Nat) (line : List Char) :
    withMargin b (withMargin a line) = withMargin (a + b) line := by
  cases hline : line.all isBlank with
  | true => simp [withMargin, hline]
  | false =>
    rw [withMargin, all_isBlank_withMargin, hline, withMargin, withMargin, hline]
    simp only [Bool.false_eq_true, if_false]
    rw [← List.append_assoc, List.replicate_append_replicate, Nat.add_comm b a]

private theorem withoutMargin_withMargin (width : Nat) (line : List Char) :
    withoutMargin width (withMargin width line) = line := by
  cases hline : line.all isBlank with
  | true => simp [withoutMargin, withMargin, hline]
  | false =>
    rw [withoutMargin, all_isBlank_withMargin, hline, withMargin, hline]
    simp

private theorem splitLines_indentLines (width : Nat) (cs : List Char) :
    splitLines (indentLines width cs) = (splitLines cs).map (withMargin width) := by
  refine splitLines_joinLines (by simpa using splitLines_ne_nil cs) fun l hl => ?_
  obtain ⟨line, hline, rfl⟩ := List.mem_map.1 hl
  exact newline_not_mem_withMargin (newline_not_mem_splitLines hline)

private theorem indentLines_indentLines (a b : Nat) (cs : List Char) :
    indentLines b (indentLines a cs) = indentLines (a + b) cs := by
  have lines : ((splitLines cs).map (withMargin a)).map (withMargin b) = (splitLines cs).map (withMargin (a + b)) := by
    rw [List.map_map]
    exact List.map_congr_left fun line _ => withMargin_withMargin a b line
  calc indentLines b (indentLines a cs)
      = joinLines ((splitLines (indentLines a cs)).map (withMargin b)) := rfl
    _ = joinLines ((splitLines cs).map (withMargin (a + b))) := by rw [splitLines_indentLines, lines]
    _ = indentLines (a + b) cs := rfl

private theorem outdentLines_indentLines (width : Nat) (cs : List Char) :
    outdentLines width (indentLines width cs) = cs := by
  have lines : ((splitLines cs).map (withMargin width)).map (withoutMargin width) = splitLines cs := by
    rw [List.map_map]
    exact List.map_id'' (withoutMargin_withMargin width) _
  rw [outdentLines, splitLines_indentLines, lines, joinLines_splitLines]

private theorem indentLines_append_newline (width : Nat) (cs : List Char) :
    indentLines width (cs ++ ['\n']) = indentLines width cs ++ ['\n'] := by
  have last : withMargin width [] = [] := rfl
  have lines : splitLines (indentLines width (cs ++ ['\n'])) = splitLines (indentLines width cs ++ ['\n']) := by
    rw [splitLines_indentLines, splitLines_append_newline, splitLines_append_newline, splitLines_indentLines,
      List.map_append, List.map_singleton, last]
  rw [← joinLines_splitLines (indentLines width (cs ++ ['\n'])), lines, joinLines_splitLines]

/-- The margin of the host is put before the lines of the text that the sheet has without one. -/
theorem Sheet.convert_eq_map (s : Sheet) (settings : Settings) (width : Nat) :
    s.convert { settings with hostIndent := width } =
      (s.convert { settings with hostIndent := 0 }).map fun output => .ofList (indentLines width output.toList) := by
  rw [Sheet.convert, Sheet.convert]
  cases s.render settings.toStyle with
  | error fault => rfl
  | ok result =>
    simp only [Except.map, bind, Except.bind, pure, Except.pure]
    rw [String.toList_ofList, indentLines_append_newline, indentLines_zero]

/-- A margin changes no failure, stands before every line that shows a character and before no other one, adds up with
a second margin, and can be taken off again. -/
theorem Sheet.convert_hostIndent (s : Sheet) (settings : Settings) (a b : Nat) :
    (∀ fault, s.convert { settings with hostIndent := a } = .error fault ↔
        s.convert { settings with hostIndent := 0 } = .error fault) ∧
      ∀ output, s.convert { settings with hostIndent := 0 } = .ok output →
        ∃ indented, s.convert { settings with hostIndent := a } = .ok indented ∧
          (splitLines indented.toList).length = (splitLines output.toList).length ∧
          List.Forall₂ (IsIndented a) (splitLines output.toList) (splitLines indented.toList) ∧
          s.convert { settings with hostIndent := a + b } = .ok (.ofList (indentLines b indented.toList)) ∧
          outdentLines a indented.toList = output.toList := by
  have indentedBy (width : Nat) := s.convert_eq_map settings width
  constructor
  · intro fault
    rw [indentedBy a]
    cases s.convert { settings with hostIndent := 0 } <;> simp [Except.map]
  · intro output converts
    simp only [converts, Except.map] at indentedBy
    refine ⟨_, indentedBy a, ?_⟩
    rw [String.toList_ofList, splitLines_indentLines, indentLines_indentLines, outdentLines_indentLines]
    refine ⟨List.length_map _, ?_, indentedBy (a + b), rfl⟩
    rw [List.forall₂_map_right_iff, List.forall₂_same]
    exact fun line _ => withMargin_isIndented a line

/-- A rule around a comment over lines that hold an em space, a carriage return and nothing, inside a margin of three
and then of two more. -/
theorem Sheet.convert_hostIndent_comment :
    let comment : Node := .comment { text := "/* a\n\u2003\n\r\n\n  b */" }
    let sheet : Sheet := ⟨[.ruleSet [.selector [.literal ".a" none] none] (some ⟨[comment], none⟩) none]⟩
    let output := ".a \x7b\n  /*! a\n\u2003\n\r\n\n  b */\n\x7d\n"
    let indented := "   .a \x7b\n     /*! a\n\u2003\n\r\n\n     b */\n   \x7d\n"
    sheet.convert {} = .ok output ∧ sheet.convert { hostIndent := 3 } = .ok indented ∧
      List.Forall₂ (IsIndented 3) (splitLines output.toList) (splitLines indented.toList) ∧
      sheet.convert { hostIndent := 5 } = .ok (.ofList (indentLines 2 indented.toList)) ∧
      outdentLines 3 indented.toList = output.toList := by
  intro comment sheet output indented
  have converts : sheet.convert {} = .ok output := eq_ok_of_toOption (by decide +kernel)
  have embeds : sheet.convert { hostIndent := 3 } = .ok indented := eq_ok_of_toOption (by decide +kernel)
  obtain ⟨text, same, -, lines, further, back⟩ := (sheet.convert_hostIndent {} 3 2).2 output converts
  obtain rfl : text = indented := Except.ok.inj (same.symm.trans embeds)
  exact ⟨converts, embeds, lines, further, back⟩

end Stylesheet
