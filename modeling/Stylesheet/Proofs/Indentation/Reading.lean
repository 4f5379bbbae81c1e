import Stylesheet.Proofs.Breaks.Quiet

/-!
# Lines indented by nesting

A text is read character by character, with the level of braces and parentheses and the spaces of the line so far. It
is indented by its nesting if it can be read to the end.
-/

namespace Stylesheet

namespace Text

def opensLevel (c : Char) : Bool := c == '\x7b' || c == '('

def closesLevel (c : Char) : Bool := c == '\x7d' || c == ')'

def level (cs : List Char) : Nat := cs.countP opensLevel - cs.countP closesLevel

/-- The level of a line by its first character. -/
def lineLevel (level : Nat) (c : Char) : Nat := if closesLevel c then level - 1 else level

/-- White space only, or two spaces for each level and then a character that is no white space. -/
def Indented (level : Nat) (line : List Char) : Prop := line.all isBlank ∨
  ∃ c rest, line = List.replicate (2 * lineLevel level c) ' ' ++ c :: rest ∧ isBlank c = false

/-- Each line is indented by the level of the text before it. -/
def IndentedByNesting (cs : List Char) : Prop := ∀ before line after, cs = before ++ line ++ after →
  (before = [] ∨ before.getLast? = some '\n') → '\n' ∉ line → (after = [] ∨ after.head? = some '\n') →
    Indented (level before) line

private theorem indented_iff {level : Nat} {line : List Char} : Indented level line ↔ line.all isBlank ∨
    (line.dropWhile (· == ' ')).head?.any fun c =>
      !isBlank c && (line.takeWhile (· == ' ')).length == 2 * lineLevel level c := by
  refine or_congr_right ⟨?_, ?_⟩
  · rintro ⟨c, rest, rfl, solid⟩
    have space : (c == ' ') = false := by
      rw [beq_eq_false_iff_ne]
      rintro rfl
      cases solid
    have spaces : ∀ d ∈ List.replicate (2 * lineLevel level c) ' ', d == ' ' := fun d hd => by
      simp [(List.mem_replicate.1 hd).2]
    rw [List.dropWhile_append_of_pos spaces, List.takeWhile_append_of_pos spaces]
    simp [space, solid]
  · intro h
    obtain ⟨c, hc, right⟩ := (Option.any_eq_true _ _).1 h
    simp only [Bool.and_eq_true, Bool.not_eq_true', beq_iff_eq] at right
    obtain ⟨rest, hrest⟩ := List.head?_eq_some_iff.1 hc
    have spaces : line.takeWhile (· == ' ') = List.replicate (2 * lineLevel level c) ' ' := by
      rw [← right.2]
      exact List.eq_replicate_of_mem fun d hd => eq_of_beq (List.mem_takeWhile_imp (p := (· == ' ')) hd)
    exact ⟨c, rest, by rw [← spaces, ← hrest, List.takeWhile_append_dropWhile], right.1⟩

instance (level : Nat) (line : List Char) : Decidable (Indented level line) := decidable_of_iff _ indented_iff.symm

/-- The level after a character, if it does not close what is not open. -/
def levelStep (c : Char) (n : Nat) : Option Nat :=
  if opensLevel c then some (n + 1) else if closesLevel c then (if n = 0 then none else some (n - 1)) else some n

def levelAfter : Nat → List Char → Option Nat
  | n, [] => some n
  | n, c :: cs => (levelStep c n).bind fun m => levelAfter m cs

/-- Whatever the level is before the text, it is the same after it. -/
def Balanced (s : String) : Prop := ∀ n, levelAfter n s.toList = some n

private theorem levelAfter_append (n : Nat) (cs ds : List Char) :
    levelAfter n (cs ++ ds) = (levelAfter n cs).bind fun m => levelAfter m ds := by
  induction cs generalizing n with
  | nil => rfl
  | cons c cs ih =>
    rw [List.cons_append, levelAfter, levelAfter, Option.bind_assoc]
    congr 1
    funext m
    exact ih m

private theorem levelStep_of_not_bracket {c : Char} (h : isBracket c = false) (n : Nat) : levelStep c n = some n := by
  have hc : c ∉ brackets := by simpa [isBracket] using h
  simp only [brackets, List.mem_cons, List.not_mem_nil, or_false, not_or] at hc
  simp [levelStep, opensLevel, closesLevel, hc]

private theorem levelAfter_filter (n : Nat) (cs : List Char) :
    levelAfter n (cs.filter isBracket) = levelAfter n cs := by
  induction cs generalizing n with
  | nil => rfl
  | cons c cs ih =>
    by_cases hc : isBracket c
    · rw [List.filter_cons_of_pos hc, levelAfter, levelAfter]
      congr 1
      funext m
      exact ih m
    · have hn : isBracket c = false := by simpa using hc
      rw [List.filter_cons_of_neg hc, levelAfter, levelStep_of_not_bracket hn, Option.bind_some, ih]

private theorem count_levelStep {c : Char} {m n : Nat} (h : levelStep c m = some n) :
    n + (if closesLevel c then 1 else 0) = m + if opensLevel c then 1 else 0 := by
  unfold levelStep at h
  by_cases ho : opensLevel c
  · have hc : closesLevel c = false := by
      simp only [opensLevel, Bool.or_eq_true, beq_iff_eq] at ho
      rcases ho with rfl | rfl <;> decide
    simp_all
  · by_cases hc : closesLevel c
    · by_cases hm : m = 0
      · simp_all
      · simp_all
        omega
    · simp_all

end Text

open Text

private theorem balanced_append {s t : String} (hs : Balanced s) (ht : Balanced t) : Balanced (s ++ t) := by
  intro n
  rw [String.toList_append, levelAfter_append, hs n]
  exact ht n

private theorem closed_balanced : Closed Balanced where
  inert := by
    intro s h n
    have none : s.toList.filter isBracket = [] := by
      apply List.filter_eq_nil_iff.2
      intro c hc
      have hi := List.all_eq_true.1 h c hc
      simp only [isInert, Bool.and_eq_true, Bool.not_eq_true'] at hi
      simp [hi.1]
    rw [← levelAfter_filter, none]
    rfl
  append := balanced_append
  parenthesized := by
    intro s h n
    rw [String.toList_append, String.toList_append, levelAfter_append, levelAfter_append]
    show ((levelAfter (n + 1) s.toList).bind fun m => levelAfter m [')']) = _
    rw [h (n + 1)]
    rfl
  braced := by
    intro s h n
    rw [String.toList_append, String.toList_append, levelAfter_append, levelAfter_append]
    show ((levelAfter (n + 1) s.toList).bind fun m => levelAfter m ['\x7d']) = _
    rw [h (n + 1)]
    rfl
  shortened := by
    intro s t _ same h n
    rw [← levelAfter_filter, same, levelAfter_filter, h n]

theorem Closed.and {P Q : String → Prop} (hp : Closed P) (hq : Closed Q) : Closed fun s => P s ∧ Q s where
  inert h := ⟨hp.inert h, hq.inert h⟩
  append hs ht := ⟨hp.append hs.1 ht.1, hq.append hs.2 ht.2⟩
  parenthesized h := ⟨hp.parenthesized h.1, hq.parenthesized h.2⟩
  braced h := ⟨hp.braced h.1, hq.braced h.2⟩
  shortened shorter same h := ⟨hp.shortened shorter same h.1, hq.shortened shorter same h.2⟩

/-- On one line, and with the same level before and after. -/
def Inline (s : String) : Prop := OneLine s ∧ Balanced s

theorem closed_inline : Closed Inline := closed_oneLine.and closed_balanced

/-- Lines of a sheet may start with any character. -/
def anyStart (_ : Char) : Bool := true

/-- How far a text is read: the level, and in the margin of a line its spaces so far. -/
structure Cursor where
  level : Nat
  margin : Option Nat
deriving DecidableEq

namespace Cursor

abbrev inLine (n : Nat) : Cursor := ⟨n, none⟩

abbrev fresh (n : Nat) : Cursor := ⟨n, some 0⟩

abbrev indented (n : Nat) : Cursor := ⟨n, some (2 * n)⟩

variable (allowed : Char → Bool)

/-- In the margin of a line come spaces, and then a character that a line may start with, if the indentation is right
for it. -/
def step (c : Char) (k : Cursor) : Option Cursor :=
  if c = '\n' then some (fresh k.level)
  else match k.margin with
    | none => (levelStep c k.level).map inLine
    | some spaces =>
      if c = ' ' then some ⟨k.level, some (spaces + 1)⟩
      else if !isBlank c && allowed c && spaces == 2 * lineLevel k.level c then (levelStep c k.level).map inLine
      else none

def read : Cursor → List Char → Option Cursor
  | k, [] => some k
  | k, c :: cs => (k.step allowed c).bind fun k => k.read cs

/-- The text leads from one cursor to the other. -/
def Reads (k : Cursor) (t : String) (k' : Cursor) : Prop := k.read allowed t.toList = some k'

variable {allowed} {k l m : Cursor} {n : Nat} {c : Char} {cs ds : List Char} {s t : String}

theorem read_append : k.read allowed (cs ++ ds) = (k.read allowed cs).bind fun k => k.read allowed ds := by
  induction cs generalizing k with
  | nil => rfl
  | cons c cs ih =>
    rw [List.cons_append, read, read, Option.bind_assoc]
    congr 1
    funext l
    exact ih

theorem Reads.append (hs : k.Reads allowed s l) (ht : l.Reads allowed t m) : k.Reads allowed (s ++ t) m := by
  rw [Reads, String.toList_append, read_append, hs]
  exact ht

theorem reads_empty : k.Reads allowed "" k := rfl

theorem step_newline : k.step allowed '\n' = some (fresh k.level) := if_pos rfl

theorem reads_newline : k.Reads allowed "\n" (fresh k.level) := by
  show (k.step allowed '\n').bind _ = _
  rw [step_newline]
  rfl

private theorem step_inLine (hc : c ≠ '\n') : (inLine n).step allowed c = (levelStep c n).map inLine := by
  rw [step, if_neg hc]

/-- Within a line only the level counts. -/
theorem read_inLine (h : '\n' ∉ cs) : (inLine n).read allowed cs = (levelAfter n cs).map inLine := by
  induction cs generalizing n with
  | nil => rfl
  | cons c cs ih =>
    obtain ⟨hc, hcs⟩ := not_or.1 (mt List.mem_cons.2 h)
    rw [read, levelAfter, step_inLine (Ne.symm hc)]
    cases levelStep c n with
    | none => rfl
    | some m => exact ih hcs

theorem reads_inline (h : Inline t) : (inLine n).Reads allowed t (inLine n) := by
  have oneLine : '\n' ∉ t.toList := List.count_eq_zero.1 h.1
  rw [Reads, read_inLine oneLine, h.2 n]
  rfl

private theorem read_spaces (spaces more : Nat) :
    (Cursor.mk n (some spaces)).read allowed (List.replicate more ' ') = some ⟨n, some (spaces + more)⟩ := by
  induction more generalizing spaces with
  | zero => rfl
  | succ more ih =>
    rw [List.replicate_succ, read, step, if_neg (by decide)]
    simp only [if_true, Option.bind_some]
    rw [ih, Nat.add_assoc, Nat.add_comm 1]

private theorem reads_indent (p : Pass) (spaces : Nat) :
    (Cursor.mk n (some spaces)).Reads allowed p.indent ⟨n, some (spaces + 2 * p.depth)⟩ := by
  rw [Reads, Pass.indent, repeated, String.toList_ofList, read_spaces]

theorem reads_indent_fresh (p : Pass) : (fresh n).Reads allowed p.indent ⟨n, some (2 * p.depth)⟩ := by
  have spaces : (fresh n).Reads allowed p.indent ⟨n, some (0 + 2 * p.depth)⟩ := reads_indent p 0
  rwa [Nat.zero_add] at spaces

theorem read_newlines (breaks : Nat) :
    k.read allowed (List.replicate (breaks + 1) '\n') = some (fresh k.level) := by
  induction breaks generalizing k with
  | zero => rw [List.replicate_one, read, step_newline]; rfl
  | succ breaks ih => rw [List.replicate_succ, read, step_newline, Option.bind_some, ih]

/-- A character that is not white space starts a line as it stands within one, unless it closes something. -/
theorem step_indented (solid : isBlank c = false) (opening : closesLevel c = false) (may : allowed c) :
    (indented n).step allowed c = (inLine n).step allowed c := by
  have newline : c ≠ '\n' := by
    rintro rfl
    cases solid
  have space : c ≠ ' ' := by
    rintro rfl
    cases solid
  simp [step, newline, space, solid, may, lineLevel, opening]

/-- A closing bracket starts a line one level up. -/
theorem reads_closing (hc : closesLevel c) (may : allowed c) :
    (Cursor.mk (n + 1) (some (2 * n))).Reads allowed c.toString (inLine n) := by
  have char : c = '\x7d' ∨ c = ')' := by simpa [closesLevel] using hc
  have one : c.toString.toList = [c] := by simp
  rw [Reads, one, read]
  rcases char with rfl | rfl <;> simp [step, may, lineLevel, closesLevel, levelStep, opensLevel, read, isBlank, blanks]

private theorem step_level (h : k.step allowed c = some l) : levelStep c k.level = some l.level := by
  unfold step at h
  split at h
  · next hc =>
    cases h
    rw [hc]
    rfl
  · cases hm : k.margin with
    | none =>
      rw [hm] at h
      obtain ⟨m, hs, rfl⟩ := Option.map_eq_some_iff.1 h
      exact hs
    | some spaces =>
      rw [hm] at h
      dsimp only at h
      split at h
      · next hc =>
        cases h
        rw [hc]
        rfl
      · split at h
        · obtain ⟨m, hs, rfl⟩ := Option.map_eq_some_iff.1 h
          exact hs
        · cases h

private theorem level_of_read (h : k.read allowed cs = some l) :
    l.level + cs.countP closesLevel = k.level + cs.countP opensLevel := by
  induction cs generalizing k with
  | nil =>
    cases h
    rfl
  | cons c cs ih =>
    obtain ⟨m, hm, hcs⟩ := Option.bind_eq_some_iff.1 h
    have one := count_levelStep (step_level hm)
    have rest := ih hcs
    rw [List.countP_cons, List.countP_cons]
    omega

private theorem indented_of_read {spaces : Nat} {line : List Char} (oneLine : '\n' ∉ line)
    (h : (Cursor.mk n (some spaces)).read allowed line = some k) :
    (∀ c ∈ line, c = ' ') ∨ ∃ more c rest, line = List.replicate more ' ' ++ c :: rest ∧
      spaces + more = 2 * lineLevel n c ∧ isBlank c = false := by
  induction line generalizing spaces with
  | nil => exact .inl (by simp)
  | cons c cs ih =>
    obtain ⟨hc, hcs⟩ := not_or.1 (mt List.mem_cons.2 oneLine)
    obtain ⟨m, hm, hread⟩ := Option.bind_eq_some_iff.1 h
    rw [step, if_neg (Ne.symm hc)] at hm
    dsimp only at hm
    split at hm
    · next space =>
      cases hm
      rcases ih hcs hread with blank | ⟨more, d, rest, hline, count, solid⟩
      · exact .inl (List.forall_mem_cons.2 ⟨space, blank⟩)
      · refine .inr ⟨more + 1, d, rest, ?_, by omega, solid⟩
        rw [space, hline, List.replicate_succ, List.cons_append]
    · split at hm
      · next right =>
        simp only [Bool.and_eq_true, Bool.not_eq_true', beq_iff_eq] at right
        exact .inr ⟨0, c, cs, rfl, right.2, right.1.1⟩
      · cases hm

/-- A text that can be read from the start of a line is indented by its nesting. -/
theorem indentedByNesting_of_reads (h : (fresh 0).Reads allowed t k) : IndentedByNesting t.toList := by
  intro before line after split start oneLine _
  rw [Reads, split, List.append_assoc, read_append] at h
  obtain ⟨l, hl, h⟩ := Option.bind_eq_some_iff.1 h
  rw [read_append] at h
  obtain ⟨m, hm, -⟩ := Option.bind_eq_some_iff.1 h
  have count : l.level + before.countP closesLevel = 0 + before.countP opensLevel := level_of_read hl
  have level : l.level = Text.level before := by
    rw [Text.level]
    omega
  have margin : l.margin = some 0 := by
    rcases start with rfl | ends
    · cases hl
      rfl
    · obtain ⟨b, rfl⟩ := List.getLast?_eq_some_iff.1 ends
      rw [read_append] at hl
      obtain ⟨j, -, hj⟩ := Option.bind_eq_some_iff.1 hl
      rw [read, step_newline] at hj
      cases hj
      rfl
  have cursor : l = ⟨Text.level before, some 0⟩ := by rw [← level, ← margin]
  rw [cursor] at hm
  rcases indented_of_read oneLine hm with blank | ⟨more, c, rest, hline, count, solid⟩
  · left
    rw [List.all_eq_true]
    intro c hc
    rw [blank c hc]
    decide
  · refine .inr ⟨c, rest, ?_, solid⟩
    rw [hline, ← count, Nat.zero_add]

end Cursor

end Stylesheet
