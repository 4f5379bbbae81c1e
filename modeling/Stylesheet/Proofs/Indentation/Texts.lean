import Stylesheet.Proofs.Indentation.Reading

/-!
# Texts of indented lines

Statements start with a margin, and what stands behind it can start a line as well as go on in one. Blocks, selectors
and copies for engines put such texts together.
-/

namespace Stylesheet

open Text Cursor

variable {allowed : Char → Bool} {n : Nat} {p : Pass} {s t w : String}

/-- The text has a first character, and a line may start with it. -/
def Starts (allowed : Char → Bool) (t : String) : Prop :=
  ∃ c ∈ t.toList.head?, isBlank c = false ∧ closesLevel c = false ∧ allowed c

theorem Starts.append (h : Starts allowed s) (t : String) : Starts allowed (s ++ t) := by
  obtain ⟨c, hc, plain⟩ := h
  refine ⟨c, ?_, plain⟩
  rw [String.toList_append, List.head?_append, hc]
  rfl

/-- What is on one line and does not start with white space starts a line. -/
theorem starts_of_inline (h : Inline t) {c : Char} (hc : t.toList.head? = some c) (solid : isBlank c = false) :
    Starts anyStart t := by
  refine ⟨c, hc, solid, ?_, rfl⟩
  cases closes : closesLevel c with
  | false => rfl
  | true =>
    have level := h.2 0
    obtain ⟨cs, hcs⟩ : ∃ cs, t.toList = c :: cs := by
      cases ht : t.toList with
      | nil => simp [ht] at hc
      | cons d cs => exact ⟨cs, by simpa [ht] using hc⟩
    have opens : opensLevel c = false := by
      simp only [closesLevel, Bool.or_eq_true, beq_iff_eq] at closes
      rcases closes with rfl | rfl <;> decide
    rw [hcs, levelAfter] at level
    simp [levelStep, opens, closes] at level

/-- Behind the indentation of a line or within one, the text is read to the same level. -/
structure Core (allowed : Char → Bool) (n : Nat) (t : String) : Prop where
  starts : Starts allowed t
  reads : (inLine n).Reads allowed t (inLine n)

namespace Core

theorem inline (h : Inline t) (starts : Starts allowed t) : Core allowed n t := ⟨starts, reads_inline h⟩

theorem append (h : Core allowed n s) (ht : (inLine n).Reads allowed t (inLine n)) : Core allowed n (s ++ t) :=
  ⟨h.starts.append t, h.reads.append ht⟩

theorem indented (h : Core allowed n t) : (indented n).Reads allowed t (inLine n) := by
  obtain ⟨⟨c, hc, solid, opening, may⟩, reads⟩ := h
  unfold Cursor.Reads at reads ⊢
  cases ht : t.toList with
  | nil => simp [ht] at hc
  | cons d cs =>
    have hd : d = c := by simpa [ht] using hc
    rw [ht] at reads
    rw [hd, Cursor.read] at reads ⊢
    rw [step_indented solid opening may]
    exact reads

/-- Nothing is trimmed off. -/
theorem trimStart (h : Core allowed n t) : trimStart t = t := by
  obtain ⟨⟨c, hc, solid, -, -⟩, -⟩ := h
  have whole : t.toList.dropWhile isBlank = t.toList := by
    cases ht : t.toList with
    | nil => rfl
    | cons d cs =>
      have hd : d = c := by simpa [ht] using hc
      exact List.dropWhile_cons_of_neg (by simp [hd, solid])
  rw [Text.trimStart, whole, String.ofList_toList]

end Core

theorem reads_rowwise : Rowwise fun t => (inLine n).Reads allowed t (inLine n) := ⟨reads_empty, .append⟩

theorem reads_join {ts : List String} (h : ∀ t ∈ ts, (inLine n).Reads allowed t (inLine n)) :
    (inLine n).Reads allowed (String.join ts) (inLine n) :=
  reads_rowwise.join h

/-- White space that leads to the indentation of a line, or goes on in one. -/
structure Margin (allowed : Char → Bool) (n : Nat) (w : String) : Prop where
  blank : ∀ c ∈ w.toList, isBlank c
  fresh : (fresh n).Reads allowed w (indented n)
  inLine : (inLine n).Reads allowed w (inLine n) ∨ (inLine n).Reads allowed w (indented n)

private theorem reads_indent_inLine (p : Pass) : (inLine n).Reads allowed p.indent (inLine n) :=
  reads_inline (closed_inline.indent p)

theorem reads_indent_of_depth (depth : p.depth = n) : (fresh n).Reads allowed p.indent (indented n) :=
  depth ▸ reads_indent_fresh p

private theorem isBlank_of_mem_indent (p : Pass) : ∀ c ∈ p.indent.toList, isBlank c := by
  intro c hc
  rw [eq_of_mem_repeated hc]
  decide

private theorem margin_indent (depth : p.depth = n) : Margin allowed n p.indent :=
  ⟨isBlank_of_mem_indent p, reads_indent_of_depth depth, .inl (reads_indent_inLine p)⟩

private theorem margin_newlines (depth : p.depth = n) (breaks : Nat) :
    Margin allowed n (repeated (breaks + 1) '\n' ++ p.indent) := by
  have newlines (k : Cursor) : k.Reads allowed (repeated (breaks + 1) '\n') (Cursor.fresh k.level) := by
    rw [Cursor.Reads, repeated, String.toList_ofList, read_newlines]
  have indentation : (Cursor.fresh n).Reads allowed p.indent (indented n) := reads_indent_of_depth depth
  refine ⟨?_, (newlines _).append indentation, .inr ((newlines _).append indentation)⟩
  intro c hc
  rw [String.toList_append, List.mem_append] at hc
  rcases hc with hc | hc
  · rw [eq_of_mem_repeated hc]
    decide
  · exact isBlank_of_mem_indent p c hc

theorem margin_lead (depth : p.depth = n) (line : Option Nat) : Margin allowed n (p.lead line) := by
  cases line with
  | none =>
    show Margin allowed n ("" ++ p.indent)
    rw [String.empty_append]
    exact margin_indent depth
  | some l =>
    rw [Pass.lead, Pass.breaksTo]
    cases p.owed l with
    | zero =>
      show Margin allowed n ("" ++ p.indent)
      rw [String.empty_append]
      exact margin_indent depth
    | succ breaks => exact margin_newlines depth breaks

theorem Margin.trimStart (h : Margin allowed n w) (t : String) : trimStart (w ++ t) = trimStart t := by
  rw [Text.trimStart, Text.trimStart, String.toList_append, List.dropWhile_append_of_pos h.blank]

/-- The break that an inclusion has in any case. -/
theorem margin_inclusion (depth : p.depth = n) (line : Option Nat) :
    Margin allowed n ((if (p.breaksTo line).isEmpty then "\n" else p.breaksTo line) ++ p.indent) := by
  cases line with
  | none => exact margin_newlines depth 0
  | some l =>
    rw [Pass.breaksTo]
    cases p.owed l with
    | zero => exact margin_newlines depth 0
    | succ breaks =>
      have owed : (repeated (breaks + 1) '\n').isEmpty = false := by
        rw [← Bool.not_eq_true, String.isEmpty_iff, repeated, ← String.toList_inj, String.toList_ofList]
        simp
      rw [owed]
      exact margin_newlines depth breaks

/-- A margin and what stands behind it. -/
def Aligned (allowed : Char → Bool) (n : Nat) (t : String) : Prop :=
  ∃ w core, t = w ++ core ∧ Margin allowed n w ∧ Core allowed n core

namespace Aligned

theorem fresh (h : Aligned allowed n t) : (fresh n).Reads allowed t (inLine n) := by
  obtain ⟨w, core, rfl, margin, hc⟩ := h
  exact margin.fresh.append hc.indented

theorem inLine (h : Aligned allowed n t) : (inLine n).Reads allowed t (inLine n) := by
  obtain ⟨w, core, rfl, margin, hc⟩ := h
  rcases margin.inLine with stays | breaks
  · exact stays.append hc.reads
  · exact breaks.append hc.indented

theorem append (h : Aligned allowed n s) (ht : (Cursor.inLine n).Reads allowed t (Cursor.inLine n)) :
    Aligned allowed n (s ++ t) := by
  obtain ⟨w, core, rfl, margin, hc⟩ := h
  exact ⟨w, core ++ t, String.append_assoc, margin, hc.append ht⟩

theorem trimStart (h : Aligned allowed n t) : Core allowed n (trimStart t) := by
  obtain ⟨w, core, rfl, margin, hc⟩ := h
  rw [margin.trimStart, hc.trimStart]
  exact hc

end Aligned

/-- Behind the breaks that a statement owes. -/
theorem aligned_lead (depth : p.depth = n) (line : Option Nat) (h : Core allowed n t) :
    Aligned allowed n (p.lead line ++ t) :=
  ⟨p.lead line, t, rfl, margin_lead depth line, h⟩

private theorem reads_brace (depth : p.depth = n) (may : allowed '\x7d') {k : Cursor} (hk : k.level = n + 1) :
    k.Reads allowed ("\n" ++ p.indent ++ "\x7d") (inLine n) := by
  have spaces : (fresh (n + 1)).Reads allowed p.indent ⟨n + 1, some (2 * n)⟩ := depth ▸ reads_indent_fresh p
  have newline : k.Reads allowed "\n" (fresh (n + 1)) := hk ▸ reads_newline
  exact (newline.append spaces).append (reads_closing (by decide) may)

/-- What is in braces stands one level deeper and on lines of its own. -/
theorem reads_block {q r : Pass} (hq : q.depth = n + 1) (hr : r.depth = n) (may : allowed '\x7d')
    (h : t = "" ∨ Aligned allowed (n + 1) t) :
    (inLine n).Reads allowed (" \x7b" ++ q.ownLines t ++ "\n" ++ r.indent ++ "\x7d") (inLine n) := by
  have opening : (inLine n).Reads allowed " \x7b" (inLine (n + 1)) := by
    show (Cursor.inLine n).read allowed [' ', '\x7b'] = _
    rw [read_inLine (by decide)]
    rfl
  have content : ∃ k : Cursor, k.level = n + 1 ∧ (inLine (n + 1)).Reads allowed (q.ownLines t) k := by
    unfold Pass.ownLines
    split
    · next starts =>
      rcases h with rfl | aligned
      · cases starts
      · exact ⟨inLine (n + 1), rfl, aligned.inLine⟩
    · have line : (inLine (n + 1)).Reads allowed ("\n" ++ q.indent) (indented (n + 1)) :=
        reads_newline.append (reads_indent_of_depth hq)
      rcases h with rfl | aligned
      · exact ⟨indented (n + 1), rfl, line.append reads_empty⟩
      · exact ⟨inLine (n + 1), rfl, line.append aligned.trimStart.indented⟩
  obtain ⟨k, hk, content⟩ := content
  have closing := (opening.append content).append (reads_brace hr may hk)
  simpa only [String.append_assoc] using closing

/-- What stands behind an indentation starts with no break. -/
theorem Core.startsWith (h : Core allowed n t) : startsWith '\n' t = false := by
  obtain ⟨⟨c, hc, solid, -⟩, -⟩ := h
  have feed : c ≠ '\n' := by
    rintro rfl
    cases solid
  rw [Text.startsWith, Option.mem_def.1 hc]
  simpa using feed

/-- A selector in a list keeps its margin if it starts a line, and has none otherwise. -/
theorem alignSelector_cases (h : Core allowed n t ∨ Aligned allowed n t) :
    Core allowed n (Render.alignSelector t) ∨ startsWith '\n' (Render.alignSelector t) ∧
      Aligned allowed n (Render.alignSelector t) := by
  unfold Render.alignSelector
  rcases h with core | aligned
  · rw [core.startsWith, core.trimStart]
    exact .inl core
  · split
    · next starts => exact .inr ⟨starts, aligned⟩
    · exact .inl aligned.trimStart

/-- A margin before a text that starts a line of its own. -/
theorem Margin.newline {v : String} (h : Margin allowed n w) (hv : Margin allowed n v) (starts : startsWith '\n' v) :
    Margin allowed n (w ++ v) := by
  have anywhere {k : Cursor} (hk : k.level = n) : k.Reads allowed v (indented n) := by
    have fresh := hv.fresh
    obtain ⟨cs, hcs⟩ : ∃ cs, v.toList = '\n' :: cs := by
      rw [startsWith, beq_iff_eq] at starts
      exact List.head?_eq_some_iff.1 starts
    rw [Cursor.Reads, hcs, Cursor.read, step_newline] at fresh ⊢
    rwa [hk]
  refine ⟨?_, h.fresh.append (anywhere rfl), ?_⟩
  · intro c hc
    rw [String.toList_append, List.mem_append] at hc
    exact hc.elim (h.blank c) (hv.blank c)
  · rcases h.inLine with stays | breaks
    · exact .inr (stays.append (anywhere rfl))
    · exact .inr (breaks.append (anywhere rfl))

private theorem aligned_firstSelector (hw : Margin allowed n w) (h : Core allowed n t ∨ Aligned allowed n t) :
    Aligned allowed n (w ++ Render.alignSelector t) := by
  rcases alignSelector_cases h with core | ⟨starts, v, core, split, hv, hc⟩
  · exact ⟨w, _, rfl, hw, core⟩
  · refine ⟨w ++ v, core, by rw [split, String.append_assoc], hw.newline hv ?_, hc⟩
    rw [split, startsWith, String.toList_append, List.head?_append] at starts
    rw [startsWith]
    cases hhead : v.toList.head? with
    | some c => simpa [hhead] using starts
    | none =>
      obtain ⟨c, first, solid, -⟩ := hc.starts
      have newline : c = '\n' := by simpa [hhead, Option.mem_def.1 first] using starts
      rw [newline] at solid
      cases solid

theorem aligned_joinSelectors {ts : List String} (hw : Margin allowed n w) (some : ts ≠ [])
    (h : ∀ t ∈ ts, Core allowed n t ∨ Aligned allowed n t) : Aligned allowed n (w ++ Render.joinSelectors ts) := by
  cases ts with
  | nil => exact absurd rfl some
  | cons t ts =>
    obtain ⟨ht, hts⟩ := List.forall_mem_cons.1 h
    rw [Render.joinSelectors, List.map_cons]
    dsimp only
    rw [← String.append_assoc]
    refine (aligned_firstSelector hw ht).append (reads_join fun u hu => ?_)
    simp only [List.mem_map, exists_exists_and_eq_and] at hu
    obtain ⟨s, hs, rfl⟩ := hu
    have separator : Inline (if startsWith '\n' (Render.alignSelector s) then "," else ", ") := by
      split <;> exact closed_inline.inert (by decide)
    have selector : (inLine n).Reads allowed (Render.alignSelector s) (inLine n) := by
      rcases alignSelector_cases (hts s hs) with core | ⟨-, aligned⟩
      · exact core.reads
      · exact aligned.inLine
    exact (reads_inline separator).append selector

/-- Each copy ends its line, and the next one stands behind the indentation. -/
theorem core_withEngines {rule : String} (depth : p.depth = n) (may : allowed '@') (vendorCopies : Bool)
    (h : (inLine n).Reads allowed rule (inLine n)) :
    Core allowed n (Render.withEngines vendorCopies p.indent rule) := by
  have word (engine : String) (he : Inline engine) : Core allowed n ("@" ++ engine ++ "keyframes " ++ rule) := by
    have keyword : Inline ("@" ++ engine ++ "keyframes ") :=
      closed_inline.append (closed_inline.append (closed_inline.inert (by decide)) he) (closed_inline.inert (by decide))
    refine (Core.inline keyword ?_).append h
    exact Starts.append (Starts.append ⟨'@', rfl, by decide, by decide, may⟩ engine) _
  have standard : Core allowed n ("@keyframes " ++ rule) := word "" closed_inline.empty
  have copies (engines : List String) (he : ∀ engine ∈ engines, Inline engine) : Core allowed n
      (String.join (engines.map fun engine => "@" ++ engine ++ "keyframes " ++ rule ++ "\n" ++ p.indent) ++
        ("@keyframes " ++ rule)) := by
    induction engines with
    | nil => simpa using standard
    | cons engine engines ih =>
      obtain ⟨first, rest⟩ := List.forall_mem_cons.1 he
      have break_ : (inLine n).Reads allowed ("\n" ++ p.indent) (indented n) :=
        reads_newline.append (reads_indent_of_depth depth)
      have more := (word engine first).append (break_.append (ih rest).indented)
      rw [List.map_cons, String.join_cons]
      simpa only [String.append_assoc] using more
  rw [Render.withEngines, String.append_assoc]
  have inert : ∀ engine ∈ Render.engines, engine.toList.all isInert := by decide
  cases vendorCopies with
  | false => exact copies [] (by simp)
  | true => exact copies Render.engines fun engine he => closed_inline.inert (inert engine he)

end Stylesheet
