import Mathlib.Data.List.Forall2
import Stylesheet.Proofs.Lines.Spacing

/-!
# Texts that are alike

Two strings are alike if a settled row of pieces has them as its two texts, and more so if the row is firm: then
they also agree on their last character and on whether there is one. Both survive every edit of texts.
-/

namespace Stylesheet.Text

variable {word : List Char}

/-- A settled row of pieces has the two strings as its texts. -/
def Spaced (word : List Char) (s t : String) : Prop :=
  ∃ ps, Settled word [] ps ∧ side false ps = s.toList ∧ side true ps = t.toList

/-- More text, and with it more gaps, may come after the two strings. -/
structure Loose (word : List Char) (s t : String) : Prop where
  spaced : Spaced word s t
  clear : Clear word s.toList

structure Tight (word : List Char) (s t : String) : Prop where
  firm : ∃ ps, Settled word [] ps ∧ Firm ps ∧ side false ps = s.toList ∧ side true ps = t.toList
  clear : Clear word s.toList

def AllTight (word : List Char) : List String → List String → Prop := List.Forall₂ (Tight word)

def AllLoose (word : List Char) : List String → List String → Prop := List.Forall₂ (Loose word)

def Blank (s : String) : Prop := ∀ c ∈ s.toList, isBlank c

variable {s t u v : String}

theorem Blank.append (hs : Blank s) (ht : Blank t) : Blank (s ++ t) := by
  simp only [Blank, String.toList_append, List.forall_mem_append]
  exact ⟨hs, ht⟩

theorem blank_repeated {c : Char} (h : isBlank c) (n : Nat) : Blank (repeated n c) := by
  intro d hd
  rw [eq_of_mem_repeated hd, h]

private theorem blank_singleton {c : Char} (h : isBlank c) : Blank c.toString := by
  intro d hd
  rw [Char.toString, String.toList_singleton, List.mem_singleton] at hd
  rw [hd, h]

theorem blank_newline : Blank "\n" := blank_singleton (c := '\n') (by decide)

theorem blank_space : Blank " " := blank_singleton (c := ' ') (by decide)

theorem blank_margin (s : String) : Blank (margin s) := fun _ hc => isBlank_of_mem_margin hc

theorem Tight.loose (h : Tight word s t) : Loose word s t := by
  obtain ⟨⟨ps, hs, -, hl, hr⟩, hc⟩ := h
  exact ⟨⟨ps, hs, hl, hr⟩, hc⟩

/-- Where no word is looked for, any two texts that are alike for a word are. -/
theorem Tight.empty (h : Tight word s t) : Tight [] s t := by
  obtain ⟨⟨ps, -, hf, hs, ht⟩, -⟩ := h
  exact ⟨⟨ps, settled_empty [] ps, hf, hs, ht⟩, clear_empty _⟩

theorem Spaced.refl (s : String) : Spaced word s s :=
  ⟨chars s.toList, settled_chars [] _, side_chars _ _, side_chars _ _⟩

theorem tight_refl (h : Clear word s.toList) : Tight word s s :=
  ⟨⟨chars s.toList, settled_chars [] _, firm_chars _, side_chars _ _, side_chars _ _⟩, h⟩

theorem tight_empty : Tight word "" "" := tight_refl clear_nil

/-- White space against other white space. -/
theorem loose_gap (hs : Blank s) (ht : Blank t) : Loose word s t := by
  have blank : ∀ c ∈ s.toList ++ t.toList, isBlank c := by
    intro c hc
    rcases List.mem_append.1 hc with hc | hc
    · exact hs c hc
    · exact ht c hc
  refine ⟨⟨[.gap s.toList t.toList blank], ⟨clear_nil, trivial⟩, by simp [Piece.side], by simp [Piece.side]⟩, ?_⟩
  exact (clear_congr (solids_of_blank hs)).2 clear_nil

theorem Loose.spaced_append (hst : Loose word s t) (huv : Spaced word u v) : Spaced word (s ++ u) (t ++ v) := by
  obtain ⟨⟨ps, hp, hs, ht⟩, hc⟩ := hst
  obtain ⟨qs, hq, hu, hv⟩ := huv
  refine ⟨ps ++ qs, (settled_append _ _ _).2 ⟨hp, ?_⟩, by simp [hs, hu], by simp [ht, hv]⟩
  rw [List.nil_append, hs]
  simpa using hq.behind hc

theorem Loose.append (hst : Loose word s t) (huv : Loose word u v) : Loose word (s ++ u) (t ++ v) := by
  refine ⟨hst.spaced_append huv.spaced, ?_⟩
  rw [String.toList_append]
  exact hst.clear.append huv.clear

theorem Tight.append (hst : Tight word s t) (huv : Tight word u v) : Tight word (s ++ u) (t ++ v) := by
  obtain ⟨⟨ps, hp, hpf, hs, ht⟩, hc⟩ := hst
  obtain ⟨⟨qs, hq, hqf, hu, hv⟩, hd⟩ := huv
  refine ⟨⟨ps ++ qs, (settled_append _ _ _).2 ⟨hp, ?_⟩, firm_append hpf hqf, by simp [hs, hu],
    by simp [ht, hv]⟩, ?_⟩
  · rw [List.nil_append, hs]
    simpa using hq.behind hc
  · rw [String.toList_append]
    exact hc.append hd

def Substantial (s : String) : Prop := ∃ c ∈ s.toList, c ≠ ';'

instance (s : String) : Decidable (Substantial s) :=
  decidable_of_iff (s.toList.any (· != ';')) (by simp [Substantial])

/-- A firm row with a character other than a semicolon makes what is before it firm. -/
theorem Loose.append_tight (hst : Loose word s t) (huv : Tight word u v) (hne : Substantial u) :
    Tight word (s ++ u) (t ++ v) := by
  obtain ⟨⟨ps, hp, hs, ht⟩, hc⟩ := hst
  obtain ⟨⟨qs, hq, hqf, hu, hv⟩, hd⟩ := huv
  have hchar : ∃ c, .char c ∈ qs ∧ c ≠ ';' := by
    rcases hqf.cases with ⟨n, rfl⟩ | ⟨init, d, n, hd, -, rfl⟩
    · obtain ⟨c, hc, hne⟩ := hne
      rw [← hu, side_chars] at hc
      exact absurd (List.mem_replicate.1 hc).2 hne
    · exact ⟨d, by simp, hd⟩
  obtain ⟨c, hcq, hcne⟩ := hchar
  refine ⟨⟨ps ++ qs, (settled_append _ _ _).2 ⟨hp, ?_⟩, firm_append_of_char hqf hcq hcne, by simp [hs, hu],
    by simp [ht, hv]⟩, ?_⟩
  · rw [List.nil_append, hs]
    simpa using hq.behind hc
  · rw [String.toList_append]
    exact hc.append hd

theorem tight_join {ss ts : List String} (h : AllTight word ss ts) :
    Tight word (String.join ss) (String.join ts) := by
  induction h with
  | nil => exact tight_empty
  | cons hst _ ih =>
    rw [String.join_cons, String.join_cons]
    exact hst.append ih

theorem loose_join {ss ts : List String} (h : AllLoose word ss ts) :
    Loose word (String.join ss) (String.join ts) := by
  induction h with
  | nil => exact tight_empty.loose
  | cons hst _ ih =>
    rw [String.join_cons, String.join_cons]
    exact hst.append ih

theorem tight_intercalate (hu : Tight word u v) {ss ts : List String} (h : AllTight word ss ts) :
    Tight word (u.intercalate ss) (v.intercalate ts) := by
  induction h with
  | nil =>
    rw [String.intercalate_nil, String.intercalate_nil]
    exact tight_empty
  | cons hst hrest ih =>
    cases hrest with
    | nil =>
      rw [String.intercalate_singleton, String.intercalate_singleton]
      exact hst
    | cons _ _ =>
      rw [String.intercalate_cons_cons, String.intercalate_cons_cons]
      exact (hst.append hu).append ih

theorem loose_intercalate (hu : Loose word u v) {ss ts : List String} (h : AllLoose word ss ts) :
    Loose word (u.intercalate ss) (v.intercalate ts) := by
  induction h with
  | nil =>
    rw [String.intercalate_nil, String.intercalate_nil]
    exact tight_empty.loose
  | cons hst hrest ih =>
    cases hrest with
    | nil =>
      rw [String.intercalate_singleton, String.intercalate_singleton]
      exact hst
    | cons _ _ =>
      rw [String.intercalate_cons_cons, String.intercalate_cons_cons]
      exact (hst.append hu).append ih

theorem solids_trimStart (s : String) : solids (trimStart s).toList = solids s.toList :=
  filter_trimStart (fun c hc => by simp [isSolid, hc]) s

theorem Tight.trimStart (h : Tight word s t) : Tight word (trimStart s) (trimStart t) := by
  obtain ⟨⟨ps, hp, hf, hs, ht⟩, hc⟩ := h
  refine ⟨⟨trimmed ps, settled_trimmed hp, firm_trimmed hf, ?_, ?_⟩, (clear_congr (solids_trimStart s)).2 hc⟩
  · rw [side_trimmed, hs, Text.trimStart, String.toList_ofList]
  · rw [side_trimmed, ht, Text.trimStart, String.toList_ofList]

theorem Tight.dropTrailing (h : Tight word s t) : Tight word (dropTrailing ';' s) (dropTrailing ';' t) := by
  obtain ⟨⟨ps, hp, hf, hs, ht⟩, hc⟩ := h
  obtain ⟨qs, hqf, hq, hside⟩ := exists_shortened hf hp
  refine ⟨⟨qs, hq, hqf, ?_, ?_⟩, (clear_congr (filter_dropTrailing (by decide) s)).2 hc⟩
  · rw [hside, hs, Text.dropTrailing, String.toList_ofList]
  · rw [hside, ht, Text.dropTrailing, String.toList_ofList]

theorem Loose.eraseFirst (h : Loose word s t) : Loose word (eraseFirst ';' s) (eraseFirst ';' t) := by
  obtain ⟨⟨ps, hp, hs, ht⟩, hc⟩ := h
  refine ⟨⟨erased ps, settled_erased hp, ?_, ?_⟩, (clear_congr (filter_eraseFirst (by decide) s)).2 hc⟩
  · rw [side_erased, hs, Text.eraseFirst, String.toList_ofList]
  · rw [side_erased, ht, Text.eraseFirst, String.toList_ofList]

theorem Spaced.removeBlanks_eq (h : Spaced word s t) : removeBlanks s = removeBlanks t := by
  obtain ⟨ps, -, hs, ht⟩ := h
  rw [removeBlanks, removeBlanks, ← hs, ← ht, filter_side true fun c hc => by simp [hc]]

theorem Tight.removeBlanks (h : Tight word s t) : Tight word (removeBlanks s) (removeBlanks t) := by
  rw [← h.loose.spaced.removeBlanks_eq]
  apply tight_refl
  exact (clear_congr (filter_removeBlanks (fun c hc => by simp [isSolid, hc]) s)).2 h.clear

theorem Tight.getLast? (h : Tight word s t) : s.toList.getLast? = t.toList.getLast? := by
  obtain ⟨⟨ps, -, hf, hs, ht⟩, -⟩ := h
  rw [← hs, ← ht, getLast?_side true hf]

theorem Tight.endsWith (h : Tight word s t) (c : Char) : endsWith c s = endsWith c t := by
  rw [Text.endsWith, Text.endsWith, h.getLast?]

theorem Tight.isEmpty (h : Tight word s t) : s.isEmpty = t.isEmpty := by
  have empty : ∀ x : String, x.isEmpty = x.toList.getLast?.isNone := by
    intro x
    rw [Bool.eq_iff_iff]
    simp
  rw [empty, empty, h.getLast?]

theorem Spaced.any (h : Spaced word s t) {P : Char → Bool} (hP : ∀ c, isBlank c → P c = false) :
    s.toList.any P = t.toList.any P := by
  obtain ⟨ps, -, hs, ht⟩ := h
  have any_eq : ∀ cs : List Char, cs.any P = !(cs.filter P).isEmpty := by
    intro cs
    rw [Bool.eq_iff_iff]
    simp
  rw [any_eq, any_eq, ← hs, ← ht, filter_side true hP]

theorem Spaced.contains (hne : word ≠ []) (solid : word.all isSolid) (h : Spaced word s t) :
    contains (.ofList word) s = contains (.ofList word) t := by
  obtain ⟨ps, hp, hs, ht⟩ := h
  have start : Agree word [] [] := ⟨rfl, Iff.rfl, fun _ _ _ _ => Iff.rfl⟩
  have both := infix_side hne (List.all_eq_true.1 solid) hp rfl start
  rw [Bool.eq_iff_iff, Text.contains, Text.contains, occursIn_iff, occursIn_iff, String.toList_ofList, ← hs, ← ht]
  exact both

end Stylesheet.Text
