import Mathlib.Data.List.Basic
import Stylesheet.Command.Files

/-!
# Written files

A path passes through directories only, so everything above the place it leads to is a directory already. A write puts
one file there and changes nothing at any other place, and the same path reads as the written text afterwards.
-/

namespace Stylesheet.Command

open Files

section Put

variable (l : Location) (text : String) (fs : List (Location × String))

private theorem lookup_put_self : (put l text fs).lookup l = some text := by
  induction fs with
  | nil => simp [put]
  | cons f fs ih =>
    rw [put]
    split
    · simp
    · next hf => rw [List.lookup_cons, beq_false_of_ne (Ne.symm hf), ih]

private theorem lookup_put_of_ne {m : Location} (h : m ≠ l) : (put l text fs).lookup m = fs.lookup m := by
  induction fs with
  | nil => rw [put, List.lookup_cons, beq_false_of_ne h]
  | cons f fs ih =>
    rw [put]
    split
    · next hf =>
      subst hf
      rw [List.lookup_cons, List.lookup_cons, beq_false_of_ne h]
    · rw [List.lookup_cons, List.lookup_cons, ih]

private theorem any_put (P : Location → Bool) :
    ((put l text fs).any fun f => P f.1) = (P l || fs.any fun f => P f.1) := by
  induction fs with
  | nil => rfl
  | cons f fs ih =>
    rw [put]
    split
    · next hf => rw [List.any_cons, List.any_cons, hf, ← Bool.or_assoc, Bool.or_self]
    · rw [List.any_cons, List.any_cons, ih, Bool.or_left_comm]

end Put

private theorem Location.ext_of {l m : Location} (base : l.base = m.base) (names : l.names = m.names) : l = m := by
  cases l
  cases m
  simp_all

private theorem Location.within_iff {d l : Location} : d.within l ↔ d.base = l.base ∧ d.names <+: l.names := by
  rw [Location.within, Bool.and_eq_true, beq_iff_eq, List.isPrefixOf_iff_prefix]

namespace Files

variable {fs : Files}

/-- Everything above the place is a directory. -/
def Reaches (fs : Files) (l : Location) : Prop := ∀ d : Location, d.within l → d ≠ l → fs.item d = .directory

private theorem reaches_of_names_nil {l : Location} (h : l.names = []) : fs.Reaches l := by
  intro d within other
  obtain ⟨base, names⟩ := Location.within_iff.1 within
  rw [h, List.prefix_nil] at names
  exact absurd (Location.ext_of base (names.trans h.symm)) other

theorem Reaches.parent {l : Location} (h : fs.Reaches l) : fs.Reaches l.parent := by
  rw [Location.parent]
  split
  · next none => exact reaches_of_names_nil none
  · next some =>
    intro d within other
    obtain ⟨base, names⟩ := Location.within_iff.1 within
    refine h d (Location.within_iff.2 ⟨base, names.trans (List.dropLast_prefix _)⟩) ?_
    rintro rfl
    have shorter := names.length_le
    have := List.length_pos_of_ne_nil some
    simp only [List.length_dropLast] at shorter
    omega

theorem Reaches.child {l : Location} (h : fs.Reaches l) (here : fs.item l = .directory) (name : String) :
    fs.Reaches (l.child name) := by
  intro d within other
  obtain ⟨base, names⟩ := Location.within_iff.1 within
  rcases List.prefix_concat_iff.1 names with whole | above
  · exact absurd (Location.ext_of base whole) other
  · by_cases same : d = l
    · rw [same, here]
    · exact h d (Location.within_iff.2 ⟨base, above⟩) same

private theorem step_eq_ok {l m : Location} {part : String} (h : fs.step l part = .ok m) :
    fs.item l = .directory ∧ (m = l ∨ m = l.parent ∨ m = l.child part) := by
  simp only [step] at h
  split at h
  · cases h
  · cases h
  · cases h
  · next here =>
    refine ⟨here, ?_⟩
    split_ifs at h
    · exact .inl (Except.ok.inj h).symm
    · exact .inr (.inl (Except.ok.inj h).symm)
    · exact .inr (.inr (Except.ok.inj h).symm)

private theorem step_reaches {l m : Location} {part : String} (h : fs.step l part = .ok m) (above : fs.Reaches l) :
    fs.Reaches m := by
  obtain ⟨here, rfl | rfl | rfl⟩ := step_eq_ok h
  · exact above
  · exact above.parent
  · exact above.child here part

private theorem walk_cons_eq_ok {l m : Location} {part : String} {parts : List String}
    (h : fs.walk l (part :: parts) = .ok m) : ∃ k, fs.step l part = .ok k ∧ fs.walk k parts = .ok m := by
  rw [walk] at h
  cases hk : fs.step l part with
  | error fault => simp [hk, bind, Except.bind] at h
  | ok k => exact ⟨k, rfl, by simpa [hk, bind, Except.bind] using h⟩

private theorem walk_reaches {parts : List String} {l m : Location} (h : fs.walk l parts = .ok m)
    (above : fs.Reaches l) :
    fs.Reaches m := by
  induction parts generalizing l with
  | nil =>
    obtain rfl := Except.ok.inj h
    exact above
  | cons part parts ih =>
    obtain ⟨k, step, rest⟩ := walk_cons_eq_ok h
    exact ih rest (step_reaches step above)

private theorem walk_eq_ok_of_directories {after : Files}
    (kept : ∀ d, fs.item d = .directory → after.item d = .directory) {parts : List String} {l m : Location}
    (h : fs.walk l parts = .ok m) : after.walk l parts = .ok m := by
  induction parts generalizing l with
  | nil => exact h
  | cons part parts ih =>
    obtain ⟨k, step, rest⟩ := walk_cons_eq_ok h
    have here := (step_eq_ok step).1
    have again : after.step l part = .ok k := by
      rw [← step, Files.step, Files.step, here, kept l here]
    rw [walk, again]
    exact ih rest

private theorem follow_of_target {path : String} {l : Location} (h : fs.target path = .ok l) :
    fs.follow path (pathParts path) = .ok l := by
  rw [target] at h
  split at h
  · cases hf : fs.follow path ((pathParts (Text.dropTrailing '/' path)).dropLast ++ ["."]) <;>
      simp [hf, bind, Except.bind] at h
  · exact h

private theorem walk_of_follow {path : String} {parts : List String} {l : Location} (h : fs.follow path parts = .ok l) :
    fs.walk (pathStart path) parts = .ok l := by
  rw [follow] at h
  split_ifs at h
  exact h

private theorem item_put_self (l : Location) (text : String) : Files.item ⟨put l text fs.texts⟩ l = .file text := by
  rw [item, lookup_put_self]

private theorem item_put_of_ne {l m : Location} (above : fs.Reaches l) (text : String) (h : m ≠ l) :
    Files.item ⟨put l text fs.texts⟩ m = fs.item m := by
  rw [item, lookup_put_of_ne l text fs.texts h, any_put l text fs.texts m.within]
  cases within : m.within l with
  | false => rfl
  | true =>
    -- a place above the file is a directory on both sides, whether files were below it or not
    have directory := above m within h
    rw [directory]
    rw [item] at directory
    split at directory
    · cases directory
    · rfl

private theorem target_of_place? {path : String} {l : Location} (h : fs.place? path = some l) :
    fs.target path = .ok l ∧ fs.item l ≠ .directory := by
  rw [place?] at h
  cases leads : fs.target path with
  | error fault => simp [leads] at h
  | ok m => cases here : fs.item m <;> simp_all

/-- What is at the place of a written file, what the path reads as, and that nothing else changed. -/
theorem written {path text : String} {l : Location} (h : fs.place? path = some l) :
    let after : Files := ⟨put l text fs.texts⟩
    after.item l = .file text ∧ after.read path = .text text ∧ ∀ m, m ≠ l → after.item m = fs.item m := by
  intro after
  obtain ⟨leads, here⟩ := target_of_place? h
  have follows := follow_of_target leads
  have above : fs.Reaches l := by
    refine walk_reaches (walk_of_follow follows) (reaches_of_names_nil ?_)
    rw [pathStart]
  have others (m : Location) (hm : m ≠ l) : after.item m = fs.item m := item_put_of_ne above text hm
  have directories (d : Location) (hd : fs.item d = .directory) : after.item d = .directory := by
    rw [others d fun same => here (same ▸ hd), hd]
  have again : after.follow path (pathParts path) = .ok l := by
    have walks := walk_eq_ok_of_directories directories (walk_of_follow follows)
    rw [follow] at follows ⊢
    split_ifs at follows ⊢
    exact walks
  have self : after.item l = .file text := item_put_self l text
  refine ⟨self, ?_, others⟩
  rw [read, again]
  simp only [self]

end Files

end Stylesheet.Command
