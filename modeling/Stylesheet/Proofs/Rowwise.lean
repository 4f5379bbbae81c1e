import Stylesheet.Convert

/-!
# Properties that texts in a row keep

Lists are put together from the texts of their members with separators in between. A property of the empty text that two
texts in a row keep is one of every such list, if the members and the separators have it.
-/

namespace Stylesheet

/-- The empty text has the property, and two texts that have it do in a row. -/
structure Rowwise (P : String → Prop) : Prop where
  empty : P ""
  append : ∀ {s t : String}, P s → P t → P (s ++ t)

namespace Rowwise

variable {P : String → Prop} (rows : Rowwise P) {s : String} {ts : List String}

include rows

theorem join (h : ∀ t ∈ ts, P t) : P (String.join ts) := by
  induction ts with
  | nil => exact rows.empty
  | cons t ts ih =>
    obtain ⟨ht, hts⟩ := List.forall_mem_cons.1 h
    rw [String.join_cons]
    exact rows.append ht (ih hts)

theorem intercalate (hs : P s) (h : ∀ t ∈ ts, P t) : P (s.intercalate ts) := by
  induction ts with
  | nil => exact rows.empty
  | cons t ts ih =>
    obtain ⟨ht, hts⟩ := List.forall_mem_cons.1 h
    cases ts with
    | nil =>
      rw [String.intercalate_singleton]
      exact ht
    | cons u us =>
      rw [String.intercalate_cons_cons]
      exact rows.append (rows.append ht hs) (ih hts)

/-- What may be missing leaves nothing behind. -/
theorem optional {text : Option String} (h : ∀ t ∈ text, P t) : P (text.getD "") := by
  cases text with
  | none => exact rows.empty
  | some t => exact h t rfl

theorem optional_append {text : Option String} (h : ∀ t ∈ text, P t) (hs : P s) : P ((text.map (· ++ s)).getD "") := by
  cases text with
  | none => exact rows.empty
  | some t => exact rows.append (h t rfl) hs

theorem joinOperands (comma : P ", ") (blank : P " ") (inValue : Bool) (operands : List Node) (h : ∀ t ∈ ts, P t) :
    P (Render.joinOperands inValue operands ts) := by
  have separated (n : Node) : P (Render.separator inValue n) := by
    unfold Render.separator
    split
    · exact comma
    · exact blank
  have zipped : ∀ e ∈ operands.zip ts, P e.2 := fun e he => h e.2 (List.of_mem_zip he).2
  unfold Render.joinOperands
  split
  · exact rows.empty
  · next n first rest hz =>
    rw [hz] at zipped
    obtain ⟨hfirst, hrest⟩ := List.forall_mem_cons.1 zipped
    refine rows.append hfirst (rows.join fun u hu => ?_)
    obtain ⟨⟨m, t⟩, ht, rfl⟩ := List.mem_map.1 hu
    exact rows.append (separated m) (hrest (m, t) ht)

end Rowwise

end Stylesheet
