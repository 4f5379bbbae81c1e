import Stylesheet.Render.Value

/-!
# Characters of numbers

Whatever double is written, its text consists of digits, a sign and a point, or of the names of infinity and of
what is no number.
-/

namespace Stylesheet

def isNumeral (c : Char) : Bool := c.isDigit || ['-', '.', 'i', 'n', 'f', 'N', 'a'].contains c

private theorem isNumeral_of_isDigit {c : Char} (h : c.isDigit) : isNumeral c := by simp [isNumeral, h]

private theorem isNumeral_repr {n : Nat} {c : Char} (h : c ∈ (Nat.repr n).toList) : isNumeral c := by
  rw [Nat.toList_repr] at h
  exact isNumeral_of_isDigit (Nat.isDigit_of_mem_toDigits (by decide) (by decide) h)

private theorem isNumeral_toString {n : Int} {c : Char} (h : c ∈ (toString n).toList) : isNumeral c := by
  rw [Int.toString_eq_repr, Int.repr_eq_if] at h
  split at h
  · exact isNumeral_repr h
  · rw [String.toList_append, List.mem_append] at h
    rcases h with h | h
    · have hc : c = '-' := by simpa using h
      subst hc
      decide
    · exact isNumeral_repr h

namespace Decimal

private theorem isNumeral_digits {d : Decimal} {c : Char} (h : c ∈ d.digits) : isNumeral c := isNumeral_repr h

private theorem isNumeral_zeros {n : Nat} {c : Char} (h : c ∈ List.replicate n '0') : isNumeral c := by
  rw [(List.mem_replicate.1 h).2]
  decide

private theorem isNumeral_positional {d : Decimal} {c : Char} (h : c ∈ positional false d) : isNumeral c := by
  have point : isNumeral '.' := by decide
  have zero : isNumeral '0' := by decide
  dsimp only [positional] at h
  split at h
  · rcases List.mem_append.1 h with h | h
    · rcases List.mem_append.1 h with h | h
      · exact isNumeral_digits h
      · exact isNumeral_zeros h
    · simp at h
  · split at h
    · rcases List.mem_append.1 h with h | h
      · exact isNumeral_digits (List.mem_of_mem_take h)
      · rcases List.mem_cons.1 h with rfl | h
        · exact point
        · exact isNumeral_digits (List.mem_of_mem_drop h)
    · rcases List.mem_cons.1 h with rfl | h
      · exact zero
      · rcases List.mem_append.1 h with h | h
        · rcases List.mem_cons.1 h with rfl | h
          · exact point
          · exact isNumeral_zeros h
        · exact isNumeral_digits h

end Decimal

namespace Render

private theorem isNumeral_write {x : Float} {c : Char} (h : c ∈ (numberLayout.write x).toList) : isNumeral c := by
  have sign : ∀ {negative : Bool} {s : String}, s.toList.all isNumeral →
      c ∈ (if negative then "-" ++ s else s).toList → isNumeral c := by
    intro negative s hs hc
    cases negative with
    | false => exact List.all_eq_true.1 hs c hc
    | true =>
      rcases List.mem_append.1 (String.toList_append ▸ hc) with hc | hc
      · have minus : c = '-' := by simpa using hc
        rw [minus]
        decide
      · exact List.all_eq_true.1 hs c hc
  unfold DecimalLayout.write at h
  split at h
  · have none : "NaN".toList.all isNumeral := by decide
    exact List.all_eq_true.1 none c h
  · exact sign (by decide) h
  · refine sign (List.all_eq_true.2 fun d hd => ?_) h
    rw [String.toList_ofList] at hd
    exact Decimal.isNumeral_positional hd

/-- Every character of a number is one that numbers are written with. -/
theorem isNumeral_number {x : Float} {c : Char} (h : c ∈ (number x).toList) : isNumeral c := by
  unfold number at h
  split at h
  · split at h
    · exact isNumeral_toString h
    · exact isNumeral_write h
  · exact isNumeral_write h

end Render

end Stylesheet
