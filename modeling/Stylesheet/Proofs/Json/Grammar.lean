import Mathlib.Data.List.Basic
import Stylesheet.Json.Reader

/-!
# The grammar of JSON texts

Which value stands at the front of a text, said without a bound on the number of steps. Reading finds exactly
the values of the grammar, and where there is one, passing over it ends at the same place.
-/

namespace Stylesheet.Json.Reader

mutual

/-- The value stands at the front of the text, in at most `depth` brackets of its own, and the characters after
it are left. -/
inductive Reads : (depth : Nat) → List Char → Json → List Char → Prop
  | scalar {depth : Nat} {cs left : List Char} {j : Json} (found : scalar? cs = some (j, left)) :
      Reads depth cs j left
  | emptyList {depth : Nat} {rest left : List Char} (closed : skipSpace rest = ']' :: left) :
      Reads (depth + 1) ('[' :: rest) (.list []) left
  | list {depth : Nat} {rest left : List Char} {js : List Json}
      (inside : ReadsItems depth (skipSpace rest) js left) : Reads (depth + 1) ('[' :: rest) (.list js) left
  | emptyRecord {depth : Nat} {rest left : List Char} (closed : skipSpace rest = '\x7d' :: left) :
      Reads (depth + 1) ('\x7b' :: rest) (.record []) left
  | record {depth : Nat} {rest left : List Char} {es : List (String × Json)}
      (inside : ReadsEntries depth (skipSpace rest) es left) :
      Reads (depth + 1) ('\x7b' :: rest) (.record es) left

inductive ReadsItems : (depth : Nat) → List Char → List Json → List Char → Prop
  | last {depth : Nat} {cs rest left : List Char} {j : Json} (item : Reads depth cs j rest)
      (closed : skipSpace rest = ']' :: left) : ReadsItems depth cs [j] left
  | more {depth : Nat} {cs rest rest' left : List Char} {j : Json} {js : List Json}
      (item : Reads depth cs j rest) (comma : skipSpace rest = ',' :: rest')
      (others : ReadsItems depth (skipSpace rest') js left) : ReadsItems depth cs (j :: js) left

inductive ReadsEntries : (depth : Nat) → List Char → List (String × Json) → List Char → Prop
  | last {depth : Nat} {cs text rest left : List Char} {k : String} {j : Json}
      (key : key? cs = some (k, text)) (value : Reads depth text j rest)
      (closed : skipSpace rest = '\x7d' :: left) : ReadsEntries depth cs [(k, j)] left
  | more {depth : Nat} {cs text rest rest' left : List Char} {k : String} {j : Json}
      {es : List (String × Json)} (key : key? cs = some (k, text)) (value : Reads depth text j rest)
      (comma : skipSpace rest = ',' :: rest') (others : ReadsEntries depth (skipSpace rest') es left) :
      ReadsEntries depth cs ((k, j) :: es) left

end

theorem length_skipSpace_le (cs : List Char) : (skipSpace cs).length ≤ cs.length :=
  (List.dropWhile_suffix _).length_le

theorem length_of_skipSpace {cs left : List Char} {c : Char} (h : skipSpace cs = c :: left) :
    left.length < cs.length :=
  Nat.lt_of_lt_of_le (by simp [h]) (length_skipSpace_le cs)

/-- Neither a bracket nor a sign between values starts a scalar. -/
theorem scalar?_of_sign {c : Char} (h : c ∈ ['[', ']', '\x7b', '\x7d', ',', ':']) (rest : List Char) :
    scalar? (c :: rest) = none := by
  simp only [List.mem_cons, List.not_mem_nil, or_false] at h
  rcases h with rfl | rfl | rfl | rfl | rfl | rfl <;> simp [scalar?, number?, numberText?, sign, digits]

theorem not_sign_of_scalar? {cs left : List Char} {j : Json} (found : scalar? cs = some (j, left)) {c : Char}
    (h : c ∈ ['[', ']', '\x7b', '\x7d', ',', ':']) (rest : List Char) : cs = c :: rest → False := by
  rintro rfl
  cases (scalar?_of_sign h rest).symm.trans found

private theorem skipStringTail_of_stringTail {cs s left : List Char} (h : stringTail cs = some (s, left)) :
    skipStringTail cs = some left ∧ left.length < cs.length := by
  fun_induction stringTail cs generalizing s left with
  | case1 => simp at h
  | case2 rest =>
    simp only [Option.some.injEq, Prod.mk.injEq] at h
    simp [skipStringTail, h.2]
  | case3 a b c d rest ihPair ih =>
    simp only [bind, Option.bind_eq_some_iff] at h
    obtain ⟨high, hunit, h⟩ := h
    split at h
    · cases h
    · split at h
      · split at h
        · next a' b' c' d' rest' =>
          simp only [Option.bind_eq_some_iff] at h
          obtain ⟨low, hlow, h⟩ := h
          split at h
          · obtain ⟨found, hfound, h⟩ := Option.bind_eq_some_iff.1 h
            cases h
            have below := ihPair hfound
            simp only [skipStringTail, hunit, hlow, below.1, bind, Option.bind_some, List.length_cons, true_and]
            omega
          · cases h
        · cases h
      · obtain ⟨found, hfound, h⟩ := Option.bind_eq_some_iff.1 h
        cases h
        have below := ih hfound
        simp only [skipStringTail, hunit, below.1, bind, Option.bind_some, List.length_cons, true_and]
        omega
  | case4 e rest hu ih =>
    simp only [bind, Option.bind_eq_some_iff] at h
    obtain ⟨c, hc, found, hfound, h⟩ := h
    cases h
    have below := ih hfound
    rw [skipStringTail.eq_4 _ _ hu, hc]
    simp only [below.1, bind, Option.bind_some, List.length_cons, true_and]
    omega
  | case5 => simp at h
  | case6 c rest hq hu he hc ih =>
    simp only [bind, Option.bind_eq_some_iff] at h
    obtain ⟨found, hfound, h⟩ := h
    cases h
    have below := ih hfound
    rw [skipStringTail.eq_5 _ _ hq hu he, if_neg hc]
    exact ⟨below.1, by simp only [List.length_cons]; omega⟩

private theorem suffix_of_fraction? {cs ds left : List Char} (h : fraction? cs = some (ds, left)) : left <:+ cs := by
  unfold fraction? at h
  split at h
  · split at h
    · cases h
    · cases h
      exact (List.dropWhile_suffix _).trans (List.suffix_cons ..)
  · cases h
    exact List.suffix_refl _

private theorem suffix_of_exponentDigits? {sign : Int} {cs left : List Char} {e : Option Int}
    (h : exponentDigits? sign cs = some (e, left)) : left <:+ cs := by
  unfold exponentDigits? at h
  split at h
  · cases h
  · next ds rest _ hds =>
    cases h
    have tail : cs.dropWhile Char.isDigit = left := congrArg Prod.snd hds
    exact tail ▸ List.dropWhile_suffix _

private theorem suffix_of_exponent? {cs left : List Char} {e : Option Int} (h : exponent? cs = some (e, left)) :
    left <:+ cs := by
  unfold exponent? at h
  split at h
  · split at h
    · split at h
      · exact (suffix_of_exponentDigits? h).trans ((List.suffix_cons ..).trans (List.suffix_cons ..))
      · exact (suffix_of_exponentDigits? h).trans ((List.suffix_cons ..).trans (List.suffix_cons ..))
      · exact (suffix_of_exponentDigits? h).trans (List.suffix_cons ..)
    · cases h
      exact List.suffix_refl _
  · cases h
    exact List.suffix_refl _

private theorem suffix_sign (cs : List Char) : (sign cs).2 <:+ cs := by
  unfold sign
  split
  · exact List.suffix_cons ..
  · exact List.suffix_refl _

theorem length_of_numberText? {cs left : List Char} {t : NumberText} (h : numberText? cs = some (t, left)) :
    left.length < cs.length := by
  simp only [numberText?, bind] at h
  split at h
  · cases h
  · next hwhole =>
    obtain ⟨⟨ds, rest⟩, hfraction, h⟩ := Option.bind_eq_some_iff.1 h
    obtain ⟨⟨e, rest'⟩, hexponent, h⟩ := Option.bind_eq_some_iff.1 h
    cases h
    have found : (digits (sign cs).2).1 ≠ [] := fun h => hwhole (.inl h)
    have some_digit : 0 < (digits (sign cs).2).1.length := List.length_pos_iff.2 found
    have all : (digits (sign cs).2).1.length + (digits (sign cs).2).2.length = (sign cs).2.length := by
      rw [← List.length_append]
      exact congrArg List.length List.takeWhile_append_dropWhile
    have := (suffix_sign cs).length_le
    have := (suffix_of_fraction? hfraction).length_le
    have := (suffix_of_exponent? hexponent).length_le
    dsimp only at *
    omega

private theorem length_of_word? {word : String} {cs left : List Char} (h : word? word cs = some left) :
    left.length ≤ cs.length := by
  rw [← List.append_eq_of_isPrefixOf?_eq_some h, List.length_append]
  exact Nat.le_add_left ..

private theorem skipScalar?_of_scalar? {cs left : List Char} {j : Json} (h : scalar? cs = some (j, left)) :
    skipScalar? cs = some left ∧ left.length < cs.length := by
  unfold scalar? at h
  split at h
  · obtain ⟨⟨s, rest⟩, hs, h⟩ := Option.bind_eq_some_iff.1 h
    cases h
    have skipped := skipStringTail_of_stringTail hs
    exact ⟨skipped.1, Nat.lt_succ_of_lt skipped.2⟩
  · obtain ⟨rest, hw, h⟩ := Option.map_eq_some_iff.1 h
    cases h
    exact ⟨hw, Nat.lt_succ_of_le (length_of_word? hw)⟩
  · obtain ⟨rest, hw, h⟩ := Option.map_eq_some_iff.1 h
    cases h
    exact ⟨hw, Nat.lt_succ_of_le (length_of_word? hw)⟩
  · obtain ⟨rest, hw, h⟩ := Option.map_eq_some_iff.1 h
    cases h
    exact ⟨hw, Nat.lt_succ_of_le (length_of_word? hw)⟩
  · next hq hn ht hf =>
    obtain ⟨⟨n, rest⟩, hnumber, h⟩ := Option.map_eq_some_iff.1 h
    cases h
    obtain ⟨⟨t, rest⟩, htext, h⟩ := Option.bind_eq_some_iff.1 hnumber
    obtain ⟨_, _, h⟩ := Option.bind_eq_some_iff.1 h
    cases h
    rw [skipScalar?.eq_5 _ hq hn ht hf, htext]
    exact ⟨rfl, length_of_numberText? htext⟩

theorem scalar?_gives {cs left : List Char} {j : Json} (h : scalar? cs = some (j, left)) :
    (∀ js, j ≠ .list js) ∧ ∀ es, j ≠ .record es := by
  unfold scalar? at h
  split at h
  · obtain ⟨_, _, h⟩ := Option.bind_eq_some_iff.1 h
    cases h
    simp
  all_goals
    obtain ⟨_, _, h⟩ := Option.map_eq_some_iff.1 h
    cases h
    simp

/-- A key is a string, and the colon after it is passed over with the white space around it. -/
theorem key?_gives {cs text : List Char} {k : String} (h : key? cs = some (k, text)) :
    ∃ rest tail after, cs = '"' :: rest ∧ skipStringTail rest = some tail ∧ skipSpace tail = ':' :: after ∧
      text = skipSpace after ∧ text.length < cs.length := by
  unfold key? at h
  split at h
  · next rest =>
    obtain ⟨⟨s, tail⟩, hs, h⟩ := Option.bind_eq_some_iff.1 h
    dsimp only at h
    split at h
    · next after hcolon =>
      cases h
      have skipped := skipStringTail_of_stringTail hs
      have colon := congrArg List.length hcolon
      have := length_skipSpace_le tail
      have := length_skipSpace_le after
      simp only [List.length_cons] at *
      exact ⟨rest, tail, after, rfl, skipped.1, hcolon, rfl, by omega⟩
    · cases h
  · cases h

mutual

private theorem reads_of_value? : ∀ {fuel depth : Nat} {cs left : List Char} {j : Json},
    value? fuel depth cs = some (j, left) → Reads depth cs j left
  | 0, _, _, _, _, h => by cases h
  | fuel + 1, depth, cs, left, j, h => by
    unfold value? at h
    split at h
    · cases h
    · next heq =>
      cases heq
      split at h
      · cases h
      · next hclosed =>
        cases h
        exact .emptyList hclosed
      · obtain ⟨⟨js, rest⟩, hitems, h⟩ := Option.map_eq_some_iff.1 h
        cases h
        exact .list (readsItems_of_items? hitems)
    · next heq =>
      cases heq
      split at h
      · cases h
      · next hclosed =>
        cases h
        exact .emptyRecord hclosed
      · obtain ⟨⟨es, rest⟩, hentries, h⟩ := Option.map_eq_some_iff.1 h
        cases h
        exact .record (readsEntries_of_entries? hentries)
    · exact .scalar h

private theorem readsItems_of_items? : ∀ {fuel depth : Nat} {cs left : List Char} {js : List Json},
    items? fuel depth cs = some (js, left) → ReadsItems depth cs js left
  | 0, _, _, _, _, h => by cases h
  | fuel + 1, depth, cs, left, js, h => by
    obtain ⟨⟨j, rest⟩, hvalue, h⟩ := Option.bind_eq_some_iff.1 h
    have item := reads_of_value? hvalue
    dsimp only at h
    split at h
    · next hcomma =>
      obtain ⟨⟨js, left⟩, hitems, h⟩ := Option.bind_eq_some_iff.1 h
      cases h
      exact .more item hcomma (readsItems_of_items? hitems)
    · next hclosed =>
      cases h
      exact .last item hclosed
    · cases h

private theorem readsEntries_of_entries? : ∀ {fuel depth : Nat} {cs left : List Char} {es : List (String × Json)},
    entries? fuel depth cs = some (es, left) → ReadsEntries depth cs es left
  | 0, _, _, _, _, h => by cases h
  | fuel + 1, depth, cs, left, es, h => by
    obtain ⟨⟨k, text⟩, hkey, h⟩ := Option.bind_eq_some_iff.1 h
    obtain ⟨⟨j, rest⟩, hvalue, h⟩ := Option.bind_eq_some_iff.1 h
    have value := reads_of_value? hvalue
    dsimp only at h
    split at h
    · next hcomma =>
      obtain ⟨⟨es, left⟩, hentries, h⟩ := Option.bind_eq_some_iff.1 h
      cases h
      exact .more hkey value hcomma (readsEntries_of_entries? hentries)
    · next hclosed =>
      cases h
      exact .last hkey value hclosed
    · cases h

end

mutual

theorem Reads.shorter : ∀ {depth : Nat} {cs left : List Char} {j : Json}, Reads depth cs j left →
    left.length < cs.length
  | _, _, _, _, .scalar found => (skipScalar?_of_scalar? found).2
  | _, _, _, _, .emptyList closed => Nat.lt_succ_of_lt (length_of_skipSpace closed)
  | _, _, _, _, .list inside => by
    have := Nat.lt_of_lt_of_le inside.shorter (length_skipSpace_le _)
    simp only [List.length_cons]
    omega
  | _, _, _, _, .emptyRecord closed => Nat.lt_succ_of_lt (length_of_skipSpace closed)
  | _, _, _, _, .record inside => by
    have := Nat.lt_of_lt_of_le inside.shorter (length_skipSpace_le _)
    simp only [List.length_cons]
    omega

/-- Next to its items, a list has a comma or a bracket after each of them. -/
theorem ReadsItems.shorter : ∀ {depth : Nat} {cs left : List Char} {js : List Json}, ReadsItems depth cs js left →
    left.length + 1 < cs.length
  | _, _, _, _, .last item closed => by
    have := item.shorter
    have := length_of_skipSpace closed
    omega
  | _, _, _, _, .more item comma others => by
    have := item.shorter
    have := length_of_skipSpace comma
    have := Nat.lt_of_lt_of_le others.shorter (length_skipSpace_le _)
    omega

theorem ReadsEntries.shorter : ∀ {depth : Nat} {cs left : List Char} {es : List (String × Json)},
    ReadsEntries depth cs es left → left.length + 1 < cs.length
  | _, _, _, _, .last key value closed => by
    obtain ⟨_, _, _, _, _, _, _, hkey⟩ := key?_gives key
    have := value.shorter
    have := length_of_skipSpace closed
    omega
  | _, _, _, _, .more key value comma others => by
    obtain ⟨_, _, _, _, _, _, _, hkey⟩ := key?_gives key
    have := value.shorter
    have := length_of_skipSpace comma
    have := Nat.lt_of_lt_of_le others.shorter (length_skipSpace_le _)
    omega

end

theorem Reads.ne_bracket {depth : Nat} {cs left : List Char} {j : Json} (h : Reads depth cs j left)
    (rest : List Char) : cs ≠ ']' :: rest := by
  cases h with
  | scalar found => exact not_sign_of_scalar? found (by simp) rest
  | emptyList | list | emptyRecord | record => simp

theorem ReadsItems.ne_bracket {depth : Nat} {cs left : List Char} {js : List Json}
    (h : ReadsItems depth cs js left) (rest : List Char) : cs ≠ ']' :: rest := by
  cases h with
  | last item => exact item.ne_bracket rest
  | more item => exact item.ne_bracket rest

theorem ReadsEntries.eq_quote {depth : Nat} {cs left : List Char} {es : List (String × Json)}
    (h : ReadsEntries depth cs es left) : ∃ rest, cs = '"' :: rest := by
  cases h with
  | last key => exact ⟨_, (key?_gives key).choose_spec.choose_spec.choose_spec.1⟩
  | more key => exact ⟨_, (key?_gives key).choose_spec.choose_spec.choose_spec.1⟩

private theorem value?_of_scalar? {depth fuel : Nat} {cs left : List Char} {j : Json}
    (found : scalar? cs = some (j, left)) :
    value? (fuel + 1) depth cs = some (j, left) ∧ skip? (fuel + 1) cs = some left := by
  have list := not_sign_of_scalar? found (c := '[') (by simp)
  have record := not_sign_of_scalar? found (c := '\x7b') (by simp)
  rw [value?.eq_8 _ _ _ list record, skip?.eq_4 _ _ list record]
  exact ⟨found, (skipScalar?_of_scalar? found).1⟩

private theorem exists_step (fuel : Nat) {taken left : Nat} (h : left < taken)
    (enough : 2 * taken ≤ fuel + 2 * left + 1) :
    ∃ f, fuel = f + 1 :=
  Nat.exists_eq_add_one_of_ne_zero (by omega)

mutual

/-- Two steps for every character taken are enough to find a value, and to pass over it. -/
theorem Reads.found : ∀ {depth : Nat} {cs left : List Char} {j : Json}, Reads depth cs j left →
    ∀ fuel, 2 * cs.length ≤ fuel + 2 * left.length + 1 →
      value? fuel depth cs = some (j, left) ∧ skip? fuel cs = some left
  | _, _, _, _, .scalar found, fuel, enough => by
    obtain ⟨fuel, rfl⟩ := exists_step fuel (skipScalar?_of_scalar? found).2 enough
    exact value?_of_scalar? found
  | _, _, _, _, .emptyList closed, fuel, enough => by
    obtain ⟨fuel, rfl⟩ := exists_step fuel (Nat.lt_succ_of_lt (length_of_skipSpace closed)) enough
    simp [value?, skip?, closed]
  | _, _, _, _, @Reads.list depth rest left js inside, fuel, enough => by
    have shorter := inside.shorter
    have space := length_skipSpace_le rest
    simp only [List.length_cons] at enough
    obtain ⟨fuel, rfl⟩ := exists_step fuel (by omega : left.length < rest.length + 1) enough
    have below := inside.found fuel (by omega)
    simp only [value?.eq_4 _ _ _ inside.ne_bracket, skip?, below, Option.map_some, true_and]
    split
    · next closed => exact absurd closed (inside.ne_bracket _)
    · exact below.2
  | _, _, _, _, .emptyRecord closed, fuel, enough => by
    obtain ⟨fuel, rfl⟩ := exists_step fuel (Nat.lt_succ_of_lt (length_of_skipSpace closed)) enough
    simp [value?, skip?, closed]
  | _, _, _, _, @Reads.record depth rest left es inside, fuel, enough => by
    have shorter := inside.shorter
    have space := length_skipSpace_le rest
    simp only [List.length_cons] at enough
    obtain ⟨fuel, rfl⟩ := exists_step fuel (by omega : left.length < rest.length + 1) enough
    have below := inside.found fuel (by omega)
    obtain ⟨after, quoted⟩ := inside.eq_quote
    rw [quoted] at below
    simp [value?, skip?, quoted, below]

theorem ReadsItems.found : ∀ {depth : Nat} {cs left : List Char} {js : List Json}, ReadsItems depth cs js left →
    ∀ fuel, 2 * cs.length ≤ fuel + 2 * left.length + 2 →
      items? fuel depth cs = some (js, left) ∧ skipItems? fuel cs = some left
  | _, _, _, _, @ReadsItems.last depth cs rest left j item closed, fuel, enough => by
    have shorter := item.shorter
    have bracket := length_of_skipSpace closed
    obtain ⟨fuel, rfl⟩ := exists_step fuel (by omega : left.length + 1 < cs.length) (by omega)
    have below := item.found fuel (by omega)
    simp [items?, skipItems?, below, closed]
  | _, _, _, _, @ReadsItems.more depth cs rest rest' left j js item comma others, fuel, enough => by
    have shorter := item.shorter
    have sign := length_of_skipSpace comma
    have others_shorter := others.shorter
    have space := length_skipSpace_le rest'
    obtain ⟨fuel, rfl⟩ := exists_step fuel (by omega : left.length + 1 < cs.length) (by omega)
    have first := item.found fuel (by omega)
    have below := others.found fuel (by omega)
    simp [items?, skipItems?, first, comma, below]

theorem ReadsEntries.found : ∀ {depth : Nat} {cs left : List Char} {es : List (String × Json)},
    ReadsEntries depth cs es left → ∀ fuel, 2 * cs.length ≤ fuel + 2 * left.length + 2 →
      entries? fuel depth cs = some (es, left) ∧ skipEntries? fuel cs = some left
  | _, _, _, _, @ReadsEntries.last depth cs after rest left k j key value closed, fuel, enough => by
    obtain ⟨_, _, _, rfl, hskip, hcolon, rfl, hkey⟩ := key?_gives key
    have shorter := value.shorter
    have bracket := length_of_skipSpace closed
    obtain ⟨fuel, rfl⟩ := exists_step fuel (Nat.lt_trans (by omega : left.length + 1 < _) hkey) (by omega)
    have below := value.found fuel (by omega)
    simp [entries?, skipEntries?, key, hskip, hcolon, below, closed]
  | _, _, _, _, @ReadsEntries.more depth cs after rest rest' left k j es key value comma others, fuel, enough => by
    obtain ⟨_, _, _, rfl, hskip, hcolon, rfl, hkey⟩ := key?_gives key
    have shorter := value.shorter
    have sign := length_of_skipSpace comma
    have others_shorter := others.shorter
    have space := length_skipSpace_le rest'
    obtain ⟨fuel, rfl⟩ := exists_step fuel (Nat.lt_trans (by omega : left.length + 1 < _) hkey) (by omega)
    have first := value.found fuel (by omega)
    have below := others.found fuel (by omega)
    simp [entries?, skipEntries?, key, hskip, hcolon, first, comma, below]

end

theorem Reads.value?_eq {depth : Nat} {cs left : List Char} {j : Json} (h : Reads depth cs j left) :
    value? (fuelFor cs) depth cs = some (j, left) := (h.found _ (by simp only [fuelFor]; omega)).1

theorem Reads.skip?_eq {depth : Nat} {cs left : List Char} {j : Json} (h : Reads depth cs j left) :
    skip? (fuelFor cs) cs = some left := (h.found _ (by simp only [fuelFor]; omega)).2

/-- White space starts no value. -/
theorem Reads.skipSpace_eq {depth : Nat} {cs left : List Char} {j : Json} (h : Reads depth cs j left) :
    skipSpace cs = cs := by
  cases h with
  | scalar found =>
    cases cs with
    | nil => rfl
    | cons c cs =>
      have visible : isSpace c = false := by
        refine Bool.eq_false_iff.2 fun space => ?_
        simp only [isSpace, Bool.or_eq_true, beq_iff_eq] at space
        rcases space with ((rfl | rfl) | rfl) | rfl <;>
          simp [scalar?, number?, numberText?, sign, digits] at found
      simp [skipSpace, visible]
  | emptyList | list | emptyRecord | record => simp [skipSpace, isSpace]

theorem ReadsItems.skipSpace_eq {depth : Nat} {cs left : List Char} {js : List Json}
    (h : ReadsItems depth cs js left) : skipSpace cs = cs := by
  cases h with
  | last item => exact item.skipSpace_eq
  | more item => exact item.skipSpace_eq

theorem ReadsEntries.skipSpace_eq {depth : Nat} {cs left : List Char} {es : List (String × Json)}
    (h : ReadsEntries depth cs es left) : skipSpace cs = cs := by
  obtain ⟨rest, rfl⟩ := h.eq_quote
  rfl

end Stylesheet.Json.Reader

namespace Stylesheet.Json

open Reader

/-- A text holds a value if the grammar says so for what is between the white space around it. -/
theorem read?_eq_some_iff {text : String} {j : Json} :
    read? text = some j ↔ ∃ rest, Reads depthLimit (skipSpace text.toList) j rest ∧ skipSpace rest = [] := by
  constructor
  · intro h
    obtain ⟨⟨j, rest⟩, hvalue, h⟩ := Option.bind_eq_some_iff.1 h
    dsimp only at h
    split at h
    · next hrest =>
      cases h
      exact ⟨rest, reads_of_value? hvalue, hrest⟩
    · cases h
  · rintro ⟨rest, h, hrest⟩
    simp [read?, h.value?_eq, hrest]

end Stylesheet.Json
