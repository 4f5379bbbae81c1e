import Stylesheet.Proofs.Constructs
import Stylesheet.Proofs.Edits
import Stylesheet.Proofs.Numerals

/-!
# The other sigil

In a text of one dialect the sigil is replaced by that of the other. Replacing goes through everything that texts are
made with, since nothing that a text is made with looks for a sigil.
-/

namespace Stylesheet

open Text

/-- The second sigil in place of the first one. -/
def resign (c : Char) : Char := if c = Dialect.scss.sigil then Dialect.less.sigil else c

def resigned (s : String) : String := .ofList (s.toList.map resign)

def IsPlain (c : Char) : Prop := c ≠ Dialect.scss.sigil ∧ c ≠ Dialect.less.sigil

instance (c : Char) : Decidable (IsPlain c) := inferInstanceAs (Decidable (_ ∧ _))

def Unsigned (s : String) : Prop := ∀ c ∈ s.toList, IsPlain c

instance (s : String) : Decidable (Unsigned s) := List.decidableBAll IsPlain s.toList

private theorem resign_eq_iff {c d : Char} (h : IsPlain d) : resign c = d ↔ c = d := by
  unfold resign
  split
  · next hc =>
    subst hc
    exact ⟨fun e => absurd e.symm h.2, fun e => absurd e.symm h.1⟩
  · rfl

private theorem beq_resign {c d : Char} (h : IsPlain d) : (resign c == d) = (c == d) := by
  rw [Bool.eq_iff_iff, beq_iff_eq, beq_iff_eq, resign_eq_iff h]

private theorem isBlank_resign (c : Char) : isBlank (resign c) = isBlank c := by
  unfold resign
  split
  · next hc =>
    subst hc
    decide
  · rfl

@[simp] theorem toList_resigned (s : String) : (resigned s).toList = s.toList.map resign := String.toList_ofList

/-- The second sigil stays as it is, so only the first one has to be absent. -/
theorem resigned_of_not_mem {s : String} (h : Dialect.scss.sigil ∉ s.toList) : resigned s = s := by
  have same : ∀ c ∈ s.toList, resign c = c := by
    intro c hc
    apply if_neg
    rintro rfl
    exact h hc
  rw [resigned, List.map_congr_left same, List.map_id', String.ofList_toList]

theorem resigned_of_unsigned {s : String} (h : Unsigned s) : resigned s = s :=
  resigned_of_not_mem fun hs => (h _ hs).1 rfl

@[simp] theorem resigned_append (s t : String) : resigned (s ++ t) = resigned s ++ resigned t := by
  rw [resigned, String.toList_append, List.map_append, String.ofList_append, resigned, resigned]

@[simp] theorem resigned_join (ts : List String) : resigned (String.join ts) = String.join (ts.map resigned) := by
  induction ts with
  | nil => rfl
  | cons t ts ih => rw [String.join_cons, resigned_append, ih, List.map_cons, String.join_cons]

theorem resigned_intercalate {s : String} (h : Unsigned s) (ts : List String) :
    resigned (s.intercalate ts) = s.intercalate (ts.map resigned) := by
  induction ts with
  | nil => rfl
  | cons t ts ih =>
    cases ts with
    | nil => rw [String.intercalate_singleton, List.map_singleton, String.intercalate_singleton]
    | cons u us =>
      rw [String.intercalate_cons_cons, resigned_append, resigned_append, resigned_of_unsigned h, ih]
      simp only [List.map_cons, String.intercalate_cons_cons]

@[simp] theorem resigned_trimStart (s : String) : resigned (trimStart s) = trimStart (resigned s) := by
  have blank : isBlank ∘ resign = isBlank := funext isBlank_resign
  rw [resigned, trimStart, trimStart, toList_resigned, String.toList_ofList, List.dropWhile_map, blank]

@[simp] theorem resigned_removeBlanks (s : String) : resigned (removeBlanks s) = removeBlanks (resigned s) := by
  have solid : (fun c => !isBlank c) ∘ resign = fun c => !isBlank c :=
    funext fun c => congrArg not (isBlank_resign c)
  rw [resigned, removeBlanks, removeBlanks, toList_resigned, String.toList_ofList, List.filter_map, solid]

theorem resigned_dropTrailing {c : Char} (h : IsPlain c) (s : String) :
    resigned (dropTrailing c s) = dropTrailing c (resigned s) := by
  have same : (· == c) ∘ resign = (· == c) := funext fun d => beq_resign h
  rw [resigned, dropTrailing, dropTrailing, toList_resigned, String.toList_ofList, ← List.map_reverse,
    List.dropWhile_map, same, ← List.map_reverse]

private theorem map_resign_erase {c : Char} (h : IsPlain c) (cs : List Char) :
    (cs.erase c).map resign = (cs.map resign).erase c := by
  induction cs with
  | nil => rfl
  | cons d ds ih =>
    rw [List.map_cons, List.erase_cons, List.erase_cons, beq_resign h]
    split
    · rfl
    · rw [List.map_cons, ih]

theorem resigned_eraseFirst {c : Char} (h : IsPlain c) (s : String) :
    resigned (eraseFirst c s) = eraseFirst c (resigned s) := by
  rw [resigned, eraseFirst, eraseFirst, toList_resigned, String.toList_ofList, map_resign_erase h]

theorem startsWith_resigned {c : Char} (h : IsPlain c) (s : String) :
    startsWith c (resigned s) = startsWith c s := by
  rw [startsWith, startsWith, toList_resigned, List.head?_map]
  cases s.toList.head? with
  | none => rfl
  | some d => exact beq_resign h

theorem endsWith_resigned {c : Char} (h : IsPlain c) (s : String) : endsWith c (resigned s) = endsWith c s := by
  rw [endsWith, endsWith, toList_resigned, List.getLast?_map]
  cases s.toList.getLast? with
  | none => rfl
  | some d => exact beq_resign h

@[simp] theorem isEmpty_resigned (s : String) : (resigned s).isEmpty = s.isEmpty := by
  rw [Bool.eq_iff_iff, String.isEmpty_iff, String.isEmpty_iff, ← String.toList_inj, ← String.toList_inj]
  simp

theorem unsigned_repeated (n : Nat) {c : Char} (h : IsPlain c) : Unsigned (repeated n c) := by
  intro d hd
  rw [eq_of_mem_repeated hd]
  exact h

theorem unsigned_append {s t : String} (hs : Unsigned s) (ht : Unsigned t) : Unsigned (s ++ t) := by
  intro c hc
  rw [String.toList_append, List.mem_append] at hc
  rcases hc with hc | hc
  · exact hs c hc
  · exact ht c hc

private theorem splitLines_map_resign (cs : List Char) :
    splitLines (cs.map resign) = (splitLines cs).map (·.map resign) := by
  induction cs with
  | nil => rfl
  | cons c cs ih =>
    have feed : resign c = '\n' ↔ c = '\n' := resign_eq_iff (by decide)
    rw [List.map_cons, splitLines, splitLines, ih]
    by_cases hc : c = '\n'
    · rw [if_pos hc, if_pos (feed.2 hc)]
      rfl
    · rw [if_neg hc, if_neg fun e => hc (feed.1 e)]
      cases splitLines cs <;> rfl

private theorem joinLines_map_resign (ls : List (List Char)) :
    joinLines (ls.map (·.map resign)) = (joinLines ls).map resign := by
  induction ls with
  | nil => rfl
  | cons l ls ih =>
    cases ls with
    | nil => simp [joinLines, List.intercalate]
    | cons m ms =>
      rw [List.map_cons, List.map_cons, joinLines_cons_cons, ← List.map_cons, ih, joinLines_cons_cons, List.map_append]
      rfl

theorem indentLines_map_resign (width : Nat) (cs : List Char) :
    indentLines width (cs.map resign) = (indentLines width cs).map resign := by
  have blank (l : List Char) : (l.map resign).all isBlank = l.all isBlank := by
    simp [List.all_map, Function.comp_def, isBlank_resign]
  have margin : (List.replicate width ' ').map resign = List.replicate width ' ' := List.map_replicate
  rw [indentLines, indentLines, splitLines_map_resign, ← joinLines_map_resign, List.map_map, List.map_map]
  refine congrArg joinLines (List.map_congr_left fun l _ => ?_)
  simp only [Function.comp_apply, blank]
  split
  · rfl
  · rw [List.map_append, margin]

/-- A name without sigils is the one that is looked for, in both dialects. -/
theorem resigned_eq_iff {s name : String} (h : Unsigned name) : resigned s = name ↔ s = name := by
  rw [← String.toList_inj, ← String.toList_inj, toList_resigned]
  generalize s.toList = cs
  have plain : ∀ c ∈ name.toList, IsPlain c := h
  generalize name.toList = ds at plain
  induction cs generalizing ds with
  | nil => rfl
  | cons c cs ih =>
    cases ds with
    | nil => simp
    | cons d ds =>
      obtain ⟨hd, hds⟩ := List.forall_mem_cons.1 plain
      rw [List.map_cons, List.cons_eq_cons, List.cons_eq_cons]
      exact and_congr (resign_eq_iff hd) (ih ds hds)

private theorem bare_of_unsigned {name : String} (h : Unsigned name) : Dialect.bare name = name := by
  unfold Dialect.bare
  cases ha : after? "$" name with
  | none => rfl
  | some rest =>
    have dollar : '$' ∈ name.toList := by
      rw [append_of_after? ha, String.toList_append]
      simp
    exact absurd rfl (h '$' dollar).1

theorem resigned_variableRef {name : String} (h : Unsigned name) :
    resigned (Dialect.scss.variableRef name) = Dialect.less.variableRef name := by
  rw [Dialect.variableRef, Dialect.variableRef, resigned_append, bare_of_unsigned h, resigned_of_unsigned h]
  rfl

namespace Render

theorem resigned_number (x : Float) : resigned (number x) = number x := by
  apply resigned_of_unsigned
  intro c hc
  have numeral := isNumeral_number hc
  constructor
  · rintro rfl
    cases numeral
  · rintro rfl
    cases numeral

theorem resigned_quoted {q : QuotedText} (ht : Unsigned q.text) (hq : Unsigned q.quote) :
    resigned (quoted q) = quoted q := resigned_of_unsigned (unsigned_append (unsigned_append hq ht) hq)

private theorem resigned_separator (inValue : Bool) (n : Node) :
    resigned (separator inValue n) = separator inValue n := by
  unfold separator
  split <;> decide

theorem resigned_joinOperands (inValue : Bool) (operands : List Node) (ts : List String) :
    resigned (joinOperands inValue operands ts) = joinOperands inValue operands (ts.map resigned) := by
  unfold joinOperands
  rw [List.zip_map_right]
  cases operands.zip ts with
  | nil => rfl
  | cons e es => simp [resigned_separator, Function.comp_def]

private theorem unsigned_spelling {operator : String} (h : Unsigned operator) :
    Unsigned (Operator.spelling operator) := by
  unfold Operator.spelling
  split
  · decide
  · decide
  · decide
  · exact h

theorem resigned_binary {operator : String} (h : Unsigned operator) (n : Node) (left right : String) :
    resigned (binary operator n left right) = binary operator n (resigned left) (resigned right) := by
  unfold binary
  cases n.isExpression <;> simp (disch := decide) [resigned_of_not_mem, resigned_of_unsigned (unsigned_spelling h)]

theorem resigned_unary {operator : String} (h : Unsigned operator) (operand : String) :
    resigned (unary operator operand) = unary operator (resigned operand) := by
  simp (disch := decide) [unary, resigned_of_not_mem, resigned_of_unsigned (unsigned_spelling h)]

theorem resigned_negate (negated : Bool) (condition : String) :
    resigned (negate negated condition) = negate negated (resigned condition) := by
  cases negated <;> simp (disch := decide) [negate, resigned_of_not_mem]

theorem resigned_bounds (operator left right : String) :
    resigned (bounds operator left right) = bounds operator (resigned left) (resigned right) := by
  have word : resigned (if operator = "..." then " to " else " through ") =
      if operator = "..." then " to " else " through " := by
    split <;> decide
  simp [bounds, word]

theorem resigned_joinItems {items : List Node} (names : ∀ n ∈ items, ∀ name, n.bareName? = some name → Unsigned name)
    (ts : List String) : resigned (joinItems .scss items ts) = joinItems .less items (ts.map resigned) := by
  unfold joinItems
  rw [resigned_intercalate (by decide), List.map_map, List.zip_map_right, List.map_map]
  refine congrArg _ (List.map_congr_left fun e he => ?_)
  have hn := names e.1 (List.of_mem_zip he).1
  cases hb : e.1.bareName? with
  | none => simp [hb]
  | some name => simp [hb, resigned_variableRef (hn name hb)]

theorem resigned_joinSegments (segments : List Node) (ts : List String) :
    resigned (joinSegments segments ts) = joinSegments segments (ts.map resigned) := by
  unfold joinSegments
  rw [resigned_join, List.map_map, List.zip_map_right, List.map_map]
  refine congrArg _ (List.map_congr_left fun e _ => ?_)
  cases he : e.1.isExpression <;> simp (disch := decide) [he, resigned_of_not_mem]

private theorem resigned_alignSelector (t : String) : resigned (alignSelector t) = alignSelector (resigned t) := by
  unfold alignSelector
  rw [startsWith_resigned (by decide)]
  split
  · rfl
  · exact resigned_trimStart t

theorem resigned_joinSelectors (ts : List String) : resigned (joinSelectors ts) = joinSelectors (ts.map resigned) := by
  have comma : ∀ t, resigned (if startsWith '\n' t then "," else ", ") = if startsWith '\n' t then "," else ", " := by
    intro t
    split <;> decide
  have aligned : (ts.map resigned).map alignSelector = (ts.map alignSelector).map resigned := by
    rw [List.map_map, List.map_map]
    exact List.map_congr_left fun t _ => (resigned_alignSelector t).symm
  unfold joinSelectors
  rw [aligned]
  cases ts.map alignSelector with
  | nil => rfl
  | cons first rest =>
    have starts : ∀ t, startsWith '\n' (resigned t) = startsWith '\n' t := startsWith_resigned (by decide)
    simp [Function.comp_def, comma, starts]

theorem resigned_query {predicate : Option String} (h : ∀ t ∈ predicate, Unsigned t) (medium : String)
    (features : List String) : resigned (query predicate medium features) =
      query predicate (resigned medium) (features.map resigned) := by
  have conditions : resigned (" and ".intercalate (if medium.isEmpty then features else medium :: features)) =
      " and ".intercalate (if (resigned medium).isEmpty then features.map resigned
        else resigned medium :: features.map resigned) := by
    rw [resigned_intercalate (by decide), isEmpty_resigned]
    split <;> simp
  cases predicate with
  | none => exact conditions
  | some p =>
    unfold query
    simp (disch := decide) only [resigned_append, conditions, resigned_of_unsigned (h p rfl), resigned_of_not_mem]

theorem resigned_feature (name : String) (value : Option String) :
    resigned (feature name value) = feature (resigned name) (value.map resigned) := by
  cases value <;> simp (disch := decide) [feature, resigned_of_not_mem]

theorem unsigned_keptText {c : Comment} (h : Unsigned c.text) : Unsigned (keptText c) := by
  unfold keptText
  cases ha : after? "/*" c.text with
  | none => exact h
  | some rest =>
    have hr : Unsigned rest := by
      intro d hd
      apply h d
      rw [append_of_after? ha, String.toList_append]
      exact List.mem_append_right _ hd
    dsimp only
    split
    · exact h
    · exact unsigned_append (by decide) hr

end Render

end Stylesheet
