import Stylesheet.Proofs.Constructs
import Stylesheet.Proofs.Lines.Lockstep
import Stylesheet.Proofs.Lines.Unlined
import Stylesheet.Proofs.Numerals

/-!
# Texts of trees that differ in lines

The texts that constructs are put together from are twins if the texts of their parts are. Names that could begin the
keyword behind an at-sign have to be ruled out, unless what comes after them is fixed.
-/

namespace Stylesheet

open Text

/-- White space and semicolons aside, a start of `return` that is not the whole word. -/
def startsReturn (name : String) : Bool :=
  (solids name.toList).isPrefixOf "return".toList && solids name.toList != "return".toList

/-- The dialect does not spell the name with an at-sign, or the keyword does not begin there. -/
def Dialect.Spells (d : Dialect) (name : String) : Prop := d = .less → startsReturn (Dialect.bare name) = false

variable {κ : Scene} {s t u v : String} {ss ts : List String}

theorem twin_of_plain (h : '@' ∉ s.toList) : Twin κ s s := twin_refl (clear_of_not_mem rfl h)

theorem clear_at {name : String} (h : '@' ∉ name.toList) (hs : startsReturn name = false) :
    Clear returnKeyword ("@" ++ name).toList := by
  have plain : '@' ∉ solids name.toList := fun hm => h (List.mem_filter.1 hm).1
  have hsolids : solids ("@" ++ name).toList = '@' :: solids name.toList := by simp [solids, isSolid, isBlank, blanks]
  intro start rest hw hne hr hsuffix
  rw [hsolids, List.suffix_cons_iff] at hsuffix
  have hcons : ∃ tail, start = '@' :: tail ∧ "return".toList = tail ++ rest := by
    cases start with
    | nil => exact absurd rfl hne
    | cons c tail =>
      have hword : '@' :: "return".toList = c :: (tail ++ rest) := hw
      rw [List.cons.injEq] at hword
      exact ⟨tail, by rw [hword.1], hword.2⟩
  obtain ⟨tail, rfl, hreturn⟩ := hcons
  rcases hsuffix with heq | hsuffix
  · rw [List.cons.injEq] at heq
    have hprefix : (solids name.toList).isPrefixOf "return".toList := by
      rw [← heq.2, hreturn, List.isPrefixOf_iff_prefix]
      exact List.prefix_append tail rest
    have hproper : solids name.toList ≠ "return".toList := by
      rw [← heq.2, hreturn]
      intro he
      exact hr (List.append_right_eq_self.1 he.symm)
    rw [startsReturn, hprefix, Bool.true_and, bne_eq_false_iff_eq] at hs
    exact hproper hs
  · exact plain (hsuffix.subset List.mem_cons_self)

/-- Any text before one that ends in a character that the keyword does not end a start with. -/
theorem clear_append {c : Char} (last : (solids t.toList).getLast? = some c) (hc : c ∉ returnKeyword.dropLast) :
    Clear returnKeyword (s ++ t).toList := by
  refine clear_of_last (c := c) ?_ hc
  rw [String.toList_append, solids_append, List.getLast?_append, last, Option.some_or]

namespace Dialect

variable (d : Dialect) {name : String}

theorem plain_bare (h : '@' ∉ name.toList) : '@' ∉ (bare name).toList := by
  unfold bare
  cases ha : after? "$" name with
  | none => exact h
  | some rest =>
    rw [append_of_after? ha, String.toList_append, List.mem_append, not_or] at h
    exact h.2

private theorem clear_variableRef (h : '@' ∉ name.toList) (hs : d.Spells name) :
    Clear returnKeyword (d.variableRef name).toList := by
  cases d with
  | scss =>
    have plain : '@' ∉ (variableRef .scss name).toList := by simpa [variableRef, sigil] using plain_bare h
    exact clear_of_not_mem rfl plain
  | less => exact clear_at (plain_bare h) (hs rfl)

theorem twin_variableRef (h : '@' ∉ name.toList) (hs : κ.search = .everywhere → d.Spells name) :
    Twin κ (d.variableRef name) (d.variableRef name) :=
  twin_refl_of_searched fun hk => d.clear_variableRef h (hs hk)

theorem twin_interpolation (name : String) : Twin κ (d.interpolation name) (d.interpolation name) := by
  have closed : Clear returnKeyword (d.interpolation name).toList := clear_append (c := '\x7d') rfl (by decide)
  exact twin_refl closed

theorem twin_returnWord : Twin κ d.returnWord d.returnWord := by cases d <;> exact twin_refl (by decide)

theorem twin_inclusion : Twin κ d.inclusion d.inclusion := by cases d <;> exact twin_refl (by decide)

theorem twin_content : Twin κ d.content d.content := by cases d <;> exact twin_refl (by decide)

end Dialect

/-- Twins behind white space. -/
def Led (κ : Scene) (s t : String) : Prop := Twin κ (trimStart s) (trimStart t)

/-- What a node reads as in two runs. Only selectors come behind white space, and in one of them the interpolation
is found in both readings or there is nothing in it that could differ. -/
structure Reads (κ : Scene) (n : Node) (t t' : String) : Prop where
  led : Led κ t t'
  twin : n.isSelector = false → Twin κ t t'
  literal : ∀ text line, n = .literal text line → t = text ∧ t' = text
  step : n.isSelector → trimStart t = trimStart t' ∨
    "#\x7b".toList <:+: (trimStart t).toList ∧ "#\x7b".toList <:+: (trimStart t').toList

inductive AllRead (κ : Scene) : List Node → List String → List String → Prop
  | nil : AllRead κ [] [] []
  | cons {n : Node} {ns : List Node} {t t' : String} {ts ts' : List String} (head : Reads κ n t t')
    (tail : AllRead κ ns ts ts') : AllRead κ (n :: ns) (t :: ts) (t' :: ts')

theorem Reads.of_twin {n : Node} (hs : n.isSelector = false) (hl : n.isLiteral = false) (h : Twin κ s t) :
    Reads κ n s t where
  led := h.trimStart
  twin _ := h
  literal text line hn := by
    rw [hn] at hl
    cases hl
  step hn := by
    rw [hs] at hn
    cases hn

theorem AllRead.twins {ns : List Node} (h : AllRead κ ns ss ts) (hs : ∀ n ∈ ns, n.isSelector = false) :
    Twins κ ss ts := by
  induction h with
  | nil => exact .nil
  | cons head _ ih =>
    obtain ⟨hn, hns⟩ := List.forall_mem_cons.1 hs
    exact .cons (head.twin hn) (ih hns)

theorem AllRead.led {ns : List Node} (h : AllRead κ ns ss ts) : List.Forall₂ (Led κ) ss ts := by
  induction h with
  | nil => exact .nil
  | cons head _ ih => exact .cons head.led ih

namespace Render

theorem joinSegments_cons (n : Node) (ns : List Node) (t : String) (ts : List String) :
    joinSegments (n :: ns) (t :: ts) =
      (if n.isExpression then "#\x7b" ++ t ++ "\x7d" else t) ++ joinSegments ns ts := by
  simp only [joinSegments, List.zip_cons_cons, List.map_cons, String.join_cons]

theorem twin_joinSegments {segments : List Node} (h : Twins κ ss ts) :
    Twin κ (joinSegments segments ss) (joinSegments (segments.map Node.unlined) ts) := by
  induction h generalizing segments with
  | nil =>
    cases segments <;> exact tight_empty
  | cons hst hrest ih =>
    cases segments with
    | nil => exact tight_empty
    | cons n segments =>
      rw [List.map_cons, joinSegments_cons, joinSegments_cons, Node.isExpression_unlined]
      refine Tight.append ?_ ih
      split
      · exact ((twin_refl (by decide)).append hst).append (twin_refl (by decide))
      · exact hst

/-- Names of literals and interpolated lists are the same, unless something is interpolated. -/
theorem joinSegments_same_or_interpolated {segments : List Node} (h : AllRead κ segments ss ts)
    (hs : ∀ n ∈ segments, n.isLiteral || n.isExpression) :
    joinSegments segments ss = joinSegments (segments.map Node.unlined) ts ∨
      "#\x7b".toList <:+: (joinSegments segments ss).toList ∧
        "#\x7b".toList <:+: (joinSegments (segments.map Node.unlined) ts).toList := by
  have first : ∀ t u : String, "#\x7b".toList <:+: ("#\x7b" ++ t ++ "\x7d" ++ u).toList := by
    intro t u
    simp only [String.append_assoc, String.toList_append]
    exact (List.prefix_append _ _).isInfix
  induction h with
  | nil => exact .inl rfl
  | @cons n ns t t' ts ts' head _ ih =>
    obtain ⟨hn, hns⟩ := List.forall_mem_cons.1 hs
    rw [List.map_cons, joinSegments_cons, joinSegments_cons, Node.isExpression_unlined]
    by_cases he : n.isExpression
    · rw [if_pos he, if_pos he]
      exact .inr ⟨first _ _, first _ _⟩
    · rw [if_neg he, if_neg he]
      cases n with
      | literal text line =>
        obtain ⟨rfl, rfl⟩ := head.literal text line rfl
        rw [String.toList_append, String.toList_append]
        rcases ih hns with h | ⟨h, h'⟩
        · exact .inl (by rw [h])
        · exact .inr ⟨h.trans (List.suffix_append _ _).isInfix, h'.trans (List.suffix_append _ _).isInfix⟩
      | _ => simp [Node.isLiteral, he] at hn

theorem nameAlike_joinSegments {segments : List Node} (h : AllRead κ segments ss ts)
    (hs : ∀ n ∈ segments, n.isLiteral || n.isExpression) :
    NameAlike (joinSegments segments ss) (joinSegments (segments.map Node.unlined) ts) := by
  rcases joinSegments_same_or_interpolated h hs with h | ⟨h, h'⟩
  · exact .inl h
  · exact .inr ⟨h.subset (by decide), h'.subset (by decide)⟩

/-- Trimming takes no part of what is found in a text, if that does not start with white space. -/
theorem infix_trimStart {c : Char} {word : List Char} (hc : isBlank c = false) (h : c :: word <:+: s.toList) :
    c :: word <:+: (trimStart s).toList := by
  rw [trimStart, String.toList_ofList]
  generalize s.toList = cs at h
  induction cs with
  | nil => exact absurd (List.infix_nil.1 h) (by simp)
  | cons d cs ih =>
    by_cases hd : isBlank d
    · rw [List.dropWhile_cons_of_pos hd]
      rcases List.infix_cons_iff.1 h with h | h
      · obtain ⟨rest, hrest⟩ := h
        rw [List.cons_append, List.cons.injEq] at hrest
        rw [hrest.1, hd] at hc
        cases hc
      · exact ih h
    · rwa [List.dropWhile_cons_of_neg hd]

theorem trimStart_append (h : Blank s) : trimStart (s ++ t) = trimStart t := by
  rw [trimStart, String.toList_append, List.dropWhile_append_of_pos h]
  rfl

private theorem alignSelector_eq (t : String) : ∃ gap, Blank gap ∧ alignSelector t = gap ++ trimStart t := by
  unfold alignSelector
  split
  · exact ⟨margin t, blank_margin t, (margin_append_trimStart t).symm⟩
  · exact ⟨"", by simp [Blank], by rw [String.empty_append]⟩

private theorem comma_alignSelector_eq (t : String) : ∃ gap, Blank gap ∧
    (if startsWith '\n' (alignSelector t) then "," else ", ") ++ alignSelector t = "," ++ gap ++ trimStart t := by
  obtain ⟨gap, hb, he⟩ := alignSelector_eq t
  rw [he]
  split
  · exact ⟨gap, hb, by simp only [String.append_assoc]⟩
  · refine ⟨" " ++ gap, blank_space.append hb, ?_⟩
    rw [show (", " : String) = "," ++ " " from rfl]
    simp only [String.append_assoc]

def moreSelectors (ts : List String) : String := String.join <| (ts.map alignSelector).map fun t =>
  (if startsWith '\n' t then "," else ", ") ++ t

theorem joinSelectors_cons (t : String) (ts : List String) :
    joinSelectors (t :: ts) = alignSelector t ++ moreSelectors ts := rfl

theorem moreSelectors_cons (t : String) (ts : List String) : moreSelectors (t :: ts) =
    (if startsWith '\n' (alignSelector t) then "," else ", ") ++ alignSelector t ++ moreSelectors ts := by
  simp only [moreSelectors, List.map_cons, String.join_cons]

private theorem loose_moreSelectors (h : List.Forall₂ (Led κ) ss ts) :
    Loose κ.word (moreSelectors ss) (moreSelectors ts) := by
  induction h with
  | nil => exact tight_empty.loose
  | @cons s t ss ts hst _ ih =>
    obtain ⟨gap, hb, hs⟩ := comma_alignSelector_eq s
    obtain ⟨gap', hb', ht⟩ := comma_alignSelector_eq t
    rw [moreSelectors_cons, moreSelectors_cons, hs, ht]
    have comma : Twin κ "," "," := twin_refl (by decide)
    exact ((comma.loose.append (loose_gap hb hb')).append hst.loose).append ih

private theorem loose_joinSelectors (h : List.Forall₂ (Led κ) ss ts) :
    Loose κ.word (joinSelectors ss) (joinSelectors ts) := by
  cases h with
  | nil => exact tight_empty.loose
  | @cons s t _ _ hst hrest =>
    obtain ⟨gap, hb, hs⟩ := alignSelector_eq s
    obtain ⟨gap', hb', ht⟩ := alignSelector_eq t
    rw [joinSelectors_cons, joinSelectors_cons, hs, ht]
    exact ((loose_gap hb hb').append hst.loose).append (loose_moreSelectors hrest)

private theorem spaced_moreSelectors {word : List Char} (hc : ',' ∉ word.dropLast) (u : String)
    (h : List.Forall₂ (fun s t => trimStart s = trimStart t) ss ts) :
    Spaced word (u ++ moreSelectors ss) (u ++ moreSelectors ts) := by
  induction h generalizing u with
  | nil => exact .refl _
  | @cons s t ss ts hst _ ih =>
    obtain ⟨gap, hb, hs⟩ := comma_alignSelector_eq s
    obtain ⟨gap', hb', ht⟩ := comma_alignSelector_eq t
    have clear : Clear word (u ++ ",").toList := by
      refine clear_of_last (c := ',') ?_ hc
      simp [solids, isSolid, isBlank, blanks]
    have before := (tight_refl clear).loose.append (loose_gap hb hb')
    have both := before.spaced_append (ih (trimStart s))
    rw [moreSelectors_cons, moreSelectors_cons, hs, ht, ← hst]
    simpa only [String.append_assoc] using both

private theorem spaced_joinSelectors {word : List Char} (hc : ',' ∉ word.dropLast)
    (h : List.Forall₂ (fun s t => trimStart s = trimStart t) ss ts) :
    Spaced word (joinSelectors ss) (joinSelectors ts) := by
  cases h with
  | nil => exact .refl _
  | @cons s t _ _ hst hrest =>
    obtain ⟨gap, hb, hs⟩ := alignSelector_eq s
    obtain ⟨gap', hb', ht⟩ := alignSelector_eq t
    have both := (loose_gap hb hb').spaced_append (spaced_moreSelectors hc (trimStart s) hrest)
    rw [joinSelectors_cons, joinSelectors_cons, hs, ht, ← hst]
    simpa only [String.append_assoc] using both

private theorem infix_joinSelectors {word : List Char} (hm : t ∈ ts) (h : word <:+: (trimStart t).toList) :
    word <:+: (joinSelectors ts).toList := by
  have more : ∀ {ts : List String}, t ∈ ts → word <:+: (moreSelectors ts).toList := by
    intro ts hm
    induction ts with
    | nil => exact absurd hm List.not_mem_nil
    | cons u ts ih =>
      obtain ⟨gap, -, hu⟩ := comma_alignSelector_eq u
      rw [moreSelectors_cons, hu]
      rcases List.mem_cons.1 hm with rfl | hm
      · simp only [String.toList_append]
        exact (h.trans (List.suffix_append _ _).isInfix).trans (List.prefix_append _ _).isInfix
      · rw [String.toList_append]
        exact (ih hm).trans (List.suffix_append _ _).isInfix
  cases ts with
  | nil => exact absurd hm List.not_mem_nil
  | cons u ts =>
    obtain ⟨gap, -, hu⟩ := alignSelector_eq u
    rw [joinSelectors_cons, String.toList_append]
    rcases List.mem_cons.1 hm with rfl | hm
    · rw [hu, String.toList_append]
      exact (h.trans (List.suffix_append _ _).isInfix).trans (List.prefix_append _ _).isInfix
    · exact (more hm).trans (List.suffix_append _ _).isInfix

private theorem same_or_interpolated {ns : List Node} (h : AllRead κ ns ss ts) (hs : ∀ n ∈ ns, n.isSelector) :
    List.Forall₂ (fun s t => trimStart s = trimStart t) ss ts ∨
      "#\x7b".toList <:+: (joinSelectors ss).toList ∧ "#\x7b".toList <:+: (joinSelectors ts).toList := by
  have found : List.Forall₂ (fun s t => trimStart s = trimStart t) ss ts ∨
      (∃ s ∈ ss, "#\x7b".toList <:+: (trimStart s).toList) ∧ ∃ t ∈ ts, "#\x7b".toList <:+: (trimStart t).toList := by
    induction h with
    | nil => exact .inl .nil
    | @cons n ns t t' ts ts' head _ ih =>
      obtain ⟨hn, hns⟩ := List.forall_mem_cons.1 hs
      rcases head.step hn with he | ⟨h, h'⟩
      · rcases ih hns with hrest | ⟨⟨s, hs, hi⟩, s', hs', hi'⟩
        · exact .inl (.cons he hrest)
        · exact .inr ⟨⟨s, List.mem_cons_of_mem _ hs, hi⟩, s', List.mem_cons_of_mem _ hs', hi'⟩
      · exact .inr ⟨⟨t, List.mem_cons_self, h⟩, t', List.mem_cons_self, h'⟩
  rcases found with h | ⟨⟨s, hs, hi⟩, t, ht, hi'⟩
  · exact .inl h
  · exact .inr ⟨infix_joinSelectors hs hi, infix_joinSelectors ht hi'⟩

private theorem isComputedStep_joinSelectors {ns : List Node} (h : AllRead κ ns ss ts) (hs : ∀ n ∈ ns, n.isSelector) :
    isComputedStep (joinSelectors ss) = isComputedStep (joinSelectors ts) := by
  have any_eq : (joinSelectors ss).toList.any ['-', '*', '+', '/', '$'].contains =
      (joinSelectors ts).toList.any ['-', '*', '+', '/', '$'].contains := by
    refine (loose_joinSelectors h.led).spaced.any fun c hc => ?_
    rw [Bool.eq_false_iff]
    intro hm
    have none : ['-', '*', '+', '/', '$'].all fun c => !isBlank c := by decide
    have solid : isBlank c = false := by simpa using List.all_eq_true.1 none c (by simpa using hm)
    rw [solid] at hc
    cases hc
  have contains_eq : contains "#\x7b" (joinSelectors ss) = contains "#\x7b" (joinSelectors ts) := by
    rcases same_or_interpolated h hs with h | ⟨h, h'⟩
    · have spaced : Spaced "#\x7b".toList (joinSelectors ss) (joinSelectors ts) := spaced_joinSelectors (by decide) h
      exact spaced.contains (by decide) (by decide)
    · rw [Bool.eq_iff_iff, contains, contains, occursIn_iff, occursIn_iff]
      exact iff_of_true h h'
  rw [isComputedStep, isComputedStep, any_eq, contains_eq]

theorem loose_ruleHead {p p' : Pass} (hp : p.Alike κ p') {ns : List Node} (h : AllRead κ ns ss ts)
    (hs : κ.steps → ∀ n ∈ ns, n.isSelector) : Loose κ.word (ruleHead p ss) (ruleHead p' ts) := by
  have wrapped : Loose κ.word ("#\x7b" ++ joinSelectors ss ++ "\x7d") ("#\x7b" ++ joinSelectors ts ++ "\x7d") := by
    have opening : Twin κ "#\x7b" "#\x7b" := twin_refl (by decide)
    have closing : Twin κ "\x7d" "\x7d" := twin_refl (by decide)
    exact (opening.loose.append (loose_joinSelectors h.led)).append closing.loose
  have plain := loose_joinSelectors h.led
  unfold ruleHead
  rw [← hp.inAny]
  by_cases hk : p.inAny [.keyframes]
  · rw [isComputedStep_joinSelectors h (hs (hp.keyframes hk))]
    split
    · exact wrapped
    · exact plain
  · simp only [hk, Bool.false_and, Bool.false_eq_true, if_false]
    exact plain

end Render

end Stylesheet
