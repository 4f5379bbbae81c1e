import Stylesheet.Proofs.Closed
import Stylesheet.Proofs.Lines.Texts

/-!
# How often the keyword stands in a text

Texts in a row have the keyword as often as each of them does, if none of them ends in the middle of it. What is
written for a value has to stay without the keyword under all edits of values, so it is read there without white
space and semicolons.
-/

namespace Stylesheet

namespace Text

def occurrences (word : List Char) : List Char → Nat
  | [] => 0
  | c :: cs => (if word <+: c :: cs then 1 else 0) + occurrences word cs

variable {word cs ds : List Char}

private theorem Complete.of_suffix (h : Complete word cs) (hs : ds <:+ cs) : Complete word ds :=
  fun start rest hw hne hr hsuffix => h start rest hw hne hr (hsuffix.trans hs)

private theorem Complete.of_clear (solid : ∀ c ∈ word, isSolid c) (h : Clear word cs) : Complete word cs :=
  fun _ _ hw hne hr hsuffix => hne (eq_nil_of_suffix solid h hw hr hsuffix)

private theorem Complete.prefix_iff {c : Char} (h : Complete word (c :: cs)) :
    word <+: c :: cs ++ ds ↔ word <+: c :: cs := by
  constructor
  · intro hp
    rcases List.prefix_or_prefix_of_prefix hp (List.prefix_append _ _) with inside | ⟨rest, hrest⟩
    · exact inside
    · by_cases hr : rest = []
      · have whole : word = c :: cs := by rw [← hrest, hr, List.append_nil]
        exact whole ▸ List.prefix_refl word
      · exact absurd (List.suffix_refl _) (h _ rest hrest.symm (by simp) hr)
  · intro hp
    exact hp.trans (List.prefix_append _ _)

theorem occurrences_append (h : Complete word cs) :
    occurrences word (cs ++ ds) = occurrences word cs + occurrences word ds := by
  induction cs with
  | nil => rw [List.nil_append, occurrences, Nat.zero_add]
  | cons c cs ih =>
    have tail := ih (h.of_suffix (List.suffix_cons c cs))
    have front : word <+: c :: cs ++ ds ↔ word <+: c :: cs := h.prefix_iff
    rw [List.cons_append] at front ⊢
    simp only [occurrences, front, tail]
    omega

theorem occurrences_eq_zero_iff (hne : word ≠ []) : occurrences word cs = 0 ↔ ¬word <:+: cs := by
  induction cs with
  | nil => simp [occurrences, hne]
  | cons c cs ih =>
    rw [occurrences, Nat.add_eq_zero_iff, ih, List.infix_cons_iff, not_or]
    by_cases hp : word <+: c :: cs <;> simp [hp]

private theorem occurrences_of_not_mem {c : Char} (hc : c ∈ word) (h : c ∉ cs) : occurrences word cs = 0 := by
  rw [occurrences_eq_zero_iff (List.ne_nil_of_mem hc)]
  intro hi
  exact h (hi.subset hc)

end Text

open Text

abbrev HasReturn (s : String) : Prop := contains "@return" s

/-- The keyword stands `k` times in the text, which does not end in the middle of it. -/
structure Marked (k : Nat) (s : String) : Prop where
  complete : Complete returnKeyword s.toList
  count : occurrences returnKeyword s.toList = k

/-- Even without white space and semicolons the text neither holds the keyword nor ends in the middle of it. -/
structure Silent (s : String) : Prop where
  clear : Clear returnKeyword s.toList
  absent : occurrences returnKeyword (solids s.toList) = 0

variable {s t u : String} {j k : Nat}

private theorem returnKeyword_eq : returnKeyword = '@' :: "return".toList := rfl

private theorem isSolid_of_mem_returnKeyword : ∀ c ∈ returnKeyword, isSolid c := List.all_eq_true.1 (by decide)

theorem hasReturn_iff : HasReturn s ↔ occurrences returnKeyword s.toList ≠ 0 := by
  rw [Ne, occurrences_eq_zero_iff (by decide), not_not]
  exact occursIn_iff returnKeyword s.toList

theorem Marked.hasReturn_iff (h : Marked k s) : HasReturn s ↔ k ≠ 0 := by
  rw [Stylesheet.hasReturn_iff, h.count]

theorem Marked.append (hs : Marked j s) (ht : Marked k t) : Marked (j + k) (s ++ t) where
  complete := by
    rw [String.toList_append]
    exact hs.complete.append ht.complete
  count := by rw [String.toList_append, occurrences_append hs.complete, hs.count, ht.count]

theorem Silent.append (hs : Silent s) (ht : Silent t) : Silent (s ++ t) where
  clear := by
    rw [String.toList_append]
    exact hs.clear.append ht.clear
  absent := by
    have inside : Complete returnKeyword (solids s.toList) := hs.clear
    rw [String.toList_append, solids_append, occurrences_append inside, hs.absent, ht.absent]

theorem Silent.marked (h : Silent s) : Marked 0 s where
  complete := .of_clear isSolid_of_mem_returnKeyword h.clear
  count := by
    have hne : returnKeyword ≠ [] := by decide
    rw [occurrences_eq_zero_iff hne]
    intro hi
    have solid : solids returnKeyword = returnKeyword := List.filter_eq_self.2 isSolid_of_mem_returnKeyword
    have found : returnKeyword <:+: solids s.toList := solid ▸ hi.filter isSolid
    exact (occurrences_eq_zero_iff hne).1 h.absent found

/-- Every start of the keyword has the at-sign. -/
theorem silent_of_plain (h : '@' ∉ s.toList) : Silent s where
  clear := clear_of_not_mem rfl h
  absent := occurrences_of_not_mem (c := '@') (by decide) fun hm => h (List.mem_filter.1 hm).1

instance (s : String) : Decidable (Silent s) :=
  decidable_of_iff (Clear returnKeyword s.toList ∧ occurrences returnKeyword (solids s.toList) = 0)
    ⟨fun ⟨hc, ha⟩ => ⟨hc, ha⟩, fun ⟨hc, ha⟩ => ⟨hc, ha⟩⟩

private theorem silent_congr (h : solids s.toList = solids t.toList) (ht : Silent t) : Silent s where
  clear := (clear_congr h).2 ht.clear
  absent := by rw [h, ht.absent]

theorem Silent.trimStart (h : Silent s) : Silent (trimStart s) := silent_congr (solids_trimStart s) h

theorem Silent.dropTrailing (h : Silent s) : Silent (dropTrailing ';' s) :=
  silent_congr (filter_dropTrailing (by decide) s) h

theorem Silent.eraseFirst (h : Silent s) : Silent (eraseFirst ';' s) :=
  silent_congr (filter_eraseFirst (by decide) s) h

theorem Silent.removeBlanks (h : Silent s) : Silent (removeBlanks s) :=
  silent_congr (filter_removeBlanks (fun c hc => by simp [isSolid, hc]) s) h

private theorem plain_of_blank (h : Blank s) : '@' ∉ s.toList := by
  intro hm
  have blank : isBlank '@' := h '@' hm
  revert blank
  decide

theorem silent_of_blank (h : Blank s) : Silent s := silent_of_plain (plain_of_blank h)

/-- White space at the start has no part in the keyword. -/
theorem Marked.trimStart (h : Marked k s) : Marked k (trimStart s) := by
  have margin : Marked 0 (margin s) := (silent_of_blank (blank_margin s)).marked
  rw [← margin_append_trimStart s] at h
  have count := h.count
  rw [String.toList_append, occurrences_append margin.complete, margin.count, Nat.zero_add] at count
  refine ⟨?_, count⟩
  apply h.complete.of_suffix
  rw [String.toList_append]
  exact List.suffix_append _ _

/-- A character that the keyword does not have ends a text outside of it. -/
theorem complete_of_last {cs : List Char} {c : Char} (hc : c ∉ returnKeyword) :
    Complete returnKeyword (cs ++ [c]) := by
  intro start rest hw hne _ ⟨before, hs⟩
  have last : (before ++ start).getLast? = some c := by rw [hs, List.getLast?_concat]
  rw [List.getLast?_append_of_ne_nil _ hne] at last
  apply hc
  rw [hw]
  exact List.mem_append_left _ (List.mem_of_getLast? last)

/-- Of the semicolons at the end one is enough. -/
theorem Marked.terminated (h : Marked k s) : Marked k (Text.dropTrailing ';' s ++ ";") := by
  obtain ⟨n, split⟩ := dropTrailing_append ';' s
  have plain (m : Nat) : occurrences returnKeyword (List.replicate m ';') = 0 := by
    have absent : '@' ∉ List.replicate m ';' := fun hm => absurd (List.eq_of_mem_replicate hm) (by decide)
    exact occurrences_of_not_mem (by decide) absent
  have ended : Complete returnKeyword ((Text.dropTrailing ';' s).toList ++ [';']) := complete_of_last (by decide)
  have written : (Text.dropTrailing ';' s ++ ";").toList = (Text.dropTrailing ';' s).toList ++ [';'] :=
    String.toList_append
  have count := h.count
  refine ⟨by rwa [written], ?_⟩
  rw [written, ← count]
  cases n with
  | zero =>
    have complete := h.complete
    have one : occurrences returnKeyword [';'] = 0 := plain 1
    rw [split, List.replicate_zero, List.append_nil] at complete ⊢
    rw [occurrences_append complete, one, Nat.add_zero]
  | succ n =>
    rw [split, List.replicate_succ, List.append_cons _ _ (List.replicate n ';'), occurrences_append ended, plain n,
      Nat.add_zero]

theorem silent_rowwise : Rowwise Silent := ⟨by decide, Silent.append⟩

theorem silent_join {ts : List String} (h : ∀ t ∈ ts, Silent t) : Silent (String.join ts) := silent_rowwise.join h

theorem silent_intercalate (hs : Silent s) {ts : List String} (h : ∀ t ∈ ts, Silent t) :
    Silent (s.intercalate ts) :=
  silent_rowwise.intercalate hs h

/-- White space and semicolons aside, the name is no start of `return` and does not start with it. -/
def Differs (name : String) : Prop :=
  ¬solids name.toList <+: "return".toList ∧ ¬"return".toList <+: solids name.toList

instance (name : String) : Decidable (Differs name) := inferInstanceAs (Decidable (_ ∧ _))

theorem silent_at {name : String} (plain : '@' ∉ name.toList) (h : Differs name) : Silent ("@" ++ name) := by
  have start : startsReturn name = false := by
    have other : (solids name.toList).isPrefixOf "return".toList = false :=
      Bool.eq_false_iff.2 fun hp => h.1 (List.isPrefixOf_iff_prefix.1 hp)
    rw [startsReturn, other, Bool.false_and]
  have solid : solids ("@" ++ name).toList = '@' :: solids name.toList := by
    simp [solids, isSolid, isBlank, blanks]
  refine ⟨clear_at plain start, ?_⟩
  rw [solid, occurrences_eq_zero_iff (by decide), List.infix_cons_iff, not_or]
  constructor
  · intro hp
    rw [returnKeyword_eq, List.cons_prefix_cons] at hp
    exact h.2 hp.2
  · intro hi
    have at_sign : '@' ∈ solids name.toList := hi.subset (by decide)
    exact plain (List.mem_filter.1 at_sign).1

/-- A name of any other rule, if a text comes behind it that starts with no character of the keyword. -/
theorem marked_behind {name : String} {c : Char} {cs : List Char} (plain : '@' ∉ name.toList)
    (other : ¬"return".toList <+: name.toList) (ht : t.toList = c :: cs) (hc : c ∉ returnKeyword)
    (h : Marked k t) : Marked k ("@" ++ name ++ t) := by
  have split : ("@" ++ name ++ t).toList = '@' :: name.toList ++ [c] ++ cs := by simp [ht]
  have sign : '@' ∉ [c] := by
    intro hm
    rw [← List.mem_singleton.1 hm] at hc
    exact hc (by decide)
  have front : Complete returnKeyword ('@' :: name.toList ++ [c]) := complete_of_last hc
  have absent : occurrences returnKeyword ('@' :: name.toList ++ [c]) = 0 := by
    rw [occurrences_eq_zero_iff (by decide), List.cons_append, List.infix_cons_iff, not_or]
    constructor
    · intro hp
      rw [returnKeyword_eq, List.cons_prefix_cons] at hp
      rcases List.prefix_concat_iff.1 hp.2 with whole | inside
      · apply hc
        rw [returnKeyword_eq, whole]
        simp
      · exact other inside
    · intro hi
      have at_sign : '@' ∈ name.toList ++ [c] := hi.subset (by decide)
      exact (List.mem_append.1 at_sign).elim plain sign
  have rest : Complete returnKeyword cs := h.complete.of_suffix (ht ▸ List.suffix_cons c cs)
  have single : Complete returnKeyword ([] ++ [c]) := complete_of_last hc
  rw [List.nil_append] at single
  have count := h.count
  rw [ht, ← List.singleton_append, occurrences_append single, occurrences_of_not_mem (by decide) sign] at count
  refine ⟨?_, ?_⟩
  · rw [split]
    exact front.append rest
  · rw [split, occurrences_append front, absent, ← count]

namespace Dialect

variable (d : Dialect) {name : String}

/-- The dialect writes the name behind another sign, or the name differs from the keyword. -/
def Avoids (d : Dialect) (name : String) : Prop := d = .less → Differs (bare name)

instance (d : Dialect) (name : String) : Decidable (d.Avoids name) := inferInstanceAs (Decidable (_ → _))

theorem silent_variableRef (plain : '@' ∉ name.toList) (h : d.Avoids name) : Silent (d.variableRef name) := by
  cases d with
  | scss =>
    apply silent_of_plain
    simpa [variableRef, sigil] using plain_bare plain
  | less => exact silent_at (plain_bare plain) (h rfl)

theorem silent_interpolation (plain : '@' ∉ name.toList) : Silent (d.interpolation name) := by
  have inner : Silent (bare name) := silent_of_plain (plain_bare plain)
  have closing : Silent "\x7d" := by decide
  cases d with
  | scss =>
    have opening : Silent "#\x7b$" := by decide
    exact (opening.append inner).append closing
  | less =>
    have opening : Silent "@\x7b" := by decide
    exact (opening.append inner).append closing

theorem silent_content : Silent d.content := by cases d <;> decide

theorem silent_inclusion : Silent d.inclusion := by cases d <;> decide

theorem marked_returnWord : Marked 1 d.returnWord := by
  have clear : Clear returnKeyword "@return ".toList := by decide
  cases d <;> exact ⟨.of_clear isSolid_of_mem_returnKeyword clear, by decide⟩

end Dialect

/-- From a pass that returns lists the text has the keyword `k` times, and from any other it is silent. -/
structure Shows (returns : Bool) (k : Nat) (s : String) : Prop where
  marked : returns → Marked k s
  silent : returns = false → Silent s

variable {returns : Bool}

theorem Silent.shows (h : Silent s) : Shows returns 0 s := ⟨fun _ => h.marked, fun _ => h⟩

theorem Shows.append (hs : Shows returns j s) (ht : Shows returns k t) : Shows returns (j + k) (s ++ t) :=
  ⟨fun h => (hs.marked h).append (ht.marked h), fun h => (hs.silent h).append (ht.silent h)⟩

theorem Shows.then_silent (hs : Shows returns k s) (ht : Silent t) : Shows returns k (s ++ t) := hs.append ht.shows

theorem Silent.then_shows (hs : Silent s) (ht : Shows returns k t) : Shows returns k (s ++ t) := by
  have both : Shows returns (0 + k) (s ++ t) := hs.shows.append ht
  rwa [Nat.zero_add] at both

theorem Shows.trimStart (h : Shows returns k s) : Shows returns k (Text.trimStart s) :=
  ⟨fun hr => (h.marked hr).trimStart, fun hr => (h.silent hr).trimStart⟩

/-- What comes behind a clear end and has no at-sign has no part in the keyword. -/
theorem Shows.of_append (clear : Clear returnKeyword s.toList) (plain : '@' ∉ t.toList)
    (h : Shows returns k (s ++ t)) : Shows returns k s where
  marked hr := by
    have complete := Complete.of_clear isSolid_of_mem_returnKeyword clear
    have count := (h.marked hr).count
    rw [String.toList_append, occurrences_append complete, occurrences_of_not_mem (by decide) plain] at count
    exact ⟨complete, count⟩
  silent hr := by
    have inside : Complete returnKeyword (solids s.toList) := clear
    have absent := (h.silent hr).absent
    rw [String.toList_append, solids_append, occurrences_append inside] at absent
    exact ⟨clear, (Nat.add_eq_zero_iff.1 absent).1⟩

/-- What the text has from any pass. -/
theorem Shows.all (h : Shows returns k s) : Marked (if returns then k else 0) s := by
  cases returns with
  | true => exact h.marked rfl
  | false => exact (h.silent rfl).marked

theorem Shows.hasReturn_iff (h : Shows returns k s) : HasReturn s ↔ returns ∧ k ≠ 0 := by
  rw [h.all.hasReturn_iff]
  cases returns <;> simp

end Stylesheet
