import Stylesheet.Proofs.Edits

/-!
# Texts that differ in white space

Two texts are the same but for white space if both can be read off one row of pieces: characters that they share,
and gaps with white space of their own. A word that is searched for is found in both or in none, as long as no gap
can stand inside of it; what comes before a gap must therefore not end in a start of the word, and must not come to
do so when white space and semicolons are taken out.
-/

namespace Stylesheet.Text

/-- A character that two texts share, or white space that each of them has of its own. -/
inductive Piece
  | char (c : Char)
  | gap (left right : List Char) (blank : ∀ c ∈ left ++ right, isBlank c)

def Piece.side (second : Bool) : Piece → List Char
  | char c => [c]
  | gap l r _ => if second then r else l

def side (second : Bool) (ps : List Piece) : List Char := ps.flatMap (Piece.side second)

def chars (cs : List Char) : List Piece := cs.map .char

def isSolid (c : Char) : Bool := !isBlank c && c != ';'

def solids (cs : List Char) : List Char := cs.filter isSolid

/-- The characters do not end in a start of the word, the whole word apart. -/
def Complete (word cs : List Char) : Prop := ∀ start rest, word = start ++ rest → start ≠ [] → rest ≠ [] →
  ¬ start <:+ cs

/-- The solid characters do not end in a start of the word, the whole word apart. -/
def Clear (word cs : List Char) : Prop := ∀ start rest, word = start ++ rest → start ≠ [] → rest ≠ [] →
  ¬ start <:+ solids cs

/-- After the text `seen`, no gap comes where it could stand inside of the word. -/
def Settled (word : List Char) : List Char → List Piece → Prop
  | _, [] => True
  | seen, .char c :: ps => Settled word (seen ++ [c]) ps
  | seen, .gap .. :: ps => Clear word seen ∧ Settled word seen ps

/-- After every gap comes a character other than a semicolon. -/
def Firm : List Piece → Prop
  | [] => True
  | .char _ :: ps => Firm ps
  | .gap .. :: ps => (∃ c, .char c ∈ ps ∧ c ≠ ';') ∧ Firm ps

variable {word : List Char}

@[simp] theorem solids_nil : solids [] = [] := rfl

@[simp] theorem solids_append (cs ds : List Char) : solids (cs ++ ds) = solids cs ++ solids ds :=
  List.filter_append ..

theorem solids_of_blank {cs : List Char} (h : ∀ c ∈ cs, isBlank c) : solids cs = [] := by
  rw [solids, List.filter_eq_nil_iff]
  intro c hc
  simp [isSolid, h c hc]

theorem clear_congr {cs ds : List Char} (h : solids cs = solids ds) : Clear word cs ↔ Clear word ds := by
  unfold Clear
  rw [h]

theorem clear_nil : Clear word [] := by
  intro start rest _ hs _ h
  exact hs (List.suffix_nil.1 h)

theorem clear_empty (cs : List Char) : Clear [] cs := by
  intro start rest hw hs
  exact absurd (List.append_eq_nil_iff.1 hw.symm).1 hs

/-- A start of the word at the end of both would begin in the first one or lie in the second. -/
theorem Complete.append {cs ds : List Char} (hc : Complete word cs) (hd : Complete word ds) :
    Complete word (cs ++ ds) := by
  intro start rest hw hs hr ⟨before, h⟩
  rcases List.append_eq_append_iff.1 h with ⟨first, hcs, hstart⟩ | ⟨second, -, hds⟩
  · by_cases hf : first = []
    · rw [hf, List.nil_append] at hstart
      exact hd start rest hw hs hr ⟨[], by rw [hstart, List.nil_append]⟩
    · have hword : word = first ++ (ds ++ rest) := by rw [hw, hstart, List.append_assoc]
      exact hc first _ hword hf (by simp [hr]) ⟨before, hcs.symm⟩
  · exact hd start rest hw hs hr ⟨second, hds.symm⟩

theorem Clear.append {cs ds : List Char} (hc : Clear word cs) (hd : Clear word ds) : Clear word (cs ++ ds) := by
  unfold Clear
  rw [solids_append]
  exact Complete.append hc hd

/-- The last solid character is one that no start of the word ends in. -/
theorem clear_of_last {cs : List Char} {c : Char} (last : (solids cs).getLast? = some c) (hc : c ∉ word.dropLast) :
    Clear word cs := by
  intro start rest hw hs hr ⟨before, h⟩
  have hmem : c ∈ start := by
    rw [← h, List.getLast?_append] at last
    cases hl : start.getLast? with
    | none => exact absurd (List.getLast?_eq_none_iff.1 hl) hs
    | some d =>
      rw [hl, Option.some_or, Option.some.injEq] at last
      exact last ▸ List.mem_of_getLast? hl
  apply hc
  rw [hw, List.dropLast_append_of_ne_nil hr]
  exact List.mem_append_left _ hmem

/-- Every start of the word has its first character. -/
theorem clear_of_not_mem {cs tail : List Char} {c : Char} (hw : word = c :: tail) (hc : c ∉ cs) :
    Clear word cs := by
  intro start rest hword hs hr ⟨before, h⟩
  cases start with
  | nil => exact hs rfl
  | cons d start =>
    rw [hw, List.cons_append, List.cons.injEq] at hword
    have hmem : d ∈ solids cs := by simp [← h]
    exact hc (hword.1 ▸ (List.mem_filter.1 hmem).1)

private theorem clear_iff (word cs : List Char) :
    Clear word cs ↔ ∀ n ∈ List.range word.length, n ≠ 0 → ¬ word.take n <:+ solids cs := by
  constructor
  · intro h n hn hz
    have hlt : n < word.length := List.mem_range.1 hn
    refine h (word.take n) (word.drop n) (List.take_append_drop n word).symm ?_ ?_
    · intro he
      rcases List.take_eq_nil_iff.1 he with he | he
      · exact hz he
      · simp [he] at hlt
    · intro he
      have := List.drop_eq_nil_iff.1 he
      omega
  · intro h start rest hw hs hr hsuffix
    have hpos : 0 < rest.length := List.length_pos_iff.2 hr
    have hlt : start.length < word.length := by
      rw [hw, List.length_append]
      omega
    refine h start.length (List.mem_range.2 hlt) (by simpa using hs) ?_
    rwa [hw, List.take_left]

instance (word cs : List Char) : Decidable (Clear word cs) := decidable_of_iff' _ (clear_iff word cs)

variable (second : Bool)

@[simp] theorem side_nil : side second [] = [] := rfl

@[simp] theorem side_append (ps qs : List Piece) : side second (ps ++ qs) = side second ps ++ side second qs :=
  List.flatMap_append

@[simp] theorem side_char (c : Char) (ps : List Piece) : side second (.char c :: ps) = c :: side second ps := rfl

@[simp] theorem side_gap (l r : List Char) (h) (ps : List Piece) :
    side second (.gap l r h :: ps) = (Piece.gap l r h).side second ++ side second ps := rfl

@[simp] theorem side_chars (cs : List Char) : side second (chars cs) = cs := by
  induction cs with
  | nil => rfl
  | cons c cs ih => exact congrArg (c :: ·) ih

private theorem blank_of_mem_gap {l r : List Char} {h} {c : Char} (hc : c ∈ (Piece.gap l r h).side second) :
    isBlank c := by
  cases second with
  | false => exact h c (List.mem_append_left _ hc)
  | true => exact h c (List.mem_append_right _ hc)

/-- Outside of its gaps both texts of a row are the same. -/
theorem filter_side {P : Char → Bool} (h : ∀ c, isBlank c → P c = false) (ps : List Piece) :
    (side second ps).filter P = (side false ps).filter P := by
  have blank : ∀ b l r g, ((Piece.gap l r g).side b).filter P = [] := by
    intro b l r g
    rw [List.filter_eq_nil_iff]
    intro c hc
    simp [h c (blank_of_mem_gap b hc)]
  induction ps with
  | nil => rfl
  | cons p ps ih =>
    cases p with
    | char c => rw [side_char, side_char, List.filter_cons, List.filter_cons, ih]
    | gap l r hb => rw [side_gap, side_gap, List.filter_append, List.filter_append, ih, blank, blank]

private theorem settled_congr {seen seen' : List Char} (h : solids seen = solids seen') (ps : List Piece) :
    Settled word seen ps ↔ Settled word seen' ps := by
  induction ps generalizing seen seen' with
  | nil => exact Iff.rfl
  | cons p ps ih =>
    cases p with
    | char c => exact ih (by simp [h])
    | gap l r hb => exact and_congr (clear_congr h) (ih h)

theorem settled_append (seen : List Char) (ps qs : List Piece) :
    Settled word seen (ps ++ qs) ↔ Settled word seen ps ∧ Settled word (seen ++ side false ps) qs := by
  induction ps generalizing seen with
  | nil => simp [Settled]
  | cons p ps ih =>
    cases p with
    | char c =>
      rw [List.cons_append, Settled, Settled, ih, side_char, List.append_assoc, List.singleton_append]
    | gap l r hb =>
      have hl : solids ((Piece.gap l r hb).side false) = [] := solids_of_blank fun c => blank_of_mem_gap false
      rw [List.cons_append, Settled, Settled, ih, and_assoc, side_gap]
      refine and_congr_right fun _ => and_congr_right fun _ => settled_congr ?_ qs
      simp [hl]

theorem settled_chars (seen cs : List Char) : Settled word seen (chars cs) := by
  induction cs generalizing seen with
  | nil => trivial
  | cons c cs ih => exact ih _

theorem settled_empty (seen : List Char) (ps : List Piece) : Settled [] seen ps := by
  induction ps generalizing seen with
  | nil => trivial
  | cons p ps ih =>
    cases p with
    | char c => exact ih _
    | gap l r hb => exact ⟨clear_empty seen, ih seen⟩

/-- A row may stand behind any clear text. -/
theorem Settled.behind {seen before : List Char} {ps : List Piece} (hb : Clear word before)
    (h : Settled word seen ps) : Settled word (before ++ seen) ps := by
  induction ps generalizing seen with
  | nil => trivial
  | cons p ps ih =>
    cases p with
    | char c =>
      rw [Settled, List.append_assoc]
      exact ih h
    | gap l r hg => exact ⟨hb.append h.1, ih h.2⟩

theorem firm_append {ps qs : List Piece} (hp : Firm ps) (hq : Firm qs) : Firm (ps ++ qs) := by
  induction ps with
  | nil => exact hq
  | cons p ps ih =>
    cases p with
    | char c => exact ih hp
    | gap l r hb =>
      obtain ⟨⟨c, hc, hne⟩, hps⟩ := hp
      exact ⟨⟨c, List.mem_append_left _ hc, hne⟩, ih hps⟩

theorem firm_append_of_char {ps qs : List Piece} {c : Char} (hq : Firm qs) (hc : .char c ∈ qs) (hne : c ≠ ';') :
    Firm (ps ++ qs) := by
  induction ps with
  | nil => exact hq
  | cons p ps ih =>
    cases p with
    | char c => exact ih
    | gap l r hb => exact ⟨⟨c, List.mem_append_right _ hc, hne⟩, ih⟩

theorem firm_chars (cs : List Char) : Firm (chars cs) := by
  induction cs with
  | nil => trivial
  | cons c cs ih => exact ih

/-- A piece that is trimmed at the start of a row. -/
def Piece.isSpace : Piece → Bool
  | .char c => isBlank c
  | .gap .. => true

/-- The row of two texts that are trimmed at the start. -/
def trimmed (ps : List Piece) : List Piece := ps.dropWhile Piece.isSpace

theorem side_trimmed (ps : List Piece) : side second (trimmed ps) = (side second ps).dropWhile isBlank := by
  induction ps with
  | nil => rfl
  | cons p ps ih =>
    cases p with
    | char c =>
      rw [side_char, trimmed, List.dropWhile_cons, List.dropWhile_cons, Piece.isSpace]
      split
      · exact ih
      · rfl
    | gap l r hb =>
      rw [side_gap, List.dropWhile_append_of_pos fun c => blank_of_mem_gap second, ← ih]
      rfl

theorem settled_trimmed {seen : List Char} {ps : List Piece} (h : Settled word seen ps) :
    Settled word seen (trimmed ps) := by
  induction ps generalizing seen with
  | nil => trivial
  | cons p ps ih =>
    rw [trimmed, List.dropWhile_cons]
    split
    · next hp =>
      cases p with
      | char c =>
        have hb : isBlank c := hp
        have hc : solids (seen ++ [c]) = solids seen := by simp [solids, isSolid, hb]
        exact ih ((settled_congr hc ps).1 h)
      | gap l r hb => exact ih h.2
    · exact h

theorem firm_trimmed {ps : List Piece} (h : Firm ps) : Firm (trimmed ps) := by
  induction ps with
  | nil => trivial
  | cons p ps ih =>
    rw [trimmed, List.dropWhile_cons]
    split
    · cases p with
      | char c => exact ih h
      | gap l r hb => exact ih h.2
    · exact h

/-- A firm row is all semicolons, or ends in a number of them behind another character. -/
theorem Firm.cases {ps : List Piece} (h : Firm ps) : (∃ n, ps = chars (List.replicate n ';')) ∨
    ∃ init d n, d ≠ ';' ∧ Firm (init ++ [.char d]) ∧ ps = init ++ .char d :: chars (List.replicate n ';') := by
  have only : ∀ {n c}, Piece.char c ∈ chars (List.replicate n ';') → c = ';' := by
    intro n c hc
    obtain ⟨d, hd, he⟩ := List.mem_map.1 hc
    cases he
    exact (List.mem_replicate.1 hd).2
  induction ps with
  | nil => exact .inl ⟨0, rfl⟩
  | cons p ps ih =>
    cases p with
    | char c =>
      rcases ih h with ⟨n, rfl⟩ | ⟨init, d, n, hd, hf, rfl⟩
      · by_cases hc : c = ';'
        · exact .inl ⟨n + 1, by rw [hc]; rfl⟩
        · exact .inr ⟨[], c, n, hc, trivial, rfl⟩
      · exact .inr ⟨.char c :: init, d, n, hd, hf, rfl⟩
    | gap l r hb =>
      obtain ⟨⟨c, hc, hne⟩, hps⟩ := h
      rcases ih hps with ⟨n, rfl⟩ | ⟨init, d, n, hd, hf, rfl⟩
      · exact absurd (only hc) hne
      · exact .inr ⟨.gap l r hb :: init, d, n, hd, ⟨⟨d, by simp, hd⟩, hf⟩, rfl⟩

/-- Both texts of a firm row end in the same character, if in any. -/
theorem getLast?_side {ps : List Piece} (h : Firm ps) :
    (side second ps).getLast? = (side false ps).getLast? := by
  rcases h.cases with ⟨n, rfl⟩ | ⟨init, d, n, -, -, rfl⟩
  · rw [side_chars, side_chars]
  · simp [List.getLast?_append, List.getLast?_cons]

theorem exists_shortened {ps : List Piece} (h : Firm ps) (hs : Settled word [] ps) : ∃ qs, Firm qs ∧
    Settled word [] qs ∧ ∀ b, side b qs = ((side b ps).reverse.dropWhile (· == ';')).reverse := by
  rcases h.cases with ⟨n, rfl⟩ | ⟨init, d, n, hd, hf, rfl⟩
  · refine ⟨[], trivial, trivial, fun b => ?_⟩
    have all : (List.replicate n ';').dropWhile (· == ';') = [] := by simp
    rw [side_chars, List.reverse_replicate, all]
    rfl
  · refine ⟨init ++ [.char d], hf, ?_, fun b => ?_⟩
    · rw [settled_append] at hs ⊢
      exact ⟨hs.1, trivial⟩
    · rw [side_append, side_append, side_char, side_char, side_nil, side_chars, List.reverse_append,
        List.reverse_cons, List.reverse_replicate, List.append_assoc, List.dropWhile_append_of_pos (by simp)]
      simp [hd]

/-- The row of two texts that lose their first semicolon. -/
def erased : List Piece → List Piece
  | [] => []
  | .char c :: ps => if c = ';' then ps else .char c :: erased ps
  | .gap l r h :: ps => .gap l r h :: erased ps

theorem side_erased (ps : List Piece) : side second (erased ps) = (side second ps).erase ';' := by
  induction ps with
  | nil => rfl
  | cons p ps ih =>
    cases p with
    | char c =>
      by_cases hc : c = ';'
      · simp [erased, hc]
      · simp [erased, hc, ih]
    | gap l r hb =>
      have hn : ';' ∉ (Piece.gap l r hb).side second := fun hm => absurd (blank_of_mem_gap second hm) (by decide)
      rw [erased, side_gap, side_gap, List.erase_append_right _ hn, ih]

theorem settled_erased {seen : List Char} {ps : List Piece} (h : Settled word seen ps) :
    Settled word seen (erased ps) := by
  induction ps generalizing seen with
  | nil => trivial
  | cons p ps ih =>
    cases p with
    | char c =>
      by_cases hc : c = ';'
      · rw [erased, if_pos hc]
        have hsolid : solids (seen ++ [c]) = solids seen := by simp [solids, isSolid, hc]
        exact (settled_congr hsolid ps).1 h
      · rw [erased, if_neg hc]
        exact ih h
    | gap l r hb => exact ⟨h.1, ih h.2⟩

theorem occursIn_iff (needle cs : List Char) : occursIn needle cs ↔ needle <:+: cs := by
  induction cs with
  | nil => simp [occursIn]
  | cons c cs ih =>
    rw [occursIn, Bool.or_eq_true, ih, List.infix_cons_iff, List.isPrefixOf_iff_prefix]

/-- The two texts read so far agree on the word: it is in both or in none, and they end in the same starts of it. -/
structure Agree (word xs ys : List Char) : Prop where
  same : solids xs = solids ys
  found : word <:+: xs ↔ word <:+: ys
  starts : ∀ start rest, word = start ++ rest → rest ≠ [] → (start <:+ xs ↔ start <:+ ys)

/-- A start of a word of solid characters at the end of a clear text is empty. -/
theorem eq_nil_of_suffix {xs : List Char} (solid : ∀ c ∈ word, isSolid c) (h : Clear word xs)
    {start rest : List Char} (hw : word = start ++ rest) (hr : rest ≠ []) (hs : start <:+ xs) : start = [] := by
  have hstart : solids start = start := by
    rw [solids, List.filter_eq_self]
    exact fun c hc => solid c (hw ▸ List.mem_append_left _ hc)
  by_cases hne : start = []
  · exact hne
  · exact absurd (hstart ▸ List.IsSuffix.filter _ hs) (h start rest hw hne hr)

private theorem infix_append_blank {xs ws : List Char} (hne : word ≠ []) (solid : ∀ c ∈ word, isSolid c)
    (hb : ∀ c ∈ ws, isBlank c) : word <:+: xs ++ ws ↔ word <:+: xs := by
  induction ws generalizing xs with
  | nil => simp
  | cons c ws ih =>
    have hc : isSolid c = false := by simp [isSolid, hb c (by simp)]
    rw [← List.singleton_append, ← List.append_assoc, ih fun d hd => hb d (by simp [hd]), List.infix_concat_iff,
      List.suffix_concat_iff]
    refine or_iff_right ?_
    rintro (h | ⟨t, ht, -⟩)
    · exact hne h
    · rw [solid c (by simp [ht])] at hc
      cases hc

private theorem Agree.snoc {xs ys : List Char} (h : Agree word xs ys) (c : Char) :
    Agree word (xs ++ [c]) (ys ++ [c]) where
  same := by simp [h.same]
  found := by
    rw [List.infix_concat_iff, List.infix_concat_iff, h.found, List.suffix_concat_iff, List.suffix_concat_iff]
    refine or_congr (or_congr_right ?_) Iff.rfl
    refine exists_congr fun t => and_congr_right fun ht => ?_
    exact h.starts t [c] ht (by simp)
  starts := by
    intro start rest hw hr
    rw [List.suffix_concat_iff, List.suffix_concat_iff]
    refine or_congr_right (exists_congr fun t => and_congr_right fun ht => ?_)
    exact h.starts t ([c] ++ rest) (by rw [hw, ht, List.append_assoc]) (by simp)

theorem Agree.gap {xs ys ws zs : List Char} (hne : word ≠ []) (solid : ∀ c ∈ word, isSolid c)
    (h : Agree word xs ys) (clear : Clear word xs) (hw : ∀ c ∈ ws, isBlank c) (hz : ∀ c ∈ zs, isBlank c) :
    Agree word (xs ++ ws) (ys ++ zs) where
  same := by simp [h.same, solids_of_blank hw, solids_of_blank hz]
  found := by rw [infix_append_blank hne solid hw, infix_append_blank hne solid hz, h.found]
  starts := by
    have cleared : ∀ {vs us : List Char}, solids vs = solids xs → (∀ c ∈ us, isBlank c) →
        Clear word (vs ++ us) := by
      intro vs us hv hu
      exact (clear_congr (by rw [solids_append, solids_of_blank hu, List.append_nil, hv])).2 clear
    intro start rest hword hr
    constructor
    · intro hs
      rw [eq_nil_of_suffix solid (cleared rfl hw) hword hr hs]
      exact List.nil_suffix
    · intro hs
      rw [eq_nil_of_suffix solid (cleared h.same.symm hz) hword hr hs]
      exact List.nil_suffix

/-- In a settled row a word of solid characters is found in both texts or in none. -/
theorem infix_side {seen xs ys : List Char} {ps : List Piece} (hne : word ≠ []) (solid : ∀ c ∈ word, isSolid c)
    (h : Settled word seen ps) (hx : solids xs = solids seen) (agree : Agree word xs ys) :
    word <:+: xs ++ side false ps ↔ word <:+: ys ++ side true ps := by
  induction ps generalizing seen xs ys with
  | nil => simpa using agree.found
  | cons p ps ih =>
    cases p with
    | char c =>
      rw [side_char, side_char, List.append_cons xs, List.append_cons ys]
      exact ih h (by simp [hx]) (agree.snoc c)
    | gap l r hb =>
      have clear : Clear word xs := (clear_congr hx).2 h.1
      rw [side_gap, side_gap, ← List.append_assoc, ← List.append_assoc]
      refine ih h.2 ?_ (agree.gap hne solid clear (fun c => blank_of_mem_gap false) fun c => blank_of_mem_gap true)
      rw [solids_append, solids_of_blank fun c => blank_of_mem_gap false, List.append_nil, hx]

end Stylesheet.Text
