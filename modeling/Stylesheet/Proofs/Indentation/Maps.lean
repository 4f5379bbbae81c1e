import Stylesheet.Proofs.Frame
import Stylesheet.Proofs.Indentation.Texts

/-!
# Maps over several lines

An assigned map takes a line for each entry. A semicolon is taken out of an entry and all semicolons at the end of an
assigned value are, so no line of a map may start with one.
-/

namespace Stylesheet

open Text Rendering

/-- What a line of a map may start with. -/
def startsEntry (c : Char) : Bool := c != ';'

namespace Cursor

variable {k l : Cursor} {s : String} {cs : List Char}

private theorem step_semicolon (h : k.step startsEntry ';' = some l) : l = k := by
  obtain ⟨n, margin⟩ := k
  cases margin with
  | none =>
    cases h
    rfl
  | some spaces => simp [step, startsEntry] at h

private theorem read_erase (h : k.read startsEntry cs = some l) : k.read startsEntry (cs.erase ';') = some l := by
  induction cs generalizing k with
  | nil => exact h
  | cons c cs ih =>
    obtain ⟨m, hm, hcs⟩ := Option.bind_eq_some_iff.1 h
    by_cases hc : c = ';'
    · subst hc
      rw [List.erase_cons_head, ← step_semicolon hm]
      exact hcs
    · rw [List.erase_cons_tail (by simpa using hc), read, hm]
      exact ih hcs

private theorem reads_eraseFirst (h : k.Reads startsEntry s l) : k.Reads startsEntry (eraseFirst ';' s) l := by
  rw [Reads, eraseFirst, String.toList_ofList]
  exact read_erase h

private theorem read_semicolons {count : Nat} (h : k.read startsEntry (List.replicate count ';') = some l) : l = k := by
  induction count generalizing k with
  | zero =>
    cases h
    rfl
  | succ count ih =>
    obtain ⟨m, hm, hcs⟩ := Option.bind_eq_some_iff.1 h
    rw [ih hcs, step_semicolon hm]

theorem reads_dropTrailing (h : k.Reads startsEntry s l) : k.Reads startsEntry (dropTrailing ';' s) l := by
  obtain ⟨n, split⟩ := dropTrailing_append ';' s
  rw [Reads, split, read_append] at h
  obtain ⟨m, hm, hend⟩ := Option.bind_eq_some_iff.1 h
  rw [read_semicolons hend]
  exact hm

private theorem step_lax {allowed : Char → Bool} {c : Char} (h : k.step allowed c = some l) :
    k.step anyStart c = some l := by
  unfold step at h ⊢
  split
  · next hc => rwa [if_pos hc] at h
  · next hc =>
    rw [if_neg hc] at h
    cases hm : k.margin with
    | none => rwa [hm] at h
    | some spaces =>
      rw [hm] at h
      dsimp only at h ⊢
      split
      · next hs => rwa [if_pos hs] at h
      · next hs =>
        rw [if_neg hs] at h
        split at h
        · next right =>
          simp only [Bool.and_eq_true] at right
          rwa [if_pos (by simp [right, anyStart])]
        · cases h

theorem reads_lax {allowed : Char → Bool} (h : k.Reads allowed s l) : k.Reads anyStart s l := by
  unfold Reads at h ⊢
  generalize s.toList = cs at h
  induction cs generalizing k with
  | nil => exact h
  | cons c cs ih =>
    obtain ⟨m, hm, hcs⟩ := Option.bind_eq_some_iff.1 h
    rw [read, step_lax hm]
    exact ih hcs

end Cursor

namespace Pass

/-- At a depth, with nothing returned, no call being rendered and all values of declarations on one line. -/
structure At (n : Nat) (p : Pass) : Prop where
  depth : p.depth = n
  returning : p.returning = false
  calling : p.inAny [.call] = false
  values : p.registry.Holds Inline

namespace At

variable {n : Nat} {p q : Pass}

theorem still (h : p.At n) : p.Still Inline := ⟨h.returning, h.values⟩

theorem beside (h : p.At n) (hq : p.Beside q) (values : q.registry.Holds Inline) : q.At n :=
  ⟨hq.depth.trans h.depth, hq.returning h.returning, (hq.inAny _).trans h.calling, values⟩

theorem enter (h : p.At n) {places : List Place} (other : Place.call ∉ places) : (p.enter places).At n := by
  refine ⟨h.depth, h.returning, ?_, h.values⟩
  have outside : Place.call ∉ p.places := by simpa [inAny] using h.calling
  simp [inAny, Pass.enter, other, outside]

theorem down (h : p.At n) : p.down.At (n + 1) := ⟨congrArg (· + 1) h.depth, h.returning, h.calling, h.values⟩

theorem reach (h : p.At n) (line : Option Nat) : (p.reach line).At n :=
  h.beside (p.beside_reach line) (by simpa using h.values)

theorem learn (h : p.At n) {change : Registry → Registry} (kept : (change p.registry).Holds Inline) :
    (p.learn change).At n := h.beside (p.beside_learn change) kept

theorem knowVariable (h : p.At n) (name : String) : (p.learn (·.addVariable name)).At n := h.learn h.values.addVariable

theorem declare (h : p.At n) (name : String) : (p.learn (·.openDeclaration name)).At n :=
  h.learn h.values.openDeclaration

theorem leave (h : q.At n) (hp : p.At n) : (q.leave p).At n := ⟨h.depth, h.returning, hp.calling, h.values⟩

theorem returnsList (h : p.At n) : p.returnsList = false := h.still.returnsList

theorem inAddress (h : p.At n) : p.inAddress = false := by rw [Pass.inAddress, h.calling, Bool.false_and]

end At

end Pass

namespace Rendering

variable {α β : Type} {σ : Style} {n : Nat} {m : Rendering α} {f : α → Rendering β} {Q : α → Prop} {R : β → Prop}

/-- At a depth the rendering gives something with a property, and stays at the depth. -/
def WritesAt (σ : Style) (n : Nat) (m : Rendering α) (Q : α → Prop) : Prop :=
  ∀ ⦃p a q⦄, p.At n → m.Gives σ p a q → Q a ∧ q.At n

theorem WritesAt.bind (hm : m.WritesAt σ n Q) (hf : ∀ a, Q a → (f a).WritesAt σ n R) : (m >>= f).WritesAt σ n R := by
  intro p b r hp h
  obtain ⟨a, q, ha, hb⟩ := gives_bind.1 h
  obtain ⟨hQ, hq⟩ := hm hp ha
  exact hf a hQ hq hb

theorem writesAt_pure {a : α} (h : Q a) : (pure a : Rendering α).WritesAt σ n Q := by
  intro p b q hp hb
  obtain ⟨rfl, rfl⟩ := gives_pure.1 hb
  exact ⟨h, hp⟩

theorem WritesAt.mono {R : α → Prop} (h : m.WritesAt σ n Q) (weaker : ∀ a, Q a → R a) : m.WritesAt σ n R :=
  fun _ _ _ hp hg => ⟨weaker _ (h hp hg).1, (h hp hg).2⟩

private theorem Rests.writesAt (h : m.Rests σ Inline Q) : m.WritesAt σ n Q := by
  intro p a q hp hg
  obtain ⟨hQ, rfl⟩ := h hp.still hg
  exact ⟨hQ, hp⟩

end Rendering

/-- Within a line of a map the text ends at the level it starts at. -/
def ReadsEntry (n : Nat) (t : String) : Prop := (Cursor.inLine n).Reads startsEntry t (Cursor.inLine n)

namespace ReadsEntry

variable {n : Nat} {s t : String} {ts : List String}

theorem inline (h : Inline t) : ReadsEntry n t := Cursor.reads_inline h

theorem intercalate (hs : ReadsEntry n s) (h : ∀ t ∈ ts, ReadsEntry n t) : ReadsEntry n (s.intercalate ts) :=
  reads_rowwise.intercalate hs h

theorem joinOperands (inValue : Bool) (operands : List Node) (h : ∀ t ∈ ts, ReadsEntry n t) :
    ReadsEntry n (Render.joinOperands inValue operands ts) := by
  have comma : Inline ", " := closed_inline.inert (by decide)
  have blank : Inline " " := closed_inline.inert (by decide)
  exact reads_rowwise.joinOperands (inline comma) (inline blank) inValue operands h

end ReadsEntry

/-- White space, braces, parentheses and semicolons are no quotes for the keys of maps. -/
structure IsKeyQuote (quote : Char) : Prop where
  blank : isBlank quote = false
  opens : opensLevel quote = false
  closes : closesLevel quote = false
  semicolon : quote ≠ ';'

theorem IsKeyQuote.inline {quote : Char} (h : IsKeyQuote quote) : Inline quote.toString := by
  have one : quote.toString.toList = [quote] := by simp
  have feed : quote ≠ '\n' := by
    rintro rfl
    cases h.blank
  constructor
  · show quote.toString.toList.count '\n' = 0
    rw [one]
    simp [feed]
  · intro n
    rw [one]
    simp [levelAfter, levelStep, h.opens, h.closes]

private theorem readsEntry_entryLine {quote : Char} (hq : IsKeyQuote quote) {p : Pass} {n : Nat} (depth : p.depth = n)
    {key value : String} (hk : Inline key) (hv : ReadsEntry n value) :
    ReadsEntry n ("\n" ++ p.indent ++ quote.toString ++ key ++ quote.toString ++ ": " ++ eraseFirst ';' value) := by
  have head : Inline (quote.toString ++ key ++ quote.toString ++ ": ") :=
    closed_inline.append (closed_inline.append (closed_inline.append hq.inline hk) hq.inline)
      (closed_inline.inert (by decide))
  have starts : Starts startsEntry (quote.toString ++ key ++ quote.toString ++ ": ") := by
    refine (((?_ : Starts startsEntry quote.toString).append key).append _).append _
    exact ⟨quote, by simp, hq.blank, hq.closes, by simpa [startsEntry] using hq.semicolon⟩
  have line : (Cursor.inLine n).Reads startsEntry ("\n" ++ p.indent) (Cursor.indented n) :=
    Cursor.reads_newline.append (reads_indent_of_depth depth)
  have whole := (line.append (Core.inline head starts).indented).append (Cursor.reads_eraseFirst hv)
  simpa only [ReadsEntry, String.append_assoc] using whole

private theorem readsEntry_map {lines : List String} {p : Pass} {n : Nat} (depth : p.depth = n)
    (h : ∀ t ∈ lines, ReadsEntry (n + 1) t) :
    ReadsEntry n ("(" ++ ",".intercalate lines ++ "\n" ++ p.indent ++ ")") := by
  have opening : (Cursor.inLine n).Reads startsEntry "(" (Cursor.inLine (n + 1)) := rfl
  have comma : ReadsEntry (n + 1) "," := .inline (closed_inline.inert (by decide))
  have spaces : (Cursor.fresh (n + 1)).Reads startsEntry p.indent ⟨n + 1, some (2 * n)⟩ :=
    depth ▸ Cursor.reads_indent_fresh p
  have last : (Cursor.inLine (n + 1)).Reads startsEntry ("\n" ++ p.indent ++ ")") (Cursor.inLine n) :=
    (Cursor.reads_newline.append spaces).append (Cursor.reads_closing (c := ')') rfl rfl)
  have whole := (opening.append (comma.intercalate h)).append last
  simpa only [ReadsEntry, String.append_assoc] using whole

def Inert (s : String) : Prop := s.toList.all isInert

instance (s : String) : Decidable (Inert s) := inferInstanceAs (Decidable (_ = true))

theorem Inert.inline {s : String} (h : Inert s) : Inline s := closed_inline.inert h

mutual

def Node.IsAssigned : Node → Prop
  | .expression e => AreAssigned e.operands
  | .mapLiteral entries _ => AreEntries entries
  | n => n.Every (Node.Values Inert)
termination_by structural n => n

def AreAssigned : List Node → Prop
  | [] => True
  | n :: ns => n.IsAssigned ∧ AreAssigned ns
termination_by structural ns => ns

def AreEntries : List (String × Node) → Prop
  | [] => True
  | (key, n) :: es => Inert key ∧ n.IsAssigned ∧ AreEntries es
termination_by structural es => es

end

theorem EveryIn.inline {ns : List Node} (h : EveryIn (Node.Values Inert) ns) : EveryIn (Node.Values Inline) ns :=
  fun n hn => (h n hn).mono fun _ hm => ⟨hm.kind, fun t ht => (hm.texts t ht).inline⟩

namespace Render

variable {σ : Style}

theorem node_rests_inert (n : Node) (h : n.Every (Node.Values Inert)) : (node n).Rests σ Inline Inline :=
  node_rests closed_inline n (h.mono fun _ hm => ⟨hm.kind, fun t ht => (hm.texts t ht).inline⟩)

private theorem expression_writesAt {n : Nat} {e : Expression Node} {texts : Rendering (List String)}
    (h : texts.WritesAt σ n fun ts => ∀ t ∈ ts, ReadsEntry n t) :
    (expression e texts).WritesAt σ n (ReadsEntry n) := by
  intro p t q hp hg
  obtain ⟨ts, r, hts, rfl, rfl⟩ := expression_gives_operands hp.returnsList hg
  obtain ⟨all, hr⟩ := h (hp.enter (by decide)) hts
  have hq := hr.leave hp
  rw [hq.inAddress]
  exact ⟨.joinOperands _ _ all, hq⟩

private theorem mapLiteral_writesAt (quote : IsKeyQuote σ.quote) {n : Nat} {line : Option Nat}
    {entries : Rendering (List (String × String))}
    (h : entries.WritesAt σ (n + 1) fun es => ∀ e ∈ es, Inline e.1 ∧ ReadsEntry (n + 1) e.2) :
    (mapLiteral line entries).WritesAt σ n (ReadsEntry n) := by
  intro p t q hp hg
  obtain ⟨es, r, hes, rfl, rfl⟩ := mapLiteral_gives hg
  obtain ⟨all, hr⟩ := h (hp.down.enter (by decide)) hes
  have hup : (r.leave p.down).up.At n := ⟨congrArg (· - 1) hr.depth, hr.returning, hp.calling, hr.values⟩
  constructor
  · refine readsEntry_map hup.depth fun t ht => ?_
    obtain ⟨e, he, rfl⟩ := List.mem_map.1 ht
    exact readsEntry_entryLine quote hp.down.depth (all e he).1 (all e he).2
  · unfold afterMap
    cases line with
    | none => exact hup
    | some line => exact hup.beside (Pass.beside_skipTo _ _) hup.values

mutual

theorem node_writesAt (quote : IsKeyQuote σ.quote) {d : Nat} (n : Node) (h : n.IsAssigned) :
    (node n).WritesAt σ d (ReadsEntry d) := by
  match n with
  | .expression e => exact expression_writesAt (each_writesAt quote e.operands h)
  | .mapLiteral es _ => exact mapLiteral_writesAt quote (entries_writesAt quote es h)
  | .null | .literal .. | .number .. | .quoted _ | .boolean _ | .color _ | .identifier _ | .binary .. | .unary ..
  | .queryList _ | .query .. | .feature .. | .arguments _ | .block _ | .selector .. | .ruleSet .. | .property ..
  | .call .. | .callable .. | .returned .. | .conditional .. | .loop .. | .keyframes .. | .media .. | .supports ..
  | .xmlNamespace .. | .charset .. | .importSheet .. | .extend .. | .atRule .. | .comment _ | .member .. =>
    exact (node_rests_inert _ h).writesAt.mono fun _ => ReadsEntry.inline
termination_by structural n

theorem each_writesAt (quote : IsKeyQuote σ.quote) {d : Nat} (ns : List Node) (h : AreAssigned ns) :
    (each ns).WritesAt σ d fun ts => ∀ t ∈ ts, ReadsEntry d t := by
  match ns with
  | [] => exact writesAt_pure (by simp)
  | n :: ns =>
    exact (node_writesAt quote n h.1).bind fun t ht => (each_writesAt quote ns h.2).bind fun ts hts =>
      writesAt_pure (List.forall_mem_cons.2 ⟨ht, hts⟩)
termination_by structural ns

private theorem entries_writesAt (quote : IsKeyQuote σ.quote) {d : Nat} (es : List (String × Node))
    (h : AreEntries es) :
    (entries es).WritesAt σ d fun es => ∀ e ∈ es, Inline e.1 ∧ ReadsEntry d e.2 := by
  match es with
  | [] => exact writesAt_pure (by simp)
  | (key, n) :: es =>
    exact (node_writesAt quote n h.2.1).bind fun t ht => (entries_writesAt quote es h.2.2).bind fun ts hts =>
      writesAt_pure (List.forall_mem_cons.2 ⟨⟨h.1.inline, ht⟩, hts⟩)
termination_by structural es

end

end Render

end Stylesheet
