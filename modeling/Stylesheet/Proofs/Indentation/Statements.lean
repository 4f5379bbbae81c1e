import Stylesheet.Proofs.Indentation.Maps

/-!
# Statements on indented lines

What each construct does to the lines of the output, where it stands among statements: behind the brace of a block,
behind another statement, or at the start of a sheet.
-/

namespace Stylesheet

open Text Rendering

/-- Within a line the text goes on, and it ends within a line at the same level. -/
def Flows (n : Nat) (t : String) : Prop := (Cursor.inLine n).Reads anyStart t (Cursor.inLine n)

namespace Flows

variable {n : Nat} {s t : String}

theorem inline (h : Inline t) : Flows n t := Cursor.reads_inline h

theorem append (hs : Flows n s) (ht : Flows n t) : Flows n (s ++ t) := Cursor.Reads.append hs ht

theorem entry (h : ReadsEntry n t) : Flows n t := Cursor.reads_lax h

end Flows

/-- The text has a first character, and it is no white space. -/
def Solid (t : String) : Prop := ∃ c ∈ t.toList.head?, isBlank c = false

instance (t : String) : Decidable (Solid t) :=
  decidable_of_iff (t.toList.head?.any fun c => !isBlank c) (by simp [Solid, Option.any_eq_true])

section texts

variable {n : Nat} {s t : String}

theorem Solid.append (h : Solid s) (t : String) : Solid (s ++ t) := by
  obtain ⟨c, hc, solid⟩ := h
  refine ⟨c, ?_, solid⟩
  rw [String.toList_append, List.head?_append, hc]
  rfl

theorem Core.solid (h : Core anyStart n t) : Solid t := by
  obtain ⟨⟨c, hc, blank, -⟩, -⟩ := h
  exact ⟨c, hc, blank⟩

theorem Inline.startsWith (h : Inline t) : startsWith '\n' t = false := by
  have oneLine : '\n' ∉ t.toList := List.count_eq_zero.1 h.1
  rw [Text.startsWith, beq_eq_false_iff_ne]
  exact fun first => oneLine (List.mem_of_head? first)

private theorem core_of_solid (hs : Inline s) (solid : Solid s) (ht : Flows n t) : Core anyStart n (s ++ t) := by
  obtain ⟨c, hc, blank⟩ := solid
  exact (Core.inline hs (starts_of_inline hs hc blank)).append ht

theorem Flows.aligned (h : Aligned anyStart n t) : Flows n t := h.inLine

theorem core_of_word (hs : Inert s) (solid : Solid s) (ht : Flows n t) : Core anyStart n (s ++ t) :=
  core_of_solid hs.inline solid ht

end texts

/-- Pieces on one line, of which the first is a literal that does not start with white space. -/
structure IsName (segments : List Node) : Prop where
  pieces : EveryIn (Node.Values Inert) segments
  starts : ∀ m ∈ segments.head?, ∃ text line, m = .literal text line ∧ Solid text

namespace Pass

/-- At a depth and among statements, of an animation if there is one around them. -/
structure Among (inKeyframes : Bool) (n : Nat) (p : Pass) : Prop extends p.At n where
  places : ∀ place ∈ p.places, place = .keyframes ∧ inKeyframes = true

variable {inKeyframes : Bool} {n : Nat} {p q : Pass}

theorem among_start : Among false 0 {} := ⟨⟨rfl, rfl, rfl, by simp [Registry.Holds]⟩, by simp⟩

namespace Among

theorem reach (h : p.Among inKeyframes n) (line : Option Nat) : (p.reach line).Among inKeyframes n :=
  ⟨h.toAt.reach line, by simpa using h.places⟩

theorem knowVariable (h : p.Among inKeyframes n) (name : String) : (p.learn (·.addVariable name)).Among inKeyframes n :=
  ⟨h.toAt.knowVariable name, h.places⟩

theorem down (h : p.Among inKeyframes n) : p.down.Among inKeyframes (n + 1) := ⟨h.toAt.down, h.places⟩

theorem up (h : p.Among inKeyframes (n + 1)) : p.up.Among inKeyframes n :=
  ⟨⟨by simp [Pass.up, h.depth], h.returning, h.calling, h.values⟩, h.places⟩

theorem nextLine (h : p.Among inKeyframes n) : p.nextLine.Among inKeyframes n :=
  ⟨⟨h.depth, h.returning, h.calling, h.values⟩, h.places⟩

/-- Back from other places. -/
theorem leave (h : p.Among inKeyframes n) (hq : q.At n) : (q.leave p).Among inKeyframes n :=
  ⟨hq.leave h.toAt, h.places⟩

private theorem enterKeyframes (h : p.Among inKeyframes n) : (p.enter [.keyframes]).Among true n := by
  refine ⟨h.toAt.enter (by decide), fun place hp => ⟨?_, rfl⟩⟩
  rcases List.mem_cons.1 hp with rfl | hp
  · rfl
  · exact (h.places place hp).1

theorem inFunction (h : p.Among inKeyframes n) : p.inFunction = false := by simp [Pass.inFunction, h.returning]

/-- Outside of animations a call is a statement. -/
theorem includes (h : p.Among false n) : p.includes = true := by
  have none : p.places = [] := List.eq_nil_iff_forall_not_mem.2 fun place hp => by cases (h.places place hp).2
  simp [Pass.includes, h.returning, Pass.inAny, none]

private theorem outsideKeyframes (h : p.Among false n) : p.inAny [.keyframes] = false := by
  have none : p.places = [] := List.eq_nil_iff_forall_not_mem.2 fun place hp => by cases (h.places place hp).2
  simp [Pass.inAny, none]

end Among

end Pass

namespace Rendering

variable {α β : Type} {σ : Style} {inKeyframes : Bool} {n : Nat} {m : Rendering α} {f : α → Rendering β}
  {Q : α → Prop} {R : β → Prop}

/-- Among statements the rendering gives something with a property, and is still among them after that. -/
def Aligns (σ : Style) (inKeyframes : Bool) (n : Nat) (m : Rendering α) (Q : α → Prop) : Prop :=
  ∀ ⦃p a q⦄, p.Among inKeyframes n → m.Gives σ p a q → Q a ∧ q.Among inKeyframes n

theorem Aligns.bind (hm : m.Aligns σ inKeyframes n Q) (hf : ∀ a, Q a → (f a).Aligns σ inKeyframes n R) :
    (m >>= f).Aligns σ inKeyframes n R := by
  intro p b r hp h
  obtain ⟨a, q, ha, hb⟩ := gives_bind.1 h
  obtain ⟨hQ, hq⟩ := hm hp ha
  exact hf a hQ hq hb

theorem aligns_pure {a : α} (h : Q a) : (pure a : Rendering α).Aligns σ inKeyframes n Q := by
  intro p b q hp hb
  obtain ⟨rfl, rfl⟩ := gives_pure.1 hb
  exact ⟨h, hp⟩

theorem Aligns.mono {R : α → Prop} (h : m.Aligns σ inKeyframes n Q) (weaker : ∀ a, Q a → R a) :
    m.Aligns σ inKeyframes n R := fun _ _ _ hp hg => ⟨weaker _ (h hp hg).1, (h hp hg).2⟩

/-- What stays at its depth wherever it is stays among statements. -/
theorem WritesAt.aligns (h : m.WritesAt σ n Q) (stays : m.Stays) : m.Aligns σ inKeyframes n Q := by
  intro p a q hp hg
  obtain ⟨hQ, hq⟩ := h hp.toAt hg
  refine ⟨hQ, hq, ?_⟩
  rw [(stays hg).places]
  exact hp.places

/-- A rendering of a value changes nothing. -/
theorem Rests.aligns (h : m.Rests σ Inline Q) : m.Aligns σ inKeyframes n Q := by
  intro p a q hp hg
  obtain ⟨hQ, rfl⟩ := h hp.still hg
  exact ⟨hQ, hp⟩

end Rendering

namespace Render

variable {σ : Style} {inKeyframes : Bool} {n : Nat} {line : Option Nat} {text body : Rendering String}
  {texts : Rendering (List String)}

theorem conditionRule_aligns {keyword : String} (hk : Inert keyword) (solid : Solid keyword)
    (hc : text.Rests σ Inline Inline) (hb : body.Aligns σ inKeyframes n (Flows n)) :
    (conditionRule keyword line text body).Aligns σ inKeyframes n (Aligned anyStart n) := by
  intro p t q hp hg
  obtain ⟨condition, r, content, hcondition, hcontent, rfl⟩ := conditionRule_gives hg
  obtain ⟨inline, rfl⟩ := hc (hp.reach line).still hcondition
  obtain ⟨flows, hq⟩ := hb (hp.reach line) hcontent
  have aligned := aligned_lead hp.depth line (core_of_word hk solid ((Flows.inline inline).append flows))
  exact ⟨by simpa only [String.append_assoc] using aligned, hq⟩

private theorem solid_atHead (name : String) (segments : List Node) (ts : List String) :
    Solid (atHead name segments ts) :=
  Solid.append (Solid.append (by decide : Solid "@") name) _

theorem atRule_aligns {name : String} {segments : List Node} (hn : Inert name)
    (h : texts.Rests σ Inline fun ts => ∀ t ∈ ts, Inline t) :
    (atRule name line segments texts none).Aligns σ inKeyframes n (Aligned anyStart n) := by
  intro p t q hp hg
  obtain ⟨ts, r, hts, ⟨-, rfl, rfl⟩ | ⟨b, inner, hnone, -⟩⟩ := atRule_gives hg
  · obtain ⟨all, rfl⟩ := h (hp.reach line).still hts
    have head : Inline (atHead name segments ts) := closed_inline.atHead hn.inline all
    have aligned := aligned_lead hp.depth line
      (core_of_solid head (solid_atHead name segments ts) (Flows.inline (closed_inline.inert (by decide) : Inline ";")))
    exact ⟨by simpa only [String.append_assoc] using aligned, hp.reach line⟩
  · cases hnone

theorem atRule_block_aligns {name : String} {segments : List Node} (hn : Inert name)
    (h : texts.Rests σ Inline fun ts => ∀ t ∈ ts, Inline t) (hb : body.Aligns σ inKeyframes n (Flows n)) :
    (atRule name line segments texts (some body)).Aligns σ inKeyframes n (Aligned anyStart n) := by
  intro p t q hp hg
  obtain ⟨ts, r, hts, ⟨hsome, -⟩ | ⟨b, inner, hb', hinner, rfl⟩⟩ := atRule_gives hg
  · cases hsome
  · cases hb'
    obtain ⟨all, rfl⟩ := h (hp.reach line).still hts
    obtain ⟨flows, hq⟩ := hb (hp.reach line) hinner
    have head : Inline (atHead name segments ts) := closed_inline.atHead hn.inline all
    have aligned := aligned_lead hp.depth line (core_of_solid head (solid_atHead name segments ts) flows)
    exact ⟨by simpa only [String.append_assoc] using aligned, hq⟩

/-- The body of keyframes is rendered once, in their place, and repeated with its lines. -/
theorem keyframes_aligns {segments statements : List Node} (hs : texts.Rests σ Inline fun ts => ∀ t ∈ ts, Inline t)
    (hb : body.Aligns σ true n (Flows n)) :
    (keyframes line segments statements texts body).Aligns σ inKeyframes n (Aligned anyStart n) := by
  intro p t q hp hg
  obtain ⟨ts, r, content, s, hts, hcontent, rfl, rfl⟩ := keyframes_gives hg
  have start := hp.enterKeyframes.reach line
  obtain ⟨all, rfl⟩ := hs start.still hts
  obtain ⟨flows, hr⟩ := hb start hcontent
  have rule : Flows n (joinSegments segments ts ++ content) :=
    (Flows.inline (closed_inline.joinSegments all)).append flows
  exact ⟨aligned_lead hp.enterKeyframes.depth line (core_withEngines hr.depth rfl σ.vendorCopies rule),
    hp.leave hr.toAt⟩

theorem charset_aligns {encoding : QuotedText} (ht : Inert encoding.text) (hq : Inert encoding.quote) :
    (charset line encoding).Aligns σ inKeyframes n (Aligned anyStart n) := by
  intro p t q hp hg
  obtain ⟨rfl, rfl⟩ := charset_gives hg
  have rest : Inline (quoted encoding ++ ";") :=
    closed_inline.append (closed_inline.quoted ht.inline hq.inline) (closed_inline.inert (by decide))
  have aligned := aligned_lead hp.depth line
    (core_of_word (by decide : Inert "@charset ") (by decide) (Flows.inline rest))
  exact ⟨by simpa only [String.append_assoc] using aligned, hp.reach line⟩

theorem xmlNamespace_aligns {shortName : Option String} (hs : ∀ s ∈ shortName, Inert s)
    (h : text.Rests σ Inline Inline) :
    (xmlNamespace line shortName text).Aligns σ inKeyframes n (Aligned anyStart n) := by
  intro p t q hp hg
  obtain ⟨value, r, hvalue, rfl, rfl⟩ := xmlNamespace_gives hg
  have start := hp.reach line
  obtain ⟨hv, hr⟩ := h.leave start.still hvalue
  have short : Inline ((shortName.map (· ++ " ")).getD "") :=
    closed_inline.rowwise.optional_append (fun s h => (hs s h).inline) (closed_inline.inert (by decide))
  have rest : Inline ((shortName.map (· ++ " ")).getD "" ++ dropTrailing ';' value ++ ";") :=
    closed_inline.append (closed_inline.append short (closed_inline.dropTrailing (by decide) hv))
      (closed_inline.inert (by decide))
  have aligned := aligned_lead hp.depth line
    (core_of_word (by decide : Inert "@namespace ") (by decide) (Flows.inline rest))
  rw [hr]
  exact ⟨by simpa only [String.append_assoc] using aligned, start⟩

theorem importSheet_aligns {pieces : List Node} (hp : EveryIn (Node.Values Inert) pieces) :
    (importSheet line pieces (each pieces)).Aligns σ inKeyframes n (Aligned anyStart n) := by
  intro p t q start hg
  obtain ⟨ts, hts, rfl⟩ := importSheet_gives hg
  obtain ⟨all, rfl⟩ := each_rests closed_inline pieces hp.inline (start.reach line).still hts
  have own : ∀ m ∈ pieces, ∀ q, m.quotedText? = some q → Inline q.text ∧ Inline q.quote := fun m hm q hq =>
    holds_of_quotedText ((hp.inline m hm).mono fun _ h => h.texts) hq
  have quote : Inline (pathQuote pieces) := closed_inline.pathQuote fun m hm q hq => (own m hm q hq).2
  have path := closed_inline.outputPath σ.dialect (closed_inline.joinPath all fun m hm q hq => (own m hm q hq).1)
  have rest := closed_inline.append (closed_inline.append (closed_inline.append quote path) quote)
    (closed_inline.inert (by decide) : Inline ";")
  have aligned := aligned_lead start.depth line
    (core_of_word (by decide : Inert "@import ") (by decide) (Flows.inline rest))
  exact ⟨by simpa only [String.append_assoc] using aligned, start.reach line⟩

/-- Selectors lose the breaks before them. -/
theorem extend_aligns {selectors : List Node}
    (h : texts.Aligns σ inKeyframes n fun ts => ∀ t ∈ ts, Inline (Text.trimStart t)) :
    (extend line selectors texts).Aligns σ inKeyframes n (Aligned anyStart n) := by
  intro p t q hp hg
  obtain ⟨-, ts, hts, rfl⟩ := extend_gives hg
  obtain ⟨all, hq⟩ := h (hp.reach line) hts
  have list : Inline (", ".intercalate (ts.map Text.trimStart)) := by
    refine closed_inline.intercalate (closed_inline.inert (by decide)) fun t ht => ?_
    obtain ⟨u, hu, rfl⟩ := List.mem_map.1 ht
    exact all u hu
  have rest := closed_inline.append list (closed_inline.inert (by decide) : Inline ";")
  have aligned := aligned_lead hp.depth line
    (core_of_word (by decide : Inert "@extend ") (by decide) (Flows.inline rest))
  exact ⟨by simpa only [String.append_assoc] using aligned, hq⟩

/-- The content of a block is empty or starts with a margin. -/
def Opens (n : Nat) (t : String) : Prop := t = "" ∨ Aligned anyStart n t

theorem block_aligns (h : text.Aligns σ inKeyframes (n + 1) (Opens (n + 1))) :
    (block text).Aligns σ inKeyframes n (Flows n) := by
  intro p t q hp hg
  obtain ⟨content, r, content', r', hc, hw, rfl, rfl⟩ := block_gives hg
  obtain ⟨opens, hr⟩ := h hp.down hc
  have same : content' = content ∧ r' = r := by
    rcases withReturn_gives hw with ⟨-, same⟩ | ⟨inside, -⟩ | ⟨inside, -⟩
    · exact same
    · rw [hr.inFunction] at inside
      cases inside
    · rw [hr.inFunction] at inside
      cases inside
  obtain ⟨rfl, rfl⟩ := same
  exact ⟨reads_block hr.depth hr.up.depth rfl opens, hr.up⟩

private theorem branch_aligns (start : BranchStart) {negated : Bool} {p q : Pass} {t : String}
    (hc : text.Rests σ Inline Inline) (hb : body.Aligns σ inKeyframes n (Flows n))
    (ha : texts.Aligns σ inKeyframes n fun ts => ∀ t ∈ ts, Flows n t) (hp : (branchPass p start).Among inKeyframes n)
    (hg : (conditional start negated text body texts).Gives σ p t q) :
    ∃ rest, t = branchLead p start ++ rest ∧ Flows n rest ∧ q.Among inKeyframes n := by
  obtain ⟨condition, r, content, s, others, hcondition, hcontent, hothers, rfl⟩ := conditional_gives hg
  obtain ⟨inline, hr⟩ := hc.leave hp.still hcondition
  rw [hr] at hcontent
  obtain ⟨flows, hs⟩ := hb hp hcontent
  obtain ⟨all, hq⟩ := ha hs hothers
  have head : Flows n (negate negated condition) := Flows.inline (closed_inline.negate negated inline)
  exact ⟨negate negated condition ++ content ++ String.join others, by simp only [String.append_assoc],
    (head.append flows).append (reads_join all), hq⟩

theorem conditional_aligns {negated : Bool} (hc : text.Rests σ Inline Inline)
    (hb : body.Aligns σ inKeyframes n (Flows n)) (ha : texts.Aligns σ inKeyframes n fun ts => ∀ t ∈ ts, Flows n t) :
    (conditional (.leading line) negated text body texts).Aligns σ inKeyframes n (Aligned anyStart n) := by
  intro p t q hp hg
  obtain ⟨rest, rfl, flows, hq⟩ := branch_aligns (.leading line) hc hb ha (hp.reach line) hg
  have aligned := aligned_lead hp.depth line (core_of_word (by decide : Inert "@if ") (by decide) flows)
  exact ⟨by simpa only [branchLead, String.append_assoc] using aligned, hq⟩

theorem chained_aligns (h : text.Aligns σ inKeyframes n (Flows n)) : (chained text).Aligns σ inKeyframes n (Flows n) :=
  fun _ _ _ hp hg => h hp.nextLine (chained_gives hg)

theorem conditional_flows {negated : Bool} (hc : text.Rests σ Inline Inline)
    (hb : body.Aligns σ inKeyframes n (Flows n)) (ha : texts.Aligns σ inKeyframes n fun ts => ∀ t ∈ ts, Flows n t) :
    (conditional .chained negated text body texts).Aligns σ inKeyframes n (Flows n) := by
  intro p t q hp hg
  obtain ⟨rest, rfl, flows, hq⟩ := branch_aligns .chained hc hb ha hp hg
  exact ⟨(Flows.inline (closed_inline.inert (by decide) : Inline " @else if ")).append flows, hq⟩

theorem otherwise_aligns (hb : body.Aligns σ inKeyframes n (Flows n)) :
    (otherwise body).Aligns σ inKeyframes n (Flows n) := by
  intro p t q hp hg
  obtain ⟨content, hcontent, rfl⟩ := otherwise_gives hg
  obtain ⟨flows, hq⟩ := hb hp hcontent
  exact ⟨(Flows.inline (closed_inline.inert (by decide) : Inline " @else")).append flows, hq⟩

private theorem solid_loopHead (d : Dialect) (item : String) (key : Option String) (items : List Node)
    (ts : List String) :
    Solid (loopHead d item key items ts) := by
  unfold loopHead
  split
  · exact (((by decide : Solid "@for ").append _).append _).append _
  · exact (((by decide : Solid "@each ").append _).append _).append _

theorem loop_aligns {item : String} {key : Option String} {iterable : Expression Node}
    {items : Rendering (List String)} (hi : Inert item) (hk : ∀ k ∈ key, Inert k)
    (operands : EveryIn (Node.Values Inert) iterable.operands)
    (hr : texts.Rests σ Inline fun ts => ∀ t ∈ ts, Inline t) (he : items.Rests σ Inline fun ts => ∀ t ∈ ts, Inline t)
    (hb : body.Aligns σ inKeyframes n (Flows n)) :
    (loop item key line iterable texts items body).Aligns σ inKeyframes n (Aligned anyStart n) := by
  intro p t q hp hg
  obtain ⟨ts, r, content, hts, hcontent, rfl⟩ := loop_gives hg
  have start := hp.reach line
  have knowing : (knowingItems (p.reach line) item key).Among inKeyframes n := by
    cases key with
    | none => exact start.knowVariable item
    | some key => exact (start.knowVariable item).knowVariable key
  have either : (if (firstRange? iterable.operands).isSome then texts else items).Rests σ Inline
      fun ts => ∀ t ∈ ts, Inline t := by
    split
    · exact hr
    · exact he
  obtain ⟨all, hleave⟩ := either.leave knowing.still hts
  have back : r.leave (p.reach line) = knowingItems (p.reach line) item key := by
    rw [← hleave]
    cases key <;> rfl
  rw [back] at hcontent
  obtain ⟨flows, hq⟩ := hb knowing hcontent
  have names : ∀ m ∈ iterable.operands, ∀ name, m.bareName? = some name → Inline name := fun m hm name hname =>
    holds_of_bareName ((operands.inline m hm).mono fun _ h => h.texts) hname
  have head : Inline (loopHead σ.dialect item key iterable.operands ts) :=
    closed_inline.loopHead σ.dialect hi.inline (fun k hk' => (hk k hk').inline) all names
  have aligned := aligned_lead hp.depth line (core_of_solid head (solid_loopHead _ _ _ _ _) flows)
  exact ⟨by simpa only [String.append_assoc] using aligned, hq⟩

private theorem solid_keptText {c : Comment} (h : Solid c.text) : Solid (keptText c) := by
  unfold keptText
  split
  · split
    · exact h
    · exact (by decide : Solid "/*!").append _
  · exact h

theorem comment_aligns {c : Comment} (ht : Inert c.text) (solid : Solid c.text) :
    (comment c false).Aligns σ inKeyframes n (Aligned anyStart n) := by
  intro p t q hp hg
  obtain ⟨rfl, rfl⟩ := comment_gives hg
  have kept := core_of_solid (closed_inline.keptText ht.inline) (solid_keptText solid)
    (Flows.inline (n := n) closed_inline.empty)
  rw [String.append_empty] at kept
  exact ⟨aligned_lead hp.depth c.line kept, hp.reach _⟩

theorem comment_flows {c : Comment} (ht : Inert c.text) (solid : Solid c.text) (sameLine : Bool) :
    (comment c sameLine).Aligns σ inKeyframes n (Flows n) := by
  cases sameLine with
  | false => exact (comment_aligns ht solid).mono fun _ => Flows.aligned
  | true =>
    intro p t q hp hg
    obtain ⟨rfl, rfl⟩ := comment_gives hg
    have space : Inline " " := closed_inline.inert (by decide)
    exact ⟨Flows.inline (closed_inline.append space (closed_inline.keptText ht.inline)), hp.reach _⟩

private theorem solid_inclusion (d : Dialect) : Solid d.inclusion := by cases d <;> decide

/-- A call is on a line of its own. -/
theorem call_aligns {name : String} (hn : Inert name) (h : texts.Rests σ Inline fun ts => ∀ t ∈ ts, Inline t) :
    (call name line texts none).Aligns σ false n (Aligned anyStart n) := by
  intro p t q hp hg
  have start := hp.reach line
  obtain ⟨args, r, hargs, ⟨-, rfl, rfl⟩ | ⟨b, content, hnone, -⟩⟩ := call_gives hg
  · have inside : ((p.reach line).call name).Still Inline := ⟨start.returning, start.values⟩
    obtain ⟨inline, rfl⟩ := arguments_rests closed_inline h inside hargs
    have lead : callLead σ p line =
        (if (p.breaksTo line).isEmpty then "\n" else p.breaksTo line) ++ p.indent ++ σ.dialect.inclusion := by
      rw [callLead, if_pos start.includes]
    have statement : Inline (name ++ "(" ++ args ++ ")" ++ ";") :=
      closed_inline.append (closed_inline.called hn.inline inline) (closed_inline.inert (by decide))
    have core := core_of_solid (closed_inline.inclusion σ.dialect) (solid_inclusion σ.dialect)
      (Flows.inline (n := n) statement)
    rw [lead, if_pos start.includes]
    refine ⟨⟨_, _, ?_, margin_inclusion hp.depth line, core⟩, start⟩
    simp only [String.append_assoc]
  · cases hnone

theorem named_rests_solid {segments : List Node} (h : IsName segments) :
    (named segments (each segments)).Rests σ Inline fun t => Inline t ∧ (segments = [] ∧ t = "" ∨ Solid t) := by
  cases segments with
  | nil =>
    have nothing (ts : List String) : joinSegments [] ts = "" := by simp [joinSegments]
    exact (each_rests closed_inline [] everyIn_nil).bind fun ts hts =>
      rests_pure ⟨closed_inline.joinSegments hts, .inl ⟨rfl, nothing ts⟩⟩
  | cons m ms =>
    obtain ⟨text, line, rfl, solid⟩ := h.starts m rfl
    obtain ⟨first, others⟩ := (everyIn_cons _ _).1 h.pieces.inline
    have inline : Inline text := first.self.texts text (by simp)
    have literal : (node (.literal text line)).Rests σ Inline fun t => t = text := rests_pure rfl
    have texts : (each (.literal text line :: ms)).Rests σ Inline fun ts =>
        (∀ t ∈ ts, Inline t) ∧ ∃ us, ts = text :: us :=
      literal.bind fun t ht => (each_rests closed_inline ms others).bind fun us hus =>
        rests_pure ⟨List.forall_mem_cons.2 ⟨ht ▸ inline, hus⟩, us, by rw [ht]⟩
    refine texts.bind fun ts hts => rests_pure ?_
    obtain ⟨all, us, rfl⟩ := hts
    refine ⟨closed_inline.joinSegments all, .inr ?_⟩
    rw [joinSegments, List.zip_cons_cons, List.map_cons, String.join_cons]
    exact solid.append _

private theorem solid_variableRef (d : Dialect) (name : String) : Solid (d.variableRef name) := by
  have sigil : Solid d.sigil.toString := by cases d <;> decide
  exact sigil.append _

private theorem aligned_binding {p : Pass} (depth : p.depth = n) (line : Option Nat) (d : Dialect) {name value : String}
    (hn : Inert name) (hv : ReadsEntry n value) :
    Aligned anyStart n (p.lead line ++ d.variableRef name ++ ": " ++ Text.dropTrailing ';' value ++ ";") := by
  have bound : Flows n (": " ++ Text.dropTrailing ';' value ++ ";") :=
    ((Flows.inline (closed_inline.inert (by decide))).append (Flows.entry (Cursor.reads_dropTrailing hv))).append
      (Flows.inline (closed_inline.inert (by decide)))
  have aligned := aligned_lead depth line
    (core_of_solid (closed_inline.variableRef d hn.inline) (solid_variableRef d name) bound)
  simpa only [String.append_assoc] using aligned

/-- An assignment takes as many lines as its value. -/
theorem assignment_writesAt {name : String} {value : Expression Node} (hn : Inert name)
    (h : texts.WritesAt σ n fun ts => ∀ t ∈ ts, ReadsEntry n t) :
    (assignment name value texts).WritesAt σ n (Aligned anyStart n) := by
  intro p t q hp hg
  obtain ⟨before, start, ts, r, hstart, hts, rfl, rfl⟩ := assignment_gives hg
  have knowing : (knowingMap p name value).At n := by
    unfold knowingMap
    split
    · exact hp.learn hp.values.addMap
    · exact hp
  rcases hstart with ⟨inCall, -⟩ | ⟨-, rfl, rfl⟩
  · rw [hp.calling] at inCall
    cases inCall
  · have start := knowing.reach value.line
    obtain ⟨all, hr⟩ := h (start.enter (by decide)) hts
    have space : ReadsEntry n " " := .inline (closed_inline.inert (by decide))
    have aligned := aligned_binding hp.depth value.line σ.dialect hn (space.intercalate all)
    exact ⟨aligned, (hr.leave start).knowVariable name⟩

theorem boundValue_writesAt {name : String} (hn : Inert name) (h : text.WritesAt σ n (ReadsEntry n)) :
    (boundValue name line text).WritesAt σ n (Aligned anyStart n) := by
  intro p t q hp hg
  obtain ⟨value, r, hvalue, rfl, rfl⟩ := boundValue_gives hg
  obtain ⟨entry, hr⟩ := h ((hp.reach line).enter (by decide)) hvalue
  exact ⟨aligned_binding hp.depth line σ.dialect hn entry, (hr.leave (hp.reach line)).knowVariable name⟩

/-- A list of one operand is that operand. -/
theorem expression_single_writesAt {Q : String → Prop} {m : Node} {l : Option Nat} (h : (node m).WritesAt σ n Q) :
    (expression ⟨[m], l⟩ (each [m])).WritesAt σ n Q := by
  intro p t q hp hg
  obtain ⟨ts, r, hts, rfl, rfl⟩ := expression_gives_operands hp.returnsList hg
  have none : (each []).WritesAt σ n fun ts => ts = [] := writesAt_pure rfl
  have one : (each [m]).WritesAt σ n fun ts => ∃ u, ts = [u] ∧ Q u :=
    h.bind fun u hu => none.bind fun us hus => writesAt_pure ⟨u, by rw [hus], hu⟩
  obtain ⟨⟨u, rfl, hu⟩, hr⟩ := one (hp.enter (by decide)) hts
  have hq := hr.leave hp
  have single (inValue : Bool) : joinOperands inValue [m] [u] = u := by simp [joinOperands]
  rw [hq.inAddress]
  refine ⟨?_, hq⟩
  simpa only [single, Bool.false_eq_true, if_false] using hu

section declarations

variable {segments : List Node} {value : Expression Node}

private theorem solid_declaration {name : String} (h : segments = [] ∧ name = "" ∨ Solid name) :
    Solid (name ++ ": ") := by
  rcases h with ⟨-, rfl⟩ | solid
  · decide
  · exact solid.append _

/-- A declaration of a value on one line. -/
theorem property_aligns (hs : IsName segments) (hv : EveryIn (Node.Values Inert) value.operands) :
    (property line (named segments (each segments)) value (expression value (each value.operands))).Aligns σ inKeyframes
      n (Aligned anyStart n) := by
  intro p t q hp hg
  have start := hp.reach line
  have bare : value.inlineName? = none := by
    cases hi : value.inlineName? with
    | none => rfl
    | some name =>
      obtain ⟨id, held, -, bound⟩ := value.identifier_of_inlineName? hi
      have quiet : (!id.isBound) = true := (hv _ held).self.kind
      rw [bound] at quiet
      cases quiet
  obtain ⟨name, r, content, s, hname, hcontent, ⟨inner, some, -⟩ | ⟨-, rfl, rfl⟩⟩ := property_gives hg
  · rw [bare] at some
    cases some
  · obtain ⟨⟨inline, solid⟩, rfl⟩ := named_rests_solid hs (start.still.enter _) hname
    have opened := (start.enter (by decide : Place.call ∉ [.declarationValue])).declare name
    have text : (expression value (each value.operands)).Rests σ Inline Inline :=
      expression_rests closed_inline (each_rests closed_inline value.operands hv.inline)
    obtain ⟨hc, rfl⟩ := text opened.still hcontent
    have terminator : Inline (if Text.endsWith ';' content || value.handsBlock then "" else ";") := by
      split <;> exact closed_inline.inert (by decide)
    have head : Inline (name ++ ": ") := closed_inline.append inline (closed_inline.inert (by decide))
    have aligned := aligned_lead hp.depth line
      (core_of_solid head (solid_declaration solid) (Flows.inline (closed_inline.append hc terminator)))
    refine ⟨by simpa only [String.append_assoc] using aligned, start.leave ?_⟩
    exact opened.learn (opened.values.closeDeclaration hc _)

/-- An assignment as a value becomes a statement before the declaration. -/
theorem property_inline_aligns {inner : String} (hs : IsName segments) (hi : value.inlineName? = some inner)
    (inert : Inert inner) (h : (expression value (each value.operands)).WritesAt σ n (Aligned anyStart n)) :
    (property line (named segments (each segments)) value (expression value (each value.operands))).Aligns σ inKeyframes
      n (Aligned anyStart n) := by
  intro p t q hp hg
  have start := hp.reach line
  obtain ⟨name, r, content, s, hname, hcontent, ⟨inner', some, rfl, rfl⟩ | ⟨none, -⟩⟩ := property_gives hg
  · obtain rfl : inner' = inner := Option.some.inj (some.symm.trans hi)
    obtain ⟨⟨inline, solid⟩, rfl⟩ := named_rests_solid hs (start.still.enter _) hname
    have opened := (start.enter (by decide : Place.call ∉ [.declarationValue])).declare name
    obtain ⟨assigned, ends⟩ := h opened hcontent
    have reference : Inline (σ.dialect.variableRef inner') := closed_inline.variableRef σ.dialect inert.inline
    have head : Inline (name ++ ": ") := closed_inline.append inline (closed_inline.inert (by decide))
    have declaration : Core anyStart n (name ++ ": " ++ (σ.dialect.variableRef inner' ++ ";")) :=
      core_of_solid head (solid_declaration solid)
        (Flows.inline (closed_inline.append reference (closed_inline.inert (by decide))))
    have next : Flows n ("\n" ++ s.indent ++ (name ++ ": " ++ (σ.dialect.variableRef inner' ++ ";"))) :=
      (Cursor.reads_newline.append (reads_indent_of_depth ends.depth)).append declaration.indented
    have aligned := aligned_lead hp.depth line (assigned.trimStart.append next)
    refine ⟨by simpa only [String.append_assoc] using aligned, start.leave ?_⟩
    exact ends.learn (ends.values.addVariable.closeDeclaration reference _)
  · rw [hi] at none
    cases none

end declarations

section rules

variable {segments selectors : List Node}

theorem selector_aligns (hs : IsName segments) (some : segments ≠ []) :
    (selector segments (each segments)).Aligns σ inKeyframes n (Aligned anyStart n) := by
  intro p t q hp hg
  obtain ⟨ts, hts, rfl⟩ := selector_gives hg
  have head : (named segments (each segments)).Gives σ (p.reach (segments.getLast?.bind Node.line))
      (joinSegments segments ts) q := gives_bind.2 ⟨ts, q, hts, gives_pure.2 ⟨rfl, rfl⟩⟩
  obtain ⟨⟨inline, solid⟩, rfl⟩ := named_rests_solid hs (hp.reach _).still head
  have core := core_of_solid inline (solid.resolve_left fun none => some none.1)
    (Flows.inline (n := n) closed_inline.empty)
  rw [String.append_empty] at core
  exact ⟨aligned_lead hp.depth _ core, hp.reach _⟩

theorem ruleSet_aligns
    (hs : texts.Aligns σ false n fun ts => ts ≠ [] ∧ ∀ t ∈ ts, Core anyStart n t ∨ Aligned anyStart n t)
    (hb : body.Aligns σ false n (Flows n)) : (ruleSet line texts body).Aligns σ false n (Aligned anyStart n) := by
  intro p t q hp hg
  obtain ⟨heads, r, content, hheads, hcontent, rfl⟩ := ruleSet_gives hg
  obtain ⟨⟨some, all⟩, hr⟩ := hs (hp.reach line) hheads
  obtain ⟨flows, hq⟩ := hb hr hcontent
  have plain : ruleHead q heads = joinSelectors heads := by simp [ruleHead, hq.outsideKeyframes]
  rw [plain]
  exact ⟨(aligned_joinSelectors (margin_lead hp.depth line) some all).append flows, hq⟩

/-- A step is on the line of its rule, so nothing but its indentation stands before it. -/
def IsStep (t : String) : Prop := Inline t ∧ Solid (alignSelector t)

theorem isStep {t : String} (inline : Inline t) (h : Core anyStart n t ∨ Aligned anyStart n t) : IsStep t := by
  refine ⟨inline, ?_⟩
  rcases alignSelector_cases h with core | ⟨starts, -⟩
  · exact core.solid
  · have trimmed := closed_inline.trimStart inline
    rw [alignSelector, inline.startsWith, if_neg Bool.false_ne_true, trimmed.startsWith] at starts
    cases starts

private theorem solid_ruleHead {ts : List String} (some : ts ≠ []) (h : ∀ t ∈ ts, IsStep t) (p : Pass) :
    Solid (ruleHead p ts) := by
  have solid : Solid (joinSelectors ts) := by
    cases ts with
    | nil => exact absurd rfl some
    | cons t ts => exact (h t (by simp)).2.append _
  unfold ruleHead
  split
  · exact ((by decide : Solid "#\x7b").append _).append _
  · exact solid

theorem steps_aligns (hs : ∀ ⦃p ts q⦄, p.Among true n → p.reach line = p → texts.Gives σ p ts q →
      (ts ≠ [] ∧ ∀ t ∈ ts, IsStep t) ∧ q = p) (hb : body.Aligns σ true n (Flows n)) :
    (ruleSet line texts body).Aligns σ true n (Aligned anyStart n) := by
  intro p t q hp hg
  obtain ⟨heads, r, content, hheads, hcontent, rfl⟩ := ruleSet_gives hg
  have there : (p.reach line).reach line = p.reach line := by cases line <;> rfl
  obtain ⟨⟨some, all⟩, rfl⟩ := hs (hp.reach line) there hheads
  obtain ⟨flows, hq⟩ := hb (hp.reach line) hcontent
  have head : Inline (ruleHead q heads) := closed_inline.ruleHead q fun t ht => (all t ht).1
  have aligned := aligned_lead hp.depth line (core_of_solid head (solid_ruleHead some all q) flows)
  exact ⟨by simpa only [String.append_assoc] using aligned, hq⟩

end rules

end Render

end Stylesheet
