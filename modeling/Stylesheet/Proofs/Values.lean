import Stylesheet.Proofs.Closed
import Stylesheet.Proofs.Success

/-!
# Values

Leaves, bare names, lists, operations and queries have no line of their own in the output. From a pass that returns
nothing they come out with whatever property the making of texts keeps, and the pass stays where it is.
-/

namespace Stylesheet

open Rendering

namespace Pass

/-- Nothing is returned, and the values of all declarations have the property. -/
structure Still (P : String → Prop) (p : Pass) : Prop where
  returning : p.returning = false
  values : p.registry.Holds P

variable {P : String → Prop} {p : Pass}

theorem Still.enter (h : p.Still P) (places : List Place) : (p.enter places).Still P := ⟨h.returning, h.values⟩

theorem Still.returnsList (h : p.Still P) : p.returnsList = false := by simp [Pass.returnsList, h.returning]

end Pass

namespace Rendering

variable {α β : Type} {σ : Style} {P : String → Prop} {m : Rendering α} {f : α → Rendering β} {Q : α → Prop}
  {R : β → Prop}

/-- From a still pass the rendering gives something with a property and leaves the pass as it is. -/
def Rests (σ : Style) (P : String → Prop) (m : Rendering α) (Q : α → Prop) : Prop :=
  ∀ ⦃p a q⦄, p.Still P → m.Gives σ p a q → Q a ∧ q = p

theorem Rests.bind (hm : m.Rests σ P Q) (hf : ∀ a, Q a → (f a).Rests σ P R) : (m >>= f).Rests σ P R := by
  intro p b r hp h
  obtain ⟨a, q, ha, hb⟩ := gives_bind.1 h
  obtain ⟨hQ, rfl⟩ := hm hp ha
  exact hf a hQ hp hb

theorem rests_pure {a : α} (h : Q a) : (pure a : Rendering α).Rests σ P Q := by
  intro p b q _ hb
  obtain ⟨rfl, rfl⟩ := gives_pure.1 hb
  exact ⟨h, rfl⟩

/-- Inside of more places too, it is the same pass that is left. -/
theorem Rests.leave {p r : Pass} {a : α} (hm : m.Rests σ P Q) (hp : p.Still P) {places : List Place}
    (h : m.Gives σ (p.enter places) a r) : Q a ∧ r.leave p = p := by
  obtain ⟨hQ, rfl⟩ := hm (hp.enter places) h
  exact ⟨hQ, rfl⟩

end Rendering

namespace Node

/-- What values, heads and pieces of names consist of. -/
def isQuiet : Node → Bool
  | null | literal .. | number .. | quoted _ | boolean _ | color _ | expression _ | binary .. | unary .. |
    queryList _ | query .. | feature .. => true
  | identifier id => !id.isBound
  | _ => false

variable {P : String → Prop}

/-- A piece of a value whose texts have the property. -/
structure Values (P : String → Prop) (n : Node) : Prop where
  kind : n.isQuiet
  texts : n.TextsHold P

/-- Values lack nothing. -/
theorem sufficient_of_isQuiet {n : Node} (h : n.Every fun m => m.isQuiet) : n.Every Node.Sufficient := by
  refine h.mono fun m kind => ?_
  cases m with
  | ruleSet | media | supports | callable | keyframes | conditional | loop | extend => cases kind
  | _ => rfl

theorem Values.sufficient {n : Node} (h : n.Every (Node.Values P)) : n.Every Node.Sufficient :=
  sufficient_of_isQuiet (h.mono fun _ hm => hm.kind)

end Node

theorem EveryIn.sufficient {P : String → Prop} {ns : List Node} (h : EveryIn (Node.Values P) ns) :
    EveryIn Node.Sufficient ns := fun n hn => Node.Values.sufficient (h n hn)

namespace Render

variable {σ : Style} {P : String → Prop}

section constructs

variable (closed : Closed P) {texts : Rendering (List String)}

include closed

theorem named_rests {segments : List Node} (h : texts.Rests σ P fun ts => ∀ t ∈ ts, P t) :
    (named segments texts).Rests σ P P :=
  h.bind fun _ hts => rests_pure (closed.joinSegments hts)

private theorem reference_rests {id : Identifier Node} (h : P id.name) : (reference id).Rests σ P P := by
  intro p t q hp hg
  obtain ⟨rfl, rfl⟩ := reference_gives hg
  exact ⟨closed.referenceText σ.dialect hp.values h, rfl⟩

theorem expression_rests {e : Expression Node} (h : texts.Rests σ P fun ts => ∀ t ∈ ts, P t) :
    (expression e texts).Rests σ P P := by
  intro p t q hp hg
  obtain ⟨ts, r, hts, rfl, rfl⟩ := expression_gives_operands hp.returnsList hg
  obtain ⟨hall, hleave⟩ := h.leave hp hts
  refine ⟨?_, hleave⟩
  have operands := closed.joinOperands (p.inAny [.declarationValue]) e.operands hall
  split
  · exact closed.removeBlanks operands
  · exact operands

theorem arguments_rests (h : texts.Rests σ P fun ts => ∀ t ∈ ts, P t) : (arguments texts).Rests σ P P := by
  intro p t q hp hg
  obtain ⟨ts, r, hts, rfl, rfl⟩ := arguments_gives hg
  obtain ⟨all, hr⟩ := h.leave hp hts
  refine ⟨closed.intercalate (closed.inert (by decide)) fun t ht => ?_, hr⟩
  obtain ⟨u, hu, rfl⟩ := List.mem_map.1 ht
  exact closed.dropTrailing (by decide) (all u hu)

end constructs

mutual

theorem node_rests (closed : Closed P) (n : Node) (h : n.Every (Node.Values P)) : (node n).Rests σ P P := by
  have ⟨kind, texts⟩ := h.self
  have hp : EveryIn (Node.Values P) n.parts := ((Node.every_iff_everyIn n).1 h).2
  match n with
  | .null => exact rests_pure closed.empty
  | .literal text _ => exact rests_pure (texts text (by simp))
  | .color text => exact rests_pure (texts text (by simp))
  | .quoted q => exact rests_pure (closed.quoted (texts q.text (by simp)) (texts q.quote (by simp)))
  | .boolean value =>
    refine rests_pure (closed.inert ?_)
    cases value <;> decide
  | .number value suffix =>
    have ending : P (suffix.getD "") := closed.rowwise.optional fun s hs => texts s (by simp [Option.mem_def.1 hs])
    exact rests_pure (closed.append (closed.number value) ending)
  | .identifier ⟨name, value, placeholder, rest, line⟩ =>
    have hname : P name := texts name (by simp)
    match value with
    | none => exact @reference_rests σ P closed ⟨name, none, placeholder, rest, line⟩ hname
    | some .null => exact @reference_rests σ P closed ⟨name, some .null, placeholder, rest, line⟩ hname
    | some v =>
      cases v with
      | null => exact @reference_rests σ P closed ⟨name, some .null, placeholder, rest, line⟩ hname
      | _ => cases kind
  | .expression e => exact expression_rests closed (each_rests closed e.operands hp)
  | .binary operator left right =>
    exact (node_rests closed left (hp left (by simp))).bind fun l hl =>
      (node_rests closed right (hp right (by simp))).bind fun r hr =>
        rests_pure (closed.binary right (texts operator (by simp)) hl hr)
  | .unary operator operand =>
    exact (node_rests closed operand (hp operand (by simp))).bind fun t ht =>
      rests_pure (closed.unary (texts operator (by simp)) ht)
  | .queryList queries =>
    exact (each_rests closed queries hp).bind fun ts hts =>
      rests_pure (closed.intercalate (closed.inert (by decide)) hts)
  | .query features medium predicate =>
    obtain ⟨hf, hm⟩ := (everyIn_append _ _).1 hp
    have predicates : ∀ t ∈ predicate, P t := fun t ht => texts t (by simp_all)
    exact (optional_rests closed medium hm).bind fun m hm => (each_rests closed features hf).bind fun ts hts =>
      rests_pure (closed.query predicates hm hts)
  | .feature segments none =>
    obtain ⟨hs, -⟩ := (everyIn_append _ _).1 hp
    exact (named_rests closed (each_rests closed segments hs)).bind fun t ht =>
      rests_pure (closed.feature ht (by simp))
  | .feature segments (some value) =>
    obtain ⟨hs, hv⟩ := (everyIn_append _ _).1 hp
    exact (named_rests closed (each_rests closed segments hs)).bind fun t ht =>
      (expression_rests closed (each_rests closed value.operands hv)).bind fun v hv =>
        rests_pure (closed.feature ht (by simpa using hv))
  | .arguments _ | .block _ | .selector .. | .ruleSet .. | .property .. | .call .. | .callable .. | .returned ..
  | .conditional .. | .loop .. | .keyframes .. | .media .. | .supports .. | .xmlNamespace .. | .charset ..
  | .importSheet .. | .extend .. | .atRule .. | .comment _ | .member .. | .mapLiteral .. => cases kind
termination_by structural n

theorem each_rests (closed : Closed P) (ns : List Node) (h : EveryIn (Node.Values P) ns) :
    (each ns).Rests σ P fun ts => ∀ t ∈ ts, P t := by
  match ns with
  | [] => exact rests_pure (by simp)
  | n :: ns =>
    rw [everyIn_cons] at h
    exact (node_rests closed n h.1).bind fun t ht => (each_rests closed ns h.2).bind fun ts hts =>
      rests_pure (List.forall_mem_cons.2 ⟨ht, hts⟩)
termination_by structural ns

private theorem optional_rests (closed : Closed P) (n : Option Node) (h : EveryIn (Node.Values P) n.toList) :
    (optional n).Rests σ P P := by
  match n with
  | none => exact rests_pure closed.empty
  | some n => exact node_rests closed n (h n (by simp))
termination_by structural n

end

mutual

private theorem range_rests (closed : Closed P) (n : Node) (h : n.Every (Node.Values P)) : (range n).Rests σ P P := by
  have hp : EveryIn (Node.Values P) n.parts := ((Node.every_iff_everyIn n).1 h).2
  cases n with
  | binary operator left right =>
    simp only [range]
    split
    · exact (node_rests closed left (hp left (by simp))).bind fun l hl =>
        (node_rests closed right (hp right (by simp))).bind fun r hr => rests_pure (closed.bounds hl hr)
    · exact node_rests closed _ h
  | expression e =>
    exact (ranges_rests closed e.operands hp).bind fun ts hts =>
      rests_pure (closed.intercalate (closed.inert (by decide)) hts)
  | _ => exact node_rests closed _ h
termination_by structural n

theorem ranges_rests (closed : Closed P) (ns : List Node) (h : EveryIn (Node.Values P) ns) :
    (ranges ns).Rests σ P fun ts => ∀ t ∈ ts, P t := by
  match ns with
  | [] => exact rests_pure (by simp)
  | n :: ns =>
    rw [everyIn_cons] at h
    rw [ranges_cons]
    exact (range_rests closed n h.1).bind fun t ht => (ranges_rests closed ns h.2).bind fun ts hts =>
      rests_pure (List.forall_mem_cons.2 ⟨ht, hts⟩)
termination_by structural ns

end

end Render

end Stylesheet
