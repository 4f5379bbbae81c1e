import Stylesheet.Proofs.Indentation.Statements

/-!
# Trees on indented lines

The statements that stand on lines of their own. Each is aligned to the level it is at, whatever lines the nodes have.
-/

namespace Stylesheet

open Text Rendering

/-- The head of a rule starts with a literal. A step of an animation has no line of its own, or that of its rule. -/
def Node.IsRuleHead (inKeyframes : Bool) (rule : Option Nat) : Node → Prop
  | .selector segments _ => segments ≠ [] ∧ IsName segments ∧
    (inKeyframes = true → ∀ line ∈ segments.getLast?.bind Node.line, rule = some line)
  | .literal text _ => Inert text ∧ Solid text
  | _ => False

def Node.IsExtended : Node → Prop
  | .selector segments _ => EveryIn (Node.Values Inert) segments
  | n => n.Every (Node.Values Inert)

def Expression.IsDeclared (e : Expression Node) : Prop := EveryIn (Node.Values Inert) e.operands ∨
  ∃ id value, e.operands = [.identifier id] ∧ id.value = some (.expression value) ∧ Inert id.name ∧
    AreAssigned value.operands

mutual

/-- Texts are on one line and have no brackets, and what starts a line does not start with white space. Calls are no
statements of animations. -/
def Node.Indents (inKeyframes : Bool) : Node → Prop
  | .identifier id => id.isBound ∧ Inert id.name ∧ ∀ v ∈ id.value, v.IsAssigned
  | .property segments value _ => IsName segments ∧ value.IsDeclared
  | .ruleSet selectors b line => selectors ≠ [] ∧ (∀ s ∈ selectors, s.IsRuleHead inKeyframes line) ∧
    BodyIndents inKeyframes b
  | .call name args none _ => inKeyframes = false ∧ Inert name ∧ EveryIn (Node.Values Inert) args
  | .media condition b _ | .supports condition b _ =>
    condition.Every (Node.Values Inert) ∧ BodyIndents inKeyframes b
  | .keyframes segments b _ => EveryIn (Node.Values Inert) segments ∧ BodyIndents true b
  | .atRule name segments b _ => Inert name ∧ EveryIn (Node.Values Inert) segments ∧
    (b = none ∨ BodyIndents inKeyframes b)
  | .conditional condition b alternatives _ _ => condition.Every (Node.Values Inert) ∧ BodyIndents inKeyframes b ∧
    BranchesIndent inKeyframes alternatives
  | .loop item key iterable b _ => Inert item ∧ (∀ k ∈ key, Inert k) ∧
    (∃ e ∈ iterable, EveryIn (Node.Values Inert) e.operands) ∧ BodyIndents inKeyframes b
  | .importSheet path _ => EveryIn (Node.Values Inert) path.operands
  | .extend selectors _ => selectors ≠ [] ∧ ∀ s ∈ selectors, s.IsExtended
  | .charset encoding _ => Inert encoding.text ∧ Inert encoding.quote
  | .xmlNamespace value shortName _ => value.Every (Node.Values Inert) ∧ ∀ s ∈ shortName, Inert s
  | .comment c => Inert c.text ∧ Solid c.text
  | _ => False
termination_by structural n => n

def AllIndent (inKeyframes : Bool) : List Node → Prop
  | [] => True
  | n :: ns => n.Indents inKeyframes ∧ AllIndent inKeyframes ns
termination_by structural ns => ns

def BodyIndents (inKeyframes : Bool) : Option (Body Node) → Prop
  | none => False
  | some b => AllIndent inKeyframes b.statements
termination_by structural b => b

def BranchesIndent (inKeyframes : Bool) : List Node → Prop
  | [] => True
  | .conditional condition b alternatives _ _ :: ns => condition.Every (Node.Values Inert) ∧
    BodyIndents inKeyframes b ∧ BranchesIndent inKeyframes alternatives ∧ BranchesIndent inKeyframes ns
  | .block b :: ns => AllIndent inKeyframes b.statements ∧ BranchesIndent inKeyframes ns
  | _ :: _ => False
termination_by structural ns => ns

end

namespace Render

variable {σ : Style} {inKeyframes : Bool} {d : Nat}

private theorem each_aligns {Q : String → Prop} {ns : List Node} (h : ∀ n ∈ ns, (node n).Aligns σ inKeyframes d Q) :
    (each ns).Aligns σ inKeyframes d fun ts => ts.length = ns.length ∧ ∀ t ∈ ts, Q t := by
  induction ns with
  | nil => exact aligns_pure ⟨rfl, by simp⟩
  | cons n ns ih =>
    obtain ⟨hn, hns⟩ := List.forall_mem_cons.1 h
    exact hn.bind fun t ht => (ih hns).bind fun ts hts =>
      aligns_pure ⟨congrArg (· + 1) hts.1, List.forall_mem_cons.2 ⟨ht, hts.2⟩⟩

private theorem ruleHead_aligns {rule : Option Nat} {n : Node} (h : n.IsRuleHead inKeyframes rule) :
    (node n).Aligns σ inKeyframes d fun t => Core anyStart d t ∨ Aligned anyStart d t := by
  cases n with
  | selector segments line => exact (selector_aligns h.2.1 h.1).mono fun _ => .inr
  | literal text line =>
    have core := core_of_word h.1 h.2 (Flows.inline (n := d) closed_inline.empty)
    rw [String.append_empty] at core
    exact aligns_pure (.inl core)
  | _ => exact h.elim

private theorem lead_of_reach {p : Pass} {line : Option Nat} (h : p.reach line = p) : p.lead line = p.indent := by
  cases line with
  | none => exact String.empty_append
  | some l =>
    have there : p.line = l := by
      rw [← h]
      rfl
    have nothing : p.owed l = 0 := by rw [Pass.owed, there, Nat.sub_self]
    rw [Pass.lead, Pass.breaksTo, nothing]
    exact String.empty_append

private theorem step_gives {p q : Pass} {rule : Option Nat} {n : Node} {t : String} (h : n.IsRuleHead true rule)
    (hp : p.Among true d) (there : p.reach rule = p) (hg : (node n).Gives σ p t q) : IsStep t ∧ q = p := by
  cases n with
  | selector segments line =>
    have headed : p.reach (segments.getLast?.bind Node.line) = p := by
      cases hl : segments.getLast?.bind Node.line with
      | none => rfl
      | some l => rw [← h.2.2 rfl l hl, there]
    obtain ⟨ts, hts, rfl⟩ := selector_gives hg
    rw [headed] at hts
    have head : (named segments (each segments)).Gives σ p (joinSegments segments ts) q :=
      gives_bind.2 ⟨ts, q, hts, gives_pure.2 ⟨rfl, rfl⟩⟩
    obtain ⟨⟨inline, solid⟩, rfl⟩ := named_rests_solid h.2.1 hp.still head
    have whole : Inline (q.lead (segments.getLast?.bind Node.line) ++ joinSegments segments ts) := by
      rw [lead_of_reach headed]
      exact closed_inline.append (closed_inline.indent q) inline
    exact ⟨isStep whole (ruleHead_aligns h hp hg).1, rfl⟩
  | literal text line =>
    obtain ⟨rfl, rfl⟩ := gives_pure.1 hg
    exact ⟨isStep h.1.inline (ruleHead_aligns (n := .literal t line) h hp hg).1, rfl⟩
  | _ => exact h.elim

private theorem steps_give {p q : Pass} {rule : Option Nat} {ns : List Node} {ts : List String}
    (h : ∀ n ∈ ns, n.IsRuleHead true rule) (hp : p.Among true d) (there : p.reach rule = p)
    (hg : (each ns).Gives σ p ts q) : (ts.length = ns.length ∧ ∀ t ∈ ts, IsStep t) ∧ q = p := by
  induction ns generalizing ts with
  | nil =>
    obtain ⟨rfl, rfl⟩ := gives_pure.1 hg
    simp
  | cons n ns ih =>
    obtain ⟨hn, hns⟩ := List.forall_mem_cons.1 h
    simp only [eachWith, gives_bind, gives_pure] at hg
    obtain ⟨t, r, ht, us, _, hus, rfl, rfl⟩ := hg
    obtain ⟨step, rfl⟩ := step_gives hn hp there ht
    obtain ⟨⟨length, steps⟩, rfl⟩ := ih hns hus
    exact ⟨⟨congrArg (· + 1) length, List.forall_mem_cons.2 ⟨step, steps⟩⟩, rfl⟩

private theorem extended_aligns {n : Node} (h : n.IsExtended) :
    (node n).Aligns σ inKeyframes d fun t => Inline (trimStart t) := by
  cases n with
  | selector segments line =>
    intro p t q hp hg
    obtain ⟨ts, hts, rfl⟩ := selector_gives hg
    obtain ⟨all, rfl⟩ := each_rests closed_inline segments h.inline (hp.reach _).still hts
    have margin : Margin anyStart d (p.lead (segments.getLast?.bind Node.line)) := margin_lead hp.depth _
    refine ⟨?_, hp.reach _⟩
    show Inline (trimStart _)
    rw [margin.trimStart]
    exact closed_inline.trimStart (closed_inline.joinSegments all)
  | _ => exact (node_rests_inert _ h).aligns.mono fun _ => closed_inline.trimStart

private theorem identifier_writesAt (quote : IsKeyQuote σ.quote) {id : Identifier Node} (bound : id.isBound)
    (hn : Inert id.name) (hv : ∀ v ∈ id.value, v.IsAssigned) :
    (node (.identifier id)).WritesAt σ d (Aligned anyStart d) := by
  obtain ⟨name, value, placeholder, rest, line⟩ := id
  cases value with
  | none => cases bound
  | some v =>
    have assigned : v.IsAssigned := hv v rfl
    cases v with
    | null => cases bound
    | expression e => exact assignment_writesAt hn (each_writesAt quote e.operands assigned)
    | callable =>
      have quiet : Node.Values Inert _ := assigned.self
      cases quiet.kind
    | _ => exact boundValue_writesAt hn (node_writesAt quote _ assigned)

private theorem declaration_aligns (quote : IsKeyQuote σ.quote) {segments : List Node} {value : Expression Node}
    {line : Option Nat} (hs : IsName segments) (hv : value.IsDeclared) :
    (node (.property segments value line)).Aligns σ inKeyframes d (Aligned anyStart d) := by
  rcases hv with simple | ⟨id, e, operands, bound, inert, assigned⟩
  · exact property_aligns hs simple
  · obtain ⟨_, l⟩ := value
    cases operands
    have name : (Expression.mk [.identifier id] l).inlineName? = some id.name := by
      simp [Expression.inlineName?, bound]
    refine property_inline_aligns hs name inert (expression_single_writesAt (identifier_writesAt quote ?_ inert ?_))
    · simp [Identifier.isBound, bound]
    · intro v hv
      rw [bound] at hv
      cases hv
      exact assigned

private theorem statement_aligns {n : Node} (h : n.Indents inKeyframes)
    (hn : (node n).Aligns σ inKeyframes d (Aligned anyStart d)) (previous : Option Nat) :
    (statement previous n).Aligns σ inKeyframes d fun t =>
      Flows d t ∧ (previous = none → Aligned anyStart d t) := by
  cases n with
  | comment c =>
    cases previous with
    | none =>
      have apart : (c.line.isSome && none == c.line) = false := by cases c.line <;> rfl
      show (comment c (c.line.isSome && none == c.line)).Aligns _ _ _ _
      rw [apart]
      exact (comment_aligns h.1 h.2).mono fun _ ht => ⟨.aligned ht, fun _ => ht⟩
    | some line => exact (comment_flows h.1 h.2 _).mono fun _ ht => ⟨ht, nofun⟩
  | _ => exact hn.mono fun _ ht => ⟨.aligned ht, fun _ => ht⟩

mutual

private theorem node_aligns (quote : IsKeyQuote σ.quote) {inKeyframes : Bool} {d : Nat} (n : Node)
    (h : n.Indents inKeyframes) :
    (node n).Aligns σ inKeyframes d (Aligned anyStart d) := by
  match n with
  | .identifier id => exact (identifier_writesAt quote h.1 h.2.1 h.2.2).aligns (node_stays _)
  | .property segments value line => exact declaration_aligns quote h.1 h.2
  | .ruleSet selectors (some b) line =>
    obtain ⟨some, heads, hb⟩ := h
    have given {ts : List String} (length : ts.length = selectors.length) : ts ≠ [] := by
      rintro rfl
      exact some (List.eq_nil_of_length_eq_zero length.symm)
    cases inKeyframes with
    | false =>
      have each := each_aligns (σ := σ) (d := d) fun s hs => ruleHead_aligns (heads s hs)
      exact ruleSet_aligns (each.mono fun _ hts => ⟨given hts.1, hts.2⟩) (body_aligns quote b hb)
    | true =>
      refine steps_aligns (fun p ts q hp there hg => ?_) (body_aligns quote b hb)
      obtain ⟨⟨length, steps⟩, same⟩ := steps_give heads hp there hg
      exact ⟨⟨given length, steps⟩, same⟩
  | .call name args none line =>
    obtain ⟨rfl, hn, ha⟩ := h
    exact call_aligns hn (each_rests closed_inline args ha.inline)
  | .media condition (some b) line =>
    exact conditionRule_aligns (by decide) (by decide) (node_rests_inert condition h.1) (body_aligns quote b h.2)
  | .supports condition (some b) line =>
    exact conditionRule_aligns (by decide) (by decide) (node_rests_inert condition h.1) (body_aligns quote b h.2)
  | .keyframes segments (some b) line =>
    exact keyframes_aligns (each_rests closed_inline segments h.1.inline) (body_aligns quote b h.2)
  | .atRule name segments none line => exact atRule_aligns h.1 (each_rests closed_inline segments h.2.1.inline)
  | .atRule name segments (some b) line =>
    have hb : BodyIndents inKeyframes (some b) := h.2.2.resolve_left (by simp)
    exact atRule_block_aligns h.1 (each_rests closed_inline segments h.2.1.inline) (body_aligns quote b hb)
  | .conditional condition (some b) alternatives negated line =>
    exact conditional_aligns (node_rests_inert condition h.1) (body_aligns quote b h.2.1)
      (alternatives_aligns quote alternatives h.2.2)
  | .loop item key (some e) (some b) line =>
    obtain ⟨hi, hk, ⟨e', he, operands⟩, hb⟩ := h
    cases he
    exact loop_aligns hi hk operands (ranges_rests closed_inline e.operands operands.inline)
      (each_rests closed_inline e.operands operands.inline) (body_aligns quote b hb)
  | .importSheet path line => exact importSheet_aligns h
  | .extend selectors line =>
    exact extend_aligns ((each_aligns fun s hs => extended_aligns (h.2 s hs)).mono fun _ => And.right)
  | .charset encoding line => exact charset_aligns h.1 h.2
  | .xmlNamespace value shortName line => exact xmlNamespace_aligns h.2 (node_rests_inert value h.1)
  | .comment c => exact comment_aligns h.1 h.2
  | .ruleSet _ none _ => exact h.2.2.elim
  | .media _ none _ | .supports _ none _ | .keyframes _ none _ => exact h.2.elim
  | .conditional _ none _ _ _ => exact h.2.1.elim
  | .loop _ _ none _ _ =>
    obtain ⟨-, -, ⟨e, he, -⟩, -⟩ := h
    cases he
  | .loop _ _ (some _) none _ => exact h.2.2.2.elim
  | .null | .literal .. | .number .. | .quoted _ | .boolean _ | .color _ | .expression _ | .arguments _ | .block _
  | .selector .. | .call _ _ (some _) _ | .callable .. | .returned .. | .binary .. | .unary .. | .queryList _
  | .query .. | .feature .. | .member .. | .mapLiteral .. => exact h.elim
termination_by structural n

private theorem body_aligns (quote : IsKeyQuote σ.quote) {inKeyframes : Bool} {d : Nat} (b : Body Node)
    (h : BodyIndents inKeyframes (some b)) : (body b).Aligns σ inKeyframes d (Flows d) := by
  obtain ⟨ns, line⟩ := b
  exact block_aligns ((statements_aligns quote none ns h).mono fun _ ht => ht.2 rfl)
termination_by structural b

theorem statements_aligns (quote : IsKeyQuote σ.quote) {inKeyframes : Bool} {d : Nat} (previous : Option Nat)
    (ns : List Node) (h : AllIndent inKeyframes ns) :
    (statements previous ns).Aligns σ inKeyframes d fun t => Flows d t ∧ (previous = none → Opens d t) := by
  match ns with
  | [] => exact aligns_pure ⟨Flows.inline closed_inline.empty, fun _ => .inl rfl⟩
  | n :: ns =>
    rw [statements_cons]
    exact (statement_aligns h.1 (node_aligns quote n h.1) previous).bind fun t ht =>
      (statements_aligns quote n.line ns h.2).bind fun u hu =>
        aligns_pure ⟨ht.1.append hu.1, fun none => .inr ((ht.2 none).append hu.1)⟩
termination_by structural ns

private theorem alternatives_aligns (quote : IsKeyQuote σ.quote) {inKeyframes : Bool} {d : Nat} (ns : List Node)
    (h : BranchesIndent inKeyframes ns) : (alternatives ns).Aligns σ inKeyframes d fun ts => ∀ t ∈ ts, Flows d t := by
  match ns with
  | [] => exact aligns_pure (by simp)
  | .conditional condition (some b) others negated line :: ns =>
    have branch : (chained (conditional .chained negated (node condition) (body b) (alternatives others))).Aligns σ
        inKeyframes d (Flows d) :=
      chained_aligns (conditional_flows (node_rests_inert condition h.1) (body_aligns quote b h.2.1)
        (alternatives_aligns quote others h.2.2.1))
    exact branch.bind fun t ht => (alternatives_aligns quote ns h.2.2.2).bind fun ts hts =>
      aligns_pure (List.forall_mem_cons.2 ⟨ht, hts⟩)
  | .block b :: ns =>
    have branch : (chained (otherwise (body b))).Aligns σ inKeyframes d (Flows d) :=
      chained_aligns (otherwise_aligns (body_aligns quote b h.1))
    exact branch.bind fun t ht => (alternatives_aligns quote ns h.2).bind fun ts hts =>
      aligns_pure (List.forall_mem_cons.2 ⟨ht, hts⟩)
termination_by structural ns

end

end Render

end Stylesheet
