import Stylesheet.Convert
import Stylesheet.Proofs.Constructs
import Stylesheet.Proofs.Parts

/-!
# The scope of a callable

Whether values are returned and which parameters are known belong to the callable being rendered. What a rendering
leaves of both is decided by its tree alone: without a definition in it they stay, and a definition, at any depth,
takes both away from all that is rendered after it.
-/

namespace Stylesheet

open Rendering

/-- What belongs to the callable being rendered. -/
structure Scope where
  returning : Bool := false
  params : List String := []
deriving DecidableEq

namespace Pass

def scope (p : Pass) : Scope := ⟨p.returning, p.registry.paramNames⟩

variable (p q : Pass) (line : Option Nat) (places : List Place) (name : String)

@[simp] theorem reach_scope : (p.reach line).scope = p.scope := by cases line <;> rfl

@[simp] theorem enter_scope : (p.enter places).scope = p.scope := rfl

@[simp] theorem leave_scope : (q.leave p).scope = q.scope := rfl

@[simp] theorem down_scope : p.down.scope = p.scope := rfl

@[simp] theorem up_scope : p.up.scope = p.scope := rfl

@[simp] theorem call_scope : (p.call name).scope = p.scope := rfl

@[simp] theorem hangUp_scope : (q.hangUp p).scope = q.scope := rfl

@[simp] theorem nextLine_scope : p.nextLine.scope = p.scope := rfl

@[simp] theorem addVariable_scope : (p.learn (·.addVariable name)).scope = p.scope := rfl

@[simp] theorem openDeclaration_scope : (p.learn (·.openDeclaration name)).scope = p.scope := rfl

@[simp] theorem closeDeclaration_scope (slot : Nat) (value : String) :
    (p.learn (·.closeDeclaration slot value)).scope = p.scope := rfl

@[simp] theorem inline_scope (slot : Nat) (value : String) :
    (p.learn fun r => (r.addVariable name).closeDeclaration slot value).scope = p.scope := rfl

@[simp] theorem knowingMap_scope (value : Expression Node) : (Render.knowingMap p name value).scope = p.scope := by
  unfold Render.knowingMap
  split <;> rfl

@[simp] theorem knowingItems_scope (key : Option String) : (Render.knowingItems p name key).scope = p.scope := by
  cases key <;> rfl

@[simp] theorem afterMap_scope (entries : Nat) : (Render.afterMap p line entries).scope = p.scope := by
  cases line <;> rfl

@[simp] theorem branchPass_scope (start : Render.BranchStart) : (Render.branchPass p start).scope = p.scope := by
  cases start with
  | leading line => exact reach_scope p line
  | chained => rfl

end Pass

def Node.Defines (n : Node) : Prop := ∃ m : Node, m.Occurs n ∧ m.isCallable

def Defined (ns : List Node) : Prop := ∃ n ∈ ns, n.Defines

@[simp] theorem not_defined_nil : ¬Defined [] := by simp [Defined]

@[simp] theorem defined_cons (n : Node) (ns : List Node) : Defined (n :: ns) ↔ n.Defines ∨ Defined ns := by
  simp [Defined]

@[simp] theorem defined_append (ns ms : List Node) : Defined (ns ++ ms) ↔ Defined ns ∨ Defined ms := by
  simp [Defined, or_and_right, exists_or]

theorem Node.defines_iff (n : Node) : n.Defines ↔ n.isCallable ∨ Defined n.parts := by
  constructor
  · rintro ⟨m, hm, hc⟩
    cases hm with
    | here => exact .inl hc
    | within inside held => exact .inr ⟨_, held, m, inside, hc⟩
  · rintro (hc | ⟨c, hc, m, hm, hd⟩)
    · exact ⟨n, .here n, hc⟩
    · exact ⟨m, .within hm hc, hd⟩

private theorem Node.not_defines_of_bareName (n : Node) {name : String} (h : n.bareName? = some name) : ¬n.Defines := by
  cases n with
  | identifier id =>
    obtain ⟨name, value, placeholder, rest, line⟩ := id
    cases value with
    | none => simp [Node.defines_iff, Node.isCallable]
    | some v =>
      cases v with
      | null => simp [Node.defines_iff, Node.isCallable]
      | _ => simp [Node.bareName?, Identifier.isBound] at h
  | _ => cases h

/-- The scope is lost if something is defined, and stays as it is otherwise. -/
structure Scoped (defines : Prop) (s s' : Scope) : Prop where
  lost : defines → s' = {}
  kept : ¬defines → s' = s

namespace Scoped

variable {s s' s'' : Scope} {d e : Prop}

theorem refl (s : Scope) : Scoped False s s := ⟨False.elim, fun _ => rfl⟩

/-- Of two runs in a row either can lose the scope. -/
theorem trans (first : Scoped d s s') (rest : Scoped e s' s'') : Scoped (d ∨ e) s s'' where
  lost h := by
    by_cases he : e
    · exact rest.lost he
    · rw [rest.kept he]
      exact first.lost (h.resolve_right he)
  kept h := by
    obtain ⟨hd, he⟩ := not_or.1 h
    rw [rest.kept he, first.kept hd]

end Scoped

namespace Render

variable {σ : Style} {p q : Pass}

private theorem withReturn_scope {content t : String} (h : (withReturn content).Gives σ p t q) : q.scope = p.scope := by
  rcases withReturn_gives h with ⟨-, -, rfl⟩ | ⟨-, -, rfl⟩ | ⟨-, r, hr, -⟩
  · rfl
  · rfl
  · obtain ⟨margin, -, ⟨-, rfl⟩ | ⟨-, rfl⟩⟩ := insertReturn_gives hr
    · rfl
    · exact p.nextLine_scope

private theorem comment_scope {c : Comment} {sameLine : Bool} {t : String} (h : (comment c sameLine).Gives σ p t q) :
    q.scope = p.scope := by
  rw [(comment_gives h).1, Pass.reach_scope]

private theorem callable_scope {name : String} {line : Option Nat} {kind : DefinitionKind} {names : List String}
    {params : Rendering (List String)} {body : Rendering String} {t : String}
    (h : (callable name line kind names params body).Gives σ p t q) : q.scope = {} := by
  obtain ⟨_, _, _, s, -, -, rfl, -⟩ := callable_gives h
  rfl

private theorem expression_scoped {d : Prop} (e : Expression Node) {texts : Rendering (List String)}
    (operands : ∀ {p q : Pass} {ts : List String}, texts.Gives σ p ts q → Scoped d p.scope q.scope) {t : String}
    (h : (expression e texts).Gives σ p t q) : Scoped d p.scope q.scope := by
  obtain ⟨before, start, ts, r, hs, hr, rfl, -⟩ := expression_gives h
  have same : start.scope = p.scope := by rcases hs with ⟨-, -, rfl⟩ | ⟨-, -, rfl⟩ <;> simp
  simpa [same] using operands hr

mutual

theorem node_scoped (n : Node) {p q : Pass} {t : String} (h : (node n).Gives σ p t q) :
    Scoped n.Defines p.scope q.scope := by
  rw [n.defines_iff]
  match n with
  | .callable _ _ none _ => exact absurd h gives_missing
  | .callable name ps (some b) line =>
    exact ⟨fun _ => callable_scope h, fun hd => absurd (.inl rfl) hd⟩
  | .null | .literal .. | .number .. | .quoted .. | .boolean _ | .color _ =>
    obtain ⟨-, rfl⟩ := gives_pure.1 h
    simpa [Node.isCallable] using Scoped.refl q.scope
  | .identifier ⟨name, value, placeholder, rest, line⟩ =>
    match value with
    | none =>
      obtain ⟨-, rfl⟩ := reference_gives h
      simpa [Node.isCallable] using Scoped.refl q.scope
    | some v =>
      have inside {p q : Pass} {t : String} (hv : (node v).Gives σ p t q) : Scoped v.Defines p.scope q.scope :=
        node_scoped v hv
      simp only [Node.isCallable, Node.parts, Option.toList_some, defined_cons, not_defined_nil, or_false,
        Bool.false_eq_true, false_or]
      cases v with
      | null =>
        obtain ⟨-, rfl⟩ := reference_gives h
        simpa [Node.defines_iff, Node.isCallable] using Scoped.refl q.scope
      | expression e =>
        obtain ⟨before, start, ts, r, hs, hr, rfl, -⟩ := assignment_gives h
        have same : start.scope = p.scope := by rcases hs with ⟨-, -, rfl⟩ | ⟨-, -, rfl⟩ <;> simp
        simpa [Node.defines_iff, Node.isCallable, same] using each_scoped e.operands hr
      | callable => exact inside h
      | _ =>
        obtain ⟨value, r, hr, rfl, -⟩ := boundValue_gives h
        simpa using inside hr
  | .expression e => simpa [Node.isCallable] using expression_scoped e (fun hr => each_scoped e.operands hr) h
  | .arguments args =>
    obtain ⟨ts, r, hr, rfl, -⟩ := arguments_gives h
    simpa [Node.isCallable] using each_scoped args hr
  | .block b => simpa [Node.isCallable] using body_scoped b h
  | .selector segments _ =>
    obtain ⟨ts, hr, -⟩ := selector_gives h
    simpa [Node.isCallable] using each_scoped segments hr
  | .ruleSet _ none _ => exact absurd h gives_missing
  | .ruleSet selectors (some b) _ =>
    obtain ⟨heads, r, content, hs, hb, -⟩ := ruleSet_gives h
    simpa [Node.isCallable] using (each_scoped selectors hs).trans (body_scoped b hb)
  | .property segments value _ =>
    obtain ⟨name, r, content, s, hn, hv, hq⟩ := property_gives h
    obtain ⟨ts, hs, -⟩ := named_gives hn
    have last : q.scope = s.scope := by rcases hq with ⟨inner, -, rfl, -⟩ | ⟨-, rfl, -⟩ <;> simp
    have content := expression_scoped value (fun hr => each_scoped value.operands hr) hv
    simpa [Node.isCallable, last] using (each_scoped segments hs).trans content
  | .call name args none _ =>
    obtain ⟨_, r, ha, ⟨-, rfl, -⟩ | ⟨b, _, hb, -⟩⟩ := call_gives h
    · obtain ⟨ts, s, hr, rfl, -⟩ := arguments_gives ha
      simpa [Node.isCallable] using each_scoped args hr
    · cases hb
  | .call name args (some b) _ =>
    obtain ⟨_, r, ha, ⟨hb, -⟩ | ⟨b', content, hb, hc, -⟩⟩ := call_gives h
    · cases hb
    · cases hb
      obtain ⟨ts, s, hr, rfl, -⟩ := arguments_gives ha
      have handed := body_scoped b hc
      simpa [Node.isCallable] using (each_scoped args hr).trans handed
  | .returned value _ =>
    obtain ⟨content, r, hr, rfl, -⟩ := returned_gives h
    simpa [Node.isCallable] using expression_scoped value (fun hr => each_scoped value.operands hr) hr
  | .conditional _ none _ _ _ => exact absurd h gives_missing
  | .conditional condition (some b) alts negated line =>
    obtain ⟨_, r, content, s, others, hc, hb, ho, -⟩ := conditional_gives h
    have branch := body_scoped b hb
    simpa [Node.isCallable, or_assoc] using
      ((node_scoped condition hc).trans branch).trans (alternatives_scoped alts ho)
  | .loop _ _ none _ _ => exact absurd h gives_missing
  | .loop _ _ (some _) none _ => exact absurd h gives_missing
  | .loop item key (some e) (some b) _ =>
    obtain ⟨ts, r, content, hi, hb, -⟩ := loop_gives h
    have items : Scoped (Defined e.operands) p.scope r.scope := by
      split at hi
      · simpa using ranges_scoped e.operands hi
      · simpa using each_scoped e.operands hi
    have repeated := body_scoped b hb
    simpa [Node.isCallable] using items.trans repeated
  | .binary _ left right =>
    simp only [nodeWith, gives_bind, gives_pure] at h
    obtain ⟨_, r, hl, _, _, hr, -, rfl⟩ := h
    simpa [Node.isCallable] using (node_scoped left hl).trans (node_scoped right hr)
  | .unary _ operand =>
    simp only [nodeWith, gives_bind, gives_pure] at h
    obtain ⟨_, r, ho, -, rfl⟩ := h
    simpa [Node.isCallable] using node_scoped operand ho
  | .keyframes _ none _ => exact absurd h gives_missing
  | .keyframes segments (some b) _ =>
    obtain ⟨ts, r, content, s, hs, hb, rfl, -⟩ := keyframes_gives h
    simpa [Node.isCallable] using (each_scoped segments hs).trans (body_scoped b hb)
  | .media _ none _ => exact absurd h gives_missing
  | .media query (some b) _ =>
    obtain ⟨_, r, content, hq, hb, -⟩ := conditionRule_gives h
    simpa [Node.isCallable] using (node_scoped query hq).trans (body_scoped b hb)
  | .queryList queries =>
    simp only [nodeWith, gives_bind, gives_pure] at h
    obtain ⟨_, r, hq, -, rfl⟩ := h
    simpa [Node.isCallable] using each_scoped queries hq
  | .query features medium _ =>
    simp only [nodeWith, gives_bind, gives_pure] at h
    obtain ⟨_, r, hm, _, _, hf, -, rfl⟩ := h
    simpa [Node.isCallable, or_comm] using (optional_scoped medium hm).trans (each_scoped features hf)
  | .feature segments none =>
    simp only [nodeWith, gives_bind, gives_pure] at h
    obtain ⟨_, r, hn, -, rfl⟩ := h
    obtain ⟨ts, hs, -⟩ := named_gives hn
    simpa [Node.isCallable] using each_scoped segments hs
  | .feature segments (some value) =>
    simp only [nodeWith, gives_bind, gives_pure] at h
    obtain ⟨_, r, hn, _, _, hv, -, rfl⟩ := h
    obtain ⟨ts, hs, -⟩ := named_gives hn
    have content := expression_scoped value (fun hr => each_scoped value.operands hr) hv
    simpa [Node.isCallable] using (each_scoped segments hs).trans content
  | .supports _ none _ => exact absurd h gives_missing
  | .supports condition (some b) _ =>
    obtain ⟨_, r, content, hc, hb, -⟩ := conditionRule_gives h
    simpa [Node.isCallable] using (node_scoped condition hc).trans (body_scoped b hb)
  | .xmlNamespace value _ _ =>
    obtain ⟨_, r, hr, rfl, -⟩ := xmlNamespace_gives h
    simpa [Node.isCallable] using node_scoped value hr
  | .charset _ _ =>
    rw [(charset_gives h).1]
    simpa [Node.isCallable] using Scoped.refl p.scope
  | .importSheet path _ =>
    obtain ⟨ts, hr, -⟩ := importSheet_gives h
    simpa [Node.isCallable] using each_scoped path.operands hr
  | .extend selectors _ =>
    obtain ⟨-, ts, hr, -⟩ := extend_gives h
    simpa [Node.isCallable] using each_scoped selectors hr
  | .atRule name segments none _ =>
    obtain ⟨ts, r, hs, ⟨-, rfl, -⟩ | ⟨b, _, hb, -⟩⟩ := atRule_gives h
    · simpa [Node.isCallable] using each_scoped segments hs
    · cases hb
  | .atRule name segments (some b) _ =>
    obtain ⟨ts, r, hs, ⟨hb, -⟩ | ⟨b', inner, hb, hi, -⟩⟩ := atRule_gives h
    · cases hb
    · cases hb
      simpa [Node.isCallable] using (each_scoped segments hs).trans (body_scoped b hi)
  | .comment c =>
    rw [comment_scope h]
    simpa [Node.isCallable] using Scoped.refl p.scope
  | .member left right =>
    obtain ⟨owner, r, key, ⟨hl, hr, -⟩ | ⟨hl, hr, -⟩⟩ := member_gives h
    · simpa [Node.isCallable] using (node_scoped left hl).trans (node_scoped right hr)
    · have first : Scoped left.Defines p.scope r.scope := by
        rcases hl with ⟨-, hl⟩ | ⟨⟨name, hn, -⟩, rfl⟩
        · exact node_scoped left hl
        · simpa [left.not_defines_of_bareName hn] using Scoped.refl r.scope
      have last : Scoped right.Defines r.scope q.scope := by
        rcases hr with ⟨-, hr⟩ | ⟨hn, rfl⟩
        · exact node_scoped right hr
        · simpa [right.not_defines_of_bareName hn] using Scoped.refl q.scope
      simpa [Node.isCallable] using first.trans last
  | .mapLiteral es _ =>
    obtain ⟨ts, r, hr, rfl, -⟩ := mapLiteral_gives h
    simpa [Node.isCallable] using entries_scoped es hr
termination_by structural n

theorem each_scoped (ns : List Node) {p q : Pass} {ts : List String} (h : (each ns).Gives σ p ts q) :
    Scoped (Defined ns) p.scope q.scope := by
  match ns with
  | [] =>
    obtain ⟨-, rfl⟩ := gives_pure.1 h
    simpa using Scoped.refl q.scope
  | n :: ns =>
    simp only [eachWith, gives_bind, gives_pure] at h
    obtain ⟨t, r, hn, us, _, hns, rfl, rfl⟩ := h
    simpa using (node_scoped n hn).trans (each_scoped ns hns)
termination_by structural ns

theorem body_scoped (b : Body Node) {p q : Pass} {t : String} (h : (Render.body b).Gives σ p t q) :
    Scoped (Defined b.statements) p.scope q.scope := by
  match b with
  | ⟨ss, _⟩ =>
    obtain ⟨content, r, content', r', hs, hw, rfl, -⟩ := block_gives h
    simpa [withReturn_scope hw] using statements_scoped none ss hs
termination_by structural b

theorem statements_scoped (previous : Option Nat) (ns : List Node) {p q : Pass} {t : String}
    (h : (statements previous ns).Gives σ p t q) : Scoped (Defined ns) p.scope q.scope := by
  match ns with
  | [] =>
    obtain ⟨-, rfl⟩ := gives_pure.1 h
    simpa using Scoped.refl q.scope
  | n :: ns =>
    rw [statements_cons] at h
    simp only [gives_bind, gives_pure] at h
    obtain ⟨t, r, hn, us, _, hns, rfl, rfl⟩ := h
    have first : Scoped n.Defines p.scope r.scope := by
      have inside (hm : (node n).Gives σ p t r) : Scoped n.Defines p.scope r.scope := node_scoped n hm
      cases n with
      | comment c =>
        rw [comment_scope hn]
        simpa [Node.defines_iff, Node.isCallable] using Scoped.refl p.scope
      | _ => exact inside hn
    simpa using first.trans (statements_scoped n.line ns hns)
termination_by structural ns

theorem alternatives_scoped (ns : List Node) {p q : Pass} {ts : List String}
    (h : (alternatives ns).Gives σ p ts q) : Scoped (Defined ns) p.scope q.scope := by
  match ns with
  | [] =>
    obtain ⟨-, rfl⟩ := gives_pure.1 h
    simpa using Scoped.refl q.scope
  | n :: ns =>
    rw [alternatives_cons] at h
    simp only [gives_bind, gives_pure] at h
    obtain ⟨t, r, hn, us, _, hns, rfl, rfl⟩ := h
    have first : Scoped n.Defines p.scope r.scope := by
      cases n with
      | conditional condition b alts negated line =>
        match b with
        | none => exact absurd hn gives_missing
        | some b =>
          obtain ⟨_, r, content, s, others, hc, hb, ho, -⟩ := conditional_gives (chained_gives hn)
          have branch := body_scoped b hb
          simpa [Node.defines_iff, Node.isCallable, or_assoc] using
            ((node_scoped condition hc).trans branch).trans (alternatives_scoped alts ho)
      | block b =>
        obtain ⟨content, hb, -⟩ := otherwise_gives (chained_gives hn)
        simpa [Node.defines_iff, Node.isCallable] using body_scoped b hb
      | _ => exact absurd hn gives_missing
    simpa using first.trans (alternatives_scoped ns hns)
termination_by structural ns

theorem ranges_scoped (ns : List Node) {p q : Pass} {ts : List String} (h : (ranges ns).Gives σ p ts q) :
    Scoped (Defined ns) p.scope q.scope := by
  match ns with
  | [] =>
    obtain ⟨-, rfl⟩ := gives_pure.1 h
    simpa using Scoped.refl q.scope
  | n :: ns =>
    rw [ranges_cons] at h
    simp only [gives_bind, gives_pure] at h
    obtain ⟨t, r, hn, us, _, hns, rfl, rfl⟩ := h
    have first : Scoped n.Defines p.scope r.scope := by
      have inside (hm : (node n).Gives σ p t r) : Scoped n.Defines p.scope r.scope := node_scoped n hm
      cases n with
      | binary operator left right =>
        simp only [range, gives_ite, gives_bind, gives_pure] at hn
        split at hn
        · obtain ⟨_, s, hl, _, _, hr, -, rfl⟩ := hn
          simpa [Node.defines_iff, Node.isCallable] using (node_scoped left hl).trans (node_scoped right hr)
        · exact inside hn
      | expression e =>
        simp only [range, gives_bind, gives_pure] at hn
        obtain ⟨_, s, hs, -, rfl⟩ := hn
        simpa [Node.defines_iff, Node.isCallable] using ranges_scoped e.operands hs
      | _ => exact inside hn
    simpa using first.trans (ranges_scoped ns hns)
termination_by structural ns

theorem optional_scoped (n : Option Node) {p q : Pass} {t : String} (h : (optional n).Gives σ p t q) :
    Scoped (Defined n.toList) p.scope q.scope := by
  match n with
  | none =>
    obtain ⟨-, rfl⟩ := gives_pure.1 h
    simpa using Scoped.refl q.scope
  | some n => simpa using node_scoped n h
termination_by structural n

private theorem entries_scoped (es : List (String × Node)) {p q : Pass} {ts : List (String × String)}
    (h : (entries es).Gives σ p ts q) : Scoped (Defined (es.map (·.2))) p.scope q.scope := by
  match es with
  | [] =>
    obtain ⟨-, rfl⟩ := gives_pure.1 h
    simpa using Scoped.refl q.scope
  | (key, n) :: es =>
    simp only [entriesWith, gives_bind, gives_pure] at h
    obtain ⟨t, r, hn, us, _, hes, rfl, rfl⟩ := h
    simpa using (node_scoped n hn).trans (entries_scoped es hes)
termination_by structural es

end

/-- A node in which nothing is defined leaves the scope as it is, and a definition anywhere in a node takes it away. So
the statements of a body keep the scope of their callable up to the first one with a definition in it, and those behind
that one are rendered as if they stood in no callable. -/
theorem scope_of_run (σ : Style) (p : Pass) :
    (∀ n t q, (node n).Gives σ p t q →
      (¬n.Defines → q.returning = p.returning ∧ q.registry.paramNames = p.registry.paramNames) ∧
      (n.Defines → q.returning = false ∧ q.registry.paramNames = [])) ∧
    ∀ previous before after t q, (statements previous (before ++ after)).Gives σ p t q → ∃ first r rest,
      (statements previous before).Gives σ p first r ∧
      (statements (lineAfter previous before) after).Gives σ r rest q ∧ t = first ++ rest ∧
      (¬Defined before → r.returning = p.returning ∧ r.registry.paramNames = p.registry.paramNames) ∧
      (Defined before → r.returning = false ∧ r.registry.paramNames = []) := by
  constructor
  · intro n t q h
    have whole := node_scoped n h
    exact ⟨fun hd => Scope.mk.inj (whole.kept hd), fun hd => Scope.mk.inj (whole.lost hd)⟩
  · intro previous before after t q h
    rw [statements_append] at h
    simp only [gives_bind, gives_pure] at h
    obtain ⟨first, r, hf, rest, _, hr, rfl, rfl⟩ := h
    have part := statements_scoped previous before hf
    exact ⟨first, r, rest, hf, hr, rfl, fun hd => Scope.mk.inj (part.kept hd), fun hd => Scope.mk.inj (part.lost hd)⟩

/-- Two statements of a function with a parameter, a definition and a value. -/
theorem scope_of_run_nested :
    let c : Identifier Node := { name := "c" }
    let declared : Node := .property [.literal "w" none] ⟨[.literal "1" none], none⟩ none
    let inner : Node := .callable "inner" [] (some ⟨[declared], none⟩) none
    let value : Node := .expression ⟨[.call "h" [.identifier c] none none], none⟩
    let p : Pass := { places := [.callableBody], returning := true, registry := { paramNames := ["c"] } }
    let t := "@mixin inner() \x7b\n  w: 1;\n\x7d\n@include h(c);"
    let q : Pass := { places := [.callableBody], registry := { declarations := [("w", some "1")] } }
    (statements none ([inner] ++ [value])).Gives {} p t q ∧ Defined [inner] ∧ ∃ first r rest,
      (statements none [inner]).Gives {} p first r ∧ (statements none [value]).Gives {} r rest q ∧ t = first ++ rest ∧
      r.returning = false ∧ r.registry.paramNames = [] := by
  intro c declared inner value p t q
  have run : (statements none ([inner] ++ [value])).Gives {} p t q := eq_ok_of_toOption (by decide +kernel)
  have defined : Defined [inner] := ⟨inner, by simp, inner, .here inner, rfl⟩
  obtain ⟨first, r, rest, hf, hr, ht, -, lost⟩ := (scope_of_run {} p).2 none [inner] [value] t q run
  exact ⟨run, defined, first, r, rest, hf, hr, ht, lost defined⟩

/-- In a function with a parameter, a definition in front of the value that the function returns. The value is neither
returned nor is the parameter known in its arguments, and the definition leaves a pass that returned values with none to
return and no parameter. -/
theorem scope_lost_behind_definition :
    let c : Identifier Node := { name := "c" }
    let declared : Node := .property [.literal "w" none] ⟨[.literal "1" none], none⟩ (some 3)
    let inner : Node := .callable "inner" [] (some ⟨[declared], none⟩) (some 2)
    let value : Node := .expression ⟨[.call "h" [.identifier c] none none], some 4⟩
    let p : Pass := { places := [.callableBody], returning := true, registry := { paramNames := ["c"] } }
    Sheet.convert ⟨[.callable "outer" [c] (some ⟨[inner, value], none⟩) (some 1)]⟩ {} =
        .ok "@function outer($c) \x7b\n  @mixin inner() \x7b\n    w: 1;\n  \x7d\n  @include h(c);\n\x7d\n" ∧
      ¬∀ t q, (node inner).Gives {} p t q →
        q.returning = p.returning ∧ q.registry.paramNames = p.registry.paramNames := by
  intro c declared inner value p
  refine ⟨eq_ok_of_toOption (by decide +kernel), fun kept => ?_⟩
  have run : (node inner).Gives {} p "\n@mixin inner() \x7b\n  w: 1;\n\x7d" { p with
      line := 3, returning := false, registry := { declarations := [("w", some "1")] } } :=
    eq_ok_of_toOption (by decide +kernel)
  cases (kept _ _ run).1

end Render

end Stylesheet
