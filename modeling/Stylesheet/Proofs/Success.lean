import Stylesheet.Convert
import Stylesheet.Proofs.Forms
import Stylesheet.Proofs.Parts
import Stylesheet.Proofs.Run

/-!
# Success of renderings

A sheet can be rendered if and only if no node that occurs in it lacks a part that it cannot be written without.
The style, the pass and the place in the tree do not matter, so every construct is about to run each of its parts
whatever the pass holds.
-/

namespace Stylesheet

open Rendering

namespace Node

/-- What may follow the first branch of a conditional: another conditional or a block. -/
def isAlternative (n : Node) : Bool := n.isConditional || n.isBlock

/-- Whether the node lacks a part that it cannot be written without. -/
@[simp] def isDeficient : Node → Bool
  | ruleSet _ b _ | media _ b _ | supports _ b _ | callable _ _ b _ => b.isNone
  | keyframes _ none _ => true
  | keyframes _ (some b) _ => (b.statements.head?.map isExpression).getD false
  | conditional _ b alternatives _ _ => b.isNone || !alternatives.all isAlternative
  | loop _ _ iterable b _ => iterable.isNone || b.isNone
  | extend selectors _ => selectors.isEmpty
  | _ => false

def Sufficient (n : Node) : Prop := n.isDeficient = false

instance (n : Node) : Decidable n.Sufficient := inferInstanceAs (Decidable (_ = _))

end Node

namespace Rendering

variable {α β : Type} {c d : Prop} {m : Rendering α} {f : α → Rendering β}

/-- From every pass and in every style, the rendering gives something exactly if `c` holds. -/
def SucceedsIff (m : Rendering α) (c : Prop) : Prop := ∀ σ p, (∃ a q, m.Gives σ p a q) ↔ c

private theorem SucceedsIff.of_iff (h : m.SucceedsIff c) (e : c ↔ d) : m.SucceedsIff d := fun σ p => (h σ p).trans e

theorem SucceedsIff.bind (hm : m.SucceedsIff c) (hf : ∀ a, (f a).SucceedsIff d) :
    (m >>= f).SucceedsIff (c ∧ d) := by
  intro σ p
  constructor
  · rintro ⟨b, r, h⟩
    obtain ⟨a, q, ha, hb⟩ := gives_bind.1 h
    exact ⟨(hm σ p).1 ⟨a, q, ha⟩, (hf a σ q).1 ⟨b, r, hb⟩⟩
  · rintro ⟨hc, hd⟩
    obtain ⟨a, q, ha⟩ := (hm σ p).2 hc
    obtain ⟨b, r, hb⟩ := (hf a σ q).2 hd
    exact ⟨b, r, gives_bind.2 ⟨a, q, ha, hb⟩⟩

/-- A first step that always succeeds adds no condition. -/
theorem SucceedsIff.after (hm : m.SucceedsIff True) (hf : ∀ a, (f a).SucceedsIff d) :
    (m >>= f).SucceedsIff d := (hm.bind hf).of_iff (by rw [true_and])

/-- Neither does a last one. -/
theorem SucceedsIff.before (hm : m.SucceedsIff c) (hf : ∀ a, (f a).SucceedsIff True) :
    (m >>= f).SucceedsIff c := (hm.bind hf).of_iff (by rw [and_true])

/-- A choice between two first steps that always succeed. -/
theorem SucceedsIff.either {b : Prop} [Decidable b] {m m' : Rendering α} (hm : m.SucceedsIff True)
    (hm' : m'.SucceedsIff True) (hf : ∀ a, (f a).SucceedsIff d) :
    (if b then m >>= f else m' >>= f).SucceedsIff d := by
  split
  · exact hm.after hf
  · exact hm'.after hf

/-- A first step that may be left out. -/
theorem SucceedsIff.perhaps {b : Prop} [Decidable b] {m : Rendering Unit} {f : Unit → Rendering β}
    (hm : m.SucceedsIff True) (hf : ∀ u, (f u).SucceedsIff d) :
    (if b then m >>= f else f ()).SucceedsIff d := by
  split
  · exact hm.after hf
  · exact hf ()

private theorem SucceedsIff.unless {b : Prop} [Decidable b] {m : Rendering Unit} {f : Unit → Rendering β}
    (hm : m.SucceedsIff False) (hf : ∀ u, (f u).SucceedsIff d) :
    (if b then m >>= f else f ()).SucceedsIff (¬ b ∧ d) := by
  by_cases hb : b
  · rw [if_pos hb]
    exact (hm.bind hf).of_iff (by simp [hb])
  · rw [if_neg hb]
    exact (hf ()).of_iff (by simp [hb])

/-- A step in place of another one, where something is known. -/
theorem SucceedsIff.elim {γ : Type} {o : Option γ} {known : γ → Rendering α} (hm : m.SucceedsIff c)
    (hk : ∀ x, (known x).SucceedsIff True) (ho : o.isSome → c) : (o.elim m known).SucceedsIff c := by
  cases o with
  | none => exact hm
  | some x => exact (hk x).of_iff (by simp [ho])

private theorem succeeds_pure (a : α) : (pure a : Rendering α).SucceedsIff True := fun σ p => by simp

private theorem fails_throw (e : Fault) : (throw e : Rendering α).SucceedsIff False := fun σ p => by simp

private theorem fails_missing (kind : Kind) (part : NeededPart) :
    (missing kind part : Rendering α).SucceedsIff False := fails_throw _

private theorem succeeds_read : (read : Rendering Style).SucceedsIff True := fun σ p => by simp

private theorem succeeds_modify (f : Pass → Pass) : (modify f : Rendering Unit).SucceedsIff True := fun σ p => by simp

private theorem succeeds_dialect : dialect.SucceedsIff True := fun σ p => by simp

private theorem succeeds_observe (view : Pass → α) : (observe view).SucceedsIff True := fun σ p => by simp

private theorem succeeds_indent : indent.SucceedsIff True := fun σ p => by simp

private theorem succeeds_register (change : Registry → Registry) : (register change).SucceedsIff True :=
  succeeds_modify _

private theorem succeeds_variableRef (name : String) : (variableRef name).SucceedsIff True := fun σ p => by simp

private theorem succeeds_lineBreaks (line : Option Nat) : (lineBreaks line).SucceedsIff True := fun σ p => by simp

private theorem succeeds_lineStart (line : Option Nat) : (lineStart line).SucceedsIff True := fun σ p => by simp

theorem SucceedsIff.within (places : List Place) (h : m.SucceedsIff c) : (within places m).SucceedsIff c := by
  intro σ p
  rw [← h σ (p.enter places)]
  constructor
  · rintro ⟨a, r, hr⟩
    obtain ⟨q, hm, rfl⟩ := gives_within.1 hr
    exact ⟨a, q, hm⟩
  · rintro ⟨a, q, hm⟩
    exact ⟨a, _, gives_within.2 ⟨q, hm, rfl⟩⟩

theorem SucceedsIff.deeper (h : m.SucceedsIff c) : (deeper m).SucceedsIff c :=
  (succeeds_modify _).after fun _ => h.before fun a => (succeeds_modify _).after fun _ => succeeds_pure a

theorem SucceedsIff.calling (name : String) (h : m.SucceedsIff c) : (calling name m).SucceedsIff c :=
  (succeeds_observe _).after fun _ => (succeeds_modify _).after fun _ =>
    (h.within _).before fun a => (succeeds_modify _).after fun _ => succeeds_pure a

end Rendering

namespace Render

variable {c d e : Prop} {line : Option Nat} {text body : Rendering String} {texts : Rendering (List String)}

private theorem named_succeedsIff (segments : List Node) (h : texts.SucceedsIff c) :
    (named segments texts).SucceedsIff c := h.before fun _ => succeeds_pure _

theorem insertReturn_succeeds (keyword content : String) : (insertReturn keyword content).SucceedsIff True := by
  dsimp only [insertReturn]
  split
  · exact succeeds_pure _
  · exact (succeeds_modify _).after fun _ => succeeds_indent.after fun _ => succeeds_pure _

private theorem withReturn_succeeds (content : String) : (withReturn content).SucceedsIff True := by
  refine (succeeds_observe _).after fun inCallable => (succeeds_observe _).after fun returning => ?_
  split
  · exact succeeds_dialect.after fun _ =>
      .either (succeeds_pure _) (insertReturn_succeeds _ _) fun _ => succeeds_pure _
  · exact succeeds_pure _

private theorem block_succeedsIff (h : text.SucceedsIff c) : (block text).SucceedsIff c := by
  refine SucceedsIff.before (SucceedsIff.deeper (h.before fun content => ?_)) fun _ => ?_
  · refine (withReturn_succeeds content).after fun content => ?_
    split
    · exact succeeds_pure _
    · exact succeeds_indent.after fun _ => succeeds_pure _
  · exact succeeds_indent.after fun _ => succeeds_pure _

private theorem selector_succeedsIff (segments : List Node) (h : texts.SucceedsIff c) :
    (selector segments texts).SucceedsIff c :=
  (succeeds_lineStart _).after fun _ => (named_succeedsIff segments h).before fun _ => succeeds_pure _

private theorem ruleSet_succeedsIff (hs : texts.SucceedsIff c) (hb : body.SucceedsIff d) :
    (ruleSet line texts body).SucceedsIff (c ∧ d) :=
  (succeeds_lineStart _).after fun _ => hs.bind fun _ =>
    hb.before fun _ => (succeeds_observe _).after fun _ => succeeds_pure _

private theorem reference_succeeds (id : Identifier Node) : (reference id).SucceedsIff True :=
  succeeds_dialect.after fun _ => succeeds_observe _

private theorem assignment_succeedsIff (name : String) (value : Expression Node) (h : texts.SucceedsIff c) :
    (assignment name value texts).SucceedsIff c := by
  unfold assignment
  refine .perhaps (succeeds_register _) fun _ => (succeeds_observe _).after fun inCall => ?_
  refine .either (succeeds_pure _) (succeeds_lineStart _) fun before => ?_
  exact (h.within _).before fun _ => (succeeds_register _).after fun _ =>
    (succeeds_variableRef _).after fun _ => succeeds_pure _

private theorem boundValue_succeedsIff (name : String) (h : text.SucceedsIff c) :
    (boundValue name line text).SucceedsIff c :=
  (succeeds_lineStart _).after fun _ => (h.within _).before fun _ => (succeeds_register _).after fun _ =>
    (succeeds_variableRef _).after fun _ => succeeds_pure _

private theorem property_succeedsIff (value : Expression Node) (hn : text.SucceedsIff c) (hv : body.SucceedsIff d) :
    (property line text value body).SucceedsIff (c ∧ d) := by
  refine (succeeds_lineStart _).after fun before => SucceedsIff.within _ (hn.bind fun name => ?_)
  refine (succeeds_observe _).after fun slot => (succeeds_register _).after fun _ => hv.before fun text => ?_
  split
  · exact (succeeds_variableRef _).after fun _ => (succeeds_register _).after fun _ =>
      succeeds_indent.after fun _ => succeeds_pure _
  · exact (succeeds_register _).after fun _ => succeeds_pure _

private theorem returnStart_succeeds (line : Option Nat) : (returnStart line).SucceedsIff True :=
  (succeeds_lineStart _).after fun _ => succeeds_dialect.after fun _ => succeeds_pure _

private theorem expression_succeedsIff (e : Expression Node) (h : texts.SucceedsIff c) :
    (expression e texts).SucceedsIff c := by
  refine (succeeds_observe _).after fun inside => (succeeds_observe _).after fun inValue =>
    (succeeds_observe _).after fun returned => ?_
  refine .either (returnStart_succeeds _) (succeeds_pure _) fun before => ?_
  exact (h.within _).before fun _ => (succeeds_observe _).after fun _ => succeeds_pure _

private theorem arguments_succeedsIff (h : texts.SucceedsIff c) : (arguments texts).SucceedsIff c :=
  SucceedsIff.within _ (h.before fun _ => succeeds_pure _)

private theorem inclusionStart_succeeds (owed : String) : (inclusionStart owed).SucceedsIff True :=
  succeeds_indent.after fun _ => succeeds_dialect.after fun _ => succeeds_pure _

private theorem call_succeedsIff (name : String) (h : texts.SucceedsIff c) :
    (call name line texts none).SucceedsIff c := by
  refine (succeeds_lineBreaks _).after fun owed => (succeeds_observe _).after fun inside =>
    (succeeds_observe _).after fun statement => ?_
  refine .either (inclusionStart_succeeds _) (succeeds_pure _) fun before => ?_
  exact ((arguments_succeedsIff h).calling name).before fun _ => succeeds_pure _

private theorem call_block_succeedsIff (name : String) (h : texts.SucceedsIff c) (hb : body.SucceedsIff d) :
    (call name line texts (some body)).SucceedsIff (c ∧ d) := by
  refine (succeeds_lineBreaks _).after fun owed => (succeeds_observe _).after fun inside =>
    (succeeds_observe _).after fun statement => ?_
  refine .either (inclusionStart_succeeds _) (succeeds_pure _) fun before => ?_
  exact ((arguments_succeedsIff h).calling name).bind fun _ => hb.before fun _ => succeeds_pure _

private theorem callable_succeedsIff (name : String) (kind : DefinitionKind) (names : List String)
    (hp : texts.SucceedsIff c) (hb : body.SucceedsIff d) :
    (callable name line kind names texts body).SucceedsIff (c ∧ d) := by
  refine (succeeds_lineStart _).after fun before => (succeeds_register _).after fun _ =>
    (succeeds_modify _).after fun _ => SucceedsIff.before ?_ fun parts => ?_
  · exact SucceedsIff.within _ (hp.bind fun _ => hb.before fun _ => succeeds_pure _)
  · exact (succeeds_modify _).after fun _ => (succeeds_register _).after fun _ =>
      succeeds_dialect.after fun _ => succeeds_pure _

private theorem param_succeedsIff (id : Identifier Node) (h : text.SucceedsIff c) (unbound : id.isBound = false → c) :
    (param id text).SucceedsIff c := by
  unfold param
  refine (succeeds_variableRef _).after fun name => ?_
  by_cases hb : id.isBound
  · simp only [hb, if_true]
    exact ((h.within _).before fun _ => succeeds_pure _).before fun _ =>
      (succeeds_register _).after fun _ => succeeds_pure _
  · simp only [hb]
    refine SucceedsIff.of_iff (c := True) ?_ (by simp [unbound (by simpa using hb)])
    exact (succeeds_pure _).after fun _ => (succeeds_register _).after fun _ => succeeds_pure _

private theorem returned_succeedsIff (h : text.SucceedsIff c) : (returned line text).SucceedsIff c :=
  (succeeds_lineStart _).after fun _ => (h.within _).before fun _ =>
    succeeds_dialect.after fun _ => succeeds_pure _

private theorem branchStart_succeeds (start : BranchStart) : start.text.SucceedsIff True := by
  cases start with
  | leading line => exact (succeeds_lineStart _).after fun _ => succeeds_pure _
  | chained => exact succeeds_pure _

private theorem conditional_succeedsIff (start : BranchStart) (negated : Bool) (hc : text.SucceedsIff c)
    (hb : body.SucceedsIff d) (ha : texts.SucceedsIff e) :
    (conditional start negated text body texts).SucceedsIff (c ∧ d ∧ e) :=
  (branchStart_succeeds _).after fun _ => (hc.within _).bind fun _ => hb.bind fun _ =>
    ha.before fun _ => succeeds_pure _

private theorem chained_succeedsIff (h : text.SucceedsIff c) : (chained text).SucceedsIff c :=
  (succeeds_modify _).after fun _ => h

private theorem otherwise_succeedsIff (h : body.SucceedsIff c) : (otherwise body).SucceedsIff c :=
  h.before fun _ => succeeds_pure _

private theorem loop_succeedsIff (item : String) (key : Option String) (iterable : Expression Node)
    {items : Rendering (List String)} (hr : texts.SucceedsIff c) (hi : items.SucceedsIff c)
    (hb : body.SucceedsIff d) : (loop item key line iterable texts items body).SucceedsIff (c ∧ d) := by
  have head : ∀ key, (Rendering.within [.condition] <|
      if (firstRange? iterable.operands).isSome then forHead item texts
      else eachHead item key iterable.operands items).SucceedsIff c := by
    intro key
    apply SucceedsIff.within
    split
    · exact hr.before fun _ => (succeeds_variableRef _).after fun _ => succeeds_pure _
    · exact succeeds_dialect.after fun _ => hi.before fun _ => succeeds_pure _
  refine (succeeds_lineStart _).after fun before => (succeeds_register _).after fun _ => ?_
  cases key with
  | none => exact (head none).bind fun _ => hb.before fun _ => succeeds_pure _
  | some key =>
    exact (succeeds_register _).after fun _ => (head (some key)).bind fun _ => hb.before fun _ => succeeds_pure _

private theorem keyframes_succeedsIff (segments statements : List Node) (hs : texts.SucceedsIff c)
    (hb : body.SucceedsIff d) : (keyframes line segments statements texts body).SucceedsIff
      (c ∧ ¬ (statements.head?.map Node.isExpression).getD false ∧ d) := by
  refine SucceedsIff.within _ ((succeeds_lineStart _).after fun before =>
    (named_succeedsIff segments hs).bind fun name => ?_)
  refine .unless (fails_throw _) fun _ => ?_
  exact hb.before fun _ => succeeds_read.after fun _ => succeeds_indent.after fun _ => succeeds_pure _

private theorem conditionRule_succeedsIff (keyword : String) (hc : text.SucceedsIff c) (hb : body.SucceedsIff d) :
    (conditionRule keyword line text body).SucceedsIff (c ∧ d) :=
  (succeeds_lineStart _).after fun _ => hc.bind fun _ => hb.before fun _ => succeeds_pure _

private theorem xmlNamespace_succeedsIff (shortName : Option String) (h : text.SucceedsIff c) :
    (xmlNamespace line shortName text).SucceedsIff c :=
  (succeeds_lineStart _).after fun _ => (h.within _).before fun _ => succeeds_pure _

private theorem charset_succeeds (line : Option Nat) (encoding : QuotedText) :
    (charset line encoding).SucceedsIff True := (succeeds_lineStart _).after fun _ => succeeds_pure _

private theorem importSheet_succeedsIff (pieces : List Node) (h : texts.SucceedsIff c) :
    (importSheet line pieces texts).SucceedsIff c :=
  (succeeds_lineStart _).after fun _ => succeeds_dialect.after fun _ => h.before fun _ => succeeds_pure _

private theorem extend_succeedsIff (selectors : List Node) (h : texts.SucceedsIff c) :
    (extend line selectors texts).SucceedsIff (¬ selectors.isEmpty ∧ c) := by
  unfold extend
  refine .unless (fails_missing _ _) fun _ => ?_
  exact (succeeds_lineStart _).after fun _ => h.before fun _ => succeeds_pure _

private theorem atRule_succeedsIff (name : String) (segments : List Node) (h : texts.SucceedsIff c) :
    (atRule name line segments texts none).SucceedsIff c :=
  (succeeds_lineStart _).after fun _ => h.before fun _ => succeeds_pure _

private theorem atRule_block_succeedsIff (name : String) (segments : List Node) (h : texts.SucceedsIff c)
    (hb : body.SucceedsIff d) : (atRule name line segments texts (some body)).SucceedsIff (c ∧ d) :=
  (succeeds_lineStart _).after fun _ => h.bind fun _ => hb.before fun _ => succeeds_pure _

theorem comment_succeeds (k : Comment) (sameLine : Bool) : (comment k sameLine).SucceedsIff True := by
  unfold comment
  refine .either (succeeds_pure _) (succeeds_lineStart _) fun before => ?_
  cases k.line with
  | none => exact succeeds_pure _
  | some line => exact (succeeds_modify _).after fun _ => succeeds_pure _

private theorem member_succeedsIff (left right : Node) (hl : text.SucceedsIff c) (hr : body.SucceedsIff d)
    (leftBare : left.bareName?.isSome → c) (rightBare : right.bareName?.isSome → d) :
    (member left right text body).SucceedsIff (c ∧ d) := by
  rw [member_eq]
  refine (succeeds_observe _).after fun ofMap => ?_
  split
  · refine (hl.elim succeeds_variableRef leftBare).bind fun owner => ?_
    exact (hr.elim succeeds_pure rightBare).before fun key => succeeds_read.after fun _ => succeeds_pure _
  · exact hl.bind fun _ => hr.before fun _ => succeeds_pure _

private theorem mapLiteral_succeedsIff {es : Rendering (List (String × String))} (h : es.SucceedsIff c) :
    (mapLiteral line es).SucceedsIff c := by
  refine succeeds_read.after fun style => SucceedsIff.before (SucceedsIff.deeper ?_) fun es => ?_
  · exact succeeds_indent.after fun _ => (h.within _).before fun _ => succeeds_pure _
  · cases line with
    | none => exact succeeds_indent.after fun _ => succeeds_pure _
    | some line => exact (succeeds_modify _).after fun _ => succeeds_indent.after fun _ => succeeds_pure _

variable {n : Node}

/-- The condition on a node, taken apart. -/
theorem every_sufficient_iff (n : Node) :
    n.Every Node.Sufficient ↔ n.isDeficient = false ∧ EveryIn Node.Sufficient n.parts :=
  Node.every_iff_everyIn n

private theorem everyIn_value_of_unbound {id : Identifier Node} (h : id.isBound = false) :
    EveryIn Node.Sufficient id.value.toList := by
  rcases id with ⟨_, value, _⟩
  match value with
  | none => simp
  | some .null => simp [every_sufficient_iff]

private theorem every_sufficient_of_bareName (h : n.bareName?.isSome) : n.Every Node.Sufficient := by
  cases n with
  | identifier id =>
    have hb : id.isBound = false := by simpa [Node.bareName?] using h
    exact (every_sufficient_iff _).2 ⟨rfl, everyIn_value_of_unbound hb⟩
  | _ => simp [Node.bareName?] at h

private theorem every_sufficient_conditional (condition : Node) (b : Body Node) (alts : List Node) (negated : Bool)
    (line : Option Nat) :
    (condition.Every Node.Sufficient ∧ EveryIn Node.Sufficient b.statements ∧
        alts.all Node.isAlternative ∧ EveryIn Node.Sufficient alts) ↔
      (Node.conditional condition (some b) alts negated line).Every Node.Sufficient := by
  rw [every_sufficient_iff (.conditional condition (some b) alts negated line)]
  simp only [Node.isDeficient, Node.parts, statementsOf, everyIn_append, everyIn_cons]
  constructor
  · rintro ⟨hc, hb, ha, hs⟩
    exact ⟨by simp [ha], ⟨hc, hb⟩, hs⟩
  · rintro ⟨ha, ⟨hc, hb⟩, hs⟩
    exact ⟨hc, hb, by simpa using ha, hs⟩

mutual

theorem node_succeedsIff (n : Node) : (node n).SucceedsIff (n.Every Node.Sufficient) := by
  refine SucceedsIff.of_iff ?_ (every_sufficient_iff n).symm
  match n with
  | .null | .literal .. | .number .. | .quoted .. | .boolean _ | .color _ =>
    exact (succeeds_pure _).of_iff (by simp)
  | .identifier ⟨name, value, placeholder, rest, line⟩ =>
    refine SucceedsIff.of_iff (c := EveryIn Node.Sufficient value.toList) ?_ (by simp)
    match value with
    | none => exact (reference_succeeds _).of_iff (by simp)
    | some v =>
      have hv := node_succeedsIff v
      cases v with
      | null => exact (reference_succeeds _).of_iff (by simp [every_sufficient_iff .null])
      | expression e =>
        exact (assignment_succeedsIff name e (each_succeedsIff e.operands)).of_iff
          (by simp [every_sufficient_iff (.expression e)])
      | callable => exact hv.of_iff (by simp)
      | _ => exact (boundValue_succeedsIff name hv).of_iff (by simp)
  | .expression e => exact (expression_succeedsIff e (each_succeedsIff e.operands)).of_iff (by simp)
  | .arguments args => exact (arguments_succeedsIff (each_succeedsIff args)).of_iff (by simp)
  | .block b => exact (body_succeedsIff b).of_iff (by simp)
  | .selector segments _ => exact (selector_succeedsIff segments (each_succeedsIff segments)).of_iff (by simp)
  | .ruleSet _ none _ => exact (fails_missing _ _).of_iff (by simp)
  | .ruleSet selectors (some b) _ =>
    exact (ruleSet_succeedsIff (each_succeedsIff selectors) (body_succeedsIff b)).of_iff (by simp)
  | .property segments value _ =>
    exact (property_succeedsIff value (named_succeedsIff segments (each_succeedsIff segments))
      (expression_succeedsIff value (each_succeedsIff value.operands))).of_iff (by simp)
  | .call name args none _ => exact (call_succeedsIff name (each_succeedsIff args)).of_iff (by simp)
  | .call name args (some b) _ =>
    exact (call_block_succeedsIff name (each_succeedsIff args) (body_succeedsIff b)).of_iff (by simp)
  | .callable _ _ none _ => exact (fails_missing _ _).of_iff (by simp)
  | .callable name ps (some b) _ =>
    exact (callable_succeedsIff name _ _ (params_succeedsIff ps) (body_succeedsIff b)).of_iff (by simp)
  | .returned value _ =>
    exact (returned_succeedsIff (expression_succeedsIff value (each_succeedsIff value.operands))).of_iff (by simp)
  | .conditional _ none _ _ _ => exact (fails_missing _ _).of_iff (by simp)
  | .conditional condition (some b) alts negated line =>
    refine SucceedsIff.of_iff (conditional_succeedsIff (.leading line) negated (node_succeedsIff condition)
      (body_succeedsIff b) (alternatives_succeedsIff alts)) ?_
    rw [every_sufficient_conditional, every_sufficient_iff]
  | .loop _ _ none _ _ => exact (fails_missing _ _).of_iff (by simp)
  | .loop _ _ (some _) none _ => exact (fails_missing _ _).of_iff (by simp)
  | .loop item key (some e) (some b) _ =>
    exact (loop_succeedsIff item key e (ranges_succeedsIff e.operands) (each_succeedsIff e.operands)
      (body_succeedsIff b)).of_iff (by simp)
  | .binary _ left right =>
    exact ((node_succeedsIff left).bind fun _ => (node_succeedsIff right).before fun _ =>
      succeeds_pure _).of_iff (by simp)
  | .unary _ operand => exact ((node_succeedsIff operand).before fun _ => succeeds_pure _).of_iff (by simp)
  | .keyframes _ none _ => exact (fails_missing _ _).of_iff (by simp)
  | .keyframes segments (some b) _ =>
    exact (keyframes_succeedsIff segments b.statements (each_succeedsIff segments) (body_succeedsIff b)).of_iff
      (by simp [and_left_comm])
  | .media _ none _ => exact (fails_missing _ _).of_iff (by simp)
  | .media q (some b) _ =>
    exact (conditionRule_succeedsIff _ (node_succeedsIff q) (body_succeedsIff b)).of_iff (by simp)
  | .queryList queries => exact ((each_succeedsIff queries).before fun _ => succeeds_pure _).of_iff (by simp)
  | .query features medium _ =>
    exact ((optional_succeedsIff medium).bind fun _ => (each_succeedsIff features).before fun _ =>
      succeeds_pure _).of_iff (by simp [and_comm])
  | .feature segments none =>
    exact ((named_succeedsIff segments (each_succeedsIff segments)).before fun _ => succeeds_pure _).of_iff (by simp)
  | .feature segments (some value) =>
    exact ((named_succeedsIff segments (each_succeedsIff segments)).bind fun _ =>
      (expression_succeedsIff value (each_succeedsIff value.operands)).before fun _ => succeeds_pure _).of_iff
        (by simp)
  | .supports _ none _ => exact (fails_missing _ _).of_iff (by simp)
  | .supports condition (some b) _ =>
    exact (conditionRule_succeedsIff _ (node_succeedsIff condition) (body_succeedsIff b)).of_iff (by simp)
  | .xmlNamespace value shortName _ =>
    exact (xmlNamespace_succeedsIff shortName (node_succeedsIff value)).of_iff (by simp)
  | .charset encoding line => exact (charset_succeeds line encoding).of_iff (by simp)
  | .importSheet path _ =>
    exact (importSheet_succeedsIff path.operands (each_succeedsIff path.operands)).of_iff (by simp)
  | .extend selectors _ => exact (extend_succeedsIff selectors (each_succeedsIff selectors)).of_iff (by simp)
  | .atRule name segments none _ =>
    exact (atRule_succeedsIff name segments (each_succeedsIff segments)).of_iff (by simp)
  | .atRule name segments (some b) _ =>
    exact (atRule_block_succeedsIff name segments (each_succeedsIff segments) (body_succeedsIff b)).of_iff (by simp)
  | .comment c => exact (comment_succeeds c false).of_iff (by simp)
  | .member left right =>
    exact (member_succeedsIff left right (node_succeedsIff left) (node_succeedsIff right)
      every_sufficient_of_bareName every_sufficient_of_bareName).of_iff (by simp)
  | .mapLiteral es _ => exact (mapLiteral_succeedsIff (entries_succeedsIff es)).of_iff (by simp)
termination_by structural n

private theorem each_succeedsIff (ns : List Node) : (each ns).SucceedsIff (EveryIn Node.Sufficient ns) := by
  match ns with
  | [] => exact (succeeds_pure _).of_iff (by simp)
  | n :: ns =>
    rw [everyIn_cons]
    exact (node_succeedsIff n).bind fun _ => (each_succeedsIff ns).before fun _ => succeeds_pure _
termination_by structural ns

private theorem body_succeedsIff (b : Body Node) :
    (Render.body b).SucceedsIff (EveryIn Node.Sufficient b.statements) := by
  match b with
  | ⟨ss, _⟩ => exact block_succeedsIff (statements_succeedsIff none ss)
termination_by structural b

private theorem optional_succeedsIff (n : Option Node) :
    (optional n).SucceedsIff (EveryIn Node.Sufficient n.toList) := by
  match n with
  | none => exact (succeeds_pure _).of_iff (by simp)
  | some n => exact (node_succeedsIff n).of_iff (by simp)
termination_by structural n

theorem statements_succeedsIff (previous : Option Nat) (ns : List Node) :
    (statements previous ns).SucceedsIff (EveryIn Node.Sufficient ns) := by
  match ns with
  | [] => exact (succeeds_pure _).of_iff (by simp)
  | n :: ns =>
    have hn := node_succeedsIff n
    have hs : (statement previous n).SucceedsIff (n.Every Node.Sufficient) := by
      cases n with
      | comment c => exact (comment_succeeds c _).of_iff (by simp [every_sufficient_iff (.comment c)])
      | _ => exact hn
    rw [statements_cons, everyIn_cons]
    exact hs.bind fun _ => (statements_succeedsIff n.line ns).before fun _ => succeeds_pure _
termination_by structural ns

private theorem alternatives_succeedsIff (ns : List Node) : (alternatives ns).SucceedsIff
    (ns.all Node.isAlternative ∧ EveryIn Node.Sufficient ns) := by
  match ns with
  | [] => exact (succeeds_pure _).of_iff (by simp)
  | n :: ns =>
    have hn : (alternative n).SucceedsIff (n.isAlternative ∧ n.Every Node.Sufficient) := by
      cases n with
      | conditional condition b alts negated line =>
        match b with
        | none => exact (fails_missing _ _).of_iff (by simp [every_sufficient_iff (.conditional ..)])
        | some b =>
          refine SucceedsIff.of_iff (chained_succeedsIff (conditional_succeedsIff .chained negated
            (node_succeedsIff condition) (body_succeedsIff b) (alternatives_succeedsIff alts))) ?_
          rw [every_sufficient_conditional condition b alts negated line]
          simp [Node.isAlternative, Node.isConditional]
      | block b =>
        exact (chained_succeedsIff (otherwise_succeedsIff (body_succeedsIff b))).of_iff
          (by simp [every_sufficient_iff (.block b), Node.isAlternative, Node.isBlock])
      | _ =>
        exact (fails_missing _ _).of_iff (by simp [Node.isAlternative, Node.isConditional, Node.isBlock])
    rw [alternatives_cons, everyIn_cons, List.all_cons]
    refine SucceedsIff.of_iff (hn.bind fun _ => (alternatives_succeedsIff ns).before fun _ => succeeds_pure _) ?_
    rw [Bool.and_eq_true]
    exact and_and_and_comm
termination_by structural ns

private theorem ranges_succeedsIff (ns : List Node) : (ranges ns).SucceedsIff (EveryIn Node.Sufficient ns) := by
  match ns with
  | [] => exact (succeeds_pure _).of_iff (by simp)
  | n :: ns =>
    have hn := node_succeedsIff n
    have hr : (range n).SucceedsIff (n.Every Node.Sufficient) := by
      cases n with
      | binary operator left right =>
        simp only [range]
        split
        · exact ((node_succeedsIff left).bind fun _ => (node_succeedsIff right).before fun _ =>
            succeeds_pure _).of_iff (by simp [every_sufficient_iff (.binary operator left right)])
        · exact hn
      | expression e =>
        exact ((ranges_succeedsIff e.operands).before fun _ => succeeds_pure _).of_iff
          (by simp [every_sufficient_iff (.expression e)])
      | _ => exact hn
    rw [ranges_cons, everyIn_cons]
    exact hr.bind fun _ => (ranges_succeedsIff ns).before fun _ => succeeds_pure _
termination_by structural ns

private theorem params_succeedsIff (ids : List (Identifier Node)) :
    (params ids).SucceedsIff (EveryIn Node.Sufficient (ids.flatMap (·.value.toList))) := by
  match ids with
  | [] => exact (succeeds_pure _).of_iff (by simp)
  | id :: ids =>
    rw [List.flatMap_cons, everyIn_append]
    have unbound : id.isBound = false → EveryIn Node.Sufficient id.value.toList := by
      intro hb
      exact everyIn_value_of_unbound hb
    exact (param_succeedsIff id (optional_succeedsIff id.value) unbound).bind fun _ =>
      (params_succeedsIff ids).before fun _ => succeeds_pure _
termination_by structural ids

private theorem entries_succeedsIff (es : List (String × Node)) :
    (entries es).SucceedsIff (EveryIn Node.Sufficient (es.map (·.2))) := by
  match es with
  | [] => exact (succeeds_pure _).of_iff (by simp)
  | (key, n) :: es =>
    rw [List.map_cons, everyIn_cons]
    exact (node_succeedsIff n).bind fun _ => (entries_succeedsIff es).before fun _ => succeeds_pure _
termination_by structural es

end

end Render

/-- The text of a sheet is put into lines after it is rendered, which always succeeds. -/
theorem Sheet.convert_eq_ok_iff (s : Sheet) (settings : Settings) :
    (∃ t, s.convert settings = .ok t) ↔ EveryIn Node.Sufficient s.statements := by
  rw [← Render.statements_succeedsIff none s.statements settings.toStyle {}]
  simp only [Sheet.convert, Sheet.render, Gives]
  constructor
  · rintro ⟨t, ht⟩
    cases h : ((Render.statements none s.statements).run settings.toStyle).run {} with
    | error e => simp [h, bind, Except.bind] at ht
    | ok r => exact ⟨r.1, r.2, rfl⟩
  · rintro ⟨text, q, h⟩
    rw [h]
    exact ⟨_, rfl⟩

/-- Nodes, statements in a row and lists of pieces succeed in every style and from every pass if and only if no
node in them is deficient, and a conversion does so under all settings or under none. -/
theorem success_iff_no_deficient_node :
    (∀ (n : Node) (σ : Style) (p : Pass), (∃ t q, (Render.node n).Gives σ p t q) ↔
      ¬ ∃ m : Node, m.Occurs n ∧ m.isDeficient) ∧
    (∀ (ns : List Node) (previous : Option Nat) (σ : Style) (p : Pass),
      (∃ t q, (Render.statements previous ns).Gives σ p t q) ↔ ¬ ∃ n ∈ ns, ∃ m : Node, m.Occurs n ∧ m.isDeficient) ∧
    (∀ (ns : List Node) (σ : Style) (p : Pass),
      (∃ ts q, (Render.each ns).Gives σ p ts q) ↔ ¬ ∃ n ∈ ns, ∃ m : Node, m.Occurs n ∧ m.isDeficient) ∧
    (∀ (s : Sheet) (settings : Settings),
      (∃ t, s.convert settings = .ok t) ↔ ¬ ∃ n ∈ s.statements, ∃ m : Node, m.Occurs n ∧ m.isDeficient) ∧
    (∀ (s : Sheet) (settings settings' : Settings),
      (∃ t, s.convert settings = .ok t) ↔ ∃ t, s.convert settings' = .ok t) := by
  have node_iff : ∀ n : Node, n.Every Node.Sufficient ↔ ¬ ∃ m : Node, m.Occurs n ∧ m.isDeficient := by
    intro n
    simp [Node.Every, Node.Sufficient]
  have list_iff : ∀ ns : List Node,
      EveryIn Node.Sufficient ns ↔ ¬ ∃ n ∈ ns, ∃ m : Node, m.Occurs n ∧ m.isDeficient := by
    intro ns
    simp [EveryIn, Node.Every, Node.Sufficient]
  refine ⟨fun n σ p => ?_, fun ns previous σ p => ?_, fun ns σ p => ?_, fun s settings => ?_, fun s a b => ?_⟩
  · exact (Render.node_succeedsIff n σ p).trans (node_iff n)
  · exact (Render.statements_succeedsIff previous ns σ p).trans (list_iff ns)
  · exact (Render.each_succeedsIff ns σ p).trans (list_iff ns)
  · exact (s.convert_eq_ok_iff settings).trans (list_iff s.statements)
  · exact (s.convert_eq_ok_iff a).trans (s.convert_eq_ok_iff b).symm

end Stylesheet
