import Stylesheet.Proofs.Forms
import Stylesheet.Proofs.Parts
import Stylesheet.Proofs.Run

/-!
# Agreement on references

Where two spellings of a name agree, so do the renderings with them. What makes them agree is a property of the known
names, which most renderings keep: they learn variables, maps and declarations, and only definitions change which
parameters are known.
-/

namespace Stylesheet

open Rendering

/-- Learning a variable, a map or a declaration keeps the property. -/
structure Registry.Kept (K : Registry → Prop) : Prop where
  addVariable : ∀ {r : Registry} (name : String), K r → K (r.addVariable name)
  addMap : ∀ {r : Registry} (name : String), K r → K (r.addMap name)
  openDeclaration : ∀ {r : Registry} (name : String), K r → K (r.openDeclaration name)
  closeDeclaration : ∀ {r : Registry} (slot : Nat) (value : String), K r → K (r.closeDeclaration slot value)

namespace Rendering

variable {α β : Type} {I J K : Registry → Prop}

/-- Where the known names have the first property, both renderings do the same, and leave names with the second one. -/
def Agree (I J : Registry → Prop) (m m' : Rendering α) : Prop := ∀ ⦃σ p⦄, I p.registry →
  (m.run σ).run p = (m'.run σ).run p ∧ ∀ ⦃a q⦄, m.Gives σ p a q → J q.registry

theorem Agree.bind {m m' : Rendering α} {f f' : α → Rendering β} (hm : Agree I J m m')
    (hf : ∀ a, Agree J K (f a) (f' a)) : Agree I K (m >>= f) (m' >>= f') := by
  intro σ p hp
  obtain ⟨same, kept⟩ := hm (σ := σ) hp
  constructor
  · simp only [ReaderT.run_bind, StateT.run_bind, ← same]
    cases h : (m.run σ).run p with
    | error e => rfl
    | ok x => exact (hf x.1 (kept h)).1
  · intro b r h
    obtain ⟨a, q, ha, hb⟩ := gives_bind.1 h
    exact (hf a (kept ha)).2 hb

/-- A choice between two first steps. -/
theorem Agree.either {b : Prop} [Decidable b] {m n : Rendering α} {f f' : α → Rendering β} (hm : Agree I J m m)
    (hn : Agree I J n n) (hf : ∀ a, Agree J K (f a) (f' a)) :
    Agree I K (if b then m >>= f else n >>= f) (if b then m >>= f' else n >>= f') := by
  split
  · exact hm.bind hf
  · exact hn.bind hf

/-- A first step that may be left out. -/
theorem Agree.perhaps {b : Prop} [Decidable b] {m : Rendering Unit} {f f' : Unit → Rendering β} (hm : Agree K K m m)
    (hf : ∀ u, Agree K J (f u) (f' u)) :
    Agree K J (if b then m >>= f else f ()) (if b then m >>= f' else f' ()) := by
  split
  · exact hm.bind hf
  · exact hf ()

private theorem agree_throw (e : Fault) : Agree I J (throw e : Rendering α) (throw e) :=
  fun _ _ _ => ⟨rfl, fun _ _ h => absurd h gives_throw⟩

theorem agree_missing (kind : Kind) (part : NeededPart) :
    Agree I J (missing kind part : Rendering α) (missing kind part) := agree_throw _

theorem agree_pure (a : α) : Agree K K (pure a) (pure a) := by
  intro σ p hp
  refine ⟨rfl, fun b q h => ?_⟩
  rw [(gives_pure.1 h).2]
  exact hp

private theorem agree_modify {f : Pass → Pass} (h : ∀ p : Pass, (f p).registry = p.registry) :
    Agree K K (modify f) (modify f) := by
  intro σ p hp
  refine ⟨rfl, fun u q hg => ?_⟩
  rw [gives_modify.1 hg, h p]
  exact hp

theorem agree_observe_of {view view' : Pass → α} (h : ∀ p : Pass, K p.registry → view p = view' p) :
    Agree K K (observe view) (observe view') := by
  intro σ p hp
  constructor
  · show Except.ok (view p, p) = Except.ok (view' p, p)
    rw [h p hp]
  · intro a q hg
    rw [(gives_observe.1 hg).2]
    exact hp

theorem agree_observe (view : Pass → α) : Agree K K (observe view) (observe view) := agree_observe_of fun _ _ => rfl

private theorem agree_read : Agree K K (read : Rendering Style) read := by
  intro σ p hp
  refine ⟨rfl, fun τ q h => ?_⟩
  rw [(gives_read.1 h).2]
  exact hp

theorem agree_dialect : Agree K K dialect dialect := agree_read.bind fun _ => agree_pure _

private theorem agree_indent : Agree K K indent indent := agree_observe _

private theorem agree_variableRef (name : String) : Agree K K (variableRef name) (variableRef name) :=
  agree_dialect.bind fun _ => agree_pure _

private theorem agree_register {change : Registry → Registry} (h : ∀ r, I r → J (change r)) :
    Agree I J (register change) (register change) := by
  intro σ p hp
  refine ⟨rfl, fun u q hg => ?_⟩
  rw [gives_register.1 hg]
  exact h _ hp

private theorem agree_lineBreaks (line : Option Nat) : Agree K K (lineBreaks line) (lineBreaks line) := by
  intro σ p hp
  refine ⟨rfl, fun t q h => ?_⟩
  rw [(gives_lineBreaks.1 h).2, Pass.reach_registry]
  exact hp

theorem agree_lineStart (line : Option Nat) : Agree K K (lineStart line) (lineStart line) :=
  (agree_lineBreaks line).bind fun _ => agree_indent.bind fun _ => agree_pure _

private theorem agree_nextLine : Agree K K (modify Pass.nextLine) (modify Pass.nextLine) := agree_modify fun _ => rfl

variable {m m' : Rendering α}

theorem Agree.within (places : List Place) (h : Agree I J m m') : Agree I J (within places m) (within places m') :=
  (agree_observe _).bind fun _ => .bind (agree_modify fun _ => rfl) fun _ => h.bind fun _ =>
    .bind (agree_modify fun _ => rfl) fun _ => agree_pure _

theorem Agree.deeper (h : Agree I J m m') : Agree I J (deeper m) (deeper m') :=
  .bind (agree_modify fun _ => rfl) fun _ => h.bind fun _ => .bind (agree_modify fun _ => rfl) fun _ => agree_pure _

theorem Agree.calling (name : String) (h : Agree I J m m') : Agree I J (calling name m) (calling name m') :=
  (agree_observe _).bind fun _ => .bind (agree_modify fun _ => rfl) fun _ => (h.within _).bind fun _ =>
    .bind (agree_modify fun _ => rfl) fun _ => agree_pure _

end Rendering

namespace Render

variable {I J K : Registry → Prop} {line : Option Nat} {text text' body body' : Rendering String}
  {texts texts' : Rendering (List String)}

theorem named_agree (segments : List Node) (h : Agree K K texts texts') :
    Agree K K (named segments texts) (named segments texts') := h.bind fun _ => agree_pure _

private theorem insertReturn_agree (keyword content : String) :
    Agree K K (insertReturn keyword content) (insertReturn keyword content) := by
  dsimp only [insertReturn]
  split
  · exact agree_pure _
  · exact agree_nextLine.bind fun _ => agree_indent.bind fun _ => agree_pure _

private theorem withReturn_agree (content : String) : Agree K K (withReturn content) (withReturn content) := by
  refine (agree_observe _).bind fun inCallable => (agree_observe _).bind fun returning => ?_
  split
  · exact agree_dialect.bind fun _ => .either (agree_pure _) (insertReturn_agree _ _) fun _ => agree_pure _
  · exact agree_pure _

theorem block_agree (h : Agree I K text text') : Agree I K (block text) (block text') := by
  refine Agree.bind (J := K) (Agree.deeper (h.bind fun content => (withReturn_agree content).bind fun content => ?_))
    fun _ => ?_
  · split
    · exact agree_pure _
    · exact agree_indent.bind fun _ => agree_pure _
  · exact agree_indent.bind fun _ => agree_pure _

theorem selector_agree (segments : List Node) (h : Agree K K texts texts') :
    Agree K K (selector segments texts) (selector segments texts') :=
  (agree_lineStart _).bind fun _ => (named_agree segments h).bind fun _ => agree_pure _

theorem ruleSet_agree (hs : Agree K K texts texts') (hb : Agree K K body body') :
    Agree K K (ruleSet line texts body) (ruleSet line texts' body') :=
  (agree_lineStart _).bind fun _ => hs.bind fun _ => hb.bind fun _ => (agree_observe _).bind fun _ => agree_pure _

theorem assignment_agree (kept : Registry.Kept K) (name : String) (value : Expression Node)
    (h : Agree K K texts texts') : Agree K K (assignment name value texts) (assignment name value texts') := by
  unfold assignment
  refine .perhaps (agree_register fun _ => kept.addMap name) fun _ => (agree_observe _).bind fun inCall => ?_
  refine .either (agree_pure _) (agree_lineStart _) fun before => ?_
  exact (h.within _).bind fun _ => .bind (agree_register fun _ => kept.addVariable name) fun _ =>
    (agree_variableRef _).bind fun _ => agree_pure _

theorem boundValue_agree (kept : Registry.Kept K) (name : String) (h : Agree K K text text') :
    Agree K K (boundValue name line text) (boundValue name line text') :=
  (agree_lineStart _).bind fun _ => (h.within _).bind fun _ =>
    .bind (agree_register fun _ => kept.addVariable name) fun _ => (agree_variableRef _).bind fun _ => agree_pure _

theorem property_agree (kept : Registry.Kept K) (value : Expression Node) (hn : Agree K K text text')
    (hv : Agree K K body body') : Agree K K (property line text value body) (property line text' value body') := by
  refine (agree_lineStart _).bind fun before => Agree.within _ (hn.bind fun name => ?_)
  refine (agree_observe _).bind fun slot => .bind (agree_register fun _ => kept.openDeclaration name) fun _ =>
    hv.bind fun text => ?_
  split
  · next inner _ =>
    exact (agree_variableRef _).bind fun reference => .bind
      (agree_register fun _ hr => kept.closeDeclaration slot reference (kept.addVariable inner hr)) fun _ =>
      agree_indent.bind fun _ => agree_pure _
  · exact .bind (agree_register fun _ => kept.closeDeclaration slot text) fun _ => agree_pure _

private theorem returnStart_agree (line : Option Nat) : Agree K K (returnStart line) (returnStart line) :=
  (agree_lineStart _).bind fun _ => agree_dialect.bind fun _ => agree_pure _

theorem expression_agree (e : Expression Node) (h : Agree K K texts texts') :
    Agree K K (expression e texts) (expression e texts') := by
  refine (agree_observe _).bind fun inside => (agree_observe _).bind fun inValue =>
    (agree_observe _).bind fun returned => ?_
  refine .either (returnStart_agree _) (agree_pure _) fun before => ?_
  exact (h.within _).bind fun _ => (agree_observe _).bind fun _ => agree_pure _

theorem arguments_agree (h : Agree K K texts texts') : Agree K K (arguments texts) (arguments texts') :=
  Agree.within _ (h.bind fun _ => agree_pure _)

private theorem inclusionStart_agree (owed : String) : Agree K K (inclusionStart owed) (inclusionStart owed) :=
  agree_indent.bind fun _ => agree_dialect.bind fun _ => agree_pure _

theorem call_agree (name : String) (h : Agree K K texts texts') :
    Agree K K (call name line texts none) (call name line texts' none) := by
  refine (agree_lineBreaks _).bind fun owed => (agree_observe _).bind fun inside =>
    (agree_observe _).bind fun statement => ?_
  refine .either (inclusionStart_agree _) (agree_pure _) fun before => ?_
  exact ((arguments_agree h).calling name).bind fun _ => agree_pure _

theorem call_block_agree (name : String) (h : Agree K K texts texts') (hb : Agree K K body body') :
    Agree K K (call name line texts (some body)) (call name line texts' (some body')) := by
  refine (agree_lineBreaks _).bind fun owed => (agree_observe _).bind fun inside =>
    (agree_observe _).bind fun statement => ?_
  refine .either (inclusionStart_agree _) (agree_pure _) fun before => ?_
  exact ((arguments_agree h).calling name).bind fun _ => hb.bind fun _ => agree_pure _

/-- A definition makes its own parameters known, and none after it. -/
theorem callable_agree {K' L : Registry → Prop} (name : String) (kind : DefinitionKind) (names : List String)
    (own : ∀ r : Registry, I r → J (r.setParams names)) (hp : Agree J K texts texts') (hb : Agree K K' body body')
    (after : ∀ r : Registry, K' r → L r.clearParams) :
    Agree I L (callable name line kind names texts body) (callable name line kind names texts' body') := by
  refine (agree_lineStart _).bind fun before => (agree_register own).bind fun _ =>
    .bind (agree_modify fun _ => rfl) fun _ => Agree.bind (J := K') ?_ fun parts => ?_
  · exact Agree.within _ (hp.bind fun _ => hb.bind fun _ => agree_pure _)
  · exact .bind (agree_modify fun _ => rfl) fun _ => (agree_register after).bind fun _ =>
      agree_dialect.bind fun _ => agree_pure _

theorem param_agree (kept : Registry.Kept K) (id : Identifier Node) (h : Agree K K text text') :
    Agree K K (param id text) (param id text') := by
  have known : Agree K K (register (·.addVariable id.name)) (register (·.addVariable id.name)) :=
    agree_register fun _ => kept.addVariable id.name
  unfold param
  refine (agree_variableRef _).bind fun name => ?_
  by_cases hb : id.isBound
  · simp only [hb, if_true]
    exact ((h.within _).bind fun _ => agree_pure _).bind fun _ => known.bind fun _ => agree_pure _
  · simp only [hb]
    exact (agree_pure _).bind fun _ => known.bind fun _ => agree_pure _

theorem returned_agree (h : Agree K K text text') : Agree K K (returned line text) (returned line text') :=
  (agree_lineStart _).bind fun _ => (h.within _).bind fun _ => agree_dialect.bind fun _ => agree_pure _

theorem conditional_agree (start : BranchStart) (negated : Bool) (hc : Agree K K text text')
    (hb : Agree K K body body') (ha : Agree K K texts texts') :
    Agree K K (conditional start negated text body texts) (conditional start negated text' body' texts') := by
  have first : Agree K K start.text start.text := by
    cases start with
    | leading line => exact (agree_lineStart _).bind fun _ => agree_pure _
    | chained => exact agree_pure _
  exact first.bind fun _ => (hc.within _).bind fun _ => hb.bind fun _ => ha.bind fun _ => agree_pure _

theorem chained_agree (h : Agree K K text text') : Agree K K (chained text) (chained text') :=
  agree_nextLine.bind fun _ => h

theorem otherwise_agree (h : Agree K K body body') : Agree K K (otherwise body) (otherwise body') :=
  h.bind fun _ => agree_pure _

theorem loop_agree (kept : Registry.Kept K) (item : String) (key : Option String) (iterable : Expression Node)
    {items items' : Rendering (List String)} (hr : Agree K K texts texts') (hi : Agree K K items items')
    (hb : Agree K K body body') :
    Agree K K (loop item key line iterable texts items body) (loop item key line iterable texts' items' body') := by
  have head : Agree K K
      (if (firstRange? iterable.operands).isSome then forHead item texts
        else eachHead item key iterable.operands items)
      (if (firstRange? iterable.operands).isSome then forHead item texts'
        else eachHead item key iterable.operands items') := by
    split
    · exact hr.bind fun _ => (agree_variableRef _).bind fun _ => agree_pure _
    · exact agree_dialect.bind fun _ => hi.bind fun _ => agree_pure _
  refine (agree_lineStart _).bind fun before => .bind (agree_register fun _ => kept.addVariable item) fun _ => ?_
  cases key with
  | none => exact (head.within _).bind fun _ => hb.bind fun _ => agree_pure _
  | some key =>
    exact .bind (agree_register fun _ => kept.addVariable key) fun _ => (head.within _).bind fun _ =>
      hb.bind fun _ => agree_pure _

theorem keyframes_agree (segments statements : List Node) (hs : Agree K K texts texts')
    (hb : Agree K K body body') :
    Agree K K (keyframes line segments statements texts body) (keyframes line segments statements texts' body') := by
  refine Agree.within _ ((agree_lineStart _).bind fun before => (named_agree segments hs).bind fun name => ?_)
  refine .perhaps (agree_throw _) fun _ => ?_
  exact hb.bind fun _ => agree_read.bind fun _ => agree_indent.bind fun _ => agree_pure _

theorem conditionRule_agree (keyword : String) (hc : Agree K K text text') (hb : Agree K K body body') :
    Agree K K (conditionRule keyword line text body) (conditionRule keyword line text' body') :=
  (agree_lineStart _).bind fun _ => hc.bind fun _ => hb.bind fun _ => agree_pure _

theorem xmlNamespace_agree (shortName : Option String) (h : Agree K K text text') :
    Agree K K (xmlNamespace line shortName text) (xmlNamespace line shortName text') :=
  (agree_lineStart _).bind fun _ => (h.within _).bind fun _ => agree_pure _

theorem importSheet_agree (pieces : List Node) (h : Agree K K texts texts') :
    Agree K K (importSheet line pieces texts) (importSheet line pieces texts') :=
  (agree_lineStart _).bind fun _ => agree_dialect.bind fun _ => h.bind fun _ => agree_pure _

theorem extend_agree (selectors : List Node) (h : Agree K K texts texts') :
    Agree K K (extend line selectors texts) (extend line selectors texts') := by
  unfold extend
  refine .perhaps (agree_missing _ _) fun _ => ?_
  exact (agree_lineStart _).bind fun _ => h.bind fun _ => agree_pure _

theorem atRule_agree (name : String) (segments : List Node) (h : Agree K K texts texts') :
    Agree K K (atRule name line segments texts none) (atRule name line segments texts' none) :=
  (agree_lineStart _).bind fun _ => h.bind fun _ => agree_pure _

theorem atRule_block_agree (name : String) (segments : List Node) (h : Agree K K texts texts')
    (hb : Agree K K body body') :
    Agree K K (atRule name line segments texts (some body)) (atRule name line segments texts' (some body')) :=
  (agree_lineStart _).bind fun _ => h.bind fun _ => hb.bind fun _ => agree_pure _

theorem comment_agree (c : Comment) (sameLine : Bool) : Agree K K (comment c sameLine) (comment c sameLine) := by
  unfold comment
  refine .either (agree_pure _) (agree_lineStart _) fun before => ?_
  cases c.line with
  | none => exact agree_pure _
  | some line => exact .bind (agree_modify fun _ => rfl) fun _ => agree_pure _

theorem member_agree (left right : Node) (hl : Agree K K text text') (hr : Agree K K body body') :
    Agree K K (member left right text body) (member left right text' body') := by
  have owner : Agree K K (left.bareName?.elim text variableRef) (left.bareName?.elim text' variableRef) := by
    cases left.bareName? with
    | none => exact hl
    | some name => exact agree_variableRef name
  have key : Agree K K (right.bareName?.elim body pure) (right.bareName?.elim body' pure) := by
    cases right.bareName? with
    | none => exact hr
    | some name => exact agree_pure name
  rw [member_eq, member_eq]
  refine (agree_observe _).bind fun ofMap => ?_
  split
  · exact owner.bind fun _ => key.bind fun _ => agree_read.bind fun _ => agree_pure _
  · exact hl.bind fun _ => hr.bind fun _ => agree_pure _

theorem mapLiteral_agree {es es' : Rendering (List (String × String))} (h : Agree K K es es') :
    Agree K K (mapLiteral line es) (mapLiteral line es') := by
  refine agree_read.bind fun style => Agree.bind (J := K) (Agree.deeper ?_) fun es => ?_
  · exact agree_indent.bind fun _ => (h.within _).bind fun _ => agree_pure _
  · cases line with
    | none => exact agree_indent.bind fun _ => agree_pure _
    | some line => exact .bind (agree_modify fun _ => rfl) fun _ => agree_indent.bind fun _ => agree_pure _

end Render

end Stylesheet
