import Stylesheet.Proofs.Constructs
import Stylesheet.Proofs.Parts

/-!
# Properties that the steps of a rendering decide

A property of renderings that the basic steps have, and that steps in a row keep, is one of every construct and so of
every tree. Two constructs are more than their steps and are asked for as a whole: a declaration is open while its value
is rendered, and a definition takes over what belongs to the callable around it.
-/

namespace Stylesheet

/-- The registry without the declarations whose value is still being rendered. -/
def Registry.settled (r : Registry) : Registry := { r with declarations := r.declarations.filter (·.2.isSome) }

def Pass.settled (p : Pass) : Pass := { p with registry := p.registry.settled }

namespace Registry

theorem settled_openDeclaration (r : Registry) (name : String) : (r.openDeclaration name).settled = r.settled := by
  simp [settled, openDeclaration]

theorem settled_settled (r : Registry) : r.settled.settled = r.settled := by simp [settled]

private theorem valueOf?_settled (r : Registry) (name : String) : r.settled.valueOf? name = r.valueOf? name := by
  rw [valueOf?, valueOf?, settled, ← List.filter_reverse]
  induction r.declarations.reverse with
  | nil => rfl
  | cons d ds ih =>
    obtain ⟨declared, value⟩ := d
    cases value with
    | none => simpa using ih
    | some v => simp [List.findSome?_cons, ih]

end Registry

private theorem Render.referenceText_settled (d : Dialect) (id : Identifier Node) (p : Pass) :
    referenceText d p.settled id = referenceText d p id := by
  have value : p.settled.registry.valueOf? id.name = p.registry.valueOf? id.name := p.registry.valueOf?_settled id.name
  unfold referenceText
  rw [value]
  rfl

namespace Rendering

/-- What basic steps have and steps in a row keep. Which engines are asked for is read in keyframes alone, so that a
property may do without. -/
structure Stepwise (animated : Prop) (P : (α : Type) → Rendering α → Prop) : Prop where
  pure : ∀ {α : Type} (a : α), P α (pure a)
  throw : ∀ {α : Type} (e : Fault), P α (throw e)
  bind : ∀ {α β : Type} {m : Rendering α} {f : α → Rendering β}, P α m → (∀ a, P β (f a)) → P β (m >>= f)
  dialect : P _ dialect
  /-- A look at the quote. -/
  quote : ∀ {α : Type} {f : Style → Rendering α}, (∀ σ τ : Style, σ.quote = τ.quote → f σ = f τ) → (∀ σ, P α (f σ)) →
    P α (read >>= f)
  /-- A look at the style as a whole. -/
  style : animated → ∀ {α : Type} {f : Style → Rendering α}, (∀ σ, P α (f σ)) → P α (read >>= f)
  /-- A look at what declarations that are still being rendered do not show in. -/
  observe : ∀ {α : Type} {view : Pass → α}, (∀ p, view p.settled = view p) → P α (observe view)
  move : ∀ change : Nat → Nat, P _ (modify fun p => { p with line := change p.line })
  addVariable : ∀ name : String, P _ (register (·.addVariable name))
  addMap : ∀ name : String, P _ (register (·.addMap name))
  within : ∀ {α : Type} (places : List Place) {m : Rendering α}, P α m → P α (within places m)
  deeper : ∀ {α : Type} {m : Rendering α}, P α m → P α (deeper m)
  calling : ∀ {α : Type} (name : String) {m : Rendering α}, P α m → P α (calling name m)
  property : ∀ (line : Option Nat) (value : Expression Node) {name text : Rendering String}, P _ name → P _ text →
    P _ (Render.property line name value text)
  callable : ∀ (name : String) (line : Option Nat) (kind : DefinitionKind) (names : List String)
    {params : Rendering (List String)} {body : Rendering String}, P _ params → P _ body →
    P _ (Render.callable name line kind names params body)

namespace Stepwise

variable {animated : Prop} {P : (α : Type) → Rendering α → Prop}

section constructs

variable (step : Stepwise animated P)

include step

variable {α β : Type} {m : Rendering α} {f : α → Rendering β}

/-- A choice between two first steps. -/
theorem either {b : Prop} [Decidable b] {m' : Rendering α} (hm : P _ m) (hm' : P _ m') (hf : ∀ a, P _ (f a)) :
    P _ (if b then m >>= f else m' >>= f) := by
  split
  · exact step.bind hm hf
  · exact step.bind hm' hf

/-- A first step that may be left out. -/
theorem perhaps {b : Prop} [Decidable b] {m : Rendering Unit} {f : Unit → Rendering β} (hm : P _ m)
    (hf : ∀ u, P _ (f u)) : P _ (if b then m >>= f else f ()) := by
  split
  · exact step.bind hm hf
  · exact hf ()

theorem missing (kind : Kind) (part : NeededPart) : P α (missing kind part) := step.throw _

theorem inAny (among : List Place) : P _ (Rendering.observe (·.inAny among)) := step.observe fun _ => rfl

theorem indent : P _ indent := step.observe fun _ => rfl

theorem variableRef (name : String) : P _ (variableRef name) := step.bind step.dialect fun _ => step.pure _

theorem nextLine : P _ (modify Pass.nextLine) := step.move (· + 1)

theorem lineBreaks (line : Option Nat) : P _ (lineBreaks line) := by
  cases line with
  | none => exact step.pure _
  | some line =>
    exact step.bind (step.observe fun _ => rfl) fun _ => step.bind (step.move fun _ => line) fun _ => step.pure _

theorem lineStart (line : Option Nat) : P _ (lineStart line) :=
  step.bind (step.lineBreaks line) fun _ => step.bind step.indent fun _ => step.pure _

variable {line : Option Nat} {text body : Rendering String} {texts : Rendering (List String)}

theorem named (segments : List Node) (h : P _ texts) : P _ (Render.named segments texts) :=
  step.bind h fun _ => step.pure _

theorem insertReturn (keyword content : String) : P _ (Render.insertReturn keyword content) := by
  dsimp only [Render.insertReturn]
  split
  · exact step.pure _
  · exact step.bind step.nextLine fun _ => step.bind step.indent fun _ => step.pure _

theorem withReturn (content : String) : P _ (Render.withReturn content) := by
  refine step.bind (step.inAny _) fun inCallable => step.bind (step.observe fun _ => rfl) fun returning => ?_
  split
  · exact step.bind step.dialect fun _ =>
      step.either (step.pure _) (step.insertReturn _ _) fun _ => step.pure _
  · exact step.pure _

theorem block (h : P _ text) : P _ (Render.block text) := by
  refine step.bind (step.deeper ?_) fun _ => step.bind step.indent fun _ => step.pure _
  refine step.bind h fun content => step.bind (step.withReturn content) fun content => ?_
  split
  · exact step.pure _
  · exact step.bind step.indent fun _ => step.pure _

theorem selector (segments : List Node) (h : P _ texts) : P _ (Render.selector segments texts) :=
  step.bind (step.lineStart _) fun _ => step.bind (step.named segments h) fun _ => step.pure _

theorem ruleSet (hs : P _ texts) (hb : P _ body) : P _ (Render.ruleSet line texts body) :=
  step.bind (step.lineStart _) fun _ => step.bind hs fun _ => step.bind hb fun _ =>
    step.bind (step.inAny _) fun _ => step.pure _

theorem reference (id : Identifier Node) : P _ (Render.reference id) :=
  step.bind step.dialect fun d => step.observe (Render.referenceText_settled d id)

theorem assignment (name : String) (value : Expression Node) (h : P _ texts) :
    P _ (Render.assignment name value texts) := by
  unfold Render.assignment
  refine step.perhaps (step.addMap name) fun _ => step.bind (step.inAny _) fun inCall => ?_
  refine step.either (step.pure _) (step.lineStart _) fun before => ?_
  exact step.bind (step.within _ h) fun _ => step.bind (step.addVariable name) fun _ =>
    step.bind (step.variableRef name) fun _ => step.pure _

theorem boundValue (name : String) (h : P _ text) : P _ (Render.boundValue name line text) :=
  step.bind (step.lineStart _) fun _ => step.bind (step.within _ h) fun _ =>
    step.bind (step.addVariable name) fun _ => step.bind (step.variableRef name) fun _ => step.pure _

theorem returnStart (line : Option Nat) : P _ (Render.returnStart line) :=
  step.bind (step.lineStart _) fun _ => step.bind step.dialect fun _ => step.pure _

theorem expression (e : Expression Node) (h : P _ texts) : P _ (Render.expression e texts) := by
  refine step.bind (step.inAny _) fun inside => step.bind (step.inAny _) fun inValue =>
    step.bind (step.observe fun _ => rfl) fun returned => ?_
  refine step.either (step.returnStart _) (step.pure _) fun before => ?_
  exact step.bind (step.within _ h) fun _ => step.bind (step.observe fun _ => rfl) fun _ => step.pure _

theorem arguments (h : P _ texts) : P _ (Render.arguments texts) :=
  step.within _ (step.bind h fun _ => step.pure _)

theorem inclusionStart (owed : String) : P _ (Render.inclusionStart owed) :=
  step.bind step.indent fun _ => step.bind step.dialect fun _ => step.pure _

theorem call (name : String) {handed : Option (Rendering String)} (h : P _ texts) (hb : ∀ b ∈ handed, P _ b) :
    P _ (Render.call name line texts handed) := by
  refine step.bind (step.lineBreaks _) fun owed => step.bind (step.inAny _) fun inside =>
    step.bind (step.observe fun _ => rfl) fun statement => ?_
  refine step.either (step.inclusionStart _) (step.pure _) fun before => ?_
  refine step.bind (step.calling name (step.arguments h)) fun args => ?_
  cases handed with
  | none => exact step.pure _
  | some b => exact step.bind (hb b rfl) fun _ => step.pure _

theorem param (id : Identifier Node) (h : P _ text) : P _ (Render.param id text) := by
  unfold Render.param
  refine step.bind (step.variableRef _) fun name => ?_
  refine step.either (step.bind (step.within _ h) fun _ => step.pure _) (step.pure _) fun value => ?_
  exact step.bind (step.addVariable id.name) fun _ => step.pure _

theorem returned (h : P _ text) : P _ (Render.returned line text) :=
  step.bind (step.lineStart _) fun _ => step.bind (step.within _ h) fun _ =>
    step.bind step.dialect fun _ => step.pure _

theorem conditional (start : Render.BranchStart) (negated : Bool) (hc : P _ text) (hb : P _ body) (ha : P _ texts) :
    P _ (Render.conditional start negated text body texts) := by
  have first : P _ start.text := by
    cases start with
    | leading line => exact step.bind (step.lineStart _) fun _ => step.pure _
    | chained => exact step.pure _
  exact step.bind first fun _ => step.bind (step.within _ hc) fun _ => step.bind hb fun _ =>
    step.bind ha fun _ => step.pure _

theorem chained (h : P _ text) : P _ (Render.chained text) := step.bind step.nextLine fun _ => h

theorem otherwise (h : P _ body) : P _ (Render.otherwise body) := step.bind h fun _ => step.pure _

theorem loop (item : String) (key : Option String) (iterable : Expression Node) {items : Rendering (List String)}
    (hr : P _ texts) (hi : P _ items) (hb : P _ body) :
    P _ (Render.loop item key line iterable texts items body) := by
  have head : P _ (if (firstRange? iterable.operands).isSome then Render.forHead item texts
      else Render.eachHead item key iterable.operands items) := by
    split
    · exact step.bind hr fun _ => step.bind (step.variableRef item) fun _ => step.pure _
    · exact step.bind step.dialect fun _ => step.bind hi fun _ => step.pure _
  refine step.bind (step.lineStart _) fun before => step.bind (step.addVariable item) fun _ => ?_
  cases key with
  | none => exact step.bind (step.within _ head) fun _ => step.bind hb fun _ => step.pure _
  | some key =>
    exact step.bind (step.addVariable key) fun _ => step.bind (step.within _ head) fun _ =>
      step.bind hb fun _ => step.pure _

theorem keyframes (h : animated) (segments statements : List Node) (hs : P _ texts) (hb : P _ body) :
    P _ (Render.keyframes line segments statements texts body) := by
  refine step.within _ (step.bind (step.lineStart _) fun before => step.bind (step.named segments hs) fun name => ?_)
  refine step.perhaps (step.throw _) fun _ => ?_
  exact step.bind hb fun _ => step.style h fun _ => step.bind step.indent fun _ => step.pure _

theorem conditionRule (keyword : String) (hc : P _ text) (hb : P _ body) :
    P _ (Render.conditionRule keyword line text body) :=
  step.bind (step.lineStart _) fun _ => step.bind hc fun _ => step.bind hb fun _ => step.pure _

theorem xmlNamespace (shortName : Option String) (h : P _ text) : P _ (Render.xmlNamespace line shortName text) :=
  step.bind (step.lineStart _) fun _ => step.bind (step.within _ h) fun _ => step.pure _

theorem importSheet (pieces : List Node) (h : P _ texts) : P _ (Render.importSheet line pieces texts) :=
  step.bind (step.lineStart _) fun _ => step.bind step.dialect fun _ => step.bind h fun _ => step.pure _

theorem extend (selectors : List Node) (h : P _ texts) : P _ (Render.extend line selectors texts) := by
  unfold Render.extend
  refine step.perhaps (step.missing _ _) fun _ => ?_
  exact step.bind (step.lineStart _) fun _ => step.bind h fun _ => step.pure _

theorem atRule (name : String) (segments : List Node) {content : Option (Rendering String)} (h : P _ texts)
    (hb : ∀ b ∈ content, P _ b) : P _ (Render.atRule name line segments texts content) := by
  refine step.bind (step.lineStart _) fun before => step.bind h fun ts => ?_
  cases content with
  | none => exact step.pure _
  | some b => exact step.bind (hb b rfl) fun _ => step.pure _

theorem comment (c : Comment) (sameLine : Bool) : P _ (Render.comment c sameLine) := by
  unfold Render.comment
  refine step.either (step.pure _) (step.lineStart _) fun before => ?_
  cases c.line with
  | none => exact step.pure _
  | some line => exact step.bind (step.move fun _ => line + c.text.toList.count '\n') fun _ => step.pure _

theorem member (left right : Node) (hl : P _ text) (hr : P _ body) : P _ (Render.member left right text body) := by
  have owner : P _ (left.bareName?.elim text Rendering.variableRef) := by
    cases left.bareName? with
    | none => exact hl
    | some name => exact step.variableRef name
  have key : P _ (right.bareName?.elim body Pure.pure) := by
    cases right.bareName? with
    | none => exact hr
    | some name => exact step.pure name
  rw [Render.member_eq]
  refine step.bind (step.observe fun _ => rfl) fun ofMap => ?_
  split
  · refine step.bind owner fun _ => step.bind key fun _ => step.quote (fun σ τ same => ?_) fun _ => step.pure _
    rw [same]
  · exact step.bind hl fun _ => step.bind hr fun _ => step.pure _

theorem mapLiteral {es : Rendering (List (String × String))} (h : P _ es) : P _ (Render.mapLiteral line es) := by
  refine step.quote (fun σ τ same => ?_) fun style => step.bind (step.deeper ?_) fun es => ?_
  · dsimp only
    rw [same]
  · exact step.bind step.indent fun _ => step.bind (step.within _ h) fun _ => step.pure _
  · cases line with
    | none => exact step.bind step.indent fun _ => step.pure _
    | some line =>
      exact step.bind (step.move (max · (line + es.length + 2))) fun _ => step.bind step.indent fun _ => step.pure _

end constructs

/-- A tree with keyframes in it only if that is allowed. -/
def Admits (animated : Prop) (n : Node) : Prop := n.isKeyframes → animated

mutual

theorem node (step : Stepwise animated P) (n : Node) (h : n.Every (Admits animated)) : P _ (Render.node n) := by
  have hp := h.parts
  match n with
  | .null | .literal .. | .number .. | .quoted .. | .boolean _ | .color _ => exact step.pure _
  | .identifier ⟨name, value, placeholder, rest, line⟩ =>
    match value with
    | none => exact step.reference _
    | some v =>
      have hv := node step v (hp v (by simp))
      have inside := (hp v (by simp)).parts
      cases v with
      | null => exact step.reference _
      | expression e => exact step.assignment name e (each step e.operands inside)
      | callable => exact hv
      | _ => exact step.boundValue name hv
  | .expression e => exact step.expression e (each step e.operands hp)
  | .arguments args => exact step.arguments (each step args hp)
  | .block b => exact body step b hp
  | .selector segments _ => exact step.selector segments (each step segments hp)
  | .ruleSet _ none _ => exact step.missing _ _
  | .ruleSet selectors (some b) _ =>
    obtain ⟨hs, hb⟩ := (everyIn_append _ _).1 hp
    exact step.ruleSet (each step selectors hs) (body step b hb)
  | .property segments value _ =>
    obtain ⟨hs, hv⟩ := (everyIn_append _ _).1 hp
    exact step.property _ value (step.named segments (each step segments hs))
      (step.expression value (each step value.operands hv))
  | .call name args none _ =>
    obtain ⟨ha, -⟩ := (everyIn_append _ _).1 hp
    exact step.call name (each step args ha) (by simp)
  | .call name args (some b) _ =>
    obtain ⟨ha, hb⟩ := (everyIn_append _ _).1 hp
    have handed := body step b hb
    exact step.call name (each step args ha) (by simpa using handed)
  | .callable _ _ none _ => exact step.missing _ _
  | .callable name ps (some b) _ =>
    obtain ⟨hd, hb⟩ := (everyIn_append _ _).1 hp
    exact step.callable name _ _ _ (params step ps hd) (body step b hb)
  | .returned value _ => exact step.returned (step.expression value (each step value.operands hp))
  | .conditional _ none _ _ _ => exact step.missing _ _
  | .conditional condition (some b) alts negated _ =>
    obtain ⟨hcb, ha⟩ := (everyIn_append _ _).1 hp
    obtain ⟨hc, hb⟩ := (everyIn_cons _ _).1 hcb
    exact step.conditional _ negated (node step condition hc) (body step b hb) (alternatives step alts ha)
  | .loop _ _ none _ _ => exact step.missing _ _
  | .loop _ _ (some _) none _ => exact step.missing _ _
  | .loop item key (some e) (some b) _ =>
    obtain ⟨he, hb⟩ := (everyIn_append _ _).1 hp
    exact step.loop item key e (ranges step e.operands he) (each step e.operands he) (body step b hb)
  | .binary _ left right =>
    exact step.bind (node step left (hp left (by simp))) fun _ =>
      step.bind (node step right (hp right (by simp))) fun _ => step.pure _
  | .unary _ operand => exact step.bind (node step operand (hp operand (by simp))) fun _ => step.pure _
  | .keyframes _ none _ => exact step.missing _ _
  | .keyframes segments (some b) _ =>
    obtain ⟨hs, hb⟩ := (everyIn_append _ _).1 hp
    exact step.keyframes (h.self rfl) segments b.statements (each step segments hs) (body step b hb)
  | .media _ none _ => exact step.missing _ _
  | .media q (some b) _ =>
    obtain ⟨hq, hb⟩ := (everyIn_cons _ _).1 hp
    exact step.conditionRule _ (node step q hq) (body step b hb)
  | .queryList queries => exact step.bind (each step queries hp) fun _ => step.pure _
  | .query features medium _ =>
    obtain ⟨hf, hm⟩ := (everyIn_append _ _).1 hp
    exact step.bind (optional step medium hm) fun _ => step.bind (each step features hf) fun _ => step.pure _
  | .feature segments none =>
    obtain ⟨hs, -⟩ := (everyIn_append _ _).1 hp
    exact step.bind (step.named segments (each step segments hs)) fun _ => step.pure _
  | .feature segments (some value) =>
    obtain ⟨hs, hv⟩ := (everyIn_append _ _).1 hp
    exact step.bind (step.named segments (each step segments hs)) fun _ =>
      step.bind (step.expression value (each step value.operands hv)) fun _ => step.pure _
  | .supports _ none _ => exact step.missing _ _
  | .supports condition (some b) _ =>
    obtain ⟨hc, hb⟩ := (everyIn_cons _ _).1 hp
    exact step.conditionRule _ (node step condition hc) (body step b hb)
  | .xmlNamespace value _ _ => exact step.xmlNamespace _ (node step value (hp value (by simp)))
  | .charset _ _ => exact step.bind (step.lineStart _) fun _ => step.pure _
  | .importSheet path _ => exact step.importSheet path.operands (each step path.operands hp)
  | .extend selectors _ => exact step.extend selectors (each step selectors hp)
  | .atRule name segments none _ =>
    obtain ⟨hs, -⟩ := (everyIn_append _ _).1 hp
    exact step.atRule name segments (each step segments hs) (by simp)
  | .atRule name segments (some b) _ =>
    obtain ⟨hs, hb⟩ := (everyIn_append _ _).1 hp
    have content := body step b hb
    exact step.atRule name segments (each step segments hs) (by simpa using content)
  | .comment c => exact step.comment c false
  | .member left right =>
    exact step.member left right (node step left (hp left (by simp))) (node step right (hp right (by simp)))
  | .mapLiteral es _ => exact step.mapLiteral (entries step es hp)
termination_by structural n

theorem each (step : Stepwise animated P) (ns : List Node) (h : EveryIn (Admits animated) ns) :
    P _ (Render.each ns) := by
  match ns with
  | [] => exact step.pure _
  | n :: ns =>
    rw [everyIn_cons] at h
    exact step.bind (node step n h.1) fun _ => step.bind (each step ns h.2) fun _ => step.pure _
termination_by structural ns

theorem body (step : Stepwise animated P) (b : Body Node) (h : EveryIn (Admits animated) b.statements) :
    P _ (Render.body b) := by
  match b with
  | ⟨ss, _⟩ => exact step.block (statements step none ss h)
termination_by structural b

theorem optional (step : Stepwise animated P) (n : Option Node) (h : EveryIn (Admits animated) n.toList) :
    P _ (Render.optional n) := by
  match n with
  | none => exact step.pure _
  | some n => exact node step n (h n (by simp))
termination_by structural n

theorem statements (step : Stepwise animated P) (previous : Option Nat) (ns : List Node)
    (h : EveryIn (Admits animated) ns) : P _ (Render.statements previous ns) := by
  match ns with
  | [] => exact step.pure _
  | n :: ns =>
    rw [everyIn_cons] at h
    have hn := node step n h.1
    have hs : P _ (Render.statement previous n) := by
      cases n with
      | comment c => exact step.comment c _
      | _ => exact hn
    rw [Render.statements_cons]
    exact step.bind hs fun _ => step.bind (statements step n.line ns h.2) fun _ => step.pure _
termination_by structural ns

theorem alternatives (step : Stepwise animated P) (ns : List Node) (h : EveryIn (Admits animated) ns) :
    P _ (Render.alternatives ns) := by
  match ns with
  | [] => exact step.pure _
  | n :: ns =>
    rw [everyIn_cons] at h
    have hp := h.1.parts
    have hn : P _ (Render.alternative n) := by
      cases n with
      | conditional condition b alts negated line =>
        match b with
        | none => exact step.missing _ _
        | some b =>
          obtain ⟨hcb, ha⟩ := (everyIn_append _ _).1 hp
          obtain ⟨hc, hb⟩ := (everyIn_cons _ _).1 hcb
          exact step.chained (step.conditional _ negated (node step condition hc) (body step b hb)
            (alternatives step alts ha))
      | block b => exact step.chained (step.otherwise (body step b hp))
      | _ => exact step.missing _ _
    rw [Render.alternatives_cons]
    exact step.bind hn fun _ => step.bind (alternatives step ns h.2) fun _ => step.pure _
termination_by structural ns

theorem ranges (step : Stepwise animated P) (ns : List Node) (h : EveryIn (Admits animated) ns) :
    P _ (Render.ranges ns) := by
  match ns with
  | [] => exact step.pure _
  | n :: ns =>
    rw [everyIn_cons] at h
    have hp := h.1.parts
    have hn := node step n h.1
    have hr : P _ (Render.range n) := by
      cases n with
      | binary operator left right =>
        simp only [Render.range]
        split
        · exact step.bind (node step left (hp left (by simp))) fun _ =>
            step.bind (node step right (hp right (by simp))) fun _ => step.pure _
        · exact hn
      | expression e => exact step.bind (ranges step e.operands hp) fun _ => step.pure _
      | _ => exact hn
    rw [Render.ranges_cons]
    exact step.bind hr fun _ => step.bind (ranges step ns h.2) fun _ => step.pure _
termination_by structural ns

theorem params (step : Stepwise animated P) (ids : List (Identifier Node))
    (h : EveryIn (Admits animated) (ids.flatMap (·.value.toList))) : P _ (Render.params ids) := by
  match ids with
  | [] => exact step.pure _
  | id :: ids =>
    rw [List.flatMap_cons, everyIn_append] at h
    exact step.bind (step.param id (optional step id.value h.1)) fun _ =>
      step.bind (params step ids h.2) fun _ => step.pure _
termination_by structural ids

theorem entries (step : Stepwise animated P) (es : List (String × Node))
    (h : EveryIn (Admits animated) (es.map (·.2))) : P _ (Render.entries es) := by
  match es with
  | [] => exact step.pure _
  | (_, n) :: es =>
    rw [List.map_cons, everyIn_cons] at h
    exact step.bind (node step n h.1) fun _ => step.bind (entries step es h.2) fun _ => step.pure _
termination_by structural es

end

end Stepwise

end Rendering

/-- What holds between the passes before and after every basic step, and what the constructs that go somewhere and come
back make of it. -/
structure StepRelation (R : Pass → Pass → Prop) : Prop where
  refl : ∀ p : Pass, R p p
  trans : ∀ {p q r : Pass}, R p q → R q r → R p r
  move : ∀ (p : Pass) (line : Nat), R p { p with line }
  addVariable : ∀ (p : Pass) (name : String), R p (p.learn (·.addVariable name))
  addMap : ∀ (p : Pass) (name : String), R p (p.learn (·.addMap name))
  within : ∀ {p q : Pass} {places : List Place}, R (p.enter places) q → R p (q.leave p)
  deeper : ∀ {p q : Pass}, R p.down q → R p q.up
  calling : ∀ {p q : Pass} {name : String}, R (p.call name) q → R p (q.hangUp p)
  declare : ∀ {p q : Pass} {name value : String}, R (p.learn (·.openDeclaration name)) q →
    R p (q.learn (·.closeDeclaration p.registry.nextSlot value))
  define : ∀ {p q : Pass} {kind : DefinitionKind} {names : List String}, R (Render.intoCallable p kind names) q →
    R p ({ q.leave p with returning := false }.learn (·.clearParams))

namespace Rendering

/-- Wherever the rendering starts, it ends at a pass that is related to the start. -/
def Relates (R : Pass → Pass → Prop) {α : Type} (m : Rendering α) : Prop :=
  ∀ ⦃σ : Style⦄ ⦃p : Pass⦄ ⦃a : α⦄ ⦃q : Pass⦄, m.Gives σ p a q → R p q

end Rendering

namespace StepRelation

open Rendering

variable {R : Pass → Pass → Prop} (h : StepRelation R)

include h

theorem reach (p : Pass) (line : Option Nat) : R p (p.reach line) := by
  cases line with
  | none => exact h.refl p
  | some line => exact h.move p line

/-- Learning a variable inside of a declaration is one more step of its value. -/
theorem property {line : Option Nat} {value : Expression Node} {name text : Rendering String} (hn : name.Relates R)
    (ht : text.Relates R) : (Render.property line name value text).Relates R := by
  intro σ p t q hg
  obtain ⟨declared, r, content, s, hname, hvalue, hends⟩ := Render.property_gives hg
  have opened := ht hvalue
  have inside : R (p.reach line) q := by
    rcases hends with ⟨inner, -, rfl, -⟩ | ⟨-, rfl, -⟩
    · exact h.within (h.trans (hn hname) (h.declare (h.trans opened (h.addVariable s inner))))
    · exact h.within (h.trans (hn hname) (h.declare opened))
  exact h.trans (h.reach p line) inside

theorem callable {name : String} {line : Option Nat} {kind : DefinitionKind} {names : List String}
    {params : Rendering (List String)} {body : Rendering String} (hp : params.Relates R) (hb : body.Relates R) :
    (Render.callable name line kind names params body).Relates R := by
  intro σ p t q hg
  obtain ⟨_, r, content, s, hparams, hbody, rfl, -⟩ := Render.callable_gives hg
  exact h.trans (h.reach p line) (h.define (h.trans (hp hparams) (hb hbody)))

/-- What every step does a whole run does. -/
theorem stepwise : Stepwise True fun _ m => m.Relates R where
  pure a := by
    intro σ p b q hg
    obtain ⟨rfl, rfl⟩ := gives_pure.1 hg
    exact h.refl _
  throw e := fun _ _ _ _ hg => absurd hg gives_throw
  bind hm hf := by
    intro σ p b r hg
    obtain ⟨a, q, ha, hb⟩ := gives_bind.1 hg
    exact h.trans (hm ha) (hf a hb)
  dialect := by
    intro σ p d q hg
    obtain ⟨-, rfl⟩ := gives_dialect.1 hg
    exact h.refl _
  quote _ hf := by
    intro σ p a q hg
    obtain ⟨_, _, hr, ha⟩ := gives_bind.1 hg
    obtain ⟨rfl, rfl⟩ := gives_read.1 hr
    exact hf _ ha
  style _ _ _ hf := by
    intro σ p a q hg
    obtain ⟨_, _, hr, ha⟩ := gives_bind.1 hg
    obtain ⟨rfl, rfl⟩ := gives_read.1 hr
    exact hf _ ha
  observe _ := by
    intro σ p a q hg
    obtain ⟨-, rfl⟩ := gives_observe.1 hg
    exact h.refl _
  move change := by
    intro σ p u q hg
    rw [gives_modify.1 hg]
    exact h.move p _
  addVariable name := by
    intro σ p u q hg
    rw [gives_register.1 hg]
    exact h.addVariable p name
  addMap name := by
    intro σ p u q hg
    rw [gives_register.1 hg]
    exact h.addMap p name
  within places m hm := by
    intro σ p a r hg
    obtain ⟨q, hq, rfl⟩ := gives_within.1 hg
    exact h.within (hm hq)
  deeper hm := by
    intro σ p a r hg
    obtain ⟨q, hq, rfl⟩ := gives_deeper.1 hg
    exact h.deeper (hm hq)
  calling name m hm := by
    intro σ p a r hg
    obtain ⟨q, hq, rfl⟩ := gives_calling.1 hg
    exact h.calling (hm hq)
  property _ _ _ _ hn ht := h.property hn ht
  callable _ _ _ _ _ _ hp hb := h.callable hp hb

theorem node (n : Node) : (Render.node n).Relates R := h.stepwise.node n fun _ _ _ => trivial

theorem each (ns : List Node) : (Render.each ns).Relates R := h.stepwise.each ns fun _ _ _ _ _ => trivial

theorem statements (previous : Option Nat) (ns : List Node) : (Render.statements previous ns).Relates R :=
  h.stepwise.statements previous ns fun _ _ _ _ _ => trivial

theorem body (b : Body Node) : (Render.body b).Relates R := h.stepwise.body b fun _ _ _ _ _ => trivial

theorem alternatives (ns : List Node) : (Render.alternatives ns).Relates R :=
  h.stepwise.alternatives ns fun _ _ _ _ _ => trivial

theorem params (ids : List (Identifier Node)) : (Render.params ids).Relates R :=
  h.stepwise.params ids fun _ _ _ _ _ => trivial

end StepRelation

end Stylesheet
