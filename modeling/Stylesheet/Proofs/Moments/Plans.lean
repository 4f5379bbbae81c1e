import Stylesheet.Proofs.Frame

/-!
# Plans of renderings

What a rendering does, move by move: it renders something smaller in more places, changes the line the pass is on, or
changes something else of the pass. The plan of a job is read off its tree, and every run of the job follows its plan.
Plans tell the passes in the middle of a run, whether it ends or fails.
-/

namespace Stylesheet

open Rendering Render

/-- What is rendered as a whole. -/
inductive Job
  | node (n : Node)
  /-- A statement behind one on the line `previous`. -/
  | statement (previous : Option Nat) (n : Node)
  /-- Statements in a row, from the first one on. -/
  | row (ns : List Node)
  | body (b : Body Node)
  /-- A branch after the first one. -/
  | branch (n : Node)
  /-- What a loop over a range goes through. -/
  | range (n : Node)
  | param (id : Identifier Node)
  | operands (e : Expression Node)

def Job.rendering : Job → Rendering String
  | node n => Render.node n
  | statement previous n => Render.statement previous n
  | row ns => Render.statements none ns
  | body b => Render.body b
  | branch n => Render.alternative n
  | range n => Render.range n
  | param id => Render.param id (optional id.value)
  | operands e => Render.expression e (each e.operands)

/-- The nodes that are rendered with the job. -/
@[simp] def Job.roots : Job → List Node
  | node n | statement _ n | branch n | range n => [n]
  | row ns => ns
  | body b => b.statements
  | param id => id.value.toList
  | operands e => e.operands

inductive Move
  /-- A job in more places. -/
  | render (places : List Place) (job : Job)
  /-- To the line of a node, or to the last one of a comment. -/
  | reach (line : Option Nat)
  /-- On to a line, and never back. -/
  | skip (line : Nat)
  | nextLine
  /-- Anything but the line and the places. -/
  | change (f : Pass → Pass)

def Move.Leads (σ : Style) : Move → Pass → Pass → Prop
  | render places job, p, q => ∃ t r, job.rendering.Gives σ (p.enter places) t r ∧ q = r.leave p
  | reach line, p, q => q = p.reach line
  | skip line, p, q => q = p.skipTo line
  | nextLine, p, q => q = p.nextLine
  | change f, p, q => q = f p

def Follows (σ : Style) : List Move → Pass → Pass → Prop
  | [], p, q => q = p
  | m :: ms, p, q => ∃ r, m.Leads σ p r ∧ Follows σ ms r q

/-- The text and the pass that come out, or nothing where the rendering fails. -/
def Rendering.outcome (m : Rendering String) (σ : Style) (p : Pass) : String × Pass :=
  match (m.run σ).run p with
  | .ok result => result
  | .error _ => ("", p)

theorem Rendering.Gives.outcome {m : Rendering String} {σ : Style} {p q : Pass} {t : String} (h : m.Gives σ p t q) :
    m.outcome σ p = (t, q) := by
  have run : (m.run σ).run p = .ok (t, q) := h
  rw [Rendering.outcome, run]

namespace Plan

def nodes (places : List Place) (ns : List Node) : List Move := ns.map fun n => .render places (.node n)

/-- Statements one after another; `previous` is the line of the one before. -/
def statements (previous : Option Nat) : List Node → List Move
  | [] => []
  | n :: ns => .render [] (.statement previous n) :: statements n.line ns

def body (b : Option (Body Node)) : List Move := b.toList.map fun b => .render [] (.body b)

def operands (p : Pass) (e : Expression Node) : List Move :=
  (if p.returnsList then [.reach e.line] else []) ++ nodes [.expression] e.operands

def assignment (p : Pass) (name : String) (value : Expression Node) : List Move :=
  .change (knowingMap · name value) :: (if p.inAny [.call] then [] else [.reach value.line]) ++
    nodes [.declarationValue] value.operands ++ [.change (·.learn (·.addVariable name))]

def declared (p : Pass) (line : Option Nat) : Pass := (p.reach line).enter [.declarationValue]

/-- A declaration, which is open in the registry between its name and the end of its value. -/
def property (σ : Style) (p : Pass) (segments : List Node) (value : Expression Node) (line : Option Nat) :
    List Move :=
  let (name, named) := (Render.named segments (each segments)).outcome σ (declared p line)
  let slot := named.registry.nextSlot
  let (content, _) := (Job.operands value).rendering.outcome σ (named.learn (·.openDeclaration name))
  let close := match value.inlineName? with
    | some inner => fun r : Registry => (r.addVariable inner).closeDeclaration slot (σ.dialect.variableRef inner)
    | none => fun r : Registry => r.closeDeclaration slot content
  .reach line :: nodes [.declarationValue] segments ++
    [.change (·.learn (·.openDeclaration name)), .render [.declarationValue] (.operands value),
      .change (·.learn close)]

def call (p : Pass) (name : String) (args : List Node) (b : Option (Body Node)) (line : Option Nat) : List Move :=
  .reach line :: .change (fun r => { r with callName := some name }) :: nodes [.arguments, .call] args ++
    .change (fun r => { r with callName := p.callName }) :: body b

def callable (params : List (Identifier Node)) (b : Body Node) (line : Option Nat) : List Move :=
  .reach line :: .change (fun r => { r.learn (·.setParams (params.map (·.name))) with
      returning := DefinitionKind.ofBody b.statements == .function }) ::
    params.map (fun id => .render [.callableBody] (.param id)) ++
    [.render [.callableBody] (.body b), .change fun r => { r with returning := false }.learn (·.clearParams)]

def conditional (condition : Node) (b : Body Node) (alternatives : List Node) : List Move :=
  .render [.condition] (.node condition) :: .render [] (.body b) ::
    alternatives.map fun n => .render [] (.branch n)

def loop (item : String) (key : Option String) (e : Expression Node) (b : Body Node) (line : Option Nat) :
    List Move :=
  .reach line :: .change (knowingItems · item key) ::
    (if (firstRange? e.operands).isSome then e.operands.map fun n => .render [.condition] (.range n)
      else nodes [.condition] e.operands) ++ [.render [] (.body b)]

/-- Animations that do not start with a step fail behind their name. -/
def keyframes (segments : List Node) (b : Body Node) (line : Option Nat) : List Move :=
  .reach line :: nodes [.keyframes] segments ++
    if (b.statements.head?.map Node.isExpression).getD false then [] else [.render [.keyframes] (.body b)]

def comment (c : Comment) (sameLine : Bool) : List Move :=
  (if sameLine then [] else [.reach c.line]) ++ [.reach (lastLine c)]

def mapLiteral (entries : List (String × Node)) (line : Option Nat) : List Move :=
  .change Pass.down :: nodes [.mapLiteral] (entries.map (·.2)) ++
    .change Pass.up :: line.toList.map fun l => .skip (l + entries.length + 2)

/-- The moves of a node, from the pass that its rendering starts at. A node that lacks a part that it needs fails at
once. -/
def node (σ : Style) (p : Pass) : Node → List Move
  | .identifier ⟨name, value, _, _, line⟩ =>
    match value with
    | none | some .null => []
    | some (.expression e) => assignment p name e
    | some (.callable definedName params b definedLine) =>
      [.render [] (.node (.callable definedName params b definedLine))]
    | some v => [.reach line, .render [.declarationValue] (.node v), .change (·.learn (·.addVariable name))]
  | .expression e => operands p e
  | .arguments args => nodes [.arguments] args
  | .block b => body (some b)
  | .selector segments _ => .reach (segments.getLast?.bind Node.line) :: nodes [] segments
  | .ruleSet selectors (some b) line => .reach line :: nodes [] selectors ++ body (some b)
  | .property segments value line => property σ p segments value line
  | .call name args b line => call p name args b line
  | .callable _ params (some b) line => callable params b line
  | .returned value line => [.reach line, .render [.expression] (.operands value)]
  | .conditional condition (some b) alternatives _ line => .reach line :: conditional condition b alternatives
  | .loop item key (some e) (some b) line => loop item key e b line
  | .binary _ left right => nodes [] [left, right]
  | .unary _ operand => nodes [] [operand]
  | .keyframes segments (some b) line => keyframes segments b line
  | .media condition (some b) line | .supports condition (some b) line =>
    .reach line :: nodes [] [condition] ++ body (some b)
  | .queryList queries => nodes [] queries
  | .query features medium _ => nodes [] (medium.toList ++ features)
  | .feature segments value => nodes [] segments ++ value.toList.map fun e => .render [] (.operands e)
  | .xmlNamespace value _ line => [.reach line, .render [.xmlNamespace] (.node value)]
  | .charset _ line => [.reach line]
  | .importSheet path line => .reach line :: nodes [] path.operands
  | .extend selectors line => if selectors.isEmpty then [] else .reach line :: nodes [] selectors
  | .atRule _ segments b line => .reach line :: nodes [] segments ++ body b
  | .comment c => comment c false
  | .member left right => nodes [] [left, right]
  | .mapLiteral entries line => mapLiteral entries line
  | _ => []

end Plan

/-- Whether the keyword goes into the block, whose rendering starts at `p`. -/
def Body.inserts (σ : Style) (p : Pass) (b : Body Node) : Bool :=
  let (content, r) := (Job.row b.statements).rendering.outcome σ p.down
  r.inFunction && !Text.contains "@return" content

/-- Whether the keyword goes onto a line of its own, for which the pass moves on by one. -/
def Body.insertsLine (σ : Style) (p : Pass) (b : Body Node) : Bool :=
  let (content, _) := (Job.row b.statements).rendering.outcome σ p.down
  b.inserts σ p && !Text.contains "\n" (Text.margin content)

def Job.plan (σ : Style) (p : Pass) : Job → List Move
  | node n => Plan.node σ p n
  | statement previous (.comment c) => Plan.comment c (c.line.isSome && previous == c.line)
  | statement _ n => Plan.node σ p n
  | row ns => Plan.statements none ns
  | body b =>
    .change Pass.down :: .render [] (.row b.statements) ::
      (if b.insertsLine σ p then [.nextLine] else []) ++ [.change Pass.up]
  | branch (.conditional condition (some b) alternatives _ _) => .nextLine :: Plan.conditional condition b alternatives
  | branch (.block b) => .nextLine :: Plan.body (some b)
  | branch _ => [.nextLine]
  | range (.expression e) => e.operands.map fun n => .render [] (.range n)
  | range n => Plan.node σ p n
  | param id =>
    (if id.isBound then Plan.nodes [.declarationValue] id.value.toList else []) ++
      [.change (·.learn (·.addVariable id.name))]
  | operands e => Plan.operands p e

def Move.isRender : Move → Bool
  | render .. => true
  | _ => false

/-- In a run of `job` from `p`, the job at a path is started at a pass. A path numbers, from the outside in, the
renderings of the plans that it goes through. -/
inductive Meets (σ : Style) (job : Job) (p : Pass) : List Nat → Job → Pass → Prop
  | here : Meets σ job p [] job p
  | inside {path : List Nat} {inner part : Job} {start r : Pass} (before : List Move) (places : List Place)
      (after : List Move) (outer : Meets σ job p path inner start)
      (split : inner.plan σ start = before ++ .render places part :: after)
      (run : Follows σ before start r) : Meets σ job p (path ++ [before.countP Move.isRender]) part (r.enter places)

/-- A moment of a run of `job` from `p`, of which it does not matter whether it goes on to an end: some job that is
met has come to the pass `q` and has `rest` still to do. -/
def Moment (σ : Style) (job : Job) (p q : Pass) (rest : List Move) : Prop :=
  ∃ path inner start before, Meets σ job p path inner start ∧ inner.plan σ start = before ++ rest ∧
    Follows σ before start q

section Follow

variable {σ : Style} {p q r : Pass} {t : String} {ms : List Move}

@[simp] theorem follows_nil : Follows σ [] p q ↔ q = p := Iff.rfl

@[simp] theorem follows_reach {line : Option Nat} :
    Follows σ (.reach line :: ms) p q ↔ Follows σ ms (p.reach line) q := by
  simp [Follows, Move.Leads]

@[simp] theorem follows_skip {line : Nat} : Follows σ (.skip line :: ms) p q ↔ Follows σ ms (p.skipTo line) q := by
  simp [Follows, Move.Leads]

@[simp] theorem follows_nextLine : Follows σ (.nextLine :: ms) p q ↔ Follows σ ms p.nextLine q := by
  simp [Follows, Move.Leads]

@[simp] theorem follows_change {f : Pass → Pass} : Follows σ (.change f :: ms) p q ↔ Follows σ ms (f p) q := by
  simp [Follows, Move.Leads]

theorem follows_append {ms' : List Move} :
    Follows σ (ms ++ ms') p q ↔ ∃ r, Follows σ ms p r ∧ Follows σ ms' r q := by
  induction ms generalizing p with
  | nil => simp
  | cons m ms ih =>
    simp only [List.cons_append, Follows, ih]
    constructor
    · rintro ⟨r, first, s, rest, last⟩
      exact ⟨s, ⟨r, first, rest⟩, last⟩
    · rintro ⟨s, ⟨r, first, rest⟩, last⟩
      exact ⟨r, first, s, rest, last⟩

theorem Job.stays (job : Job) : job.rendering.Stays := by
  have steps := Pass.beside_steps
  cases job with
  | node n => exact steps.node n
  | statement previous n =>
    cases n with
    | comment c => exact steps.stepwise.comment c _
    | _ => exact steps.node _
  | row ns => exact steps.statements none ns
  | body b => exact steps.body b
  | branch n =>
    cases n with
    | conditional condition b alternatives negated line =>
      cases b with
      | none => exact steps.stepwise.missing _ _
      | some b =>
        exact steps.stepwise.chained (steps.stepwise.conditional _ negated (steps.node condition) (steps.body b)
          (steps.alternatives alternatives))
    | block b => exact steps.stepwise.chained (steps.stepwise.otherwise (steps.body b))
    | _ => exact steps.stepwise.missing _ _
  | range n =>
    cases n with
    | binary operator left right =>
      simp only [rendering, Render.range]
      split
      · exact steps.stepwise.bind (steps.node left) fun _ => steps.stepwise.bind (steps.node right) fun _ =>
          steps.stepwise.pure _
      · exact steps.node _
    | expression e =>
      exact steps.stepwise.bind (steps.stepwise.ranges e.operands fun _ _ _ _ _ => trivial) fun _ =>
        steps.stepwise.pure _
    | _ => exact steps.node _
  | param id => exact steps.stepwise.param id (steps.stepwise.optional id.value fun _ _ _ _ _ => trivial)
  | operands e => exact steps.stepwise.expression e (steps.each e.operands)

theorem Pass.leave_of_places (h : q.places = p.places) : q.leave p = q := by
  rw [Pass.leave, ← h]

/-- In the places that a job came back to, the next one goes on. -/
theorem Pass.enter_leave {places : List Place} (h : (p.enter places).Beside q) : (q.leave p).enter places = q := by
  have back : q.places = places ++ p.places := h.places
  rw [Pass.enter, Pass.leave, ← back]

theorem follows_render {places : List Place} (job : Job) (h : job.rendering.Gives σ (p.enter places) t r)
    (rest : Follows σ ms (r.leave p) q) : Follows σ (.render places job :: ms) p q :=
  ⟨r.leave p, ⟨t, r, h, rfl⟩, rest⟩

theorem follows_render_here (job : Job) (h : job.rendering.Gives σ p t r) (rest : Follows σ ms r q) :
    Follows σ (.render [] job :: ms) p q :=
  follows_render job h (by rwa [Pass.leave_of_places (job.stays h).places])

end Follow

end Stylesheet
