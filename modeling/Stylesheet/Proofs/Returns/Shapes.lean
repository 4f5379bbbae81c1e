import Stylesheet.Proofs.Returns.Moments

/-!
# Shapes of trees

A tree without its texts and lines. Trees of one shape have the same nodes in the same positions, the same parts of
them speak in the body of a function, and in runs over them the same jobs are met.
-/

namespace Stylesheet

open Rendering

mutual

/-- The tree without texts and lines; operators stay, since they tell ranges from lists. -/
def Node.shape : Node → Node
  | .null => .null
  | .literal .. => .literal "" none
  | .identifier id => .identifier ⟨"", shapeOf id.value, id.placeholder, id.rest, none⟩
  | .number value suffix => .number value suffix
  | .quoted _ => .quoted ⟨"", ""⟩
  | .boolean value => .boolean value
  | .color text => .color text
  | .expression e => .expression ⟨shapes e.operands, none⟩
  | .arguments args => .arguments (shapes args)
  | .block b => .block ⟨shapes b.statements, none⟩
  | .selector segments _ => .selector (shapes segments) none
  | .ruleSet selectors b _ => .ruleSet (shapes selectors) (shapeBody b) none
  | .property segments value _ => .property (shapes segments) ⟨shapes value.operands, none⟩ none
  | .call _ args b _ => .call "" (shapes args) (shapeBody b) none
  | .callable _ params b _ => .callable "" (shapeParams params) (shapeBody b) none
  | .returned value _ => .returned ⟨shapes value.operands, none⟩ none
  | .conditional condition b alternatives negated _ =>
    .conditional condition.shape (shapeBody b) (shapes alternatives) negated none
  | .loop _ key iterable b _ => .loop "" (key.map fun _ => "") (shapeExpression iterable) (shapeBody b) none
  | .binary operator left right => .binary operator left.shape right.shape
  | .unary operator operand => .unary operator operand.shape
  | .keyframes segments b _ => .keyframes (shapes segments) (shapeBody b) none
  | .media q b _ => .media q.shape (shapeBody b) none
  | .queryList queries => .queryList (shapes queries)
  | .query features medium predicate => .query (shapes features) (shapeOf medium) predicate
  | .feature segments value => .feature (shapes segments) (shapeExpression value)
  | .supports condition b _ => .supports condition.shape (shapeBody b) none
  | .xmlNamespace value shortName _ => .xmlNamespace value.shape shortName none
  | .charset .. => .charset ⟨"", ""⟩ none
  | .importSheet path _ => .importSheet ⟨shapes path.operands, none⟩ none
  | .extend selectors _ => .extend (shapes selectors) none
  | .atRule _ segments b _ => .atRule "" (shapes segments) (shapeBody b) none
  | .comment c => .comment { text := "", suppressed := c.suppressed }
  | .member left right => .member left.shape right.shape
  | .mapLiteral entries _ => .mapLiteral (shapeEntries entries) none
termination_by structural n => n

def shapes : List Node → List Node
  | [] => []
  | n :: ns => n.shape :: shapes ns
termination_by structural ns => ns

def shapeOf : Option Node → Option Node
  | none => none
  | some n => some n.shape
termination_by structural n => n

def shapeExpression : Option (Expression Node) → Option (Expression Node)
  | none => none
  | some e => some ⟨shapes e.operands, none⟩
termination_by structural e => e

def shapeBody : Option (Body Node) → Option (Body Node)
  | none => none
  | some b => some ⟨shapes b.statements, none⟩
termination_by structural b => b

def shapeParams : List (Identifier Node) → List (Identifier Node)
  | [] => []
  | id :: ids => ⟨"", shapeOf id.value, id.placeholder, id.rest, none⟩ :: shapeParams ids
termination_by structural ids => ids

def shapeEntries : List (String × Node) → List (String × Node)
  | [] => []
  | (_, n) :: es => ("", n.shape) :: shapeEntries es
termination_by structural es => es

end

def Expression.shape (e : Expression Node) : Expression Node := ⟨shapes e.operands, none⟩

def Body.shape (b : Body Node) : Body Node := ⟨shapes b.statements, none⟩

def Identifier.shape (id : Identifier Node) : Identifier Node := ⟨"", shapeOf id.value, id.placeholder, id.rest, none⟩

@[simp] theorem shapes_eq (ns : List Node) : shapes ns = ns.map Node.shape := by
  induction ns with
  | nil => rfl
  | cons n ns ih => rw [shapes, ih, List.map_cons]

@[simp] theorem shapeOf_eq (n : Option Node) : shapeOf n = n.map Node.shape := by cases n <;> rfl

@[simp] theorem shapeExpression_eq (e : Option (Expression Node)) : shapeExpression e = e.map Expression.shape := by
  cases e <;> rfl

@[simp] theorem shapeBody_eq (b : Option (Body Node)) : shapeBody b = b.map Body.shape := by cases b <;> rfl

@[simp] theorem shapeParams_eq (ids : List (Identifier Node)) : shapeParams ids = ids.map Identifier.shape := by
  induction ids with
  | nil => rfl
  | cons id ids ih => rw [shapeParams, ih, List.map_cons, Identifier.shape]

private theorem values_shapeEntries (es : List (String × Node)) :
    (shapeEntries es).map (·.2) = (es.map (·.2)).map Node.shape := by
  induction es with
  | nil => rfl
  | cons e es ih => rw [shapeEntries, List.map_cons, ih, List.map_cons, List.map_cons]

@[simp] theorem Identifier.isBound_shape (id : Identifier Node) : id.shape.isBound = id.isBound := by
  unfold Identifier.isBound Identifier.shape
  cases id.value with
  | none => rfl
  | some v => cases v <;> rfl

@[simp] theorem Node.line_shape (n : Node) : n.shape.line = none := by cases n <;> rfl

@[simp] theorem Node.isExpression_shape (n : Node) : n.shape.isExpression = n.isExpression := by cases n <;> rfl

mutual

private theorem Node.isSome_range?_shape (n : Node) : n.shape.range?.isSome = n.range?.isSome := by
  match n with
  | .binary operator _ _ =>
    show (if _ then _ else _ : Option Range).isSome = (if _ then _ else _ : Option Range).isSome
    split <;> rfl
  | .expression e => exact isSome_firstRange?_shapes e.operands
  | .null | .literal .. | .number .. | .quoted _ | .boolean _ | .color _ | .identifier _ | .arguments _ | .block _
  | .selector .. | .ruleSet .. | .property .. | .member .. | .callable .. | .returned .. | .conditional ..
  | .loop .. | .call .. | .unary .. | .keyframes .. | .media .. | .queryList _ | .query .. | .feature ..
  | .supports .. | .xmlNamespace .. | .charset .. | .importSheet .. | .extend .. | .atRule .. | .comment _
  | .mapLiteral .. => rfl
termination_by structural n

private theorem isSome_firstRange?_shapes (ns : List Node) :
    (firstRange? (shapes ns)).isSome = (firstRange? ns).isSome := by
  match ns with
  | [] => rfl
  | n :: ns =>
    show (n.shape.range? <|> firstRange? (shapes ns)).isSome = (n.range? <|> firstRange? ns).isSome
    simp only [Option.orElse_eq_orElse, Option.orElse_eq_or, Option.isSome_or, n.isSome_range?_shape,
      isSome_firstRange?_shapes ns]
termination_by structural ns

end

mutual

private theorem Node.speaks_shape (among : Bool) (n : Node) : n.shape.speaks among = n.speaks among := by
  match n with
  | .identifier ⟨_, none, _, _, _⟩ => rfl
  | .identifier ⟨_, some v, _, _, _⟩ => exact v.speaks_shape true
  | .expression e => exact congrArg (!among || ·) (speaksIn_shapes true e.operands)
  | .arguments args => exact speaksIn_shapes true args
  | .selector ns _ | .queryList ns | .extend ns _ | .query ns none _ | .feature ns none =>
    exact speaksIn_shapes among ns
  | .property segments value _ =>
    exact congrArg₂ (· || ·) (speaksIn_shapes true segments) (speaksIn_shapes true value.operands)
  | .call _ args none _ => exact speaksIn_shapes true args
  | .atRule _ segments none _ => exact speaksIn_shapes among segments
  | .call _ _ (some _) _ | .atRule _ _ (some _) _ => rfl
  | .binary _ left right | .member left right =>
    exact congrArg₂ (· || ·) (left.speaks_shape among) (right.speaks_shape among)
  | .unary _ operand => exact operand.speaks_shape among
  | .query features (some medium) _ =>
    exact congrArg₂ (· || ·) (medium.speaks_shape among) (speaksIn_shapes among features)
  | .feature segments (some value) =>
    exact congrArg₂ (fun a b => a || (!among || b)) (speaksIn_shapes among segments)
      (speaksIn_shapes true value.operands)
  | .xmlNamespace value _ _ => exact value.speaks_shape among
  | .importSheet path _ => exact speaksIn_shapes among path.operands
  | .mapLiteral es _ => exact speaksInEntries_shapes es
  | .null | .literal .. | .number .. | .quoted _ | .boolean _ | .color _ | .block _ | .ruleSet .. | .callable ..
  | .returned .. | .conditional .. | .loop .. | .keyframes .. | .media .. | .supports .. | .charset ..
  | .comment _ => rfl
termination_by structural n

theorem speaksIn_shapes (among : Bool) (ns : List Node) : speaksIn among (shapes ns) = speaksIn among ns := by
  match ns with
  | [] => rfl
  | n :: ns => exact congrArg₂ (· || ·) (n.speaks_shape among) (speaksIn_shapes among ns)
termination_by structural ns

private theorem speaksInEntries_shapes (es : List (String × Node)) :
    speaksInEntries (shapeEntries es) = speaksInEntries es := by
  match es with
  | [] => rfl
  | (_, n) :: es => exact congrArg₂ (· || ·) (n.speaks_shape true) (speaksInEntries_shapes es)
termination_by structural es

end

def Job.shape : Job → Job
  | node n => node n.shape
  | statement _ n => statement none n.shape
  | row ns => row (shapes ns)
  | body b => body b.shape
  | branch n => branch n.shape
  | range n => range n.shape
  | param id => param id.shape
  | operands e => operands e.shape

namespace Job

@[simp] theorem shape_node (n : Node) : (node n).shape = node n.shape := rfl

@[simp] theorem shape_statement (previous : Option Nat) (n : Node) :
    (statement previous n).shape = statement none n.shape := rfl

@[simp] theorem shape_row (ns : List Node) : (row ns).shape = row (ns.map Node.shape) :=
  congrArg row (shapes_eq ns)

@[simp] theorem shape_body (b : Body Node) : (body b).shape = body b.shape := rfl

@[simp] theorem shape_branch (n : Node) : (branch n).shape = branch n.shape := rfl

@[simp] theorem shape_range (n : Node) : (range n).shape = range n.shape := rfl

@[simp] theorem shape_param (id : Identifier Node) : (param id).shape = param id.shape := rfl

@[simp] theorem shape_operands (e : Expression Node) : (operands e).shape = operands e.shape := rfl

end Job

def Move.job? : Move → Option (List Place × Job)
  | render places job => some (places, job)
  | _ => none

/-- What the moves render, each with the places that it goes into. -/
def renders (ms : List Move) : List (List Place × Job) := ms.filterMap Move.job?

section Renders

variable {places : List Place} {job : Job} {ms ms' before after : List Move} {i : Nat}

@[simp] theorem renders_nil : renders [] = [] := rfl

@[simp] theorem renders_render : renders (.render places job :: ms) = (places, job) :: renders ms := rfl

@[simp] theorem renders_reach {line : Option Nat} : renders (.reach line :: ms) = renders ms := rfl

@[simp] theorem renders_skip {line : Nat} : renders (.skip line :: ms) = renders ms := rfl

@[simp] theorem renders_nextLine : renders (.nextLine :: ms) = renders ms := rfl

@[simp] theorem renders_change {f : Pass → Pass} : renders (.change f :: ms) = renders ms := rfl

@[simp] theorem renders_append : renders (ms ++ ms') = renders ms ++ renders ms' := List.filterMap_append

@[simp] theorem renders_jobs {α : Type} {job : α → Job} {as : List α} :
    renders (as.map fun a => .render places (job a)) = as.map fun a => (places, job a) := by
  induction as with
  | nil => rfl
  | cons a as ih => simp_all

@[simp] theorem renders_nodes {ns : List Node} : renders (Plan.nodes places ns) = ns.map fun n => (places, .node n) :=
  renders_jobs

@[simp] theorem renders_body {b : Option (Body Node)} :
    renders (Plan.body b) = b.toList.map fun b => ([], .body b) := renders_jobs

@[simp] theorem renders_reach_if {c : Prop} [Decidable c] {line : Option Nat} :
    renders (if c then [] else [.reach line]) = [] := by split <;> rfl

private theorem length_renders (ms : List Move) : (renders ms).length = ms.countP Move.isRender := by
  rw [renders, List.length_filterMap_eq_countP]
  exact List.countP_congr fun m _ => by cases m <;> rfl

/-- A job of a plan has the number of the jobs before it. -/
theorem renders_at (before after : List Move) :
    (renders (before ++ .render places job :: after))[before.countP Move.isRender]? = some (places, job) := by
  rw [renders_append, ← length_renders, List.getElem?_append_right (Nat.le_refl _), Nat.sub_self]
  rfl

theorem split_of_renders (h : (renders ms)[i]? = some (places, job)) :
    ∃ before after, ms = before ++ .render places job :: after ∧ before.countP Move.isRender = i := by
  induction ms generalizing i with
  | nil => cases h
  | cons m ms ih =>
    have later {k : Nat} (other : (renders ms)[k]? = some (places, job)) (sum : (if m.isRender then 1 else 0) + k = i) :
        ∃ before after, m :: ms = before ++ .render places job :: after ∧ before.countP Move.isRender = i := by
      obtain ⟨before, after, split, count⟩ := ih other
      refine ⟨m :: before, after, congrArg (m :: ·) split, ?_⟩
      rw [List.countP_cons, count, Nat.add_comm, sum]
    cases m with
    | render =>
      cases i with
      | zero =>
        cases h
        exact ⟨[], ms, rfl, rfl⟩
      | succ k => exact later h (Nat.add_comm 1 k)
    | _ => exact later h (Nat.zero_add i)

end Renders

abbrev shapesOfJobs (jobs : List (List Place × Job)) : List (List Place × Job) := jobs.map fun j => (j.1, j.2.shape)

@[simp] theorem renders_property {σ : Style} {p : Pass} {segments : List Node} {value : Expression Node}
    {line : Option Nat} : renders (Plan.property σ p segments value line) =
      (segments.map fun n => ([.declarationValue], .node n)) ++ [([.declarationValue], .operands value)] := by
  simp [Plan.property]

@[simp] theorem renders_operands {p : Pass} {e : Expression Node} :
    renders (Plan.operands p e) = e.operands.map fun n => ([.expression], .node n) := by
  unfold Plan.operands
  split <;> simp

@[simp] theorem renders_callable {params : List (Identifier Node)} {b : Body Node} {line : Option Nat} :
    renders (Plan.callable params b line) =
      (params.map fun id => ([.callableBody], .param id)) ++ [([.callableBody], .body b)] := by
  simp [Plan.callable]

@[simp] theorem renders_conditional {condition : Node} {b : Body Node} {alternatives : List Node} :
    renders (Plan.conditional condition b alternatives) =
      ([.condition], .node condition) :: ([], .body b) :: alternatives.map fun n => ([], .branch n) := by
  simp [Plan.conditional]

@[simp] theorem renders_loop {item : String} {key : Option String} {e : Expression Node} {b : Body Node}
    {line : Option Nat} : renders (Plan.loop item key e b line) =
      (if (firstRange? e.operands).isSome then e.operands.map fun n => ([.condition], .range n)
        else e.operands.map fun n => ([.condition], .node n)) ++ [([], .body b)] := by
  unfold Plan.loop
  split <;> simp

@[simp] theorem renders_keyframes {segments : List Node} {b : Body Node} {line : Option Nat} :
    renders (Plan.keyframes segments b line) = (segments.map fun n => ([.keyframes], .node n)) ++
      if (b.statements.head?.map Node.isExpression).getD false then [] else [([.keyframes], .body b)] := by
  unfold Plan.keyframes
  split <;> simp

@[simp] theorem renders_assignment {p : Pass} {name : String} {e : Expression Node} :
    renders (Plan.assignment p name e) = e.operands.map fun n => ([.declarationValue], .node n) := by
  simp [Plan.assignment]

@[simp] theorem renders_comment {c : Comment} {sameLine : Bool} : renders (Plan.comment c sameLine) = [] := by
  cases sameLine <;> simp [Plan.comment]

@[simp] theorem renders_mapLiteral {es : List (String × Node)} {line : Option Nat} :
    renders (Plan.mapLiteral es line) = es.map fun e => ([.mapLiteral], .node e.2) := by
  cases line <;> simp [Plan.mapLiteral]

private theorem renders_node_shape (σ σ' : Style) (p p' : Pass) (n : Node) :
    renders (Plan.node σ' p' n.shape) = shapesOfJobs (renders (Plan.node σ p n)) := by
  cases n with
  | identifier id =>
    obtain ⟨name, value, placeholder, rest, line⟩ := id
    cases value with
    | none => rfl
    | some v =>
      cases v with
      | callable name params b line => cases b <;> simp [Plan.node, Node.shape, shapeOf]
      | _ => simp [Plan.node, Node.shape, shapeOf]
  | ruleSet selectors b line => cases b <;> simp [Plan.node, Node.shape]
  | callable name params b line => cases b <;> simp [Plan.node, Node.shape]
  | conditional condition b others negated line => cases b <;> simp [Plan.node, Node.shape]
  | loop item key e b line =>
    cases e with
    | none => cases b <;> simp [Plan.node, Node.shape]
    | some e =>
      cases b with
      | none => simp [Plan.node, Node.shape]
      | some b =>
        have range := isSome_firstRange?_shapes e.operands
        rw [shapes_eq] at range
        simp only [Node.shape, shapeExpression_eq, shapeBody_eq, Option.map_some, Plan.node, renders_loop,
          Expression.shape, shapes_eq, range]
        split <;> simp
  | keyframes segments b line =>
    cases b with
    | none => simp [Plan.node, Node.shape]
    | some b =>
      have first : (b.shape.statements.head?.map Node.isExpression) = b.statements.head?.map Node.isExpression := by
        simp [Body.shape, Function.comp_def]
      simp only [Node.shape, shapeBody_eq, Option.map_some, Plan.node, renders_keyframes, first]
      split <;> simp
  | media condition b line | supports condition b line => cases b <;> simp [Plan.node, Node.shape]
  | call name args b line => cases b <;> simp [Plan.node, Node.shape, Plan.call]
  | atRule name segments b line => cases b <;> simp [Plan.node, Node.shape]
  | query features medium predicate => cases medium <;> simp [Plan.node, Node.shape]
  | feature segments value => cases value <;> simp [Plan.node, Node.shape]
  | extend selectors line => cases selectors <;> simp [Plan.node, Node.shape]
  | mapLiteral es line =>
    have values := congrArg (List.map fun n => (([.mapLiteral], .node n) : List Place × Job)) (values_shapeEntries es)
    simp only [List.map_map, Function.comp_def] at values
    simp [Plan.node, Node.shape, values]
  | _ => simp [Plan.node, Node.shape, Expression.shape, Body.shape]

@[simp] theorem renders_statements_shape (ns : List Node) (previous : Option Nat) :
    renders (Plan.statements none (ns.map Node.shape)) = shapesOfJobs (renders (Plan.statements previous ns)) := by
  induction ns generalizing previous with
  | nil => rfl
  | cons n ns ih => simp [Plan.statements, ih n.line]

/-- The plans for jobs of one shape render jobs of one shape, in the same places. -/
theorem Job.renders_shape (σ σ' : Style) (p p' : Pass) (job : Job) :
    renders (job.shape.plan σ' p') = shapesOfJobs (renders (job.plan σ p)) := by
  cases job with
  | node n => exact renders_node_shape σ σ' p p' n
  | statement previous n =>
    have alone := renders_node_shape σ σ' p p' n
    cases n with
    | comment c => simp [Job.plan, Node.shape]
    | _ => exact alone
  | row ns => simp [Job.plan, ← renders_statements_shape ns none]
  | body b =>
    have inserted (b : Body Node) (σ : Style) (p : Pass) :
        renders (if b.insertsLine σ p then [.nextLine] else []) = [] := by split <;> rfl
    simp [Job.plan, Body.shape, inserted]
  | branch n =>
    cases n with
    | conditional condition b others negated line => cases b <;> simp [Job.plan, Node.shape]
    | block b => simp [Job.plan, Node.shape, Body.shape]
    | _ => rfl
  | range n =>
    have alone := renders_node_shape σ σ' p p' n
    cases n with
    | expression e =>
      have ranges (ns : List Node) : renders (ns.map fun n => .render [] (.range n)) = ns.map fun n => ([], .range n) :=
        renders_jobs
      simp only [shape_range, Node.shape, shapes_eq, Job.plan, ranges]
      simp
    | _ => exact alone
  | param id =>
    have named : id.shape.value = id.value.map Node.shape := shapeOf_eq id.value
    simp only [shape_param, Job.plan, id.isBound_shape, named, renders_append]
    split <;> cases id.value <;> rfl
  | operands e => simp [Job.plan, Expression.shape]

end Stylesheet
