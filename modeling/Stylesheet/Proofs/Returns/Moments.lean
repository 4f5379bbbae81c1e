import Stylesheet.Proofs.Moments.Runs
import Stylesheet.Proofs.Returns.Bodies

/-!
# Moments in the body of a function

Every job that is met in the body of a function starts at a pass in that body, and every block that is met has
statements that tell whether it gets the keyword.
-/

namespace Stylesheet

open Text Rendering Render

variable {σ : Style} {p q r : Pass} {t : String}

def Job.Discreet (d : Dialect) (job : Job) : Prop := EveryIn (Node.Discreet d) job.roots

theorem param_tells (quote : σ.quote ≠ '@') {id : Identifier Node}
    (h : EveryIn (Node.Discreet σ.dialect) id.value.toList) :
    (Render.param id (optional id.value)).Tells σ fun _ _ => True := by
  intro p t q hp hg
  obtain ⟨value, r, hv, rfl, -⟩ := param_gives hg
  refine ⟨Pass.Onward.learn ?_ Registry.Holds.addVariable, trivial⟩
  rcases hv with ⟨-, -, rfl⟩ | ⟨bound, content, s, hs, rfl, -⟩
  · exact .refl _
  · cases hid : id.value with
    | none => simp [Identifier.isBound, hid] at bound
    | some v =>
      rw [hid] at hs h
      exact (node_tells quote v (h v (by simp))).inside hp (by simp) hs |>.1

/-- A job in the body of a function leads on in it. -/
theorem Job.tells (quote : σ.quote ≠ '@') {job : Job} (h : job.Discreet σ.dialect) :
    job.rendering.Tells σ fun _ _ => True := by
  have single {n : Node} (hn : EveryIn (Node.Discreet σ.dialect) [n]) : n.Every (Node.Discreet σ.dialect) :=
    hn n (by simp)
  cases job with
  | node n => exact (node_tells quote n (single h)).mono fun _ _ _ => trivial
  | statement previous n =>
    cases n with
    | comment c => exact (comment_tells ((single h).self.texts c.text (by simp))).mono fun _ _ _ => trivial
    | _ => exact (node_tells quote _ (single h)).mono fun _ _ _ => trivial
  | row ns => exact (statements_tells quote none ns h).mono fun _ _ _ => trivial
  | body b => exact (body_tells quote b h).mono fun _ _ _ => trivial
  | branch n =>
    intro p t q hp hg
    have alone : (alternatives [n]).Gives σ p [t] q := by
      rw [alternatives_cons]
      simp only [gives_bind, gives_pure]
      exact ⟨t, q, hg, [], q, gives_pure.2 ⟨rfl, rfl⟩, rfl, rfl⟩
    exact alternatives_tells quote [n] h hp alone
  | range n =>
    intro p t q hp hg
    have alone : (ranges [n]).Gives σ p [t] q := by
      rw [ranges_cons]
      simp only [gives_bind, gives_pure]
      exact ⟨t, q, hg, [], q, gives_pure.2 ⟨rfl, rfl⟩, rfl, rfl⟩
    exact ranges_tells quote [n] h hp alone
  | param id => exact param_tells quote h
  | operands e => exact (expression_tells (each_tells quote e.operands h)).mono fun _ _ _ => trivial

/-- In the body of a function the move leads on in it. -/
def Move.Keeps (σ : Style) : Move → Prop
  | render _ job => job.Discreet σ.dialect
  | change f => ∀ r : Pass, r.Onward (f r)
  | reach _ | skip _ | nextLine => True

def Kept (σ : Style) (ms : List Move) : Prop := ∀ m ∈ ms, m.Keeps σ

section Moves

variable {m : Move} {ms ms' : List Move} {places : List Place}

@[simp] theorem kept_nil : Kept σ [] := by simp [Kept]

@[simp] theorem kept_cons : Kept σ (m :: ms) ↔ m.Keeps σ ∧ Kept σ ms := List.forall_mem_cons

@[simp] theorem kept_append : Kept σ (ms ++ ms') ↔ Kept σ ms ∧ Kept σ ms' := List.forall_mem_append

private theorem kept_jobs {α : Type} {job : α → Job} {as : List α} (h : ∀ a ∈ as, (job a).Discreet σ.dialect) :
    Kept σ (as.map fun a => .render places (job a)) := by
  intro m hm
  obtain ⟨a, ha, rfl⟩ := List.mem_map.1 hm
  exact h a ha

private theorem kept_nodes {ns : List Node} (h : EveryIn (Node.Discreet σ.dialect) ns) :
    Kept σ (Plan.nodes places ns) :=
  kept_jobs fun n hn => by simpa [Job.Discreet] using h n hn

private theorem kept_body {b : Option (Body Node)} (h : EveryIn (Node.Discreet σ.dialect) (statementsOf b)) :
    Kept σ (Plan.body b) := by
  cases b with
  | none => exact kept_nil
  | some b => exact kept_cons.2 ⟨h, kept_nil⟩

theorem Pass.Onward.skipTo (p : Pass) (line : Nat) : p.Onward (p.skipTo line) := ⟨rfl, rfl, id⟩

/-- The pass of a failing rendering is taken to stay. -/
theorem Rendering.Tells.outcome {m : Rendering String} {Q : Bool → String → Prop} (hm : m.Tells σ Q) (hp : p.InBody) :
    p.Onward (m.outcome σ p).2 ∧ (Q p.stand.amongValues (m.outcome σ p).1 ∨ (m.outcome σ p).1 = "") := by
  unfold Rendering.outcome
  split
  · next result run =>
    obtain ⟨onward, told⟩ := hm hp (run : m.Gives σ p result.1 result.2)
    exact ⟨onward, .inl told⟩
  · exact ⟨.refl p, .inr rfl⟩

theorem follows_onward (quote : σ.quote ≠ '@') (kept : Kept σ ms) (hp : p.InBody) (run : Follows σ ms p q) :
    p.Onward q := by
  induction ms generalizing p with
  | nil => exact run ▸ .refl p
  | cons m ms ih =>
    obtain ⟨own, others⟩ := kept_cons.1 kept
    obtain ⟨r, step, run⟩ := run
    have first : p.Onward r := by
      cases m with
      | render places job =>
        obtain ⟨t, s, hs, rfl⟩ := step
        exact ((Job.tells quote own) (hp.enter places) hs).1.leave
      | reach line => exact step ▸ p.onward_reach line
      | skip line => exact step ▸ .skipTo p line
      | nextLine => exact step ▸ p.onward_nextLine
      | change f => exact step ▸ own p
    exact first.trans (ih others (first.inBody hp) run)

end Moves

section Plans

variable {line : Option Nat}

private theorem onward_addVariable (r : Pass) (name : String) : r.Onward (r.learn (·.addVariable name)) :=
  (Pass.Onward.refl r).learn id

private theorem kept_property (quote : σ.quote ≠ '@') {segments : List Node} {value : Expression Node}
    (hs : EveryIn (Node.Discreet σ.dialect) segments) (hv : EveryIn (Node.Discreet σ.dialect) value.operands)
    (quiet : speaksIn true value.operands = false) (hp : p.InBody) :
    Kept σ (Plan.property σ p segments value line) := by
  have start : (Plan.declared p line).InBody := ((p.onward_reach line).inBody hp).enter _
  have among : (Plan.declared p line).stand.amongValues := (p.reach line).amongValues_enter _ (by simp)
  obtain ⟨named, -⟩ := (named_tells (each_tells quote segments hs)).outcome start
  generalize he : (Render.named segments (each segments)).outcome σ (Plan.declared p line) = name at named
  have opened : (Plan.declared p line).Onward (name.2.learn (·.openDeclaration name.1)) :=
    named.learn Registry.Holds.openDeclaration
  obtain ⟨-, told⟩ := (expression_tells (each_tells quote value.operands hv)).outcome (opened.inBody start)
  have content : Silent ((Job.operands value).rendering.outcome σ (name.2.learn (·.openDeclaration name.1))).1 := by
    rcases told with told | none
    · rw [opened.stand, among, quiet] at told
      exact told
    · exact none ▸ silent_of_plain (by simp)
  have opening (r : Pass) : r.Onward (r.learn (·.openDeclaration name.1)) :=
    (Pass.Onward.refl r).learn Registry.Holds.openDeclaration
  rw [Plan.property, he, kept_append, kept_cons]
  refine ⟨⟨trivial, kept_nodes hs⟩, kept_cons.2 ⟨opening, kept_cons.2 ⟨hv, kept_cons.2 ⟨fun r => ?_, kept_nil⟩⟩⟩⟩
  cases hi : value.inlineName? with
  | none => exact (Pass.Onward.refl r).learn fun held => held.closeDeclaration content _
  | some inner =>
    obtain ⟨plain, avoids⟩ := discreet_inlineName hv hi
    have reference := σ.dialect.silent_variableRef plain avoids
    refine (Pass.Onward.refl r).learn fun held => ?_
    have added : Registry.Holds Silent (Registry.addVariable _ inner) := held.addVariable
    exact added.closeDeclaration reference _

private theorem kept_operands {e : Expression Node} (h : EveryIn (Node.Discreet σ.dialect) e.operands) (p : Pass) :
    Kept σ (Plan.operands p e) := by
  unfold Plan.operands
  split
  · exact kept_append.2 ⟨kept_cons.2 ⟨trivial, kept_nil⟩, kept_nodes h⟩
  · exact kept_nodes h

private theorem kept_assignment {name : String} {e : Expression Node} (h : EveryIn (Node.Discreet σ.dialect) e.operands)
    (p : Pass) : Kept σ (Plan.assignment p name e) := by
  have known (r : Pass) : r.Onward (knowingMap r name e) := by
    unfold knowingMap
    split
    · exact (Pass.Onward.refl r).learn id
    · exact .refl r
  have reached : Kept σ (if p.inAny [.call] then [] else [.reach e.line]) := by
    split
    · exact kept_nil
    · exact kept_cons.2 ⟨trivial, kept_nil⟩
  unfold Plan.assignment
  exact kept_append.2 ⟨kept_append.2 ⟨kept_cons.2 ⟨known, reached⟩, kept_nodes h⟩,
    kept_cons.2 ⟨(onward_addVariable · name), kept_nil⟩⟩

private theorem kept_head {places : List Place} (head : List Node) {b : Option (Body Node)}
    (h : EveryIn (Node.Discreet σ.dialect) (head ++ statementsOf b)) :
    Kept σ (.reach line :: Plan.nodes places head ++ Plan.body b) := by
  obtain ⟨hs, hb⟩ := (everyIn_append _ _).1 h
  exact kept_append.2 ⟨kept_cons.2 ⟨trivial, kept_nodes hs⟩, kept_body hb⟩

private theorem kept_conditional {condition : Node} {b : Body Node} {alternatives : List Node}
    (h : EveryIn (Node.Discreet σ.dialect) (condition :: b.statements ++ alternatives)) :
    Kept σ (Plan.conditional condition b alternatives) := by
  obtain ⟨first, others⟩ := (everyIn_append _ _).1 h
  obtain ⟨hc, hb⟩ := (everyIn_cons _ _).1 first
  have condition_discreet : (Job.node condition).Discreet σ.dialect := by simpa [Job.Discreet] using hc
  refine kept_cons.2 ⟨condition_discreet, kept_cons.2 ⟨hb, kept_jobs fun n hn => ?_⟩⟩
  simpa [Job.Discreet] using others n hn

private theorem kept_ranges {places : List Place} {ns : List Node} (h : EveryIn (Node.Discreet σ.dialect) ns) :
    Kept σ (ns.map fun n => .render places (.range n)) :=
  kept_jobs fun n hn => by simpa [Job.Discreet] using h n hn

private theorem kept_loop {item : String} {key : Option String} {e : Expression Node} {b : Body Node}
    (h : EveryIn (Node.Discreet σ.dialect) (e.operands ++ b.statements)) :
    Kept σ (Plan.loop item key e b line) := by
  obtain ⟨he, hb⟩ := (everyIn_append _ _).1 h
  have known (r : Pass) : r.Onward (knowingItems r item key) := by
    cases key with
    | none => exact onward_addVariable r item
    | some key => exact (onward_addVariable r item).trans (onward_addVariable _ key)
  refine kept_append.2 ⟨kept_cons.2 ⟨trivial, kept_cons.2 ⟨known, ?_⟩⟩, kept_cons.2 ⟨hb, kept_nil⟩⟩
  split
  · exact kept_ranges he
  · exact kept_nodes he

private theorem kept_comment {c : Comment} {sameLine : Bool} : Kept σ (Plan.comment c sameLine) := by
  cases sameLine <;> simp [Plan.comment, Move.Keeps]

private theorem kept_mapLiteral {es : List (String × Node)} (h : EveryIn (Node.Discreet σ.dialect) (es.map (·.2))) :
    Kept σ (Plan.mapLiteral es line) := by
  refine kept_append.2 ⟨kept_cons.2 ⟨Pass.onward_down, kept_nodes h⟩, kept_cons.2 ⟨Pass.onward_up, ?_⟩⟩
  cases line <;> simp [Move.Keeps]

private theorem kept_node (quote : σ.quote ≠ '@') {n : Node} (h : n.Every (Node.Discreet σ.dialect)) (hp : p.InBody) :
    Kept σ (Plan.node σ p n) := by
  have held := h.parts
  have single {c : Node} (hc : c.Every (Node.Discreet σ.dialect)) : (Job.node c).Discreet σ.dialect := by
    simpa [Job.Discreet] using hc
  cases n with
  | null | literal | number | quoted | boolean | color | charset => simp [Plan.node, Move.Keeps]
  | identifier id =>
    obtain ⟨name, value, placeholder, rest, line⟩ := id
    cases value with
    | none => exact kept_nil
    | some v =>
      have bound : v.Every (Node.Discreet σ.dialect) := held v (by simp)
      have named : Kept σ [.change (·.learn (·.addVariable name))] :=
        kept_cons.2 ⟨(onward_addVariable · name), kept_nil⟩
      cases v with
      | null => exact kept_nil
      | expression e => exact kept_assignment bound.parts p
      | callable => exact absurd bound.self.plain (by simp [Node.isCallable])
      | _ => exact kept_cons.2 ⟨trivial, kept_cons.2 ⟨single bound, named⟩⟩
  | expression e => exact kept_operands held p
  | arguments args => exact kept_nodes held
  | block b => exact kept_body (b := some b) held
  | selector segments line => exact kept_cons.2 ⟨trivial, kept_nodes held⟩
  | ruleSet selectors b line =>
    cases b with
    | none => exact kept_nil
    | some b => exact kept_head _ held
  | property segments value line =>
    obtain ⟨hs, hv⟩ := (everyIn_append _ _).1 held
    exact kept_property quote hs hv h.self.declared hp
  | call name args b line =>
    obtain ⟨ha, hb⟩ := (everyIn_append _ _).1 held
    have called (name : Option String) (r : Pass) : r.Onward { r with callName := name } := ⟨rfl, rfl, id⟩
    exact kept_append.2 ⟨kept_cons.2 ⟨trivial, kept_cons.2 ⟨called _, kept_nodes ha⟩⟩,
      kept_cons.2 ⟨called _, kept_body hb⟩⟩
  | callable => exact absurd h.self.plain (by simp [Node.isCallable])
  | returned value line => exact kept_cons.2 ⟨trivial, kept_cons.2 ⟨held, kept_nil⟩⟩
  | conditional condition b others negated line =>
    cases b with
    | none => exact kept_nil
    | some b => exact kept_cons.2 ⟨trivial, kept_conditional held⟩
  | loop item key e b line =>
    cases e with
    | none => exact kept_nil
    | some e =>
      cases b with
      | none => exact kept_nil
      | some b => exact kept_loop held
  | binary operator left right => exact kept_nodes held
  | unary operator operand => exact kept_nodes held
  | keyframes segments b line =>
    cases b with
    | none => exact kept_nil
    | some b =>
      obtain ⟨hs, hb⟩ := (everyIn_append _ _).1 held
      refine kept_append.2 ⟨kept_cons.2 ⟨trivial, kept_nodes hs⟩, ?_⟩
      split
      · exact kept_nil
      · exact kept_cons.2 ⟨hb, kept_nil⟩
  | media condition b line | supports condition b line =>
    cases b with
    | none => exact kept_nil
    | some b => exact kept_head [condition] held
  | queryList queries => exact kept_nodes held
  | query features medium predicate =>
    obtain ⟨hf, hm⟩ := (everyIn_append _ _).1 held
    exact kept_nodes ((everyIn_append _ _).2 ⟨hm, hf⟩)
  | feature segments value =>
    obtain ⟨hs, hv⟩ := (everyIn_append _ _).1 held
    refine kept_append.2 ⟨kept_nodes hs, ?_⟩
    cases value with
    | none => exact kept_nil
    | some e => exact kept_cons.2 ⟨hv, kept_nil⟩
  | xmlNamespace value shortName line => exact kept_cons.2 ⟨trivial, kept_cons.2 ⟨held, kept_nil⟩⟩
  | importSheet path line => exact kept_cons.2 ⟨trivial, kept_nodes held⟩
  | extend selectors line =>
    rw [Plan.node]
    split
    · exact kept_nil
    · exact kept_cons.2 ⟨trivial, kept_nodes held⟩
  | atRule name segments b line => exact kept_head _ held
  | comment c => exact kept_comment
  | member left right => exact kept_nodes held
  | mapLiteral es line => exact kept_mapLiteral held

private theorem kept_statements {previous : Option Nat} {ns : List Node} (h : EveryIn (Node.Discreet σ.dialect) ns) :
    Kept σ (Plan.statements previous ns) := by
  induction ns generalizing previous with
  | nil => exact kept_nil
  | cons n ns ih =>
    obtain ⟨hn, hns⟩ := (everyIn_cons _ _).1 h
    have own : (Job.statement previous n).Discreet σ.dialect := by simpa [Job.Discreet] using hn
    exact kept_cons.2 ⟨own, ih hns⟩

/-- The moves of a job in the body of a function lead on in it. -/
theorem Job.plan_kept (quote : σ.quote ≠ '@') {job : Job} (h : job.Discreet σ.dialect) (hp : p.InBody) :
    Kept σ (job.plan σ p) := by
  have single {n : Node} (hn : EveryIn (Node.Discreet σ.dialect) [n]) : n.Every (Node.Discreet σ.dialect) :=
    hn n (by simp)
  cases job with
  | node n => exact kept_node quote (single h) hp
  | statement previous n =>
    cases n with
    | comment c => exact kept_comment
    | _ => exact kept_node quote (single h) hp
  | row ns => exact kept_statements h
  | body b =>
    refine kept_cons.2 ⟨Pass.onward_down, kept_cons.2 ⟨h, kept_append.2 ⟨?_, kept_cons.2 ⟨Pass.onward_up, kept_nil⟩⟩⟩⟩
    split
    · exact kept_cons.2 ⟨trivial, kept_nil⟩
    · exact kept_nil
  | branch n =>
    have held := (single h).parts
    cases n with
    | conditional condition b others negated line =>
      cases b with
      | none => exact kept_cons.2 ⟨trivial, kept_nil⟩
      | some b => exact kept_cons.2 ⟨trivial, kept_conditional held⟩
    | block b => exact kept_cons.2 ⟨trivial, kept_body (b := some b) held⟩
    | _ => exact kept_cons.2 ⟨trivial, kept_nil⟩
  | range n =>
    cases n with
    | expression e => exact kept_ranges (single h).parts
    | _ => exact kept_node quote (single h) hp
  | param id =>
    refine kept_append.2 ⟨?_, kept_cons.2 ⟨(onward_addVariable · id.name), kept_nil⟩⟩
    split
    · exact kept_nodes h
    · exact kept_nil
  | operands e => exact kept_operands h p

end Plans

/-- What is met in the body of a function is in that body. -/
theorem Meets.inBody (quote : σ.quote ≠ '@') {job part : Job} {path : List Nat} (h : job.Discreet σ.dialect)
    (hp : p.InBody) (met : Meets σ job p path part q) : part.Discreet σ.dialect ∧ q.InBody := by
  induction met with
  | here => exact ⟨h, hp⟩
  | inside _ _ _ outer split run ih =>
    obtain ⟨inner, start⟩ := ih
    have kept := Job.plan_kept quote inner start
    rw [split, kept_append, kept_cons] at kept
    exact ⟨kept.2.1, ((follows_onward quote kept.1 start run).inBody start).enter _⟩

/-- The keyword goes into a block of a function just if none of its statements speaks. -/
theorem Body.inserts_iff (quote : σ.quote ≠ '@') {b : Body Node} (h : EveryIn (Node.Discreet σ.dialect) b.statements)
    (hp : p.InBody) (run : (Render.body b).Gives σ p t q) :
    b.inserts σ p ↔ speaksIn p.stand.amongValues b.statements = false := by
  obtain ⟨content, r, -, -, row, -⟩ := Plan.body_gives run
  have start := p.onward_down.inBody hp
  obtain ⟨onward, told⟩ := statements_tells quote none b.statements h start row
  rw [p.onward_down.stand] at told
  rw [Body.inserts, row.outcome]
  dsimp only
  rw [(onward.inBody start).function, Bool.true_and, Bool.not_eq_true', ← Bool.not_eq_true, ← Bool.not_eq_true]
  exact not_congr told.hasReturn_iff

end Stylesheet
