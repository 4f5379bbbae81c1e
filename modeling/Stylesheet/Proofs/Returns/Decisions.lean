import Stylesheet.Proofs.Returns.Shapes

/-!
# Which blocks get the keyword

Two runs over trees of one shape meet the same jobs, in the same places. Which blocks of a function get the keyword is
read off their shape and their places, so it is the same in both runs, unless a text brings the keyword.
-/

namespace Stylesheet

open Text Rendering Render

variable {σ σ' : Style} {p p' q q' r : Pass} {t t' : String} {path : List Nat}

/-- A run over the definition of a function that defines no other callable, and in which no text brings the keyword. -/
structure FunctionRun (σ : Style) (p : Pass) (f : Node) : Prop where
  quote : σ.quote ≠ '@'
  function : f.isFunction
  discreet : EveryIn (Node.Discreet σ.dialect) f.parts
  values : p.registry.Holds Silent
  gives : ∃ t q, (Render.node f).Gives σ p t q

/-- Where a definition is, or in the body of a function. -/
def Inside (σ : Style) (p : Pass) (f : Node) (part : Job) (q : Pass) : Prop :=
  part = .node f ∧ q = p ∨ part.Discreet σ.dialect ∧ q.InBody

private theorem row_onward (quote : σ.quote ≠ '@') {places : List Place} {ms : List Move}
    (h : ∀ m ∈ ms, ∃ job : Job, m = .render places job ∧ job.Discreet σ.dialect) (hp : (p.enter places).InBody)
    (run : Follows σ ms p q) : q.places = p.places ∧ (p.enter places).Onward (q.enter places) := by
  induction ms generalizing p with
  | nil =>
    cases run
    exact ⟨rfl, .refl _⟩
  | cons m ms ih =>
    obtain ⟨⟨job, rfl, own⟩, others⟩ := List.forall_mem_cons.1 h
    obtain ⟨r, ⟨t, s, hs, rfl⟩, run⟩ := run
    have first := (Job.tells quote own hp hs).1
    have back : (s.leave p).enter places = s := Pass.enter_leave (job.stays hs)
    obtain ⟨placed, rest⟩ := ih others (back.symm ▸ first.inBody hp) run
    rw [back] at rest
    exact ⟨placed, first.trans rest⟩

private theorem split_of_concat {places : List Place} {job : Job} {ms before after : List Move} {f : Pass → Pass}
    (h : ms ++ [.change f] = before ++ .render places job :: after) :
    ∃ rest, ms = before ++ .render places job :: rest := by
  rcases List.append_eq_append_iff.1 h with ⟨behind, rfl, last⟩ | ⟨rest, rfl, last⟩
  · cases behind with
    | nil => cases last
    | cons m behind =>
      have long := congrArg List.length last
      simp at long
  · cases rest with
    | nil => cases last
    | cons m rest =>
      obtain ⟨rfl, -⟩ := List.cons.inj last
      exact ⟨rest, rfl⟩

private theorem callable_inBody (quote : σ.quote ≠ '@') {params : List (Identifier Node)} {b : Body Node}
    {line : Option Nat}
    (function : DefinitionKind.ofBody b.statements = .function)
    (h : EveryIn (Node.Discreet σ.dialect) (params.flatMap (·.value.toList) ++ b.statements))
    (values : p.registry.Holds Silent) {before after : List Move} {places : List Place} {part : Job}
    (split : Plan.callable params b line = before ++ .render places part :: after) (run : Follows σ before p r) :
    r.places = p.places ∧ part.Discreet σ.dialect ∧ (r.enter places).InBody := by
  obtain ⟨values_discreet, body_discreet⟩ := (everyIn_append _ _).1 h
  have row : ∀ m ∈ params.map (fun id => Move.render [.callableBody] (.param id)) ++
      [.render [.callableBody] (.body b)], ∃ job : Job, m = .render [.callableBody] job ∧ job.Discreet σ.dialect := by
    intro m hm
    rcases List.mem_append.1 hm with param | body
    · obtain ⟨id, hid, rfl⟩ := List.mem_map.1 param
      exact ⟨_, rfl, fun n hn => values_discreet n (List.mem_flatMap.2 ⟨id, hid, hn⟩)⟩
    · exact ⟨_, List.mem_singleton.1 body, body_discreet⟩
  cases before with
  | nil => cases split
  | cons m before =>
    cases before with
    | nil => cases split
    | cons m' before =>
      obtain ⟨rfl, behind⟩ := List.cons.inj split
      obtain ⟨rfl, jobs⟩ := List.cons.inj behind
      rw [follows_reach, follows_change] at run
      have whole : params.map (fun id => Move.render [.callableBody] (.param id)) ++
          [.render [.callableBody] (.body b)] ++ [.change _] = before ++ .render places part :: after :=
        (List.append_assoc _ _ _).trans jobs
      obtain ⟨rest, inner⟩ := split_of_concat whole
      rw [inner] at row
      obtain ⟨job, same, own⟩ := row _ (List.mem_append_right _ List.mem_cons_self)
      obtain ⟨rfl, rfl⟩ := Move.render.inj same
      have start : (intoCallable (p.reach line) (.ofBody b.statements) (params.map (·.name))).InBody :=
        { values := ((p.along_reach line).holds values).setParams
          function := by simp [intoCallable, Pass.inFunction, Pass.inAny, Pass.enter, function] }
      obtain ⟨placed, onward⟩ := row_onward quote (fun m hm => row m (List.mem_append_left _ hm)) start run
      exact ⟨placed.trans (p.reach_places line), own, onward.inBody start⟩

/-- The jobs of the plan of a met one are in the body of the function, and come back to its places. -/
theorem FunctionRun.step {f : Node} (h : FunctionRun σ p f) {part next : Job} {before after : List Move}
    {places : List Place} (inside : Inside σ p f part q)
    (split : part.plan σ q = before ++ .render places next :: after) (run : Follows σ before q r) :
    r.places = q.places ∧ next.Discreet σ.dialect ∧ (r.enter places).InBody := by
  rcases inside with ⟨rfl, rfl⟩ | ⟨discreet, body⟩
  · have function := h.function
    have parts := h.discreet
    cases f with
    | callable name params b line =>
      cases b with
      | none => cases function
      | some b => exact callable_inBody h.quote (eq_of_beq function) parts h.values split run
    | _ => cases function
  · have kept := Job.plan_kept h.quote discreet body
    rw [split, kept_append, kept_cons] at kept
    have onward := follows_onward h.quote kept.1 body run
    exact ⟨onward.places, kept.2.1, (onward.inBody body).enter _⟩

/-- A job that is met in a definition is the definition itself or in the body of the function. -/
theorem FunctionRun.inside {f : Node} (h : FunctionRun σ p f) {part : Job} (met : Meets σ (.node f) p path part q) :
    Inside σ p f part q := by
  induction met with
  | here => exact .inl ⟨rfl, rfl⟩
  | inside _ _ _ outer split run ih => exact .inr (h.step ih split run).2

/-- Runs over functions of one shape, in the same places, meet jobs of one shape, in the same places. -/
theorem FunctionRun.alike {f f' : Node} (h : FunctionRun σ p f) (h' : FunctionRun σ' p' f') (shape : f'.shape = f.shape)
    (places : p'.places = p.places) {part : Job} (met : Meets σ (.node f) p path part q) :
    ∃ part' q', Meets σ' (.node f') p' path part' q' ∧ part'.shape = part.shape ∧ q'.places = q.places := by
  induction met with
  | here => exact ⟨_, _, .here, congrArg Job.node shape, places⟩
  | @inside path inner next start r before around after outer split run ih =>
    obtain ⟨inner', start', met', shape', places'⟩ := ih
    have jobs : shapesOfJobs (renders (inner'.plan σ' start')) = shapesOfJobs (renders (inner.plan σ start)) := by
      rw [← Job.renders_shape σ' σ start' start, ← Job.renders_shape σ σ start start, shape']
    have numbered : (renders (inner.plan σ start))[before.countP Move.isRender]? = some (around, next) :=
      split ▸ renders_at before after
    have there := congrArg (·[before.countP Move.isRender]?) jobs
    simp only [List.getElem?_map, numbered, Option.map_some, Option.map_eq_some_iff] at there
    obtain ⟨⟨around', next'⟩, found, same⟩ := there
    obtain ⟨rfl, next_shape⟩ := Prod.mk.inj same
    obtain ⟨before', after', split', count⟩ := split_of_renders found
    obtain ⟨t, s, given⟩ := h'.gives
    obtain ⟨_, _, inner_gives⟩ := Meets.gives (.node f') given met'
    obtain ⟨r', run', -⟩ := Job.gives_on_way _ inner_gives _ split'
    refine ⟨next', r'.enter _, count ▸ Meets.inside _ _ _ met' split' run', next_shape, ?_⟩
    have back := (h.step (h.inside outer) split run).1
    have back' := (h'.step (h'.inside met') split' run').1
    rw [Pass.enter, Pass.enter, back, back', places']

private theorem callable_meets_body {name : String} {params : List (Identifier Node)} {b : Body Node}
    {line : Option Nat}
    (h : (Render.node (.callable name params (some b) line)).Gives σ p t q) :
    ∃ r, Meets σ (.node (.callable name params (some b) line)) p [params.length] (.body b) r := by
  have count : (params.map fun id => Move.render [.callableBody] (.param id)).countP Move.isRender = params.length := by
    rw [List.countP_map]
    exact List.countP_eq_length.2 fun _ _ => rfl
  obtain ⟨r, run, -⟩ := Job.gives_on_way (.node (.callable name params (some b) line)) h
    (.reach line :: .change _ :: params.map fun id => Move.render [.callableBody] (.param id)) rfl
  exact ⟨_, count ▸ Meets.inside _ _ [.change _] .here rfl run⟩

/-- The keyword goes into a block of a function just if none of its statements speaks. -/
theorem FunctionRun.inserts_iff {f : Node} (h : FunctionRun σ p f) {b : Body Node}
    (met : Meets σ (.node f) p path (.body b) q) :
    b.inserts σ q ↔ speaksIn q.stand.amongValues b.statements = false := by
  obtain ⟨⟨⟩, -⟩ | ⟨discreet, body⟩ := h.inside met
  obtain ⟨t, s, given⟩ := h.gives
  obtain ⟨_, _, run⟩ := Meets.gives (.node f) given met
  exact Body.inserts_iff h.quote discreet body run

/-- Implicit returns are decided by statements. The keyword goes into a block of a function just if none of its
statements speaks, and in a run over a function of the same shape, in either dialect, into the same blocks. -/
theorem FunctionRun.inserts_alike {f f' : Node} (h : FunctionRun σ p f) (h' : FunctionRun σ' p' f')
    (shape : f'.shape = f.shape) (places : p'.places = p.places) {b : Body Node}
    (met : Meets σ (.node f) p path (.body b) q) :
    (b.inserts σ q ↔ speaksIn q.stand.amongValues b.statements = false) ∧
      (∃ b' q', Meets σ' (.node f') p' path (.body b') q') ∧
      ∀ b' q', Meets σ' (.node f') p' path (.body b') q' → (b'.inserts σ' q' ↔ b.inserts σ q) := by
  obtain ⟨part', q', met', part_shape, places'⟩ := h.alike h' shape places met
  obtain ⟨b', rfl, body_shape⟩ : ∃ b', part' = .body b' ∧ b'.shape = b.shape := by
    cases part' with
    | body b' => exact ⟨b', rfl, Job.body.inj part_shape⟩
    | _ => cases part_shape
  refine ⟨h.inserts_iff met, ⟨b', q', met'⟩, fun c s other => ?_⟩
  obtain ⟨same, rfl⟩ := met'.unique other
  cases same
  have statements : shapes b'.statements = shapes b.statements := congrArg Body.statements body_shape
  rw [h.inserts_iff met, h'.inserts_iff met', Pass.stand_of_places places', ← speaksIn_shapes, statements,
    speaksIn_shapes]

/-- A sum with a name, which is no list of its own. -/
def sumBody (name : String) : Body Node := ⟨[.binary "+" (.identifier { name }) (.literal "1px" none)], none⟩

def sumFunction (name : String) : Node := .callable "f" [{ name }] (some (sumBody name)) none

/-- The sum is returned in either dialect. -/
theorem FunctionRun.inserts_alike_sum :
    FunctionRun {} {} (sumFunction "n") ∧ FunctionRun { dialect := .less } {} (sumFunction "size") ∧ ∃ q q',
      Meets {} (.node (sumFunction "n")) {} [1] (.body (sumBody "n")) q ∧ (sumBody "n").inserts {} q ∧
      Meets { dialect := .less } (.node (sumFunction "size")) {} [1] (.body (sumBody "size")) q' ∧
      (sumBody "size").inserts { dialect := .less } q' := by
  have values : ({} : Registry).Holds Silent := by
    intro d hd
    cases hd
  have discreet (d : Dialect) (name : String) (plain : '@' ∉ name.toList) (avoids : d.Avoids name) :
      EveryIn (Node.Discreet d) (sumFunction name).parts := by
    have named : Node.Discreet d (.identifier { name }) :=
      ⟨by simpa using plain, by simpa [Node.variableNames] using avoids, by simp [Node.ruleNames], rfl, rfl⟩
    have sum : Node.Discreet d (.binary "+" (.identifier { name }) (.literal "1px" none)) :=
      ⟨by simp, by simp [Node.variableNames], by simp [Node.ruleNames], rfl, rfl⟩
    have length : Node.Discreet d (.literal "1px" none) :=
      ⟨by simp, by simp [Node.variableNames], by simp [Node.ruleNames], rfl, rfl⟩
    simp [sumFunction, sumBody, Node.every_iff_everyIn, Node.parts, statementsOf, named, sum, length]
  have scss : (Render.node (sumFunction "n")).Gives {} {} "@function f($n) \x7b\n  @return $n + 1px;\n\x7d"
      { line := 2, registry := { variableNames := ["n"] } } := eq_ok_of_toOption (by decide +kernel)
  have less : (Render.node (sumFunction "size")).Gives { dialect := .less } {}
      "@function f(@size) \x7b\n  @return @size + 1px;\n\x7d"
      { line := 2, registry := { variableNames := ["size"] } } := eq_ok_of_toOption (by decide +kernel)
  have h : FunctionRun {} {} (sumFunction "n") :=
    ⟨by decide, rfl, discreet .scss "n" (by decide) (by decide), values, _, _, scss⟩
  have h' : FunctionRun { dialect := .less } {} (sumFunction "size") :=
    ⟨by decide, rfl, discreet .less "size" (by decide) (by decide), values, _, _, less⟩
  obtain ⟨q, met⟩ := callable_meets_body scss
  obtain ⟨q', met'⟩ := callable_meets_body less
  obtain ⟨decided, -, alike⟩ := FunctionRun.inserts_alike h h' rfl rfl met
  have inserted : (sumBody "n").inserts {} q := decided.2 rfl
  exact ⟨h, h', q, q', met, inserted, met', (alike _ _ met').2 inserted⟩

/-- In Less a name that starts with the word is taken for the keyword, and its sum is not returned. -/
theorem keyword_lost_behind_name :
    let less : Style := { dialect := .less }
    let known : Registry := { variableNames := ["returned"], paramNames := ["returned"] }
    let q : Pass := { line := 1, places := [.callableBody], returning := true, registry := known }
    (sumFunction "returned").shape = (sumFunction "n").shape ∧ (sumFunction "returned").isFunction ∧
      Sheet.convert ⟨[sumFunction "n"]⟩ { dialect := .less } =
        .ok "@function f(@n) \x7b\n  @return @n + 1px;\n\x7d\n" ∧
      Sheet.convert ⟨[sumFunction "returned"]⟩ {} =
        .ok "@function f($returned) \x7b\n  @return $returned + 1px;\n\x7d\n" ∧
      Sheet.convert ⟨[sumFunction "returned"]⟩ { dialect := .less } =
        .ok "@function f(@returned) \x7b\n  @returned + 1px;\n\x7d\n" ∧
      Meets less (.node (sumFunction "returned")) {} [1] (.body (sumBody "returned")) q ∧
      ¬((sumBody "returned").inserts less q ↔
        speaksIn q.stand.amongValues (sumBody "returned").statements = false) := by
  intro less known q
  refine ⟨rfl, rfl, eq_ok_of_toOption (by decide +kernel), eq_ok_of_toOption (by decide +kernel),
    eq_ok_of_toOption (by decide +kernel), ?_, by decide +kernel⟩
  let start : Pass := { q with registry := { paramNames := ["returned"] } }
  have param : (Job.param { name := "returned" }).rendering.Gives less start "@returned" q :=
    eq_ok_of_toOption (by decide +kernel)
  let enterFunction : Pass → Pass := fun r => { r.learn (·.setParams ["returned"]) with returning := true }
  have run : Follows less
      [.reach none, .change enterFunction, .render [.callableBody] (.param { name := "returned" })] {} (q.leave {}) :=
    ⟨_, rfl, _, rfl, _, ⟨_, _, param, rfl⟩, rfl⟩
  have outer : Meets less (.node (sumFunction "returned")) {} [] (.node (sumFunction "returned")) {} := .here
  exact .inside _ _ [.change _] outer rfl run

end Stylesheet
