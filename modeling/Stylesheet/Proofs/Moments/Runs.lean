import Stylesheet.Proofs.Moments.Plans

/-!
# Runs follow plans

A run of a job that gives a text leads through all moves of its plan, one after another, and ends where they end.
-/

namespace Stylesheet

open Rendering Render

variable {σ : Style} {p q : Pass} {t : String} {places : List Place}

namespace Plan

private theorem row_follows {α : Type} (rendering : List α → Rendering (List String)) (job : α → Job)
    (nil : rendering [] = pure []) (cons : ∀ a as, rendering (a :: as) = (do
      let text ← (job a).rendering
      return text :: (← rendering as)))
    {as : List α} {ts : List String} (h : (rendering as).Gives σ (p.enter places) ts q) :
    Follows σ (as.map fun a => .render places (job a)) p (q.leave p) := by
  induction as generalizing p ts with
  | nil =>
    rw [nil, gives_pure] at h
    obtain ⟨-, rfl⟩ := h
    exact rfl
  | cons a as ih =>
    rw [cons] at h
    simp only [gives_bind, gives_pure] at h
    obtain ⟨text, r, first, ts, _, rest, rfl, rfl⟩ := h
    refine follows_render (job a) first ?_
    rw [← Pass.enter_leave ((job a).stays first)] at rest
    exact ih rest

private theorem nodes_follows (places : List Place) {ns : List Node} {ts : List String}
    (h : (each ns).Gives σ (p.enter places) ts q) :
    Follows σ (nodes places ns) p (q.leave p) :=
  row_follows each .node rfl (fun _ _ => rfl) h

private theorem nodes_follows_here {ns : List Node} {ts : List String} (h : (each ns).Gives σ p ts q) :
    Follows σ (nodes [] ns) p q := by
  have moves : Follows σ (nodes [] ns) p (q.leave p) := nodes_follows [] h
  rwa [Pass.leave_of_places (each_stays ns h).places] at moves

private theorem alternatives_follow {ns : List Node} {ts : List String} (h : (alternatives ns).Gives σ p ts q) :
    Follows σ (ns.map fun n => .render [] (.branch n)) p q := by
  have moves : Follows σ (ns.map fun n => .render [] (.branch n)) p (q.leave p) :=
    row_follows alternatives .branch rfl alternatives_cons h
  rwa [Pass.leave_of_places (Pass.beside_steps.alternatives ns h).places] at moves

private theorem ranges_follow (places : List Place) {ns : List Node} {ts : List String}
    (h : (ranges ns).Gives σ (p.enter places) ts q) :
    Follows σ (ns.map fun n => .render places (.range n)) p (q.leave p) :=
  row_follows ranges .range rfl ranges_cons h

private theorem ranges_follow_here {ns : List Node} {ts : List String} (h : (ranges ns).Gives σ p ts q) :
    Follows σ (ns.map fun n => .render [] (.range n)) p q := by
  have moves : Follows σ (ns.map fun n => .render [] (.range n)) p (q.leave p) := ranges_follow [] h
  have back := Pass.beside_steps.stepwise.ranges ns (fun _ _ _ _ _ => trivial) h
  rwa [Pass.leave_of_places back.places] at moves

private theorem params_follow (places : List Place) {ids : List (Identifier Node)} {ts : List String}
    (h : (params ids).Gives σ (p.enter places) ts q) :
    Follows σ (ids.map fun id => .render places (.param id)) p (q.leave p) :=
  row_follows params .param rfl (fun _ _ => rfl) h

private theorem statements_follow {previous : Option Nat} {ns : List Node}
    (h : (Render.statements previous ns).Gives σ p t q) :
    Follows σ (statements previous ns) p q := by
  induction ns generalizing previous p t with
  | nil =>
    obtain ⟨-, rfl⟩ := gives_pure.1 h
    exact rfl
  | cons n ns ih =>
    rw [statements_cons] at h
    simp only [gives_bind, gives_pure] at h
    obtain ⟨_, r, first, _, _, rest, rfl, rfl⟩ := h
    exact follows_render_here (.statement previous n) first (ih rest)

/-- The entries of a map are rendered as its values are. -/
theorem each_of_entries {es : List (String × Node)} {ts : List (String × String)}
    (h : (entries es).Gives σ p ts q) : (each (es.map (·.2))).Gives σ p (ts.map (·.2)) q ∧ ts.length = es.length := by
  induction es generalizing p ts with
  | nil =>
    obtain ⟨rfl, rfl⟩ := gives_pure.1 h
    exact ⟨gives_pure.2 ⟨rfl, rfl⟩, rfl⟩
  | cons e es ih =>
    obtain ⟨key, n⟩ := e
    simp only [entriesWith, gives_bind, gives_pure] at h
    obtain ⟨text, r, first, ts, _, rest, rfl, rfl⟩ := h
    obtain ⟨others, length⟩ := ih rest
    refine ⟨?_, congrArg Nat.succ length⟩
    simp only [List.map_cons, eachWith, gives_bind, gives_pure]
    exact ⟨text, r, first, _, _, others, rfl, rfl⟩

private theorem operands_follow {e : Expression Node} (h : (expression e (each e.operands)).Gives σ p t q) :
    Follows σ (operands p e) p q := by
  obtain ⟨before, start, ts, r, hstart, hts, rfl, -⟩ := expression_gives h
  rw [operands, follows_append]
  refine ⟨start, ?_, nodes_follows _ hts⟩
  rcases hstart with ⟨returns, -, rfl⟩ | ⟨returns, -, rfl⟩
  · rw [if_pos returns, follows_reach, follows_nil]
  · rw [if_neg (by simp [returns]), follows_nil]

private theorem assignment_follows {name : String} {e : Expression Node}
    (h : (Render.assignment name e (each e.operands)).Gives σ p t q) : Follows σ (assignment p name e) p q := by
  obtain ⟨before, start, ts, r, hstart, hts, rfl, -⟩ := assignment_gives h
  rw [assignment, List.append_assoc, List.cons_append, follows_change, follows_append]
  refine ⟨start, ?_, ?_⟩
  · rcases hstart with ⟨inCall, -, rfl⟩ | ⟨inCall, -, rfl⟩
    · rw [if_pos inCall, follows_nil]
    · rw [if_neg (by simp [inCall]), follows_reach, follows_nil]
  · rw [follows_append]
    exact ⟨_, nodes_follows _ hts, by simp⟩

private theorem property_follows {segments : List Node} {value : Expression Node} {line : Option Nat}
    (h : (Render.property line (named segments (each segments)) value
      (expression value (each value.operands))).Gives σ p t q) :
    Follows σ (property σ p segments value line) p q := by
  obtain ⟨name, r, content, s, hn, hc, ends⟩ := property_gives h
  obtain ⟨ts, hts, -⟩ := named_gives hn
  have back : (r.leave (p.reach line)).enter [.declarationValue] = r := Pass.enter_leave (each_stays segments hts)
  have value_gives : (Job.operands value).rendering.Gives σ (r.learn (·.openDeclaration name)) content s := hc
  have opened : ((r.leave (p.reach line)).learn (·.openDeclaration name)).enter [.declarationValue] =
      r.learn (·.openDeclaration name) := by
    rw [← back]
    rfl
  unfold property declared
  rw [hn.outcome]
  dsimp only
  rw [value_gives.outcome, List.cons_append, follows_reach, follows_append]
  refine ⟨r.leave (p.reach line), nodes_follows _ hts, ?_⟩
  rw [follows_change]
  refine follows_render (.operands value) (opened.symm ▸ value_gives) ?_
  rcases ends with ⟨inner, inline, rfl, -⟩ | ⟨plain, rfl, -⟩
  · rw [inline, follows_change, follows_nil]
    rfl
  · rw [plain, follows_change, follows_nil]
    rfl

private theorem call_follows {name : String} {args : List Node} {b : Option (Body Node)} {line : Option Nat}
    (h : (Render.call name line (each args) (b.map Render.body)).Gives σ p t q) :
    Follows σ (call p name args b line) p q := by
  obtain ⟨arguments, r, hargs, ends⟩ := call_gives h
  obtain ⟨ts, s, hts, rfl, -⟩ := arguments_gives hargs
  have inside : Follows σ (nodes [.arguments, .call] args) { p.reach line with callName := some name }
      (s.leave (p.reach line)) := nodes_follows [.arguments, .call] hts
  have name_back : (p.reach line).callName = p.callName := Pass.reach_callName p line
  rw [call, List.cons_append, List.cons_append, follows_reach, follows_change, follows_append]
  refine ⟨_, inside, ?_⟩
  rw [follows_change, body]
  rcases ends with ⟨none, rfl, -⟩ | ⟨handed, content, given, hb, -⟩
  · rw [Option.map_eq_none_iff.1 none, Option.toList_none, List.map_nil, follows_nil, Pass.hangUp, name_back]
    rfl
  · obtain ⟨b, rfl, rfl⟩ := Option.map_eq_some_iff.1 given
    rw [Pass.hangUp, name_back] at hb
    exact follows_render_here (.body b) hb rfl

private theorem callable_follows {name : String} {ps : List (Identifier Node)} {b : Body Node} {line : Option Nat}
    (h : (Render.callable name line (.ofBody b.statements) (ps.map (·.name)) (params ps) (Render.body b)).Gives
      σ p t q) : Follows σ (callable ps b line) p q := by
  obtain ⟨texts, r, content, s, hp, hb, rfl, -⟩ := callable_gives h
  rw [callable, List.cons_append, List.cons_append, follows_reach, follows_change, follows_append]
  refine ⟨_, params_follow [.callableBody] hp, ?_⟩
  have back := Pass.enter_leave (Pass.beside_steps.params ps hp)
  refine follows_render (.body b) (back.symm ▸ hb) ?_
  rw [follows_change, follows_nil]
  rfl

private theorem conditional_follows (start : BranchStart) {negated : Bool} {condition : Node} {b : Body Node}
    {others : List Node} (h : (Render.conditional start negated (Render.node condition) (Render.body b)
      (alternatives others)).Gives σ p t q) : Follows σ (conditional condition b others) (branchPass p start) q := by
  obtain ⟨_, r, _, s, _, hc, hb, ho, -⟩ := conditional_gives h
  exact follows_render (.node condition) hc (follows_render_here (.body b) hb (alternatives_follow ho))

private theorem loop_follows {item : String} {key : Option String} {e : Expression Node} {b : Body Node}
    {line : Option Nat}
    (h : (Render.loop item key line e (ranges e.operands) (each e.operands) (Render.body b)).Gives σ p t q) :
    Follows σ (loop item key e b line) p q := by
  obtain ⟨ts, r, content, hts, hb, -⟩ := loop_gives h
  have start : (knowingItems (p.reach line) item key).places = (p.reach line).places := by cases key <;> rfl
  rw [loop, List.cons_append, List.cons_append, follows_reach, follows_change, follows_append]
  refine ⟨r.leave (p.reach line), ?_, follows_render_here (.body b) hb rfl⟩
  have same : r.leave (p.reach line) = r.leave (knowingItems (p.reach line) item key) := by
    rw [Pass.leave, Pass.leave, start]
  rw [same]
  by_cases range : (firstRange? e.operands).isSome
  · rw [if_pos range] at hts ⊢
    exact ranges_follow _ hts
  · rw [if_neg range] at hts ⊢
    exact nodes_follows _ hts

private theorem keyframes_start {segments statements : List Node} {line : Option Nat} {texts : Rendering (List String)}
    {content : Rendering String}
    (h : (Render.keyframes line segments statements texts content).Gives σ p t q) :
    (statements.head?.map Node.isExpression).getD false = false := by
  simp only [Render.keyframes, gives_within, gives_perhaps, gives_bind] at h
  obtain ⟨_, ⟨_, _, -, _, _, -, _, guard, -⟩, -⟩ := h
  split at guard
  · exact absurd guard gives_throw
  · next starts => simpa using starts

private theorem keyframes_follow {segments : List Node} {b : Body Node} {line : Option Nat}
    (h : (Render.keyframes line segments b.statements (each segments) (Render.body b)).Gives σ p t q) :
    Follows σ (keyframes segments b line) p q := by
  have starts := keyframes_start h
  obtain ⟨ts, r, content, s, hts, hb, rfl, -⟩ := keyframes_gives h
  have moved : (p.enter [.keyframes]).reach line = (p.reach line).enter [.keyframes] := by cases line <;> rfl
  rw [moved] at hts
  have back := Pass.enter_leave (each_stays segments hts)
  rw [keyframes, starts, List.cons_append, follows_reach, follows_append]
  refine ⟨_, nodes_follows _ hts, follows_render (.body b) (back.symm ▸ hb) ?_⟩
  exact congrArg (fun places => { s with places }) (p.reach_places line).symm

private theorem mapLiteral_follows {es : List (String × Node)} {line : Option Nat}
    (h : (Render.mapLiteral line (entries es)).Gives σ p t q) : Follows σ (mapLiteral es line) p q := by
  obtain ⟨ts, r, hes, rfl, -⟩ := mapLiteral_gives h
  obtain ⟨hts, length⟩ := each_of_entries hes
  rw [mapLiteral, List.cons_append, follows_change, follows_append]
  refine ⟨_, nodes_follows _ hts, ?_⟩
  rw [follows_change, length]
  cases line with
  | none => exact rfl
  | some line => simp [afterMap]

private theorem selectors_follow {ns : List Node} {ts : List String} {line : Option Nat} {ms : List Move} {r : Pass}
    (h : (each ns).Gives σ (p.reach line) ts r) (rest : Follows σ ms r q) :
    Follows σ (.reach line :: nodes [] ns ++ ms) p q := by
  rw [List.cons_append, follows_reach, follows_append]
  exact ⟨r, nodes_follows_here h, rest⟩

private theorem body_follows {b : Body Node} (h : (Render.body b).Gives σ p t q) : Follows σ (body (some b)) p q :=
  follows_render_here (.body b) h rfl

private theorem bareName_follows {n : Node} {name : String} (h : n.bareName? = some name) (p : Pass) :
    Follows σ (nodes [] [n]) p p := by
  cases n with
  | identifier id =>
    obtain ⟨idName, value, placeholder, rest, line⟩ := id
    have unbound : value = none ∨ value = some .null := by
      rcases value with _ | v
      · exact .inl rfl
      · cases v with
        | null => exact .inr rfl
        | _ => cases h
    have reads : ∃ text, (Render.node (.identifier ⟨idName, value, placeholder, rest, line⟩)).Gives σ p text p := by
      rcases unbound with rfl | rfl <;> simp [Render.nodeWith, reference]
    obtain ⟨text, reads⟩ := reads
    exact follows_render_here (.node _) reads rfl
  | _ => cases h

private theorem comment_follows {c : Comment} {sameLine : Bool} (h : (Render.comment c sameLine).Gives σ p t q) :
    Follows σ (comment c sameLine) p q := by
  obtain ⟨rfl, -⟩ := comment_gives h
  cases sameLine with
  | true => exact follows_reach.2 rfl
  | false =>
    refine follows_reach.2 (follows_reach.2 ?_)
    cases hl : c.line <;> simp [lastLine, hl, Pass.reach]

private theorem member_follows {left right : Node}
    (h : (Render.member left right (Render.node left) (Render.node right)).Gives σ p t q) :
    Follows σ (nodes [] [left, right]) p q := by
  have render (n : Node) {text : String} {p q : Pass} (h : (Render.node n).Gives σ p text q) :
      Follows σ (nodes [] [n]) p q := follows_render_here (.node n) h rfl
  change Follows σ (nodes [] [left] ++ nodes [] [right]) p q
  rw [follows_append]
  obtain ⟨_, r, _, ⟨hl, hr, -⟩ | ⟨hl, hr, -⟩⟩ := member_gives h
  · exact ⟨r, render left hl, render right hr⟩
  · refine ⟨r, ?_, ?_⟩
    · rcases hl with ⟨-, hl⟩ | ⟨⟨name, bare, -⟩, rfl⟩
      · exact render left hl
      · exact bareName_follows bare r
    · rcases hr with ⟨-, hr⟩ | ⟨bare, rfl⟩
      · exact render right hr
      · exact bareName_follows bare q

private theorem node_follows (n : Node) (h : (Render.node n).Gives σ p t q) : Follows σ (node σ p n) p q := by
  cases n with
  | null | literal | number | quoted | boolean | color => exact (gives_pure.1 h).2
  | identifier id =>
    obtain ⟨name, value, placeholder, rest, line⟩ := id
    cases value with
    | none => exact (reference_gives h).2
    | some v =>
      cases v with
      | null => exact (reference_gives h).2
      | expression e => exact assignment_follows h
      | callable => exact follows_render_here (.node _) h rfl
      | _ =>
        obtain ⟨value, r, hv, rfl, -⟩ := boundValue_gives h
        exact follows_reach.2 (follows_render (.node _) hv (follows_change.2 rfl))
  | expression e => exact operands_follow h
  | arguments args =>
    obtain ⟨ts, r, hts, rfl, -⟩ := arguments_gives h
    exact nodes_follows _ hts
  | block b => exact body_follows h
  | selector segments line =>
    obtain ⟨ts, hts, -⟩ := selector_gives h
    exact follows_reach.2 (nodes_follows_here hts)
  | ruleSet selectors b line =>
    cases b with
    | none => exact absurd h gives_missing
    | some b =>
      obtain ⟨heads, r, content, hs, hb, -⟩ := ruleSet_gives h
      exact selectors_follow hs (body_follows hb)
  | property segments value line => exact property_follows h
  | call name args b line => cases b <;> exact call_follows h
  | callable name ps b line =>
    cases b with
    | none => exact absurd h gives_missing
    | some b => exact callable_follows h
  | returned value line =>
    obtain ⟨text, r, hv, rfl, -⟩ := returned_gives h
    exact follows_reach.2 (follows_render (.operands value) hv rfl)
  | conditional condition b others negated line =>
    cases b with
    | none => exact absurd h gives_missing
    | some b => exact follows_reach.2 (conditional_follows (.leading line) h)
  | loop item key e b line =>
    cases e with
    | none => exact absurd h gives_missing
    | some e =>
      cases b with
      | none => exact absurd h gives_missing
      | some b => exact loop_follows h
  | binary operator left right =>
    simp only [Render.nodeWith, gives_bind, gives_pure] at h
    obtain ⟨_, r, hl, _, _, hr, -, rfl⟩ := h
    exact follows_render_here (.node left) hl (follows_render_here (.node right) hr rfl)
  | unary operator operand =>
    simp only [Render.nodeWith, gives_bind, gives_pure] at h
    obtain ⟨_, r, ho, -, rfl⟩ := h
    exact follows_render_here (.node operand) ho rfl
  | keyframes segments b line =>
    cases b with
    | none => exact absurd h gives_missing
    | some b => exact keyframes_follow h
  | media condition b line =>
    cases b with
    | none => exact absurd h gives_missing
    | some b =>
      obtain ⟨_, r, _, hc, hb, -⟩ := conditionRule_gives h
      exact follows_reach.2 (follows_render_here (.node condition) hc (body_follows hb))
  | supports condition b line =>
    cases b with
    | none => exact absurd h gives_missing
    | some b =>
      obtain ⟨_, r, _, hc, hb, -⟩ := conditionRule_gives h
      exact follows_reach.2 (follows_render_here (.node condition) hc (body_follows hb))
  | queryList queries =>
    simp only [Render.nodeWith, gives_bind, gives_pure] at h
    obtain ⟨ts, _, hts, -, rfl⟩ := h
    exact nodes_follows_here hts
  | query features medium predicate =>
    simp only [Render.nodeWith, gives_bind, gives_pure] at h
    obtain ⟨_, r, hm, ts, _, hts, -, rfl⟩ := h
    cases medium with
    | none =>
      obtain ⟨-, rfl⟩ := gives_pure.1 hm
      exact nodes_follows_here hts
    | some medium => exact follows_render_here (.node medium) hm (nodes_follows_here hts)
  | feature segments value =>
    cases value with
    | none =>
      simp only [Render.nodeWith, gives_bind, gives_pure] at h
      obtain ⟨_, _, hn, -, rfl⟩ := h
      obtain ⟨ts, hts, -⟩ := named_gives hn
      exact follows_append.2 ⟨_, nodes_follows_here hts, rfl⟩
    | some value =>
      simp only [Render.nodeWith, gives_bind, gives_pure] at h
      obtain ⟨_, r, hn, _, _, hv, -, rfl⟩ := h
      obtain ⟨ts, hts, -⟩ := named_gives hn
      exact follows_append.2 ⟨r, nodes_follows_here hts, follows_render_here (.operands value) hv rfl⟩
  | xmlNamespace value shortName line =>
    obtain ⟨_, r, hv, rfl, -⟩ := xmlNamespace_gives h
    exact follows_reach.2 (follows_render (.node value) hv rfl)
  | charset encoding line => exact follows_reach.2 (charset_gives h).1
  | importSheet path line =>
    obtain ⟨ts, hts, -⟩ := importSheet_gives h
    exact follows_reach.2 (nodes_follows_here hts)
  | extend selectors line =>
    obtain ⟨some, ts, hts, -⟩ := extend_gives h
    rw [node, if_neg (by simpa using some)]
    exact follows_reach.2 (nodes_follows_here hts)
  | atRule name segments b line =>
    cases b with
    | none =>
      obtain ⟨ts, r, hts, ⟨-, rfl, -⟩ | ⟨_, _, none, -⟩⟩ := atRule_gives h
      · exact selectors_follow hts rfl
      · cases none
    | some b =>
      obtain ⟨ts, r, hts, ⟨none, -⟩ | ⟨_, _, given, hb, -⟩⟩ := atRule_gives h
      · cases none
      · cases given
        exact selectors_follow hts (body_follows hb)
  | comment c => exact comment_follows h
  | member left right => exact member_follows h
  | mapLiteral es line => exact mapLiteral_follows h

/-- In a function the keyword goes into a body in which it is not found. -/
theorem withReturn_gives {content : String} (h : (withReturn content).Gives σ p t q) :
    (p.inFunction && !Text.contains "@return" content) ∧
      (∃ inserted, (insertReturn σ.dialect.returnWord content).Gives σ p inserted q ∧ t = terminated inserted) ∨
    (p.inFunction && !Text.contains "@return" content) = false ∧ (t = content ∨ t = terminated content) ∧ q = p := by
  have word : Text.dropTrailing ' ' σ.dialect.returnWord = "@return" := by cases σ.dialect <;> decide
  simp only [withReturn, gives_ite, gives_bind, gives_pure, gives_observe, gives_dialect] at h
  obtain ⟨_, p, ⟨rfl, rfl⟩, _, p, ⟨rfl, rfl⟩, h⟩ := h
  by_cases function : p.inFunction
  · have returns : (p.inAny [.callableBody] && p.returning) = true := function
    rw [if_pos returns] at h
    obtain ⟨_, p, ⟨rfl, rfl⟩, h⟩ := h
    rw [word] at h
    by_cases found : Text.contains "@return" content
    · rw [if_pos found] at h
      obtain ⟨_, _, ⟨rfl, rfl⟩, rfl, rfl⟩ := h
      exact .inr ⟨by simp [found], .inr rfl, rfl⟩
    · rw [if_neg found] at h
      obtain ⟨inserted, _, hi, rfl, rfl⟩ := h
      exact .inl ⟨by simp [function, found], inserted, hi, rfl⟩
  · have outside : ¬ (p.inAny [.callableBody] && p.returning) = true := function
    rw [if_neg outside] at h
    exact .inr ⟨by simp [function], .inl h.1, h.2⟩

private theorem withReturn_moves {content : String} (h : (withReturn content).Gives σ p t q) :
    q = if (p.inFunction && !Text.contains "@return" content) && !Text.contains "\n" (Text.margin content)
      then p.nextLine else p := by
  rcases withReturn_gives h with ⟨goes, inserted, hi, -⟩ | ⟨stays, -, rfl⟩
  · simp only [insertReturn, gives_ite, gives_bind, gives_pure, gives_modify, gives_indent] at hi
    by_cases feed : Text.contains "\n" (Text.margin content)
    · rw [if_pos feed] at hi
      simp [feed, hi.2]
    · rw [if_neg feed] at hi
      obtain ⟨_, _, rfl, _, _, ⟨rfl, rfl⟩, -, rfl⟩ := hi
      rw [if_pos (by simp [goes, feed])]
  · rw [stays, Bool.false_and, if_neg Bool.false_ne_true]

/-- A body is its statements in a row, in braces. -/
theorem body_gives {b : Body Node} (h : (Render.body b).Gives σ p t q) : ∃ content r written s,
    (Job.row b.statements).rendering.Gives σ p.down content r ∧ (withReturn content).Gives σ r written s ∧ q = s.up ∧
      t = " \x7b" ++ s.ownLines written ++ "\n" ++ s.up.indent ++ "\x7d" := by
  cases b
  exact block_gives h

private theorem block_follows {b : Body Node} (h : (Render.body b).Gives σ p t q) :
    Follows σ ((Job.body b).plan σ p) p q := by
  obtain ⟨content, r, content', r', row, hw, rfl, -⟩ := body_gives h
  have moved : Follows σ (if b.insertsLine σ p then [.nextLine] else []) r r' := by
    rw [Body.insertsLine, Body.inserts, row.outcome, withReturn_moves hw]
    dsimp only
    split
    · exact follows_nextLine.2 rfl
    · exact rfl
  refine follows_change.2 (follows_render_here (.row b.statements) row ?_)
  exact follows_append.2 ⟨r', moved, follows_change.2 rfl⟩

end Plan

/-- A run leads through the moves of its plan. -/
theorem Job.follows_plan (job : Job) (h : job.rendering.Gives σ p t q) : Follows σ (job.plan σ p) p q := by
  cases job with
  | node n => exact Plan.node_follows n h
  | statement previous n =>
    cases n with
    | comment c => exact Plan.comment_follows h
    | _ => exact Plan.node_follows _ h
  | row ns => exact Plan.statements_follow h
  | body b => exact Plan.block_follows h
  | branch n =>
    cases n with
    | conditional condition b others negated line =>
      cases b with
      | none => exact absurd h gives_missing
      | some b => exact follows_nextLine.2 (Plan.conditional_follows .chained (chained_gives h))
    | block b =>
      obtain ⟨content, hb, -⟩ := otherwise_gives (chained_gives h)
      exact follows_nextLine.2 (Plan.body_follows hb)
    | _ => exact absurd h gives_missing
  | range n =>
    cases n with
    | binary operator left right =>
      simp only [rendering, Render.range, gives_ite, gives_bind, gives_pure] at h
      split at h
      · obtain ⟨_, r, hl, _, _, hr, -, rfl⟩ := h
        exact follows_render_here (.node left) hl (follows_render_here (.node right) hr rfl)
      · exact Plan.node_follows _ h
    | expression e =>
      simp only [rendering, Render.range, gives_bind, gives_pure] at h
      obtain ⟨ts, _, hts, -, rfl⟩ := h
      exact Plan.ranges_follow_here hts
    | _ => exact Plan.node_follows _ h
  | param id =>
    obtain ⟨value, r, hv, rfl, -⟩ := param_gives h
    refine follows_append.2 ⟨r, ?_, follows_change.2 rfl⟩
    rcases hv with ⟨unbound, -, rfl⟩ | ⟨bound, content, s, hs, rfl, -⟩
    · rw [if_neg (by simp [unbound]), follows_nil]
    · rw [if_pos bound]
      cases hid : id.value with
      | none => simp [Identifier.isBound, hid] at bound
      | some v =>
        rw [hid] at hs
        exact follows_render (.node v) hs rfl
  | operands e => exact Plan.operands_follow h

private theorem follows_unique {ms : List Move} {r : Pass} (h : Follows σ ms p q) (h' : Follows σ ms p r) : q = r := by
  induction ms generalizing p with
  | nil => exact h.trans h'.symm
  | cons m ms ih =>
    obtain ⟨s, step, rest⟩ := h
    obtain ⟨s', step', rest'⟩ := h'
    have same : s = s' := by
      cases m with
      | render places job =>
        obtain ⟨t, u, hu, rfl⟩ := step
        obtain ⟨t', u', hu', rfl⟩ := step'
        rw [(Prod.mk.inj (Except.ok.inj (hu.symm.trans hu'))).2]
      | _ => exact step.trans step'.symm
    subst same
    exact ih rest rest'

/-- In a job that gives a text every job of the plan does. -/
theorem Job.gives_on_way (job : Job) {part : Job} (h : job.rendering.Gives σ p t q) (before : List Move)
    {after : List Move} (split : job.plan σ p = before ++ .render places part :: after) :
    ∃ r, Follows σ before p r ∧ ∃ u s, part.rendering.Gives σ (r.enter places) u s := by
  have run := job.follows_plan h
  rw [split, follows_append] at run
  obtain ⟨r, first, s, ⟨u, s', inner, -⟩, -⟩ := run
  exact ⟨r, first, u, s', inner⟩

/-- In a run that gives a text every job that is met gives one. -/
theorem Meets.gives (job : Job) {part : Job} {path : List Nat} {r : Pass} (h : job.rendering.Gives σ p t q)
    (met : Meets σ job p path part r) : ∃ u s, part.rendering.Gives σ r u s := by
  induction met with
  | here => exact ⟨t, q, h⟩
  | inside _ _ _ outer split run ih =>
    obtain ⟨_, _, inner⟩ := ih
    obtain ⟨r, first, u, s, given⟩ := Job.gives_on_way _ inner _ split
    rw [follows_unique run first]
    exact ⟨u, s, given⟩

private theorem split_unique {before before' after after' : List Move} {places' : List Place} {job job' : Job}
    (h : before ++ .render places job :: after = before' ++ .render places' job' :: after')
    (count : before.countP Move.isRender = before'.countP Move.isRender) :
    before = before' ∧ places = places' ∧ job = job' := by
  induction before generalizing before' with
  | nil =>
    cases before' with
    | nil =>
      obtain ⟨rfl, rfl⟩ := Move.render.inj (List.cons.inj h).1
      exact ⟨rfl, rfl, rfl⟩
    | cons m before' =>
      obtain ⟨rfl, -⟩ := List.cons.inj h
      rw [List.countP_cons_of_pos rfl] at count
      cases count
  | cons m before ih =>
    cases before' with
    | nil =>
      obtain ⟨rfl, -⟩ := List.cons.inj h
      rw [List.countP_cons_of_pos rfl] at count
      cases count
    | cons m' before' =>
      obtain ⟨rfl, rest⟩ := List.cons.inj h
      rw [List.countP_cons, List.countP_cons, Nat.add_right_cancel_iff] at count
      obtain ⟨rfl, same⟩ := ih rest count
      exact ⟨rfl, same⟩

/-- A path leads to one job, which starts at one pass. -/
theorem Meets.unique {job part part' : Job} {path : List Nat} {q' : Pass} (h : Meets σ job p path part q)
    (h' : Meets σ job p path part' q') : part = part' ∧ q = q' := by
  induction h generalizing part' q' with
  | here =>
    generalize hp : ([] : List Nat) = path' at h'
    cases h' with
    | here => exact ⟨rfl, rfl⟩
    | inside => simp at hp
  | @inside path inner part start r before places after outer split run ih =>
    generalize hp : path ++ [before.countP Move.isRender] = path' at h'
    cases h' with
    | here => simp at hp
    | inside _ _ _ outer' split' run' =>
      obtain ⟨rfl, count⟩ := List.append_inj' hp rfl
      obtain ⟨rfl, rfl⟩ := ih outer'
      obtain ⟨rfl, rfl, rfl⟩ := split_unique (split.symm.trans split') (List.singleton_inj.1 count)
      exact ⟨rfl, congrArg (Pass.enter · places) (follows_unique run run')⟩

end Stylesheet
