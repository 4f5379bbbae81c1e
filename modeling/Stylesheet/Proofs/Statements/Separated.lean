import Mathlib.Data.List.Chain
import Stylesheet.Proofs.Breaks.Count
import Stylesheet.Proofs.Returns.Values
import Stylesheet.Proofs.Statements.Rows
import Stylesheet.Proofs.Success

/-!
# Breaks between statements

A statement starts on a new line if the pass has not reached its line yet. Every node leads the pass to its own line,
and a map leads it on, by a line for each entry and two more, which is one line past its last. So assignments,
declarations and rule sets are separated as long as each starts below all that the one before it reaches.
-/

namespace Stylesheet

open Rendering

namespace Node

/-- The line that the pass is on after the node itself. -/
def reaches : Node → Option Nat
  | mapLiteral es line => line.map (· + es.length + 2)
  | comment c => Render.lastLine c
  | n => n.line

/-- The node itself stays above the line. -/
def Above (l : Nat) (n : Node) : Prop := ∀ j ∈ n.reaches, j < l

structure PieceAbove (l : Nat) (n : Node) : Prop where
  kind : n.isPiece
  above : n.Above l

theorem Above.line {l : Nat} {n : Node} (h : n.Above l) : ∀ j ∈ n.line, j < l := by
  cases n with
  | mapLiteral es line =>
    intro j hj
    have further := h (j + es.length + 2) (by simpa [reaches, Node.line] using hj)
    omega
  | comment c =>
    intro j hj
    have further := h (j + c.text.toList.count '\n') (by simpa [reaches, Render.lastLine, Node.line] using hj)
    omega
  | _ => exact h

end Node

/-- Nothing is returned, and the pass is above the line. -/
structure Pass.Above (l : Nat) (p : Pass) : Prop where
  returning : p.returning = false
  line : p.line < l

namespace Pass.Above

variable {l : Nat} {p q : Pass}

theorem reach (h : p.Above l) {line : Option Nat} (above : ∀ j ∈ line, j < l) : (p.reach line).Above l := by
  cases line with
  | none => exact h
  | some j => exact ⟨h.returning, above j rfl⟩

theorem enter (h : p.Above l) (places : List Place) : (p.enter places).Above l := ⟨h.returning, h.line⟩

theorem leave (h : q.Above l) (p : Pass) : (q.leave p).Above l := ⟨h.returning, h.line⟩

theorem learn (h : p.Above l) (change : Registry → Registry) : (p.learn change).Above l := ⟨h.returning, h.line⟩

theorem down (h : p.Above l) : p.down.Above l := ⟨h.returning, h.line⟩

theorem up (h : p.Above l) : p.up.Above l := ⟨h.returning, h.line⟩

theorem call (h : p.Above l) (name : String) : (p.call name).Above l := ⟨h.returning, h.line⟩

theorem hangUp (h : q.Above l) (p : Pass) : (q.hangUp p).Above l := ⟨h.returning, h.line⟩

theorem afterMap (h : p.Above l) {line : Option Nat} {entries : Nat} (above : ∀ j ∈ line, j + entries + 2 < l) :
    (Render.afterMap p line entries).Above l := by
  cases line with
  | none => exact h
  | some j => exact ⟨h.returning, Nat.max_lt.2 ⟨h.line, above j rfl⟩⟩

theorem inFunction (h : p.Above l) : p.inFunction = false := by simp [Pass.inFunction, h.returning]

theorem returnsList (h : p.Above l) : p.returnsList = false := by simp [Pass.returnsList, h.returning]

end Pass.Above

namespace Rendering

variable {α β : Type} {l : Nat} {m : Rendering α} {f : α → Rendering β}

/-- From above the line the rendering does not lead to it. -/
def StaysAbove (l : Nat) (m : Rendering α) : Prop := ∀ ⦃σ p a q⦄, p.Above l → m.Gives σ p a q → q.Above l

theorem StaysAbove.bind (hm : m.StaysAbove l) (hf : ∀ a, (f a).StaysAbove l) : (m >>= f).StaysAbove l := by
  intro σ p b r hp h
  obtain ⟨a, q, ha, hb⟩ := gives_bind.1 h
  exact hf a (hm hp ha) hb

private theorem staysAbove_pure (a : α) : (pure a : Rendering α).StaysAbove l := by
  intro σ p b q hp h
  rwa [(gives_pure.1 h).2]

end Rendering

namespace Render

variable {l : Nat} {σ : Style} {line : Option Nat} {text body : Rendering String} {texts : Rendering (List String)}

section constructs

private theorem named_staysAbove (segments : List Node) (h : texts.StaysAbove l) :
    (named segments texts).StaysAbove l :=
  h.bind fun _ => staysAbove_pure _

private theorem reference_staysAbove (id : Identifier Node) : (reference id).StaysAbove l := by
  intro σ p t q hp hg
  rwa [(reference_gives hg).2]

private theorem expression_staysAbove (e : Expression Node) (h : texts.StaysAbove l) :
    (expression e texts).StaysAbove l := by
  intro σ p t q hp hg
  obtain ⟨_, start, _, r, hs, hr, rfl, -⟩ := expression_gives hg
  obtain rfl : start = p := by
    rcases hs with ⟨returns, -⟩ | ⟨-, -, same⟩
    · rw [hp.returnsList] at returns
      cases returns
    · exact same
  exact (h (hp.enter _) hr).leave _

private theorem arguments_staysAbove (h : texts.StaysAbove l) : (arguments texts).StaysAbove l := by
  intro σ p t q hp hg
  obtain ⟨_, r, hr, rfl, -⟩ := arguments_gives hg
  exact (h (hp.enter _) hr).leave _

private theorem call_staysAbove (name : String) (above : ∀ j ∈ line, j < l) (h : texts.StaysAbove l) :
    (call name line texts none).StaysAbove l := by
  intro σ p t q hp hg
  obtain ⟨_, r, hr, ⟨-, rfl, -⟩ | ⟨_, _, none, -⟩⟩ := call_gives hg
  · exact (arguments_staysAbove h ((hp.reach above).call name) hr).hangUp _
  · cases none

private theorem selector_staysAbove {segments : List Node} (above : ∀ n ∈ segments, n.Above l)
    (h : texts.StaysAbove l) :
    (selector segments texts).StaysAbove l := by
  intro σ p t q hp hg
  obtain ⟨_, hr, -⟩ := selector_gives hg
  refine h (hp.reach fun j hj => ?_) hr
  obtain ⟨n, hn, hl⟩ := Option.bind_eq_some_iff.1 hj
  exact (above n (List.mem_of_getLast? hn)).line j hl

private theorem knowingMap_above {p : Pass} (hp : p.Above l) (name : String) (value : Expression Node) :
    (knowingMap p name value).Above l := by
  unfold knowingMap
  split
  · exact hp.learn _
  · exact hp

private theorem assignment_staysAbove (name : String) {value : Expression Node} (above : ∀ j ∈ value.line, j < l)
    (h : texts.StaysAbove l) : (assignment name value texts).StaysAbove l := by
  intro σ p t q hp hg
  obtain ⟨_, start, _, r, hs, hr, rfl, -⟩ := assignment_gives hg
  have known := knowingMap_above hp name value
  have started : start.Above l := by
    rcases hs with ⟨-, -, rfl⟩ | ⟨-, -, rfl⟩
    · exact known
    · exact known.reach above
  exact ((h (started.enter _) hr).leave _).learn _

private theorem boundValue_staysAbove (name : String) (above : ∀ j ∈ line, j < l) (h : text.StaysAbove l) :
    (boundValue name line text).StaysAbove l := by
  intro σ p t q hp hg
  obtain ⟨_, r, hr, rfl, -⟩ := boundValue_gives hg
  exact ((h ((hp.reach above).enter _) hr).leave _).learn _

private theorem member_staysAbove (left right : Node) (hl : text.StaysAbove l) (hr : body.StaysAbove l) :
    (member left right text body).StaysAbove l := by
  intro σ p t q hp hg
  obtain ⟨_, r, _, ⟨ho, hk, -⟩ | ⟨ho, hk, -⟩⟩ := member_gives hg
  · exact hr (hl hp ho) hk
  · have owned : r.Above l := by
      rcases ho with ⟨-, ho⟩ | ⟨-, rfl⟩
      · exact hl hp ho
      · exact hp
    rcases hk with ⟨-, hk⟩ | ⟨-, rfl⟩
    · exact hr owned hk
    · exact owned

private theorem mapLiteral_staysAbove {es : Rendering (List (String × String))} {k : Nat}
    (above : ∀ j ∈ line, j + k + 2 < l)
    (many : ∀ ⦃σ p xs q⦄, es.Gives σ p xs q → xs.length = k) (h : es.StaysAbove l) :
    (mapLiteral line es).StaysAbove l := by
  intro σ p t q hp hg
  obtain ⟨xs, r, hr, rfl, -⟩ := mapLiteral_gives hg
  rw [many hr]
  exact (((h (hp.down.enter _) hr).leave _).up).afterMap above

private theorem comment_staysAbove {c : Comment} (above : ∀ j ∈ lastLine c, j < l) (sameLine : Bool) :
    (comment c sameLine).StaysAbove l := by
  intro σ p t q hp hg
  rw [(comment_gives hg).1]
  exact hp.reach above

end constructs

private theorem entries_length {es : List (String × Node)} {p q : Pass} {xs : List (String × String)}
    (h : (entries es).Gives σ p xs q) : xs.length = es.length := by
  induction es generalizing p xs with
  | nil =>
    rw [(gives_pure.1 h).1]
    rfl
  | cons e es ih =>
    obtain ⟨key, n⟩ := e
    simp only [entriesWith, gives_bind, gives_pure] at h
    obtain ⟨_, _, -, ys, _, hys, rfl, rfl⟩ := h
    exact congrArg (· + 1) (ih hys)

mutual

private theorem node_staysAbove (n : Node) (h : n.Every (Node.PieceAbove l)) : (node n).StaysAbove l := by
  have ⟨kind, above⟩ := h.self
  have hp := h.parts
  match n with
  | .null | .literal .. | .number .. | .quoted _ | .boolean _ | .color _ => exact staysAbove_pure _
  | .identifier ⟨name, none, placeholder, rest, line⟩ => exact reference_staysAbove _
  | .identifier ⟨name, some v, placeholder, rest, line⟩ =>
    have held := hp v (by simp)
    have hv := node_staysAbove v held
    cases v with
    | null => exact reference_staysAbove _
    | expression e =>
      exact assignment_staysAbove name held.self.above (each_staysAbove e.operands held.parts)
    | callable => cases held.self.kind
    | _ => exact boundValue_staysAbove name above hv
  | .expression e => exact expression_staysAbove e (each_staysAbove e.operands hp)
  | .arguments args => exact arguments_staysAbove (each_staysAbove args hp)
  | .selector segments _ =>
    exact selector_staysAbove (fun n hn => (hp n hn).self.above) (each_staysAbove segments hp)
  | .call name args none _ =>
    obtain ⟨ha, -⟩ := (everyIn_append _ _).1 hp
    exact call_staysAbove name above (each_staysAbove args ha)
  | .call _ _ (some _) _ => cases kind
  | .binary _ left right =>
    exact (node_staysAbove left (hp left (by simp))).bind fun _ =>
      (node_staysAbove right (hp right (by simp))).bind fun _ => staysAbove_pure _
  | .unary _ operand => exact (node_staysAbove operand (hp operand (by simp))).bind fun _ => staysAbove_pure _
  | .queryList queries => exact (each_staysAbove queries hp).bind fun _ => staysAbove_pure _
  | .query features medium _ =>
    obtain ⟨hf, hm⟩ := (everyIn_append _ _).1 hp
    exact (optional_staysAbove medium hm).bind fun _ => (each_staysAbove features hf).bind fun _ => staysAbove_pure _
  | .feature segments none =>
    obtain ⟨hs, -⟩ := (everyIn_append _ _).1 hp
    exact (named_staysAbove segments (each_staysAbove segments hs)).bind fun _ => staysAbove_pure _
  | .feature segments (some value) =>
    obtain ⟨hs, hv⟩ := (everyIn_append _ _).1 hp
    exact (named_staysAbove segments (each_staysAbove segments hs)).bind fun _ =>
      (expression_staysAbove value (each_staysAbove value.operands hv)).bind fun _ => staysAbove_pure _
  | .member left right =>
    exact member_staysAbove left right (node_staysAbove left (hp left (by simp)))
      (node_staysAbove right (hp right (by simp)))
  | .mapLiteral es line =>
    have reached : ∀ j ∈ line, j + es.length + 2 < l :=
      fun j hj => above _ (by simp [Node.reaches, Option.mem_def.1 hj])
    exact mapLiteral_staysAbove reached (fun _ _ _ _ run => entries_length run) (entries_staysAbove es hp)
  | .comment c => exact comment_staysAbove above false
  | .block _ | .ruleSet .. | .property .. | .callable .. | .returned .. | .conditional .. | .loop .. | .keyframes ..
  | .media .. | .supports .. | .xmlNamespace .. | .charset .. | .importSheet .. | .extend .. | .atRule .. => cases kind
termination_by structural n

private theorem each_staysAbove (ns : List Node) (h : EveryIn (Node.PieceAbove l) ns) : (each ns).StaysAbove l := by
  match ns with
  | [] => exact staysAbove_pure _
  | n :: ns =>
    rw [everyIn_cons] at h
    exact (node_staysAbove n h.1).bind fun _ => (each_staysAbove ns h.2).bind fun _ => staysAbove_pure _
termination_by structural ns

private theorem optional_staysAbove (n : Option Node) (h : EveryIn (Node.PieceAbove l) n.toList) :
    (optional n).StaysAbove l := by
  match n with
  | none => exact staysAbove_pure _
  | some n => exact node_staysAbove n (h n (by simp))
termination_by structural n

private theorem entries_staysAbove (es : List (String × Node)) (h : EveryIn (Node.PieceAbove l) (es.map (·.2))) :
    (entries es).StaysAbove l := by
  match es with
  | [] => exact staysAbove_pure _
  | (key, n) :: es =>
    rw [List.map_cons, everyIn_cons] at h
    exact (node_staysAbove n h.1).bind fun _ => (entries_staysAbove es h.2).bind fun _ => staysAbove_pure _
termination_by structural es

end

end Render

namespace Node

/-- The line that a statement starts on, which in an assignment of a list is that of the list. -/
def start : Node → Option Nat
  | identifier id => match id.value with
    | some (expression e) => e.line
    | _ => id.line
  | n => n.line

/-- Assignments, declarations, and rule sets with a block. -/
def isRule : Node → Bool
  | identifier id => id.isBound
  | property .. => true
  | ruleSet _ b _ => b.isSome
  | _ => false

/-- A statement with a line to start on, the value or head of which consists of pieces. -/
@[mk_iff]
structure Lined (n : Node) : Prop where
  kind : n.isRule
  start : n.start.isSome
  values : EveryIn (fun m => m.isPiece) n.values

private theorem Lined.not_comment {n : Node} (h : n.Lined) (c : Comment) : n ≠ .comment c := by
  rintro rfl
  cases h.kind

end Node

/-- Each of the statements starts below all that the one before it reaches. -/
@[mk_iff]
structure Ascending (ns : List Node) : Prop where
  lined : ∀ n ∈ ns, n.Lined
  apart : ns.IsChain fun n m => ∀ l ∈ m.start, n.Every (Node.Above l)

theorem Ascending.tail {n : Node} {ns : List Node} (h : Ascending (n :: ns)) : Ascending ns :=
  ⟨(List.forall_mem_cons.1 h.lined).2, h.apart.tail⟩

namespace Render

variable {l : Nat} {σ : Style} {line : Option Nat}

private theorem everyIn_pieceAbove {ns : List Node} (pieces : EveryIn (fun m => m.isPiece) ns)
    (above : EveryIn (Node.Above l) ns) : EveryIn (Node.PieceAbove l) ns :=
  fun n hn m hm => ⟨pieces n hn m hm, above n hn m hm⟩

private theorem reach_above {p : Pass} (returning : p.returning = false) (given : line.isSome)
    (above : ∀ j ∈ line, j < l) :
    (p.reach line).Above l := by
  obtain ⟨j, rfl⟩ := Option.isSome_iff_exists.1 given
  exact ⟨returning, above j rfl⟩

mutual

private theorem rule_above (n : Node) (lined : n.Lined) (inner : ∀ b ∈ n.blocks, ∀ m ∈ b.statements, m.Lined)
    (above : n.Every (Node.Above l)) {p q : Pass} {t : String} (returning : p.returning = false)
    (outside : p.inAny [.call] = false) (h : (node n).Gives σ p t q) : q.Above l := by
  obtain ⟨kind, given, values⟩ := lined
  have self := above.self
  have parts := above.parts
  match n with
  | .identifier ⟨name, none, placeholder, rest, line⟩ => cases kind
  | .identifier ⟨name, some v, placeholder, rest, line⟩ =>
    have held := everyIn_pieceAbove values parts v (by simp [Node.values])
    have hv := node_staysAbove v held
    cases v with
    | null => cases kind
    | callable => cases held.self.kind
    | expression e =>
      have run : (assignment name e (each e.operands)).Gives σ p t q := h
      obtain ⟨_, start, _, r, ⟨inCall, -⟩ | ⟨-, -, rfl⟩, hr, rfl, -⟩ := assignment_gives run
      · rw [outside] at inCall
        cases inCall
      · have quiet : (knowingMap p name e).returning = false := by
          unfold knowingMap
          split <;> exact returning
        have started := reach_above quiet given held.self.above
        exact ((each_staysAbove e.operands held.parts (started.enter _) hr).leave _).learn _
    | _ =>
      obtain ⟨_, r, hr, rfl, -⟩ := boundValue_gives h
      exact ((hv ((reach_above returning given self).enter _) hr).leave _).learn _
  | .property segments value line =>
    obtain ⟨hs, hv⟩ := (everyIn_append _ _).1 (everyIn_pieceAbove values parts)
    obtain ⟨_, r, _, s, hn, hc, ends⟩ := property_gives h
    have started := reach_above returning given self
    have named := named_staysAbove segments (each_staysAbove segments hs) (started.enter _) hn
    have content := expression_staysAbove value (each_staysAbove value.operands hv) (named.learn _) hc
    rcases ends with ⟨_, -, rfl, -⟩ | ⟨-, rfl, -⟩ <;> exact (content.learn _).leave _
  | .ruleSet selectors none _ => cases kind
  | .ruleSet selectors (some ⟨ss, _⟩) line =>
    obtain ⟨hs, hb⟩ := (everyIn_append _ _).1 parts
    obtain ⟨_, r, _, hheads, hbody, -⟩ := ruleSet_gives h
    have heads := each_staysAbove selectors (everyIn_pieceAbove values hs) (reach_above returning given self) hheads
    have beside := (Pass.beside_reach p line).trans (each_stays selectors hheads)
    have braced : (block (statements none ss)).Gives σ r _ q := hbody
    obtain ⟨content, s, _, _, hc, hw, rfl, -⟩ := block_gives braced
    obtain ⟨ts, hts, rfl⟩ := gives_statements.1 hc
    obtain ⟨own, others⟩ := List.forall_mem_cons.1 inner
    have last := row_above ss own others hb heads.down ((beside.inAny _).trans outside) hts
    rcases withReturn_gives hw with ⟨-, -, rfl⟩ | ⟨within, -⟩ | ⟨within, -⟩
    · exact last.up
    · rw [last.inFunction] at within
      cases within
    · rw [last.inFunction] at within
      cases within
  | .null | .literal .. | .number .. | .quoted _ | .boolean _ | .color _ | .expression _ | .arguments _ | .block _
  | .selector .. | .call .. | .callable .. | .returned .. | .conditional .. | .loop .. | .binary .. | .unary ..
  | .keyframes .. | .media .. | .queryList _ | .query .. | .feature .. | .supports .. | .xmlNamespace .. | .charset ..
  | .importSheet .. | .extend .. | .atRule .. | .comment _ | .member .. | .mapLiteral .. => cases kind
termination_by structural n

private theorem row_above (ns : List Node) (lined : ∀ n ∈ ns, n.Lined)
    (inner : ∀ b ∈ blocksOf ns, ∀ m ∈ b.statements, m.Lined) (above : EveryIn (Node.Above l) ns) {previous : Option Nat}
    {p q : Pass} {ts : List String} (hp : p.Above l) (outside : p.inAny [.call] = false)
    (h : (row previous ns).Gives σ p ts q) : q.Above l := by
  match ns with
  | [] =>
    obtain ⟨-, rfl⟩ := gives_pure.1 h
    exact hp
  | n :: ns =>
    obtain ⟨first, rest⟩ := List.forall_mem_cons.1 lined
    obtain ⟨own, others⟩ := List.forall_mem_append.1 inner
    rw [everyIn_cons] at above
    obtain ⟨t, r, us, ht, hus, -⟩ := gives_row_cons.1 h
    rw [statement_eq_node first.not_comment] at ht
    have started := rule_above n first own above.1 hp.returning outside ht
    have beside := node_stays n ht
    exact row_above ns rest others above.2 started ((beside.inAny _).trans outside) hus
termination_by structural ns

end

private theorem broken_ownLines (p : Pass) (content : String) : Broken (p.ownLines content) := by
  unfold Pass.ownLines
  split
  · assumption
  · have newline : Broken "\n" := by decide
    exact (newline.append p.indent).append (Text.trimStart content)

variable {p q : Pass} {t : String} {ts : List String}

private theorem rule_broken {n : Node} (lined : n.Lined) (outside : p.inAny [.call] = false)
    (later : ∀ j ∈ n.start, p.line < j)
    (h : (node n).Gives σ p t q) : Broken t := by
  obtain ⟨j, hj⟩ := Option.isSome_iff_exists.1 lined.start
  have lead : Broken (p.lead n.start) := hj ▸ broken_lead (later j hj)
  have kind := lined.kind
  match n with
  | .identifier ⟨name, none, placeholder, rest, line⟩ => cases kind
  | .identifier ⟨name, some v, placeholder, rest, line⟩ =>
    cases v with
    | null => cases kind
    | callable => cases (lined.values _ (List.mem_singleton_self _)).self
    | expression e =>
      have run : (assignment name e (each e.operands)).Gives σ p t q := h
      obtain ⟨_, _, _, _, ⟨inCall, -⟩ | ⟨-, rfl, -⟩, -, -, rfl⟩ := assignment_gives run
      · rw [outside] at inCall
        cases inCall
      · exact (((lead.append _).append _).append _).append _
    | _ =>
      obtain ⟨_, _, -, -, rfl⟩ := boundValue_gives h
      exact (((lead.append _).append _).append _).append _
  | .property segments value line =>
    obtain ⟨_, _, _, _, -, -, ⟨_, -, -, rfl⟩ | ⟨-, -, rfl⟩⟩ := property_gives h
    · simp only [String.append_assoc]
      exact lead.append _
    · exact lead.append _
  | .ruleSet selectors none _ => cases kind
  | .ruleSet selectors (some b) line =>
    obtain ⟨_, _, _, -, -, rfl⟩ := ruleSet_gives h
    exact (lead.append _).append _

private theorem above_next {n : Node} {ns : List Node} (ascending : Ascending (n :: ns))
    (inner : ∀ b ∈ n.blocks, ∀ m ∈ b.statements, m.Lined) (returning : p.returning = false)
    (outside : p.inAny [.call] = false) (h : (node n).Gives σ p t q) : ∀ m ∈ ns.head?, ∀ j ∈ m.start, q.line < j := by
  intro m hm j hj
  have above : n.Every (Node.Above j) := (List.isChain_cons.1 ascending.apart).1 m hm j hj
  exact (rule_above n (ascending.lined n List.mem_cons_self) inner above returning outside h).line

private theorem row_broken {ns : List Node} (ascending : Ascending ns)
    (inner : ∀ b ∈ blocksOf ns, ∀ m ∈ b.statements, m.Lined)
    {previous : Option Nat} (returning : p.returning = false) (outside : p.inAny [.call] = false)
    (later : ∀ n ∈ ns.head?, ∀ j ∈ n.start, p.line < j) (h : (row previous ns).Gives σ p ts q) :
    ∀ t ∈ ts, Broken t := by
  induction ns generalizing previous p ts with
  | nil =>
    obtain ⟨rfl, -⟩ := gives_pure.1 h
    exact List.forall_mem_nil _
  | cons n ns ih =>
    have lined := ascending.lined n List.mem_cons_self
    obtain ⟨own, others⟩ := List.forall_mem_append.1 inner
    obtain ⟨t, r, us, ht, hus, rfl⟩ := gives_row_cons.1 h
    rw [statement_eq_node lined.not_comment] at ht
    have beside := node_stays n ht
    have next := above_next ascending own returning outside ht
    refine List.forall_mem_cons.2 ⟨rule_broken lined outside (later n rfl) ht, ?_⟩
    exact ih ascending.tail others (beside.returning returning) ((beside.inAny _).trans outside) next hus

private theorem row_separated {ns : List Node} (ascending : Ascending ns)
    (inner : ∀ b ∈ blocksOf ns, ∀ m ∈ b.statements, m.Lined) {previous : Option Nat} (returning : p.returning = false)
    (outside : p.inAny [.call] = false) (h : (row previous ns).Gives σ p ts q) : ∀ t ∈ ts.tail, Broken t := by
  cases ns with
  | nil =>
    obtain ⟨rfl, -⟩ := gives_pure.1 h
    exact List.forall_mem_nil _
  | cons n ns =>
    obtain ⟨own, others⟩ := List.forall_mem_append.1 inner
    obtain ⟨t, r, us, ht, hus, rfl⟩ := gives_row_cons.1 h
    rw [statement_eq_node (ascending.lined n List.mem_cons_self).not_comment] at ht
    have beside := node_stays n ht
    have next := above_next ascending own returning outside ht
    exact row_broken ascending.tail others (beside.returning returning) ((beside.inAny _).trans outside) next hus

mutual

/-- Pieces and statements are all that occurs. -/
theorem rule_every (n : Node) (lined : n.Lined) (inner : ∀ b ∈ n.blocks, ∀ m ∈ b.statements, m.Lined) :
    n.Every fun m => m.isPiece ∨ m.isRule := by
  obtain ⟨kind, -, values⟩ := lined
  rw [Node.every_iff_everyIn]
  have pieces : EveryIn (fun m => m.isPiece ∨ m.isRule) n.values := fun m hm => (values m hm).mono fun _ => .inl
  match n with
  | .identifier id => exact ⟨.inl rfl, pieces⟩
  | .property .. => exact ⟨.inr rfl, pieces⟩
  | .ruleSet selectors none _ => cases kind
  | .ruleSet selectors (some ⟨ss, _⟩) _ =>
    obtain ⟨own, others⟩ := List.forall_mem_cons.1 inner
    exact ⟨.inr rfl, (everyIn_append _ _).2 ⟨pieces, row_every ss own others⟩⟩
  | .null | .literal .. | .number .. | .quoted _ | .boolean _ | .color _ | .expression _ | .arguments _ | .block _
  | .selector .. | .call .. | .callable .. | .returned .. | .conditional .. | .loop .. | .binary .. | .unary ..
  | .keyframes .. | .media .. | .queryList _ | .query .. | .feature .. | .supports .. | .xmlNamespace .. | .charset ..
  | .importSheet .. | .extend .. | .atRule .. | .comment _ | .member .. | .mapLiteral .. => cases kind
termination_by structural n

private theorem row_every (ns : List Node) (lined : ∀ n ∈ ns, n.Lined)
    (inner : ∀ b ∈ blocksOf ns, ∀ m ∈ b.statements, m.Lined) : EveryIn (fun m => m.isPiece ∨ m.isRule) ns := by
  match ns with
  | [] => exact everyIn_nil
  | n :: ns =>
    obtain ⟨first, rest⟩ := List.forall_mem_cons.1 lined
    obtain ⟨own, others⟩ := List.forall_mem_append.1 inner
    exact (everyIn_cons _ _).2 ⟨rule_every n first own, row_every ns rest others⟩
termination_by structural ns

end

private theorem sufficient_of_kind {m : Node} (h : m.isPiece ∨ m.isRule) : m.Sufficient := by
  rcases h with h | h
  · cases m with
    | ruleSet | media | supports | callable | keyframes | conditional | loop | extend => cases h
    | _ => rfl
  · cases m with
    | ruleSet selectors b => cases b <;> first | rfl | cases h
    | identifier | property => rfl
    | _ => cases h

private theorem not_callable_of_kind {m : Node} (h : m.isPiece ∨ m.isRule) : ¬m.isCallable := by
  intro callable
  cases m with
  | callable => rcases h with h | h <;> cases h
  | _ => cases callable

/-- Assignments, declarations and rule sets, in which maps may stand, are rendered to texts that start on new lines,
each but the first, if they ascend. In every block of theirs the statements do so too, and the first one does behind
the brace. -/
theorem separated_of_ascending (σ : Style) {p : Pass} (returning : p.returning = false)
    (outside : p.inAny [.call] = false) {ns : List Node} (ascending : Ascending ns)
    (blocks : ∀ b ∈ blocksOf ns, Ascending b.statements) :
    ∃ ts q, (row none ns).Gives σ p ts q ∧ (statements none ns).Gives σ p (String.join ts) q ∧
      (∀ t ∈ ts.tail, Broken t) ∧
      ∀ b ∈ blocksOf ns, ∃ r us s pad, (row none b.statements).Gives σ r us s ∧ (∀ u ∈ us.tail, Broken u) ∧
        Broken (s.ownLines (String.join us)) ∧
        ("\x7b" ++ s.ownLines (String.join us) ++ "\n" ++ pad ++ "\x7d").toList <:+: (String.join ts).toList := by
  have kinds := row_every ns ascending.lined fun b hb => (blocks b hb).lined
  have plain : ¬Defined ns := fun ⟨n, hn, m, hm, callable⟩ => not_callable_of_kind (kinds n hn m hm) callable
  obtain ⟨t, q, run⟩ := (statements_succeedsIff none ns σ p).2 fun n hn m hm => sufficient_of_kind (kinds n hn m hm)
  obtain ⟨ts, hts, rfl⟩ := gives_statements.1 run
  refine ⟨ts, q, hts, run, ?_, fun b hb => ?_⟩
  · exact row_separated ascending (fun b hb => (blocks b hb).lined) returning outside hts
  · obtain ⟨r, us, s, content, s', inner, further, hus, hcontent, found⟩ := row_encloses none ns plain hts b hb
    have returning' : r.returning = false := inner.returning.trans returning
    have outside' : r.inAny [.call] = false := (inner.inAny _).trans outside
    have separated := row_separated (blocks b hb) (fun c hc => (blocks c (blocksOf_inner ns hb c hc)).lined)
      returning' outside' hus
    -- outside of functions the statements stand in the braces as they are
    have unchanged : content = String.join us ∧ s' = s := by
      have never : s.inFunction = false := by simp [Pass.inFunction, further.returning, returning']
      rcases withReturn_gives hcontent with ⟨-, hc, hs⟩ | ⟨within, -⟩ | ⟨within, -⟩
      · exact ⟨hc, hs⟩
      · rw [never] at within
        cases within
      · rw [never] at within
        cases within
    obtain ⟨rfl, rfl⟩ := unchanged
    exact ⟨r, us, s', s'.up.indent, hus, separated, broken_ownLines s' _, found⟩

/-- A map with one entry, which reaches line 4, and a rule set with another one in it. -/
theorem separated_of_ascending_theme :
    let word (x : String) (line : Nat) : Node := .literal x (some line)
    let map : Node := .mapLiteral [("primary", word "red" 2)] (some 1)
    let theme : Node := .identifier { name := "theme", value := some (.expression ⟨[map], some 1⟩), line := some 1 }
    let declared (name value : String) (line : Nat) : Node :=
      .property [word name line] ⟨[word value line], some line⟩ (some line)
    let rule (selector : String) (ss : List Node) (line : Nat) : Node :=
      .ruleSet [.selector [word selector line] (some line)] (some ⟨ss, some line⟩) (some line)
    let ns : List Node := [theme, rule ".a" [declared "x" "1" 6, rule ".b" [declared "y" "2" 8] 7] 5]
    let ts := ["$theme: (\n  'primary': red\n);", "\n.a \x7b\n  x: 1;\n  .b \x7b\n    y: 2;\n  \x7d\n\x7d"]
    Ascending ns ∧ (∀ b ∈ blocksOf ns, Ascending b.statements) ∧ ∃ q, (row none ns).Gives {} {} ts q ∧
      ∀ t ∈ ts.tail, Broken t := by
  intro word map theme declared rule ns ts
  have ascending : Ascending ns := by
    simp [ns, theme, map, rule, declared, word, ascending_iff, Node.lined_iff, Node.isRule, Identifier.isBound,
      Node.start, Node.line, Node.values, Node.every_iff_everyIn, Node.isPiece, Node.Above, Node.reaches]
  have blocks : ∀ b ∈ blocksOf ns, Ascending b.statements := by
    simp [ns, theme, rule, declared, word, blocksOf, blocksIn, Node.blocks, ascending_iff, Node.lined_iff, Node.isRule,
      Node.start, Node.line, Node.values, Node.every_iff_everyIn, Node.isPiece, Node.Above, Node.reaches]
  have run : (row none ns).Gives {} {} ts
      { line := 8
        registry :=
          { variableNames := ["theme"], mapNames := ["theme"], declarations := [("x", some "1"), ("y", some "2")] } } :=
    eq_ok_of_toOption (by decide +kernel)
  obtain ⟨us, q, hus, -, separated, -⟩ := separated_of_ascending {} (p := {}) rfl rfl ascending blocks
  cases run.symm.trans hus
  exact ⟨ascending, blocks, _, run, separated⟩

/-- A rule set on the line behind the map, which the pass is on already, starts on the last line of the map. -/
theorem rule_behind_map :
    let word (x : String) (line : Nat) : Node := .literal x (some line)
    let map : Node := .mapLiteral [("primary", word "red" 2)] (some 1)
    let theme : Node := .identifier { name := "theme", value := some (.expression ⟨[map], some 1⟩), line := some 1 }
    let declared : Node := .property [word "color" 5] ⟨[word "red" 5], some 5⟩ (some 5)
    let rule : Node := .ruleSet [.selector [word ".a" 4] (some 4)] (some ⟨[declared], some 4⟩) (some 4)
    let first := "$theme: (\n  'primary': red\n);"
    let second := ".a \x7b\n  color: red;\n\x7d"
    (∀ n ∈ [theme, rule, declared], n.Lined) ∧ theme.Every (fun n => ∀ l ∈ n.line, l < 4) ∧
      Sheet.convert ⟨[theme, rule]⟩ {} = .ok (first ++ second ++ "\n") ∧
      (∃ q, (row none [theme, rule]).Gives {} {} [first, second] q) ∧
      ¬(Text.endsWith '\n' first ∨ Broken second) := by
  intro word map theme declared rule first second
  have run : (row none [theme, rule]).Gives {} {} [first, second]
      { line := 5
        registry := { variableNames := ["theme"], mapNames := ["theme"], declarations := [("color", some "red")] } } :=
    eq_ok_of_toOption (by decide +kernel)
  refine ⟨?_, ?_, eq_ok_of_toOption (by decide +kernel), ⟨_, run⟩, by decide⟩
  · simp [theme, map, declared, rule, word, Node.lined_iff, Node.isRule, Identifier.isBound, Node.start, Node.line,
      Node.values, Node.every_iff_everyIn, Node.isPiece]
  · simp [theme, map, word, Node.every_iff_everyIn, Node.line]

end Render

end Stylesheet
