import Stylesheet.Decimal.Word
import Stylesheet.Proofs.Load.RoundTrip
import Stylesheet.Proofs.Moments.Runs
import Stylesheet.Proofs.Moments.Weights

/-!
# How far the line of a pass goes

Lines are set, set back, skipped to and moved on by one. What they can rise by is decided by the tree: by the line
feeds of a comment, by the entries of a map, by one for each alternative and by one for each block. From a pass that is
no further than the lines of the sheet allow, a rendering goes no further than that, in the middle of its run as well
as at its end.
-/

namespace Stylesheet

open Rendering Render

namespace Node

@[simp] def commentFeeds : Node → Nat
  | comment c => c.text.toList.count '\n'
  | _ => 0

/-- A map takes one line for each entry, and two for its parentheses. -/
@[simp] def mapRows : Node → Nat
  | mapLiteral entries _ => entries.length + 2
  | _ => 0

@[simp] def elseBranches : Node → Nat
  | conditional _ _ alternatives _ _ => alternatives.length
  | _ => 0

@[simp] def ownBlocks : Node → Nat
  | block _ => 1
  | ruleSet _ b _ | call _ _ b _ | callable _ _ b _ | conditional _ b _ _ _ | loop _ _ _ b _ | keyframes _ b _
  | media _ b _ | supports _ b _ | atRule _ _ b _ => b.toList.length
  | _ => 0

/-- How far the line rises for what the node holds itself. -/
@[simp] def ownRise (n : Node) : Nat := n.commentFeeds + n.mapRows + n.elseBranches + n.ownBlocks

end Node

/-- The lines that the node holds itself are between 1 and `last`. -/
def Node.Until (last : Nat) (n : Node) : Prop := ∀ line ∈ n.ownLines, 1 ≤ line ∧ line ≤ last

namespace Job

/-- The line that the job has besides those of its nodes. -/
@[simp] def line? : Job → Option Nat
  | operands e => e.line
  | _ => none

structure Until (last : Nat) (job : Job) : Prop where
  own : ∀ line ∈ job.line?, 1 ≤ line ∧ line ≤ last
  nodes : EveryIn (Node.Until last) job.roots

/-- How far the line rises in the job: a branch after the first one starts on a line of its own, and so may the keyword
of a block. -/
@[simp] def rise (job : Job) : Nat :=
  sumIn Node.ownRise job.roots + match job with
    | branch _ | body _ => 1
    | _ => 0

@[simp] noncomputable def size : Job → Nat
  | node n | statement _ n | branch n | range n => sizeOf n
  | row ns => sizeOf ns
  | body b => sizeOf b
  | param id => sizeOf id
  | operands e => sizeOf e

end Job

/-- From lines until `last`, the move rises by `rise` at most, and what it renders is smaller than `size`. -/
def Move.Rises (last size : Nat) : Move → Nat → Prop
  | render _ job, rise => job.size < size ∧ job.Until last ∧ job.rise ≤ rise
  | reach line, rise => ∀ l ∈ line, 1 ≤ l ∧ l ≤ last + rise
  | skip line, rise => line ≤ last + rise
  | nextLine, rise => 1 ≤ rise
  | change f, _ => ∀ p, (f p).line = p.line

/-- The moves rise by `rise` at most, all together. -/
def Rise (last size : Nat) : List Move → Nat → Prop
  | [], _ => True
  | m :: ms, rise => ∃ i j, i + j ≤ rise ∧ m.Rises last size i ∧ Rise last size ms j

section Moves

variable {last size i j k : Nat} {m : Move} {ms ms' : List Move} {places : List Place}

theorem Rise.mono (h : Rise last size ms i) (hk : i ≤ k) : Rise last size ms k := by
  cases ms with
  | nil => trivial
  | cons m ms =>
    obtain ⟨a, b, sum, first, rest⟩ := h
    exact ⟨a, b, Nat.le_trans sum hk, first, rest⟩

private theorem rise_append (h : Rise last size ms i) (h' : Rise last size ms' j) (sum : i + j ≤ k) :
    Rise last size (ms ++ ms') k := by
  induction ms generalizing i k with
  | nil => exact h'.mono (by omega)
  | cons m ms ih =>
    obtain ⟨a, b, inner, first, rest⟩ := h
    exact ⟨a, b + j, by omega, first, ih rest (Nat.le_refl _)⟩

theorem Rise.split (h : Rise last size (ms ++ ms') k) :
    ∃ i j, i + j ≤ k ∧ Rise last size ms i ∧ Rise last size ms' j := by
  induction ms generalizing k with
  | nil => exact ⟨0, k, by omega, trivial, h⟩
  | cons m ms ih =>
    obtain ⟨a, b, sum, first, rest⟩ := h
    obtain ⟨i, j, sum', inner, last⟩ := ih rest
    exact ⟨a + i, j, by omega, ⟨a, i, by omega, first, inner⟩, last⟩

private theorem rise_reach {line : Option Nat} (h : ∀ l ∈ line, 1 ≤ l ∧ l ≤ last) (rest : Rise last size ms k) :
    Rise last size (.reach line :: ms) k := ⟨0, k, by omega, h, rest⟩

private theorem rise_change {f : Pass → Pass} (h : ∀ p, (f p).line = p.line) (rest : Rise last size ms k) :
    Rise last size (.change f :: ms) k := ⟨0, k, by omega, h, rest⟩

private theorem rise_skip {line : Nat} (h : line ≤ last + i) (rest : Rise last size ms j) (sum : i + j ≤ k) :
    Rise last size (.skip line :: ms) k := ⟨i, j, sum, h, rest⟩

private theorem rise_nextLine (rest : Rise last size ms j) (sum : j + 1 ≤ k) : Rise last size (.nextLine :: ms) k :=
  ⟨1, j, by omega, Nat.le_refl _, rest⟩

private theorem rise_render {job : Job} (smaller : job.size < size) (h : job.Until last) (rest : Rise last size ms j)
    (sum : job.rise + j ≤ k) : Rise last size (.render places job :: ms) k :=
  ⟨job.rise, j, sum, ⟨smaller, h, Nat.le_refl _⟩, rest⟩

private theorem rise_jobs {α : Type} {job : α → Job} {as : List α}
    (h : ∀ a ∈ as, (job a).size < size ∧ (job a).Until last)
    (sum : (as.map fun a => (job a).rise).sum ≤ k) :
    Rise last size (as.map fun a => .render places (job a)) k := by
  induction as generalizing k with
  | nil => trivial
  | cons a as ih =>
    obtain ⟨ha, has⟩ := List.forall_mem_cons.1 h
    exact rise_render ha.1 ha.2 (ih has (Nat.le_refl _)) (by simpa using sum)

/-- Nodes smaller than `size`, with lines until `last`. -/
def Ready (last size : Nat) (ns : List Node) : Prop := ∀ n ∈ ns, sizeOf n < size ∧ n.Every (Node.Until last)

private theorem until_node {n : Node} (h : n.Every (Node.Until last)) : (Job.node n).Until last :=
  ⟨by simp, by simpa using h⟩

private theorem rise_nodes {ns : List Node} (h : Ready last size ns) (sum : sumIn Node.ownRise ns ≤ k) :
    Rise last size (Plan.nodes places ns) k :=
  rise_jobs (fun n hn => ⟨(h n hn).1, until_node (h n hn).2⟩) (by simpa [sumIn] using sum)

private theorem rise_ranges {ns : List Node} (h : Ready last size ns) (sum : sumIn Node.ownRise ns ≤ k) :
    Rise last size (ns.map fun n => .render places (.range n)) k :=
  rise_jobs (fun n hn => ⟨(h n hn).1, by simp, by simpa using (h n hn).2⟩) (by simpa [sumIn] using sum)

private theorem rise_body {b : Option (Body Node)} (h : Ready last size (statementsOf b)) (smaller : sizeOf b ≤ size)
    (sum : sumIn Node.ownRise (statementsOf b) + b.toList.length ≤ k) : Rise last size (Plan.body b) k := by
  cases b with
  | none => trivial
  | some b =>
    have below : (Job.body b).size < size := by
      simp at smaller ⊢
      omega
    exact rise_render (j := 0) below ⟨by simp, fun n hn => (h n hn).2⟩ trivial sum

private theorem rise_operands {e : Expression Node} (own : ∀ line ∈ e.line, 1 ≤ line ∧ line ≤ last)
    (h : Ready last size e.operands) (sum : sumIn Node.ownRise e.operands ≤ k) (p : Pass) :
    Rise last size (Plan.operands p e) k := by
  unfold Plan.operands
  split
  · exact rise_reach own (rise_nodes h sum)
  · exact rise_nodes h sum

end Moves

section Plans

variable {last : Nat}

private theorem mem_ownLines {n : Node} {l : Nat} (h : n.line = some l) : l ∈ n.ownLines := by
  cases n <;> first | (simp [Node.line] at h; done) | simp_all [Node.ownLines, Node.line]

private theorem until_operands {e : Expression Node} (own : ∀ l ∈ e.line, 1 ≤ l ∧ l ≤ last)
    (h : EveryIn (Node.Until last) e.operands) : (Job.operands e).Until last := ⟨own, h⟩

private theorem binding_rises {name : String} {v : Node} {line : Option Nat} {places : List Place} {size k : Nat}
    (lines : ∀ l ∈ line, 1 ≤ l ∧ l ≤ last) (h : v.Every (Node.Until last)) (smaller : sizeOf v < size)
    (sum : v.sum Node.ownRise ≤ k) : Rise last size
      [.reach line, .render places (.node v), .change (·.learn (·.addVariable name))] k :=
  rise_reach lines (rise_render smaller (until_node h) (rise_change (k := 0) (fun _ => rfl) trivial) (by simpa))

private theorem ready_parts {n : Node} (h : n.Every (Node.Until last)) : Ready last (sizeOf n) n.parts :=
  fun c hc => ⟨n.allBelow_parts c hc, h.part hc⟩

private theorem head_rises {size k : Nat} {line : Option Nat} {places : List Place} (head : List Node)
    {b : Option (Body Node)} (lines : ∀ l ∈ line, 1 ≤ l ∧ l ≤ last) (h : Ready last size (head ++ statementsOf b))
    (smaller : sizeOf b ≤ size)
    (sum : sumIn Node.ownRise (head ++ statementsOf b) + b.toList.length ≤ k) :
    Rise last size (.reach line :: Plan.nodes places head ++ Plan.body b) k := by
  obtain ⟨hs, hb⟩ := List.forall_mem_append.1 h
  rw [sumIn_append, Nat.add_assoc] at sum
  exact rise_reach lines (rise_append (rise_nodes hs (Nat.le_refl _)) (rise_body hb smaller (Nat.le_refl _)) sum)

private theorem knowingMap_line (p : Pass) (name : String) (value : Expression Node) :
    (knowingMap p name value).line = p.line := by
  unfold knowingMap
  split <;> rfl

private theorem assignment_rises {size k : Nat} {name : String} {e : Expression Node}
    (own : ∀ l ∈ e.line, 1 ≤ l ∧ l ≤ last) (h : Ready last size e.operands)
    (sum : sumIn Node.ownRise e.operands ≤ k) (p : Pass) : Rise last size (Plan.assignment p name e) k := by
  have learned : Rise last size [.change (·.learn (·.addVariable name))] 0 := rise_change (fun _ => rfl) trivial
  have values : Rise last size (Plan.nodes [.declarationValue] e.operands) k := rise_nodes h sum
  unfold Plan.assignment
  refine rise_append (rise_append (rise_change (k := 0) (knowingMap_line · name e) ?_) values (Nat.le_refl _)) learned
    (by omega)
  split
  · trivial
  · exact rise_reach own trivial

private theorem params_rise (ids : List (Identifier Node)) :
    (ids.map fun id => (Job.param id).rise).sum = sumIn Node.ownRise (ids.flatMap (·.value.toList)) := by
  induction ids with
  | nil => rfl
  | cons id ids ih => simp_all

private theorem callable_rises {size k : Nat} {params : List (Identifier Node)} {b : Body Node} {line : Option Nat}
    (lines : ∀ l ∈ line, 1 ≤ l ∧ l ≤ last)
    (hp : ∀ id ∈ params, sizeOf id < size ∧ EveryIn (Node.Until last) id.value.toList)
    (hb : Ready last size b.statements) (smaller : sizeOf b < size)
    (sum : sumIn Node.ownRise (params.flatMap (·.value.toList) ++ b.statements) + 1 ≤ k) :
    Rise last size (Plan.callable params b line) k := by
  have cleared : Rise last size [.change fun r => { r with returning := false }.learn (·.clearParams)] 0 :=
    rise_change (fun _ => rfl) trivial
  rw [sumIn_append] at sum
  exact rise_reach lines (rise_change (fun _ => rfl) (rise_append
    (rise_jobs (fun id hid => ⟨(hp id hid).1, by simp, (hp id hid).2⟩) (Nat.le_of_eq (params_rise params)))
    (rise_render smaller ⟨by simp, fun n hn => (hb n hn).2⟩ cleared (Nat.le_refl _)) (by simp; omega)))

private theorem branches_rise (ns : List Node) :
    (ns.map fun n => (Job.branch n).rise).sum = sumIn Node.ownRise ns + ns.length := by
  induction ns with
  | nil => rfl
  | cons n ns ih =>
    rw [List.map_cons, List.sum_cons, ih, sumIn_cons, List.length_cons]
    simp +arith

private theorem conditional_rises {size k : Nat} {condition : Node} {b : Body Node} {alternatives : List Node}
    (h : Ready last size (condition :: b.statements ++ alternatives)) (smaller : sizeOf b < size)
    (sum : sumIn Node.ownRise (condition :: b.statements ++ alternatives) + alternatives.length + 1 ≤ k) :
    Rise last size (Plan.conditional condition b alternatives) k := by
  obtain ⟨hc, h⟩ := List.forall_mem_cons.1 h
  obtain ⟨hb, ha⟩ := List.forall_mem_append.1 h
  have others : Rise last size (alternatives.map fun n => .render [] (.branch n)) _ :=
    rise_jobs (fun n hn => ⟨(ha n hn).1, by simp, by simpa using (ha n hn).2⟩)
      (Nat.le_of_eq (branches_rise alternatives))
  refine rise_render hc.1 (until_node hc.2) (rise_render smaller ⟨by simp, fun n hn => (hb n hn).2⟩ others
    (Nat.le_refl _)) ?_
  simp at sum ⊢
  omega

private theorem loop_rises {size k : Nat} {item : String} {key : Option String} {e : Expression Node} {b : Body Node}
    {line : Option Nat} (lines : ∀ l ∈ line, 1 ≤ l ∧ l ≤ last) (h : Ready last size (e.operands ++ b.statements))
    (smaller : sizeOf b < size) (sum : sumIn Node.ownRise (e.operands ++ b.statements) + 1 ≤ k) :
    Rise last size (Plan.loop item key e b line) k := by
  obtain ⟨he, hb⟩ := List.forall_mem_append.1 h
  rw [sumIn_append] at sum
  have known (p : Pass) : (knowingItems p item key).line = p.line := by cases key <;> rfl
  have block : Rise last size [.render [] (.body b)] _ :=
    rise_render smaller ⟨by simp, fun n hn => (hb n hn).2⟩ (j := 0) trivial (Nat.le_refl _)
  refine rise_reach lines (rise_change known (rise_append ?_ block (by simpa [Nat.add_assoc] using sum)))
  split
  · exact rise_ranges he (Nat.le_refl _)
  · exact rise_nodes he (Nat.le_refl _)

private theorem keyframes_rises {size k : Nat} {segments : List Node} {b : Body Node} {line : Option Nat}
    (lines : ∀ l ∈ line, 1 ≤ l ∧ l ≤ last) (h : Ready last size (segments ++ b.statements)) (smaller : sizeOf b < size)
    (sum : sumIn Node.ownRise (segments ++ b.statements) + 1 ≤ k) :
    Rise last size (Plan.keyframes segments b line) k := by
  obtain ⟨hs, hb⟩ := List.forall_mem_append.1 h
  rw [sumIn_append, Nat.add_assoc] at sum
  refine rise_reach lines (rise_append (rise_nodes hs (Nat.le_refl _)) ?_ sum)
  split
  · trivial
  · exact rise_render smaller ⟨by simp, fun n hn => (hb n hn).2⟩ (j := 0) trivial (by simp)

private theorem comment_rises {size k : Nat} {c : Comment} (lines : ∀ l ∈ c.line, 1 ≤ l ∧ l ≤ last)
    (sum : c.text.toList.count '\n' ≤ k) (sameLine : Bool) : Rise last size (Plan.comment c sameLine) k := by
  have ends : Rise last size [.reach (lastLine c)] k := by
    refine ⟨k, 0, Nat.le_refl _, fun l hl => ?_, trivial⟩
    obtain ⟨j, hj, rfl⟩ := Option.map_eq_some_iff.1 hl
    have inside := lines j hj
    omega
  cases sameLine with
  | true => exact ends
  | false => exact rise_reach lines ends

private theorem mapLiteral_rises {size k : Nat} {es : List (String × Node)} {line : Option Nat}
    (lines : ∀ l ∈ line, 1 ≤ l ∧ l ≤ last) (h : Ready last size (es.map (·.2)))
    (sum : sumIn Node.ownRise (es.map (·.2)) + (es.length + 2) ≤ k) : Rise last size (Plan.mapLiteral es line) k := by
  refine rise_change (fun _ => rfl) (rise_append (rise_nodes h (Nat.le_refl _)) (rise_change (fun _ => rfl) ?_) sum)
  cases line with
  | none => trivial
  | some l =>
    have inside := lines l rfl
    exact rise_skip (i := es.length + 2) (by omega) (j := 0) trivial (by omega)

private theorem node_rises {n : Node} (h : n.Every (Node.Until last)) (σ : Style) (p : Pass) :
    Rise last (sizeOf n) (Plan.node σ p n) (n.sum Node.ownRise) := by
  have lines : ∀ l ∈ n.line, 1 ≤ l ∧ l ≤ last := fun l hl => h.self l (mem_ownLines hl)
  have inside := ready_parts h
  rw [Node.sum_eq]
  cases n with
  | null | literal | number | quoted | boolean | color => trivial
  | identifier id =>
    obtain ⟨name, value, placeholder, rest, line⟩ := id
    cases value with
    | none => trivial
    | some v =>
      obtain ⟨smaller, hv⟩ := inside v (by simp)
      cases v with
      | null => trivial
      | expression e =>
        have own : ∀ l ∈ e.line, 1 ≤ l ∧ l ≤ last := fun l hl => hv.self l (mem_ownLines hl)
        have operands : Ready last _ e.operands :=
          fun c hc => ⟨Nat.lt_trans (ready_parts hv c hc).1 smaller, hv.part hc⟩
        exact assignment_rises own operands (by simp [Node.sum_eq]) p
      | callable => exact rise_render (j := 0) smaller (until_node hv) trivial (by simp)
      | _ => exact binding_rises lines hv smaller (by simp)
  | expression e => exact rise_operands lines inside (by simp) p
  | arguments args => exact rise_nodes inside (by simp)
  | block b => exact rise_body (b := some b) inside (by simp +arith) (by simp +arith)
  | selector segments line =>
    refine rise_reach (fun l hl => ?_) (rise_nodes inside (by simp))
    obtain ⟨s, hs, hl⟩ := Option.bind_eq_some_iff.1 hl
    exact (inside s (List.mem_of_getLast? hs)).2.self l (mem_ownLines hl)
  | ruleSet selectors b line =>
    cases b with
    | none => trivial
    | some b => exact head_rises _ lines inside (by simp +arith) (by simp +arith)
  | property segments value line =>
    obtain ⟨hs, hv⟩ := List.forall_mem_append.1 inside
    have own : ∀ l ∈ value.line, 1 ≤ l ∧ l ≤ last := fun l hl => h.self l (by simp [Node.ownLines, Option.mem_def.1 hl])
    have assigned (f : Registry → Registry) (k : Nat) : Rise last (sizeOf (Node.property segments value line))
        [.change (·.learn f)] k := rise_change (fun _ => rfl) trivial
    exact rise_reach lines (rise_append (rise_nodes hs (Nat.le_refl _))
      (rise_change (fun _ => rfl) (rise_render (by simp +arith) (until_operands own fun n hn => (hv n hn).2)
        (assigned _ 0) (Nat.le_refl _))) (by simp))
  | call name args b line =>
    obtain ⟨ha, hb⟩ := List.forall_mem_append.1 inside
    exact rise_reach lines (rise_change (fun _ => rfl) (rise_append (rise_nodes ha (Nat.le_refl _))
      (rise_change (fun _ => rfl) (rise_body hb (by simp +arith) (Nat.le_refl _))) (by simp +arith)))
  | callable name ps b line =>
    cases b with
    | none => trivial
    | some b =>
      obtain ⟨hp, hb⟩ := List.forall_mem_append.1 inside
      refine callable_rises lines (fun id hid => ⟨?_, fun v hv => (hp v (List.mem_flatMap.2 ⟨id, hid, hv⟩)).2⟩) hb
        (by simp +arith) (by simp +arith)
      have smaller := List.sizeOf_lt_of_mem hid
      simp +arith
      omega
  | returned value line =>
    have own : ∀ l ∈ value.line, 1 ≤ l ∧ l ≤ last := fun l hl => h.self l (by simp [Node.ownLines, Option.mem_def.1 hl])
    exact rise_reach lines
      (rise_render (by simp +arith) (until_operands own fun n hn => (inside n hn).2) (j := 0) trivial (by simp))
  | conditional condition b others negated line =>
    cases b with
    | none => trivial
    | some b => exact rise_reach lines (conditional_rises inside (by simp +arith) (by simp +arith))
  | loop item key e b line =>
    cases e with
    | none => trivial
    | some e =>
      cases b with
      | none => trivial
      | some b => exact loop_rises lines inside (by simp +arith) (by simp +arith)
  | binary operator left right => exact rise_nodes inside (by simp)
  | unary operator operand => exact rise_nodes inside (by simp)
  | keyframes segments b line =>
    cases b with
    | none => trivial
    | some b => exact keyframes_rises lines inside (by simp +arith) (by simp +arith)
  | media condition b line | supports condition b line =>
    cases b with
    | none => trivial
    | some b => exact head_rises [condition] lines inside (by simp +arith) (by simp +arith)
  | queryList queries => exact rise_nodes inside (by simp)
  | query features medium predicate =>
    obtain ⟨hf, hm⟩ := List.forall_mem_append.1 inside
    exact rise_nodes (List.forall_mem_append.2 ⟨hm, hf⟩) (by simp +arith)
  | feature segments value =>
    obtain ⟨hs, hv⟩ := List.forall_mem_append.1 inside
    cases value with
    | none => exact rise_append (rise_nodes hs (Nat.le_refl _)) (j := 0) trivial (by simp)
    | some e =>
      have own : ∀ l ∈ e.line, 1 ≤ l ∧ l ≤ last := fun l hl => h.self l (by simp [Node.ownLines, Option.mem_def.1 hl])
      exact rise_append (rise_nodes hs (Nat.le_refl _)) (rise_render (by simp +arith)
        (until_operands own fun n hn => (hv n hn).2) (j := 0) trivial (Nat.le_refl _)) (by simp)
  | xmlNamespace value shortName line =>
    obtain ⟨smaller, hv⟩ := inside value (by simp)
    exact rise_reach lines (rise_render smaller (until_node hv) (j := 0) trivial (by simp))
  | charset encoding line => exact rise_reach lines trivial
  | importSheet path line => exact rise_reach lines (rise_nodes inside (by simp))
  | extend selectors line =>
    rw [Plan.node]
    split
    · trivial
    · exact rise_reach lines (rise_nodes inside (by simp))
  | atRule name segments b line => exact head_rises _ lines inside (by simp +arith) (by simp +arith)
  | comment c => exact comment_rises lines (by simp) false
  | member left right => exact rise_nodes inside (by simp)
  | mapLiteral es line => exact mapLiteral_rises lines inside (by simp +arith)

private theorem statements_rise {size k : Nat} {ns : List Node} (previous : Option Nat) (h : Ready last size ns)
    (sum : sumIn Node.ownRise ns ≤ k) : Rise last size (Plan.statements previous ns) k := by
  induction ns generalizing previous k with
  | nil => trivial
  | cons n ns ih =>
    obtain ⟨hn, hns⟩ := List.forall_mem_cons.1 h
    exact rise_render hn.1 ⟨by simp, by simpa using hn.2⟩ (ih n.line hns (Nat.le_refl _)) (by simpa using sum)

private theorem row_rises {b : Body Node} (h : EveryIn (Node.Until last) b.statements) (σ : Style) (p : Pass) :
    Rise last (sizeOf b) ((Job.body b).plan σ p) (sumIn Node.ownRise b.statements + 1) := by
  have smaller : sizeOf b.statements < sizeOf b := by
    cases b
    simp +arith
  have up : Rise last (sizeOf b) [.change Pass.up] 0 := rise_change (fun _ => rfl) trivial
  have keyword : Rise last (sizeOf b) ((if b.insertsLine σ p then [.nextLine] else []) ++ [.change Pass.up]) 1 := by
    split
    · exact rise_nextLine up (Nat.le_refl _)
    · exact up.mono (by omega)
  exact rise_change (fun _ => rfl) (rise_render smaller ⟨by simp, h⟩ keyword (by simp))

private theorem Job.plan_rises {job : Job} (h : job.Until last) (σ : Style) (p : Pass) :
    Rise last job.size (job.plan σ p) job.rise := by
  have single {n : Node} (hn : EveryIn (Node.Until last) [n]) : n.Every (Node.Until last) := by simpa using hn
  have smaller (ns : List Node) (hns : EveryIn (Node.Until last) ns) : Ready last (sizeOf ns) ns :=
    fun n hn => ⟨List.sizeOf_lt_of_mem hn, hns n hn⟩
  cases job with
  | node n => exact (node_rises (single h.nodes) σ p).mono (by simp)
  | statement previous n =>
    cases n with
    | comment c => exact comment_rises (fun l hl => (single h.nodes).self l (mem_ownLines hl)) (by simp [Node.sum_eq]) _
    | _ => exact (node_rises (single h.nodes) σ p).mono (by simp)
  | row ns => exact statements_rise none (smaller ns h.nodes) (by simp)
  | body b => exact row_rises h.nodes σ p
  | branch n =>
    have inside := ready_parts (single h.nodes)
    -- what is no branch moves on as well before it fails
    have refused (k : Nat) : Rise last (sizeOf n) [.nextLine] (k + 1) :=
      rise_nextLine (j := 0) trivial (Nat.le_add_left 1 k)
    cases n with
    | conditional condition b others negated line =>
      cases b with
      | none => exact refused _
      | some b =>
        exact rise_nextLine (conditional_rises inside (by simp +arith) (Nat.le_refl _)) (by simp +arith [Node.sum_eq])
    | block b =>
      exact rise_nextLine (rise_body (b := some b) inside (by simp +arith) (Nat.le_refl _))
        (by simp +arith [Node.sum_eq])
    | _ => exact refused _
  | range n =>
    cases n with
    | expression e =>
      have inside := ready_parts (single h.nodes)
      exact rise_ranges inside (by simp [Node.sum_eq (.expression e)])
    | _ => exact (node_rises (single h.nodes) σ p).mono (by simp)
  | param id =>
    have named : Rise last (sizeOf id) [.change (·.learn (·.addVariable id.name))] 0 :=
      rise_change (fun _ => rfl) trivial
    refine rise_append ?_ named (Nat.le_refl _)
    split
    · refine rise_nodes (fun v hv => ⟨?_, h.nodes v hv⟩) (by simp)
      obtain ⟨name, value, placeholder, rest, line⟩ := id
      obtain rfl : value = some v := by simpa using hv
      simp +arith
    · trivial
  | operands e =>
    refine rise_operands h.own (fun n hn => ⟨?_, h.nodes n hn⟩) (by simp) p
    have below := List.sizeOf_lt_of_mem hn
    cases e
    simp at below ⊢
    omega

end Plans

/-- The pass is on one of the first `limit` lines. -/
def Pass.Within (limit : Nat) (p : Pass) : Prop := 1 ≤ p.line ∧ p.line ≤ limit

section Bounds

variable {σ : Style} {last limit k : Nat} {p q : Pass} {ms : List Move}

theorem Pass.Within.reach {line : Option Nat} (hp : p.Within limit) (h : ∀ l ∈ line, 1 ≤ l ∧ l ≤ last + k)
    (floor : last ≤ limit) : (p.reach line).Within (limit + k) := by
  cases line with
  | none => exact ⟨hp.1, Nat.le_trans hp.2 (by omega)⟩
  | some l =>
    obtain ⟨one, le⟩ := h l rfl
    exact ⟨one, Nat.le_trans le (by omega)⟩

theorem Pass.Within.skipTo {line : Nat} (hp : p.Within limit) (h : line ≤ last + k) (floor : last ≤ limit) :
    (p.skipTo line).Within (limit + k) :=
  ⟨Nat.le_trans hp.1 (Nat.le_max_left ..), Nat.max_le.2 ⟨Nat.le_trans hp.2 (by omega), by omega⟩⟩

private theorem follows_within {size : Nat}
    (jobs : ∀ part : Job, part.size < size → part.Until last → ∀ {limit : Nat} {t : String} {p q : Pass},
      last ≤ limit → p.Within limit → part.rendering.Gives σ p t q → q.Within (limit + part.rise))
    (h : Rise last size ms k) (floor : last ≤ limit) (hp : p.Within limit) (run : Follows σ ms p q) :
    q.Within (limit + k) := by
  induction ms generalizing p limit k with
  | nil => exact run ▸ ⟨hp.1, Nat.le_trans hp.2 (by omega)⟩
  | cons m ms ih =>
    obtain ⟨i, j, sum, first, rest⟩ := h
    obtain ⟨r, step, run⟩ := run
    have next : r.Within (limit + i) := by
      cases m with
      | render places part =>
        obtain ⟨smaller, until_last, le⟩ := first
        obtain ⟨t, s, hs, rfl⟩ := step
        obtain ⟨one, far⟩ := jobs part smaller until_last floor (p := p.enter places) hp hs
        exact ⟨one, Nat.le_trans far (by omega)⟩
      | reach line => exact step ▸ hp.reach first floor
      | skip line => exact step ▸ hp.skipTo first floor
      | nextLine => exact step ▸ ⟨by simp [Pass.nextLine], Nat.add_le_add hp.2 first⟩
      | change f =>
        have line : r.line = p.line := step ▸ first p
        exact ⟨line ▸ hp.1, by have := hp.2; omega⟩
    obtain ⟨one, far⟩ := ih rest (by omega) next run
    exact ⟨one, Nat.le_trans far (by omega)⟩

private theorem Job.ends_within (job : Job) (h : job.Until last) {limit : Nat} {t : String} {p q : Pass}
    (floor : last ≤ limit)
    (hp : p.Within limit) (run : job.rendering.Gives σ p t q) : q.Within (limit + job.rise) :=
  follows_within (fun part _ until_last _ _ _ _ floor hp run => part.ends_within until_last floor hp run)
    (job.plan_rises h σ p) floor hp (job.follows_plan run)
termination_by job.size

/-- A job that is met starts on a line from which its own rise is still left. -/
theorem Meets.within {path : List Nat} {job part : Job} (h : job.Until last) (floor : last ≤ limit)
    (hp : p.Within limit) (met : Meets σ job p path part q) :
    part.Until last ∧ ∃ here, last ≤ here ∧ q.Within here ∧ here + part.rise ≤ limit + job.rise := by
  induction met with
  | here => exact ⟨h, limit, floor, hp, Nat.le_refl _⟩
  | @inside path inner part start r before places after outer split run ih =>
    obtain ⟨inner_until, here, floor, at_start, left⟩ := ih
    obtain ⟨i, j, sum, done, x, y, sum', ⟨-, part_until, le⟩, -⟩ := (split ▸ inner.plan_rises inner_until σ start).split
    have at_r := follows_within (fun part _ => part.ends_within) done floor at_start run
    exact ⟨part_until, here + i, by omega, at_r, by omega⟩

def Move.target (p : Pass) : Move → Option Nat
  | reach line => line
  | skip line => some line
  | nextLine => some (p.line + 1)
  | render .. | change _ => none

theorem Moment.within {job : Job} {rest : List Move} (h : job.Until last) (floor : last ≤ limit) (hp : p.Within limit)
    (moment : Moment σ job p q rest) :
    q.Within (limit + job.rise) ∧ ∀ m ∈ rest.head?, ∀ line ∈ m.target q, line ≤ limit + job.rise := by
  obtain ⟨path, inner, start, before, met, split, run⟩ := moment
  obtain ⟨inner_until, here, floor, at_start, left⟩ := met.within h floor hp
  obtain ⟨i, j, sum, done, todo⟩ := (split ▸ inner.plan_rises inner_until σ start).split
  obtain ⟨one, far⟩ := follows_within (fun part _ => part.ends_within) done floor at_start run
  refine ⟨⟨one, by omega⟩, fun m hm line hl => ?_⟩
  obtain ⟨later, rfl⟩ := List.head?_eq_some_iff.1 hm
  obtain ⟨x, y, sum', next, -⟩ := todo
  cases m with
  | render | change => cases hl
  | reach =>
    have bound := (next line hl).2
    omega
  | skip =>
    cases hl
    have bound : line ≤ last + x := next
    omega
  | nextLine =>
    cases hl
    have bound : 1 ≤ x := next
    omega

end Bounds

/-- How far a pass gets over a sheet whose lines end at `last`: a comment goes on by its line feeds and a map by a line
for each entry and two more; a block may take a line for its keyword, and an alternative one of its own. -/
def Sheet.lineLimit (last : Nat) (s : Sheet) : Nat :=
  last + sumIn Node.commentFeeds s.statements + sumIn Node.mapRows s.statements +
    sumIn Node.elseBranches s.statements + sumIn Node.ownBlocks s.statements

private theorem Sheet.lineLimit_eq (last : Nat) (s : Sheet) :
    s.lineLimit last = last + sumIn Node.ownRise s.statements := by
  have sums : sumIn Node.ownRise s.statements = sumIn Node.commentFeeds s.statements +
      sumIn Node.mapRows s.statements + sumIn Node.elseBranches s.statements + sumIn Node.ownBlocks s.statements := by
    rw [← sumIn_add, ← sumIn_add, ← sumIn_add]
    rfl
  rw [lineLimit, sums]
  omega

/-- In the order that the statements of a sheet come in, whatever their lines, the pass is on a line from the first one
to the limit at every moment, and no line that it works out is further than that: where the limit has 64 bits, so has
every sum. -/
theorem Sheet.moment_line_le {s : Sheet} {settings : Settings} {last : Nat} {q : Pass} {rest : List Move}
    (positive : 1 ≤ last) (lines : EveryIn (Node.Until last) s.statements)
    (moment : Moment settings.toStyle (.row s.statements) {} q rest) :
    1 ≤ q.line ∧ q.line ≤ s.lineLimit last ∧ ∀ m ∈ rest.head?, ∀ line ∈ m.target q,
      line ≤ s.lineLimit last ∧ (s.lineLimit last < Word.unsignedLimit → line < Word.unsignedLimit) := by
  have row : (Job.row s.statements).Until last := ⟨by simp, lines⟩
  obtain ⟨⟨one, far⟩, sums⟩ := moment.within row (Nat.le_refl last) ⟨Nat.le_refl 1, positive⟩
  rw [s.lineLimit_eq]
  refine ⟨one, by simpa using far, fun m hm line hl => ?_⟩
  have le : line ≤ last + sumIn Node.ownRise s.statements := by simpa using sums m hm line hl
  exact ⟨le, fun limit => Nat.lt_of_le_of_lt le limit⟩

/-- A function on one line, the third, whose second statement is a comment over two lines: the keyword goes onto a line
of its own, and the pass comes to the limit. -/
theorem Sheet.moment_line_le_keyword :
    let b : Body Node := ⟨[.literal "x" none, .comment { text := "/* a\n b */", line := some 3 }], some 3⟩
    let callable : Node := .callable "f" [] (some b) (some 3)
    let binding : Node := .identifier { name := "f", value := some callable, line := some 3 }
    let sheet : Sheet := ⟨[binding]⟩
    let q : Pass := { depth := 1, line := 4, places := [.callableBody], returning := true }
    Moment {} (.row sheet.statements) {} q [.nextLine, .change Pass.up] ∧ sheet.lineLimit 3 = 5 ∧
      1 ≤ q.line ∧ q.line ≤ 5 ∧ q.line + 1 ≤ 5 := by
  intro b callable binding sheet q
  let start : Pass := { line := 3, places := [.callableBody], returning := true }
  have whole : Meets {} (.row sheet.statements) {} [] (.row sheet.statements) {} := .here
  have statement : Meets {} (.row sheet.statements) {} [0] (.statement none binding) {} :=
    .inside [] [] [] whole rfl rfl
  have definition : Meets {} (.row sheet.statements) {} [0, 0] (.node callable) {} :=
    .inside [] [] [] statement rfl rfl
  have block : Meets {} (.row sheet.statements) {} [0, 0, 0] (.body b) start :=
    .inside [.reach (some 3), .change fun r => { r.learn (·.setParams []) with returning := true }] [.callableBody] [_]
      definition rfl (r := { start with places := [] }) (follows_reach.2 (follows_change.2 rfl))
  have row : (Job.row b.statements).rendering.Gives {} start.down "x  /*! a\n b */" q :=
    eq_ok_of_toOption (by decide +kernel)
  have moment : Moment {} (.row sheet.statements) {} q [.nextLine, .change Pass.up] := by
    refine ⟨_, _, _, [.change Pass.down, .render [] (.row b.statements)], block, ?_, ?_⟩
    · rw [Job.plan, show b.insertsLine {} start = true from ?_]
      · rfl
      · decide +kernel
    · exact follows_change.2 (follows_render_here (.row b.statements) row rfl)
  have limit : sheet.lineLimit 3 = 5 := by
    simp [sheet, binding, callable, b, lineLimit, Node.sum_eq]
  have lines : EveryIn (Node.Until 3) sheet.statements := by
    simp [sheet, binding, callable, b, Node.every_iff_everyIn, Node.Until, Node.ownLines, Node.line]
  have styled : Moment ({} : Settings).toStyle (.row sheet.statements) {} q [.nextLine, .change Pass.up] := moment
  obtain ⟨one, far, sums⟩ := sheet.moment_line_le (by decide) lines styled
  rw [limit] at far sums
  exact ⟨moment, limit, one, far, (sums .nextLine rfl 5 rfl).1⟩

end Stylesheet
