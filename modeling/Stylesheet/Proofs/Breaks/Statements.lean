import Stylesheet.Proofs.Breaks.Quiet
import Stylesheet.Proofs.Breaks.Steps

/-!
# Statements that keep their breaks

Declarations, assignments, rules, branches and loops over values on one line, and comments of any length. Each has the
parts it needs, so that it is always rendered.
-/

namespace Stylesheet

open Rendering Render

/-- A selector put together from pieces on one line, or a value in its place. -/
def Node.IsHead : Node → Prop
  | .selector segments _ => EveryIn Node.Quiet segments
  | n => n.Every Node.Quiet

mutual

/-- Values and heads are on one line, an assignment is on the line of its value, and a comment has a line. -/
def Node.IsStatement : Node → Prop
  | .identifier id => id.isBound ∧ OneLine id.name ∧
    ∀ v ∈ id.value, v.Every Node.Quiet ∧ ∀ e, v = .expression e → e.line = id.line
  | .property segments value _ => EveryIn Node.Quiet segments ∧ EveryIn Node.Quiet value.operands
  | .ruleSet selectors b _ => (∀ s ∈ selectors, s.IsHead) ∧ IsBlock b
  | .media condition b _ | .supports condition b _ => condition.Every Node.Quiet ∧ IsBlock b
  | .atRule name segments b _ => OneLine name ∧ EveryIn Node.Quiet segments ∧ (b = none ∨ IsBlock b)
  | .charset encoding _ => OneLine encoding.text ∧ OneLine encoding.quote
  | .importSheet path _ => EveryIn Node.Quiet path.operands
  | .xmlNamespace value shortName _ => value.Every Node.Quiet ∧ ∀ s ∈ shortName, OneLine s
  | .loop item key iterable b _ => OneLine item ∧ (∀ k ∈ key, OneLine k) ∧
    (∃ e ∈ iterable, EveryIn Node.Quiet e.operands) ∧ IsBlock b
  | .conditional condition b alternatives _ _ => condition.Every Node.Quiet ∧ IsBlock b ∧ AreBranches alternatives
  | .comment c => c.line.isSome
  | _ => False
termination_by structural n => n

def AreStatements : List Node → Prop
  | [] => True
  | n :: ns => n.IsStatement ∧ AreStatements ns
termination_by structural ns => ns

def IsBlock : Option (Body Node) → Prop
  | none => False
  | some b => AreStatements b.statements
termination_by structural b => b

def AreBranches : List Node → Prop
  | [] => True
  | .conditional condition b alternatives _ _ :: ns =>
    condition.Every Node.Quiet ∧ IsBlock b ∧ AreBranches alternatives ∧ AreBranches ns
  | .block b :: ns => AreStatements b.statements ∧ AreBranches ns
  | _ :: _ => False
termination_by structural ns => ns

end

theorem Node.Quiet.sufficient {n : Node} (h : n.Every Node.Quiet) : n.Every Node.Sufficient :=
  Node.sufficient_of_isQuiet (h.mono fun _ hm => hm.kind)

private theorem everyIn_sufficient {ns : List Node} (h : EveryIn Node.Quiet ns) : EveryIn Node.Sufficient ns :=
  fun n hn => Node.Quiet.sufficient (h n hn)

theorem Node.IsHead.sufficient {n : Node} (h : n.IsHead) : n.Every Node.Sufficient := by
  cases n with
  | selector segments line => exact (every_sufficient_iff _).2 ⟨rfl, everyIn_sufficient h⟩
  | _ => exact Node.Quiet.sufficient h

mutual

theorem Node.IsStatement.sufficient (n : Node) (h : n.IsStatement) : n.Every Node.Sufficient := by
  rw [every_sufficient_iff]
  match n with
  | .identifier id =>
    obtain ⟨-, -, values⟩ := h
    exact ⟨rfl, fun v hv => Node.Quiet.sufficient (values v (by simpa using hv)).1⟩
  | .property _ _ _ => exact ⟨rfl, (everyIn_append _ _).2 ⟨everyIn_sufficient h.1, everyIn_sufficient h.2⟩⟩
  | .ruleSet selectors b _ =>
    have ⟨given, hb⟩ := block_sufficient b h.2
    exact ⟨given, (everyIn_append _ _).2 ⟨fun s hs => (h.1 s hs).sufficient, hb⟩⟩
  | .media condition b _ | .supports condition b _ =>
    have ⟨given, hb⟩ := block_sufficient b h.2
    exact ⟨given, (everyIn_cons _ _).2 ⟨Node.Quiet.sufficient h.1, hb⟩⟩
  | .atRule name segments none _ => exact ⟨rfl, (everyIn_append _ _).2 ⟨everyIn_sufficient h.2.1, everyIn_nil⟩⟩
  | .atRule name segments (some b) _ =>
    have hb := (block_sufficient (some b) (h.2.2.resolve_left (by simp))).2
    exact ⟨rfl, (everyIn_append _ _).2 ⟨everyIn_sufficient h.2.1, hb⟩⟩
  | .charset _ _ => exact ⟨rfl, everyIn_nil⟩
  | .importSheet _ _ => exact ⟨rfl, everyIn_sufficient h⟩
  | .xmlNamespace value _ _ => exact ⟨rfl, (everyIn_cons _ _).2 ⟨Node.Quiet.sufficient h.1, everyIn_nil⟩⟩
  | .loop _ _ iterable b _ =>
    obtain ⟨-, -, ⟨e, he, operands⟩, hb⟩ := h
    have ⟨given, hb⟩ := block_sufficient b hb
    cases he
    exact ⟨by simpa using given, (everyIn_append _ _).2 ⟨everyIn_sufficient operands, hb⟩⟩
  | .conditional condition b alternatives _ _ =>
    obtain ⟨hc, hb, ha⟩ := h
    have ⟨given, hb⟩ := block_sufficient b hb
    have ⟨kinds, ha⟩ := branches_sufficient alternatives ha
    refine ⟨?_, (everyIn_append _ _).2 ⟨(everyIn_cons _ _).2 ⟨Node.Quiet.sufficient hc, hb⟩, ha⟩⟩
    simp [given, kinds]
  | .comment _ => exact ⟨rfl, everyIn_nil⟩
  | .null | .literal .. | .number .. | .quoted _ | .boolean _ | .color _ | .expression _ | .arguments _ | .block _
  | .selector .. | .call .. | .callable .. | .returned .. | .binary .. | .unary .. | .keyframes .. | .queryList _
  | .query .. | .feature .. | .extend .. | .member .. | .mapLiteral .. => exact h.elim
termination_by structural n

theorem statements_sufficient (ns : List Node) (h : AreStatements ns) : EveryIn Node.Sufficient ns := by
  match ns with
  | [] => exact everyIn_nil
  | n :: ns => exact (everyIn_cons _ _).2 ⟨Node.IsStatement.sufficient n h.1, statements_sufficient ns h.2⟩
termination_by structural ns

private theorem block_sufficient (b : Option (Body Node)) (h : IsBlock b) :
    b.isNone = false ∧ EveryIn Node.Sufficient (statementsOf b) := by
  match b with
  | none => exact h.elim
  | some b => exact ⟨rfl, statements_sufficient b.statements h⟩
termination_by structural b

private theorem branches_sufficient (ns : List Node) (h : AreBranches ns) :
    ns.all Node.isAlternative ∧ EveryIn Node.Sufficient ns := by
  match ns with
  | [] => exact ⟨rfl, everyIn_nil⟩
  | n :: ns =>
    cases n with
    | conditional condition b alternatives negated line =>
      obtain ⟨hc, hb, ha, hns⟩ := h
      have ⟨given, hb⟩ := block_sufficient b hb
      have ⟨kinds, ha⟩ := branches_sufficient alternatives ha
      have ⟨others, hns⟩ := branches_sufficient ns hns
      refine ⟨others, (everyIn_cons _ _).2 ⟨(every_sufficient_iff _).2 ⟨by simp [given, kinds], ?_⟩, hns⟩⟩
      exact (everyIn_append _ _).2 ⟨(everyIn_cons _ _).2 ⟨Node.Quiet.sufficient hc, hb⟩, ha⟩
    | block b =>
      have ⟨others, hns⟩ := branches_sufficient ns h.2
      have hb := statements_sufficient b.statements h.1
      exact ⟨others, (everyIn_cons _ _).2 ⟨(every_sufficient_iff _).2 ⟨rfl, hb⟩, hns⟩⟩
    | _ => exact h.elim
termination_by structural ns

end

end Stylesheet
