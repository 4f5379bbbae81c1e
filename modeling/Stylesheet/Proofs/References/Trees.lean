import Stylesheet.Proofs.References.Agreement

/-!
# Trees with agreeing references

If two spellings of names agree where the known names have a property, so do whole trees, as long as definitions in them
stand only where any parameters have it.
-/

namespace Stylesheet

open Rendering

namespace Node

/-- A definition stands only where any parameters have the property. -/
def Admits (K : Registry → Prop) (n : Node) : Prop :=
  n.isCallable → ∀ (r : Registry) (names : List String), K r → K (r.setParams names)

end Node

namespace Render

variable {K : Registry → Prop} {ref : Identifier Node → Rendering String}

/-- Where the known names have the property, all names can be spelled with the function, and learning more names keeps
the property. -/
structure Spells (K : Registry → Prop) (ref : Identifier Node → Rendering String) : Prop where
  kept : Registry.Kept K
  agrees : ∀ id, Agree K K (reference id) (ref id)

mutual

private theorem node_agree (spelled : Spells K ref) (n : Node) (h : n.Every (Node.Admits K)) :
    Agree K K (node n) (nodeWith ref n) := by
  have hp : EveryIn (Node.Admits K) n.parts := ((Node.every_iff_everyIn n).1 h).2
  match n with
  | .null | .literal .. | .number .. | .quoted .. | .boolean _ | .color _ => exact agree_pure _
  | .identifier ⟨name, value, placeholder, rest, line⟩ =>
    match value with
    | none => exact spelled.agrees _
    | some v =>
      have hv := node_agree spelled v (hp v (by simp))
      cases v with
      | null => exact spelled.agrees _
      | expression e =>
        have he : (Node.expression e).Every (Node.Admits K) := hp _ (by simp)
        exact assignment_agree spelled.kept name e (each_agree spelled e.operands ((Node.every_iff_everyIn _).1 he).2)
      | callable => exact hv
      | _ => exact boundValue_agree spelled.kept name hv
  | .expression e => exact expression_agree e (each_agree spelled e.operands hp)
  | .arguments args => exact arguments_agree (each_agree spelled args hp)
  | .block b => exact body_agree spelled b hp
  | .selector segments _ => exact selector_agree segments (each_agree spelled segments hp)
  | .ruleSet _ none _ => exact agree_missing _ _
  | .ruleSet selectors (some b) _ =>
    obtain ⟨hs, hb⟩ := (everyIn_append _ _).1 hp
    exact ruleSet_agree (each_agree spelled selectors hs) (body_agree spelled b hb)
  | .property segments value _ =>
    obtain ⟨hs, hv⟩ := (everyIn_append _ _).1 hp
    exact property_agree spelled.kept value (named_agree segments (each_agree spelled segments hs))
      (expression_agree value (each_agree spelled value.operands hv))
  | .call name args none _ =>
    obtain ⟨ha, -⟩ := (everyIn_append _ _).1 hp
    exact call_agree name (each_agree spelled args ha)
  | .call name args (some b) _ =>
    obtain ⟨ha, hb⟩ := (everyIn_append _ _).1 hp
    exact call_block_agree name (each_agree spelled args ha) (body_agree spelled b hb)
  | .callable _ _ none _ => exact agree_missing _ _
  | .callable name ps (some b) _ =>
    obtain ⟨hps, hb⟩ := (everyIn_append _ _).1 hp
    have any : ∀ (r : Registry) (names : List String), K r → K (r.setParams names) := h.self rfl
    exact callable_agree name _ _ (fun r => any r _) (params_agree spelled ps hps) (body_agree spelled b hb)
      fun r => any r []
  | .returned value _ =>
    exact returned_agree (expression_agree value (each_agree spelled value.operands hp))
  | .conditional _ none _ _ _ => exact agree_missing _ _
  | .conditional condition (some b) alts negated line =>
    obtain ⟨hcb, ha⟩ := (everyIn_append _ _).1 hp
    obtain ⟨hc, hb⟩ := (everyIn_cons _ _).1 hcb
    exact conditional_agree _ negated (node_agree spelled condition hc) (body_agree spelled b hb)
      (alternatives_agree spelled alts ha)
  | .loop _ _ none _ _ => exact agree_missing _ _
  | .loop _ _ (some _) none _ => exact agree_missing _ _
  | .loop item key (some e) (some b) _ =>
    obtain ⟨he, hb⟩ := (everyIn_append _ _).1 hp
    exact loop_agree spelled.kept item key e (ranges_agree spelled e.operands he) (each_agree spelled e.operands he)
      (body_agree spelled b hb)
  | .binary _ left right =>
    exact (node_agree spelled left (hp left (by simp))).bind fun _ =>
      (node_agree spelled right (hp right (by simp))).bind fun _ => agree_pure _
  | .unary _ operand => exact (node_agree spelled operand (hp operand (by simp))).bind fun _ => agree_pure _
  | .keyframes _ none _ => exact agree_missing _ _
  | .keyframes segments (some b) _ =>
    obtain ⟨hs, hb⟩ := (everyIn_append _ _).1 hp
    exact keyframes_agree segments b.statements (each_agree spelled segments hs) (body_agree spelled b hb)
  | .media _ none _ => exact agree_missing _ _
  | .media q (some b) _ =>
    obtain ⟨hq, hb⟩ := (everyIn_cons _ _).1 hp
    exact conditionRule_agree _ (node_agree spelled q hq) (body_agree spelled b hb)
  | .queryList queries => exact (each_agree spelled queries hp).bind fun _ => agree_pure _
  | .query features medium _ =>
    obtain ⟨hf, hm⟩ := (everyIn_append _ _).1 hp
    exact (optional_agree spelled medium hm).bind fun _ => (each_agree spelled features hf).bind fun _ => agree_pure _
  | .feature segments none =>
    obtain ⟨hs, -⟩ := (everyIn_append _ _).1 hp
    exact (named_agree segments (each_agree spelled segments hs)).bind fun _ => agree_pure _
  | .feature segments (some value) =>
    obtain ⟨hs, hv⟩ := (everyIn_append _ _).1 hp
    exact (named_agree segments (each_agree spelled segments hs)).bind fun _ =>
      (expression_agree value (each_agree spelled value.operands hv)).bind fun _ => agree_pure _
  | .supports _ none _ => exact agree_missing _ _
  | .supports condition (some b) _ =>
    obtain ⟨hc, hb⟩ := (everyIn_cons _ _).1 hp
    exact conditionRule_agree _ (node_agree spelled condition hc) (body_agree spelled b hb)
  | .xmlNamespace value _ _ => exact xmlNamespace_agree _ (node_agree spelled value (hp value (by simp)))
  | .charset _ _ => exact (agree_lineStart _).bind fun _ => agree_pure _
  | .importSheet path _ => exact importSheet_agree path.operands (each_agree spelled path.operands hp)
  | .extend selectors _ => exact extend_agree selectors (each_agree spelled selectors hp)
  | .atRule name segments none _ =>
    obtain ⟨hs, -⟩ := (everyIn_append _ _).1 hp
    exact atRule_agree name segments (each_agree spelled segments hs)
  | .atRule name segments (some b) _ =>
    obtain ⟨hs, hb⟩ := (everyIn_append _ _).1 hp
    exact atRule_block_agree name segments (each_agree spelled segments hs) (body_agree spelled b hb)
  | .comment c => exact comment_agree c false
  | .member left right =>
    exact member_agree left right (node_agree spelled left (hp left (by simp)))
      (node_agree spelled right (hp right (by simp)))
  | .mapLiteral es _ => exact mapLiteral_agree (entries_agree spelled es hp)
termination_by structural n

private theorem each_agree (spelled : Spells K ref) (ns : List Node)
    (h : EveryIn (Node.Admits K) ns) : Agree K K (each ns) (eachWith ref ns) := by
  match ns with
  | [] => exact agree_pure _
  | n :: ns =>
    rw [everyIn_cons] at h
    exact (node_agree spelled n h.1).bind fun _ => (each_agree spelled ns h.2).bind fun _ => agree_pure _
termination_by structural ns

private theorem body_agree (spelled : Spells K ref) (b : Body Node)
    (h : EveryIn (Node.Admits K) b.statements) : Agree K K (Render.body b) (bodyWith ref b) := by
  match b with
  | ⟨ss, _⟩ => exact block_agree (statements_agree spelled none ss h)
termination_by structural b

private theorem optional_agree (spelled : Spells K ref) (n : Option Node)
    (h : EveryIn (Node.Admits K) n.toList) : Agree K K (optional n) (optionalWith ref n) := by
  match n with
  | none => exact agree_pure _
  | some n => exact node_agree spelled n (h n (by simp))
termination_by structural n

theorem statements_agree (spelled : Spells K ref) (previous : Option Nat) (ns : List Node)
    (h : EveryIn (Node.Admits K) ns) : Agree K K (statements previous ns) (statementsWith ref previous ns) := by
  match ns with
  | [] => exact agree_pure _
  | n :: ns =>
    rw [everyIn_cons] at h
    have hn := node_agree spelled n h.1
    have rest := statements_agree spelled n.line ns h.2
    cases n with
    | comment c => exact (comment_agree c _).bind fun _ => rest.bind fun _ => agree_pure _
    | _ => exact hn.bind fun _ => rest.bind fun _ => agree_pure _
termination_by structural ns

private theorem alternatives_agree (spelled : Spells K ref) (ns : List Node)
    (h : EveryIn (Node.Admits K) ns) : Agree K K (alternatives ns) (alternativesWith ref ns) := by
  match ns with
  | [] => exact agree_pure _
  | n :: ns =>
    rw [everyIn_cons] at h
    obtain ⟨-, hp⟩ := (Node.every_iff_everyIn _).1 h.1
    have rest := alternatives_agree spelled ns h.2
    cases n with
    | conditional condition b alts negated line =>
      match b with
      | none => exact agree_missing _ _
      | some b =>
        obtain ⟨hcb, ha⟩ := (everyIn_append _ _).1 hp
        obtain ⟨hc, hb⟩ := (everyIn_cons _ _).1 hcb
        exact (chained_agree (conditional_agree _ negated (node_agree spelled condition hc) (body_agree spelled b hb)
          (alternatives_agree spelled alts ha))).bind fun _ => rest.bind fun _ => agree_pure _
    | block b =>
      exact (chained_agree (otherwise_agree (body_agree spelled b hp))).bind fun _ => rest.bind fun _ => agree_pure _
    | _ => exact agree_missing _ _
termination_by structural ns

private theorem ranges_agree (spelled : Spells K ref) (ns : List Node)
    (h : EveryIn (Node.Admits K) ns) : Agree K K (ranges ns) (rangesWith ref ns) := by
  match ns with
  | [] => exact agree_pure _
  | n :: ns =>
    rw [everyIn_cons] at h
    obtain ⟨-, hp⟩ := (Node.every_iff_everyIn _).1 h.1
    have hn := node_agree spelled n h.1
    have rest := ranges_agree spelled ns h.2
    cases n with
    | binary operator left right =>
      simp only [ranges, rangesWith]
      split
      · exact (node_agree spelled left (hp left (by simp))).bind fun _ =>
          (node_agree spelled right (hp right (by simp))).bind fun _ => (agree_pure _).bind fun _ =>
            rest.bind fun _ => agree_pure _
      · exact hn.bind fun _ => rest.bind fun _ => agree_pure _
    | expression e =>
      exact (ranges_agree spelled e.operands hp).bind fun _ => rest.bind fun _ => agree_pure _
    | _ => exact hn.bind fun _ => rest.bind fun _ => agree_pure _
termination_by structural ns

theorem params_agree (spelled : Spells K ref) (ids : List (Identifier Node))
    (h : EveryIn (Node.Admits K) (ids.flatMap (·.value.toList))) : Agree K K (params ids) (paramsWith ref ids) := by
  match ids with
  | [] => exact agree_pure _
  | id :: ids =>
    rw [List.flatMap_cons, everyIn_append] at h
    exact (param_agree spelled.kept id (optional_agree spelled id.value h.1)).bind fun _ =>
      (params_agree spelled ids h.2).bind fun _ => agree_pure _
termination_by structural ids

private theorem entries_agree (spelled : Spells K ref) (es : List (String × Node))
    (h : EveryIn (Node.Admits K) (es.map (·.2))) : Agree K K (entries es) (entriesWith ref es) := by
  match es with
  | [] => exact agree_pure _
  | (_, n) :: es =>
    rw [List.map_cons, everyIn_cons] at h
    exact (node_agree spelled n h.1).bind fun _ => (entries_agree spelled es h.2).bind fun _ => agree_pure _
termination_by structural es

end

end Render

end Stylesheet
