import Stylesheet.Proofs.Loops.Ranges
import Stylesheet.Proofs.Lookups
import Stylesheet.Proofs.Resolution

/-!
# Variables of loops

A loop makes two names known as variables, one for the value and one for the key, and all that is rendered in its body
reads them so. The head of a loop over a list names both. That of a loop over a range names the value alone, so there
the key stays without a value unless it reads like the other name.
-/

namespace Stylesheet

open Rendering

variable {σ : Style} {p q : Pass} {t name : String}

theorem Pass.Moves.knowsVariable (h : p.Moves q) (known : p.registry.knowsVariable name) :
    q.registry.knowsVariable name := by
  cases h with
  | addVariable other => simp [Registry.knowsVariable_addVariable, known]
  | _ => exact known

theorem Pass.Later.knowsVariable (h : p.Later q) (known : p.registry.knowsVariable name) :
    q.registry.knowsVariable name := by
  induction h with
  | refl => exact known
  | tail _ last ih => exact last.knowsVariable ih

namespace Render

private theorem knowingItems_knows (p : Pass) (item : String) (key : Option String) :
    ∀ name ∈ item :: key.toList, (knowingItems p item key).registry.knowsVariable name := by
  cases key with
  | none => simp [knowingItems, Registry.knowsVariable_addVariable]
  | some key => simp [knowingItems, Registry.knowsVariable_addVariable]

private theorem iterable_grown {ns : List Node} {ts : List String}
    (h : (if (firstRange? ns).isSome then ranges ns else each ns).Gives σ p ts q) : p.registry.Grown q.registry := by
  split at h
  · exact Pass.grown_steps.stepwise.ranges ns (fun _ _ _ _ _ => trivial) h
  · exact Pass.grown_steps.each ns h

private theorem reference_of_known {id : Identifier Node} (bare : id.isBound = false) (own : id.placeholder = false)
    (known : p.registry.knowsVariable id.name)
    (free : p.inAny [.expression] = false ∨ p.inAny [.call] = false ∧ p.registry.valueOf? id.name = none) :
    (node (.identifier id)).Gives σ p (σ.dialect.variableRef id.name ++ if id.rest then "..." else "") p := by
  rw [node_of_bare bare]
  refine .bind (gives_dialect.2 ⟨rfl, rfl⟩) (gives_observe.2 ⟨?_, rfl⟩)
  have outside : (if id.rest then σ.dialect.variableRef id.name ++ "..." else σ.dialect.variableRef id.name) =
      σ.dialect.variableRef id.name ++ if id.rest then "..." else "" := by
    split <;> simp
  rcases free with elsewhere | ⟨noCall, undeclared⟩
  · simp [referenceText, elsewhere, known, own, outside]
  · simp [referenceText, noCall, undeclared, known, own, outside]

/-- A loop that is rendered writes names in its head, in front of the word for what it goes through, and its body is
rendered from a pass in which the names of the value and of the key are known. All that comes later reads them as
variables. The head names both if the loop goes through a list, and the value alone if it goes through a range, so each
name that it makes known is written in its head if and only if there is no range, or no key that reads differently. -/
theorem loop_names (σ : Style) (p : Pass) (item : String) (key : Option String) (iterable : Option (Expression Node))
    (b : Option (Body Node)) (line : Option Nat) {t : String} {q : Pass}
    (run : (node (.loop item key iterable b line)).Gives σ p t q) :
    let name := σ.dialect.variableRef
    ∃ e c word names joint rest s content, iterable = some e ∧ b = some c ∧
      t = p.lead line ++ (word ++ ", ".intercalate names ++ joint ++ rest) ++ content ∧ (body c).Gives σ s content q ∧
      ((firstRange? e.operands).isSome ∧ word = "@for " ∧ names = [name item] ∧ joint = " from " ∨
        firstRange? e.operands = none ∧ word = "@each " ∧ names = (item :: key.toList).map name ∧ joint = " in ") ∧
      (∀ known ∈ item :: key.toList, s.registry.knowsVariable known) ∧
      (∀ r, s.Later r → ∀ id : Identifier Node, id.name ∈ item :: key.toList → id.isBound = false →
        id.placeholder = false →
        r.inAny [.expression] = false ∨ r.inAny [.call] = false ∧ r.registry.valueOf? id.name = none →
        (node (.identifier id)).Gives σ r (name id.name ++ if id.rest then "..." else "") r) ∧
      ((∀ known ∈ item :: key.toList, name known ∈ names) ↔
        firstRange? e.operands = none ∨ ∀ other ∈ key, name other = name item) := by
  intro name
  match iterable, b with
  | none, _ => exact absurd run gives_missing
  | some _, none => exact absurd run gives_missing
  | some e, some c =>
    obtain ⟨ts, r, content, hts, hb, rfl⟩ := loop_gives run
    have knows : ∀ known ∈ item :: key.toList, (r.leave (p.reach line)).registry.knowsVariable known := by
      intro known among
      exact (iterable_grown hts).knownVariables known (knowingItems_knows (p.reach line) item key known among)
    have reads : ∀ u, (r.leave (p.reach line)).Later u → ∀ id : Identifier Node, id.name ∈ item :: key.toList →
        id.isBound = false → id.placeholder = false →
        u.inAny [.expression] = false ∨ u.inAny [.call] = false ∧ u.registry.valueOf? id.name = none →
        (node (.identifier id)).Gives σ u (name id.name ++ if id.rest then "..." else "") u := by
      intro u later id among bare own free
      exact reference_of_known bare own (later.knowsVariable (knows id.name among)) free
    rcases Option.eq_none_or_eq_some (firstRange? e.operands) with listed | ⟨found, ranged⟩
    · refine ⟨e, c, "@each ", (item :: key.toList).map name, " in ", joinItems σ.dialect e.operands ts,
        r.leave (p.reach line), content, rfl, rfl, ?_, hb, .inr ⟨listed, rfl, rfl, rfl⟩, knows, reads, ?_⟩
      · rw [loopHead_of_list listed]
        simp only [String.append_assoc, name]
      · exact ⟨fun _ => .inl listed, fun _ known among => List.mem_map_of_mem among⟩
    · have one : (firstRange? e.operands).isSome := by simp [ranged]
      refine ⟨e, c, "@for ", [name item], " from ", ", ".intercalate ts, r.leave (p.reach line), content, rfl, rfl, ?_,
        hb, .inl ⟨one, rfl, rfl, rfl⟩, knows, reads, ?_⟩
      · rw [loopHead_of_range one]
        simp only [String.append_assoc, String.intercalate_singleton, name]
      · simp [ranged]

/-- The shades of a palette with their names, from inside of a block. -/
theorem loop_names_palette :
    let declared : Node := .property [.literal "color" none]
      ⟨[.identifier { name := "label" }, .identifier { name := "shade" }], none⟩ (some 5)
    let palette : Expression Node := ⟨[.identifier { name := "palette" }], none⟩
    let b : Body Node := ⟨[declared], none⟩
    let p : Pass := { depth := 1, line := 3 }
    let t := "\n  @each $shade, $label in $palette \x7b\n    color: $label $shade;\n  \x7d"
    (∃ q, (node (.loop "shade" (some "label") (some palette) (some b) (some 4))).Gives {} p t q) ∧
    ∃ word names joint rest s content q,
      t = p.lead (some 4) ++ (word ++ ", ".intercalate names ++ joint ++ rest) ++ content ∧
      (body b).Gives {} s content q ∧ s.registry.knowsVariable "shade" ∧ s.registry.knowsVariable "label" ∧
      "$shade" ∈ names ∧ "$label" ∈ names := by
  intro declared palette b p t
  have run : (node (.loop "shade" (some "label") (some palette) (some b) (some 4))).Gives {} p t
      { p with line := 5, registry :=
        { variableNames := ["label", "shade"], declarations := [("color", some "$label $shade")] } } :=
    eq_ok_of_toOption (by decide +kernel)
  obtain ⟨e, c, word, names, joint, rest, s, content, he, hc, text, inside, -, known, -, named⟩ :=
    loop_names {} p "shade" (some "label") (some palette) (some b) (some 4) run
  cases he
  cases hc
  have both := named.2 (.inl (by decide +kernel))
  have shade : Dialect.variableRef .scss "shade" = "$shade" := by decide +kernel
  have label : Dialect.variableRef .scss "label" = "$label" := by decide +kernel
  exact ⟨⟨_, run⟩, word, names, joint, rest, s, content, _, text, inside, known _ List.mem_cons_self,
    known _ (List.mem_cons_of_mem _ List.mem_cons_self), shade ▸ both _ List.mem_cons_self,
    label ▸ both _ (List.mem_cons_of_mem _ List.mem_cons_self)⟩

/-- With a key that reads differently, a loop over a range names the value alone, and the declaration in its body refers
to a variable that nothing names. -/
theorem key_without_name :
    let w : Node := .property [.literal "w" none] ⟨[.identifier { name := "i" }], none⟩ none
    let range : Node := .binary ".." (.literal "1" none) (.literal "3" none)
    let loop : Node := .loop "a" (some "i") (some ⟨[range], none⟩) (some ⟨[w], none⟩) none
    (∃ q, (node loop).Gives {} {} ("@for $a from " ++ "1 through 3 \x7b\n  w: $i;\n\x7d") q ∧
      q.registry.knowsVariable "i") ∧ ¬ "$i".toList <:+: "@for $a from ".toList := by
  intro w range loop
  have run : (node loop).Gives {} {} ("@for $a from " ++ "1 through 3 \x7b\n  w: $i;\n\x7d")
      { registry := { variableNames := ["i", "a"], declarations := [("w", some "$i")] } } :=
    eq_ok_of_toOption (by decide +kernel)
  exact ⟨⟨_, run, by decide +kernel⟩, by decide +kernel⟩

end Render

end Stylesheet
