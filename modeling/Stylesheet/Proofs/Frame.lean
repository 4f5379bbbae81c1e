import Stylesheet.Proofs.Stepwise

/-!
# What a rendering leaves alone

Every rendering comes back to the depth, the places and the call it started in, and it never starts to return values.
Lines and registries are all that it moves on.
-/

namespace Stylesheet

namespace Pass

/-- `q` is where `p` is, and returns nothing if `p` does not. -/
structure Beside (p q : Pass) : Prop where
  depth : q.depth = p.depth
  places : q.places = p.places
  callName : q.callName = p.callName
  returning : p.returning = false → q.returning = false

namespace Beside

variable {p q r : Pass}

theorem refl (p : Pass) : p.Beside p := ⟨rfl, rfl, rfl, id⟩

theorem trans (h : p.Beside q) (h' : q.Beside r) : p.Beside r :=
  ⟨h'.depth.trans h.depth, h'.places.trans h.places, h'.callName.trans h.callName, h'.returning ∘ h.returning⟩

theorem indent (h : p.Beside q) : q.indent = p.indent := by rw [Pass.indent, Pass.indent, h.depth]

theorem inAny (h : p.Beside q) (among : List Place) : q.inAny among = p.inAny among := by
  rw [Pass.inAny, Pass.inAny, h.places]

end Beside

variable (p : Pass)

theorem beside_reach (line : Option Nat) : p.Beside (p.reach line) := by cases line <;> exact ⟨rfl, rfl, rfl, id⟩

theorem beside_learn (change : Registry → Registry) : p.Beside (p.learn change) := ⟨rfl, rfl, rfl, id⟩

theorem beside_skipTo (line : Nat) : p.Beside (p.skipTo line) := ⟨rfl, rfl, rfl, id⟩

/-- Whatever goes deeper, into places or into a call comes back from there, and nothing is returned after a
definition. -/
theorem beside_steps : StepRelation Beside where
  refl := .refl
  trans := .trans
  move _ _ := ⟨rfl, rfl, rfl, id⟩
  addVariable p _ := p.beside_learn _
  addMap p _ := p.beside_learn _
  within h := ⟨h.depth, rfl, h.callName, h.returning⟩
  deeper h := ⟨congrArg (· - 1) h.depth, h.places, h.callName, h.returning⟩
  calling h := ⟨h.depth, rfl, rfl, h.returning⟩
  declare h := ⟨h.depth, h.places, h.callName, h.returning⟩
  define h := ⟨h.depth, rfl, h.callName, fun _ => rfl⟩

end Pass

namespace Rendering

/-- From every pass and in every style, the rendering ends beside where it started. -/
def Stays {α : Type} (m : Rendering α) : Prop := ∀ ⦃σ p a q⦄, m.Gives σ p a q → p.Beside q

end Rendering

namespace Render

open Rendering

theorem named_stays (segments : List Node) {texts : Rendering (List String)} (h : texts.Stays) :
    (named segments texts).Stays :=
  Pass.beside_steps.stepwise.named segments h

theorem node_stays (n : Node) : (node n).Stays := Pass.beside_steps.node n

theorem each_stays (ns : List Node) : (each ns).Stays := Pass.beside_steps.each ns

theorem statements_stays (previous : Option Nat) (ns : List Node) : (statements previous ns).Stays :=
  Pass.beside_steps.statements previous ns

/-- Whatever is rendered, a node, statements in a row or the pieces of a name, the run comes back to the depth, the
places and the call that it started in. -/
theorem position_of_run (σ : Style) (p : Pass) :
    (∀ n t q, (node n).Gives σ p t q → q.depth = p.depth ∧ q.places = p.places ∧ q.callName = p.callName) ∧
    (∀ previous ns t q, (statements previous ns).Gives σ p t q →
      q.depth = p.depth ∧ q.places = p.places ∧ q.callName = p.callName) ∧
    ∀ segments t q, (named segments (each segments)).Gives σ p t q →
      q.depth = p.depth ∧ q.places = p.places ∧ q.callName = p.callName := by
  refine ⟨fun n t q h => ?_, fun previous ns t q h => ?_, fun segments t q h => ?_⟩
  · have back := node_stays n h
    exact ⟨back.depth, back.places, back.callName⟩
  · have back := statements_stays previous ns h
    exact ⟨back.depth, back.places, back.callName⟩
  · have back := named_stays segments (each_stays segments) h
    exact ⟨back.depth, back.places, back.callName⟩

/-- Among the arguments of another call, a call with a map and a block: as a node, as a statement before a comment and
in a name with itself interpolated. -/
theorem position_of_run_call :
    let declared : Node := .property [.literal "w" none] ⟨[.literal "1" none], none⟩ (some 5)
    let grid : Node := .call "grid" [.mapLiteral [("gap", .literal "2" none)] none] (some ⟨[declared], none⟩) (some 4)
    let note : Node := .comment { text := "/* */", line := some 7 }
    let p : Pass := { depth := 1, line := 3, places := [.call], callName := some "tint" }
    let t := "\n  @include grid((\n    'gap': 2\n  )) \x7b\n    w: 1;\n  \x7d"
    (∃ q, (node grid).Gives {} p t q ∧ q.line = 5 ∧ q.depth = 1 ∧ q.places = [.call] ∧ q.callName = some "tint") ∧
    (∃ q, (statements none [grid, note]).Gives {} p (t ++ "\n\n  /*! */") q ∧ q.line = 7 ∧
      q.depth = 1 ∧ q.places = [.call] ∧ q.callName = some "tint") ∧
    ∃ q, (named [grid, .expression ⟨[grid], none⟩] (each [grid, .expression ⟨[grid], none⟩])).Gives {} p
        (t ++ "#\x7b" ++ t ++ "\x7d") q ∧ q.line = 5 ∧ q.depth = 1 ∧ q.places = [.call] ∧ q.callName = some "tint" := by
  intro declared grid note p t
  have one : (node grid).Gives {} p t { p with line := 5, registry := { declarations := [("w", some "1")] } } :=
    eq_ok_of_toOption (by decide +kernel)
  have row : (statements none [grid, note]).Gives {} p (t ++ "\n\n  /*! */")
      { p with line := 7, registry := { declarations := [("w", some "1")] } } := eq_ok_of_toOption (by decide +kernel)
  have pieces : (named [grid, .expression ⟨[grid], none⟩] (each [grid, .expression ⟨[grid], none⟩])).Gives {} p
      (t ++ "#\x7b" ++ t ++ "\x7d")
      { p with line := 5, registry := { declarations := [("w", some "1"), ("w", some "1")] } } :=
    eq_ok_of_toOption (by decide +kernel)
  obtain ⟨ofNode, ofStatements, ofSegments⟩ := position_of_run {} p
  exact ⟨⟨_, one, rfl, ofNode _ _ _ one⟩, ⟨_, row, rfl, ofStatements _ _ _ _ row⟩,
    ⟨_, pieces, rfl, ofSegments _ _ _ pieces⟩⟩

end Render

end Stylesheet
