import Mathlib.Algebra.GroupWithZero.Nat
import Stylesheet.Proofs.Values

/-!
# Nodes on one line

Leaves, bare names, lists, operations and queries have no line of their own in the output. From a pass that returns
nothing they come out on one line, and the pass stays where it is.
-/

namespace Stylesheet

open Rendering

def feeds (s : String) : Nat := s.toList.count '\n'

def OneLine (s : String) : Prop := feeds s = 0

instance (s : String) : Decidable (OneLine s) := inferInstanceAs (Decidable (_ = _))

@[simp] theorem feeds_append (s t : String) : feeds (s ++ t) = feeds s + feeds t := by
  rw [feeds, String.toList_append, List.count_append, feeds, feeds]

theorem OneLine.append {s t : String} (hs : OneLine s) (ht : OneLine t) : OneLine (s ++ t) := by
  rw [OneLine, feeds_append, hs, ht]

theorem closed_oneLine : Closed OneLine where
  inert := by
    intro s h
    apply List.count_eq_zero_of_not_mem
    intro hc
    exact absurd (List.all_eq_true.1 h '\n' hc) (by decide)
  append := OneLine.append
  parenthesized h := ((by decide : OneLine "(").append h).append (by decide)
  braced h := ((by decide : OneLine "\x7b").append h).append (by decide)
  shortened shorter _ h := Nat.eq_zero_of_le_zero (h ▸ shorter.count_le '\n')

@[simp] theorem feeds_repeated (n : Nat) : feeds (Text.repeated n '\n') = n := by
  rw [feeds, Text.repeated, String.toList_ofList, List.count_replicate_self]

theorem feeds_join (ts : List String) : feeds (String.join ts) = (ts.map feeds).sum := by
  induction ts with
  | nil => rfl
  | cons t ts ih => rw [String.join_cons, feeds_append, ih, List.map_cons, List.sum_cons]

namespace Pass

/-- Nothing is returned, no call is being rendered, and the values of all declarations are on one line. -/
structure Calm (p : Pass) : Prop where
  returning : p.returning = false
  calling : p.inAny [.call] = false
  values : p.registry.Holds OneLine

theorem calm_start : ({} : Pass).Calm := ⟨rfl, rfl, by simp [Registry.Holds]⟩

variable {p q : Pass}

theorem Calm.enter (h : p.Calm) {places : List Place} (other : Place.call ∉ places) : (p.enter places).Calm := by
  refine ⟨h.returning, ?_, h.values⟩
  have outside : Place.call ∉ p.places := by simpa [inAny] using h.calling
  simp [inAny, Pass.enter, other, outside]

theorem Calm.reach (h : p.Calm) (line : Option Nat) : (p.reach line).Calm :=
  ⟨by simpa using h.returning, by simpa using h.calling, by simpa using h.values⟩

theorem Calm.down (h : p.Calm) : p.down.Calm := ⟨h.returning, h.calling, h.values⟩

theorem Calm.up (h : p.Calm) : p.up.Calm := ⟨h.returning, h.calling, h.values⟩

theorem Calm.nextLine (h : p.Calm) : p.nextLine.Calm := ⟨h.returning, h.calling, h.values⟩

theorem Calm.leave (h : q.Calm) (hp : p.Calm) : (q.leave p).Calm := ⟨h.returning, hp.calling, h.values⟩

theorem Calm.learn (h : p.Calm) {change : Registry → Registry} (kept : (change p.registry).Holds OneLine) :
    (p.learn change).Calm := ⟨h.returning, h.calling, kept⟩

theorem Calm.addVariable (h : p.Calm) (name : String) : (p.learn (·.addVariable name)).Calm :=
  h.learn h.values.addVariable

theorem Calm.still (h : p.Calm) : p.Still OneLine := ⟨h.returning, h.values⟩

theorem Calm.inFunction (h : p.Calm) : p.inFunction = false := by simp [Pass.inFunction, h.returning]

end Pass

namespace Rendering

/-- From a calm pass the rendering gives something with the property and leaves the pass as it is. -/
def Quiets {α : Type} (σ : Style) (m : Rendering α) (Q : α → Prop) : Prop :=
  ∀ ⦃p a q⦄, p.Calm → m.Gives σ p a q → Q a ∧ q = p

variable {α : Type} {σ : Style} {m : Rendering α} {Q : α → Prop}

private theorem Rests.quiets (h : m.Rests σ OneLine Q) : m.Quiets σ Q := fun _ _ _ hp hg => h hp.still hg

/-- In places around values it is the same pass that is left. -/
theorem Quiets.leave {p r : Pass} {a : α} (hm : m.Quiets σ Q) (hp : p.Calm) {places : List Place}
    (other : Place.call ∉ places) (h : m.Gives σ (p.enter places) a r) : Q a ∧ r.leave p = p := by
  obtain ⟨hQ, rfl⟩ := hm (hp.enter other) h
  exact ⟨hQ, rfl⟩

end Rendering

namespace Node

structure Quiet (n : Node) : Prop where
  kind : n.isQuiet
  texts : n.TextsHold OneLine

theorem quiet_iff (n : Node) : n.Quiet ↔ n.isQuiet ∧ n.TextsHold OneLine :=
  ⟨fun ⟨hk, ht⟩ => ⟨hk, ht⟩, fun ⟨hk, ht⟩ => ⟨hk, ht⟩⟩

end Node

theorem EveryIn.values {ns : List Node} (h : EveryIn Node.Quiet ns) : EveryIn (Node.Values OneLine) ns :=
  fun n hn => (h n hn).mono fun _ hm => ⟨hm.kind, hm.texts⟩

namespace Render

variable {σ : Style}

theorem node_quiets (n : Node) (h : n.Every Node.Quiet) : (node n).Quiets σ OneLine :=
  (node_rests closed_oneLine n (h.mono fun _ hm => ⟨hm.kind, hm.texts⟩)).quiets

theorem each_quiets (ns : List Node) (h : EveryIn Node.Quiet ns) :
    (each ns).Quiets σ fun ts => ∀ t ∈ ts, OneLine t := (each_rests closed_oneLine ns h.values).quiets

theorem ranges_quiets (ns : List Node) (h : EveryIn Node.Quiet ns) :
    (ranges ns).Quiets σ fun ts => ∀ t ∈ ts, OneLine t := (ranges_rests closed_oneLine ns h.values).quiets

theorem named_quiets (segments : List Node) (h : EveryIn Node.Quiet segments) :
    (named segments (each segments)).Quiets σ OneLine :=
  (named_rests closed_oneLine (each_rests closed_oneLine segments h.values)).quiets

theorem expression_quiets (e : Expression Node) (h : EveryIn Node.Quiet e.operands) :
    (expression e (each e.operands)).Quiets σ OneLine :=
  (expression_rests closed_oneLine (each_rests closed_oneLine e.operands h.values)).quiets

end Render

end Stylesheet
