import Stylesheet.Render.Pass

/-!
# Runs of renderings

What a rendering gives when it is run: its value and the pass it leaves behind. A sequence of steps gives a
value if each step does from where the one before left the pass, and the rules below say what each basic step
gives, faults included by giving nothing.
-/

namespace Stylesheet

namespace Pass

/-- The breaks owed before a line that a node may have. -/
def breaksTo (p : Pass) : Option Nat → String
  | none => ""
  | some line => Text.repeated (p.owed line) '\n'

/-- The pass after the breaks before a line. -/
def reach (p : Pass) : Option Nat → Pass
  | none => p
  | some line => { p with line }

def lead (p : Pass) (line : Option Nat) : String := p.breaksTo line ++ p.indent

def enter (p : Pass) (places : List Place) : Pass := { p with places := places ++ p.places }

/-- The pass back in the places of `p`. -/
def leave (q p : Pass) : Pass := { q with places := p.places }

def down (p : Pass) : Pass := { p with depth := p.depth + 1 }

def up (p : Pass) : Pass := { p with depth := p.depth - 1 }

def learn (p : Pass) (change : Registry → Registry) : Pass := { p with registry := change p.registry }

def call (p : Pass) (name : String) : Pass := { p with callName := some name }.enter [.call]

/-- The pass after the arguments of a call that `p` met. -/
def hangUp (q p : Pass) : Pass := { q.leave p with callName := p.callName }

variable (p q : Pass) (line : Option Nat) (places : List Place) (change : Registry → Registry) (name : String)

@[simp] theorem reach_depth : (p.reach line).depth = p.depth := by cases line <;> rfl

@[simp] theorem reach_places : (p.reach line).places = p.places := by cases line <;> rfl

@[simp] theorem reach_callName : (p.reach line).callName = p.callName := by cases line <;> rfl

@[simp] theorem reach_returning : (p.reach line).returning = p.returning := by cases line <;> rfl

@[simp] theorem reach_registry : (p.reach line).registry = p.registry := by cases line <;> rfl

@[simp] theorem reach_indent : (p.reach line).indent = p.indent := by cases line <;> rfl

@[simp] theorem reach_inAny (among : List Place) : (p.reach line).inAny among = p.inAny among := by
  cases line <;> rfl

@[simp] theorem enter_registry : (p.enter places).registry = p.registry := rfl

@[simp] theorem enter_indent : (p.enter places).indent = p.indent := rfl

@[simp] theorem leave_registry : (q.leave p).registry = q.registry := rfl

@[simp] theorem leave_indent : (q.leave p).indent = q.indent := rfl

@[simp] theorem down_registry : p.down.registry = p.registry := rfl

@[simp] theorem up_registry : p.up.registry = p.registry := rfl

@[simp] theorem learn_registry : (p.learn change).registry = change p.registry := rfl

@[simp] theorem learn_indent : (p.learn change).indent = p.indent := rfl

@[simp] theorem call_registry : (p.call name).registry = p.registry := rfl

@[simp] theorem hangUp_registry : (q.hangUp p).registry = q.registry := rfl

@[simp] theorem nextLine_registry : p.nextLine.registry = p.registry := rfl

@[simp] theorem skipTo_registry (n : Nat) : (p.skipTo n).registry = p.registry := rfl

end Pass

theorem eq_ok_of_toOption {ε α : Type} {x : Except ε α} {a : α} (h : x.toOption = some a) : x = .ok a := by
  cases x with
  | error e => cases h
  | ok b => rw [Option.some.inj h]

namespace Rendering

variable {α β : Type} {σ : Style} {p q r : Pass}

/-- Run in a style from the pass `p`, the rendering gives `a` and leaves the pass at `q`. -/
def Gives (m : Rendering α) (σ : Style) (p : Pass) (a : α) (q : Pass) : Prop := (m.run σ).run p = .ok (a, q)

@[simp] theorem gives_bind {m : Rendering α} {f : α → Rendering β} {b : β} :
    (m >>= f).Gives σ p b r ↔ ∃ a q, m.Gives σ p a q ∧ (f a).Gives σ q b r := by
  simp only [Gives, ReaderT.run_bind, StateT.run_bind]
  cases h : (m.run σ).run p with
  | error e => simp [bind, Except.bind]
  | ok x =>
    constructor
    · intro hb
      exact ⟨x.1, x.2, rfl, hb⟩
    · rintro ⟨a, q, ha, hb⟩
      cases ha
      exact hb

@[simp] theorem gives_pure {a b : α} : (pure a : Rendering α).Gives σ p b q ↔ b = a ∧ q = p := by
  show (Except.ok (a, p) : Except Fault (α × Pass)) = .ok (b, q) ↔ _
  simp [eq_comm]

@[simp] theorem gives_map {m : Rendering α} {f : α → β} {b : β} :
    (f <$> m).Gives σ p b q ↔ ∃ a, m.Gives σ p a q ∧ b = f a := by
  rw [map_eq_pure_bind, gives_bind]
  simp only [gives_pure]
  constructor
  · rintro ⟨a, q, h, rfl, rfl⟩
    exact ⟨a, h, rfl⟩
  · rintro ⟨a, h, rfl⟩
    exact ⟨a, q, h, rfl, rfl⟩

@[simp] theorem gives_throw {a : α} {e : Fault} : ¬ (throw e : Rendering α).Gives σ p a q := by
  show ¬ (Except.error e : Except Fault (α × Pass)) = .ok (a, q)
  simp

@[simp] theorem gives_missing {a : α} {kind : Kind} {part : NeededPart} :
    ¬ (missing kind part : Rendering α).Gives σ p a q := gives_throw

@[simp] theorem gives_read {τ : Style} : (read : Rendering Style).Gives σ p τ q ↔ τ = σ ∧ q = p := by
  show (Except.ok (σ, p) : Except Fault (Style × Pass)) = .ok (τ, q) ↔ _
  simp [eq_comm]

@[simp] theorem gives_get {s : Pass} : (get : Rendering Pass).Gives σ p s q ↔ s = p ∧ q = p := by
  show (Except.ok (p, p) : Except Fault (Pass × Pass)) = .ok (s, q) ↔ _
  simp [eq_comm]

@[simp] theorem gives_modify {f : Pass → Pass} {u : Unit} :
    (modify f : Rendering Unit).Gives σ p u q ↔ q = f p := by
  show (Except.ok ((), f p) : Except Fault (Unit × Pass)) = .ok (u, q) ↔ _
  simp [eq_comm]

@[simp] theorem gives_ite {b : Prop} [Decidable b] {m m' : Rendering α} {a : α} :
    (if b then m else m').Gives σ p a q ↔ if b then m.Gives σ p a q else m'.Gives σ p a q := by
  split <;> rfl

/-- A choice between two first steps is one first step. -/
theorem gives_either {b : Prop} [Decidable b] {m m' : Rendering α} {f : α → Rendering β} {a : β} :
    (if b then m >>= f else m' >>= f).Gives σ p a r ↔
      ∃ x q, (if b then m else m').Gives σ p x q ∧ (f x).Gives σ q a r := by
  split <;> exact gives_bind

/-- So is a first step that may be left out. -/
theorem gives_perhaps {b : Prop} [Decidable b] {m : Rendering Unit} {f : Unit → Rendering β} {a : β} :
    (if b then m >>= f else f ()).Gives σ p a r ↔
      ∃ q, (if b then m else pure ()).Gives σ p () q ∧ (f ()).Gives σ q a r := by
  split
  · rw [gives_bind]
    exact ⟨fun ⟨_, q, hq⟩ => ⟨q, hq⟩, fun ⟨q, hq⟩ => ⟨(), q, hq⟩⟩
  · simp

@[simp] theorem gives_dialect {d : Dialect} : dialect.Gives σ p d q ↔ d = σ.dialect ∧ q = p := by
  simp [dialect, and_comm]

@[simp] theorem gives_observe {view : Pass → α} {a : α} :
    (observe view).Gives σ p a q ↔ a = view p ∧ q = p := by
  simp [observe, and_comm]

@[simp] theorem gives_indent {t : String} : indent.Gives σ p t q ↔ t = p.indent ∧ q = p := by
  simp [indent]

@[simp] theorem gives_register {change : Registry → Registry} {u : Unit} :
    (register change).Gives σ p u q ↔ q = p.learn change := by
  simp [register, Pass.learn]

@[simp] theorem gives_variableRef {name t : String} :
    (variableRef name).Gives σ p t q ↔ t = σ.dialect.variableRef name ∧ q = p := by
  simp [variableRef, and_assoc, and_comm]

@[simp] theorem gives_lineBreaks {line : Option Nat} {t : String} :
    (lineBreaks line).Gives σ p t q ↔ t = p.breaksTo line ∧ q = p.reach line := by
  cases line <;> simp [lineBreaks, Pass.breaksTo, Pass.reach, and_assoc, and_comm]

@[simp] theorem gives_lineStart {line : Option Nat} {t : String} :
    (lineStart line).Gives σ p t q ↔ t = p.lead line ∧ q = p.reach line := by
  constructor
  · intro h
    simp only [lineStart, gives_bind, gives_lineBreaks, gives_indent, gives_pure] at h
    obtain ⟨_, _, ⟨rfl, rfl⟩, _, _, ⟨rfl, rfl⟩, rfl, rfl⟩ := h
    exact ⟨by rw [Pass.reach_indent]; rfl, rfl⟩
  · rintro ⟨rfl, rfl⟩
    simp only [lineStart, gives_bind, gives_lineBreaks, gives_indent, gives_pure]
    exact ⟨_, _, ⟨rfl, rfl⟩, _, _, ⟨rfl, rfl⟩, by rw [Pass.reach_indent]; rfl, rfl⟩

@[simp] theorem gives_within {places : List Place} {m : Rendering α} {a : α} :
    (within places m).Gives σ p a r ↔
      ∃ q, m.Gives σ (p.enter places) a q ∧ r = q.leave p := by
  constructor
  · intro h
    simp only [within, gives_bind, gives_observe, gives_modify, gives_pure] at h
    obtain ⟨_, _, ⟨rfl, rfl⟩, _, _, rfl, b, q, hm, _, _, rfl, rfl, rfl⟩ := h
    exact ⟨q, hm, rfl⟩
  · rintro ⟨q, hm, rfl⟩
    simp only [within, gives_bind, gives_observe, gives_modify, gives_pure]
    exact ⟨_, _, ⟨rfl, rfl⟩, (), _, rfl, a, q, hm, (), _, rfl, rfl, rfl⟩

@[simp] theorem gives_deeper {m : Rendering α} {a : α} :
    (deeper m).Gives σ p a r ↔
      ∃ q, m.Gives σ p.down a q ∧ r = q.up := by
  constructor
  · intro h
    simp only [deeper, gives_bind, gives_modify, gives_pure] at h
    obtain ⟨_, _, rfl, b, q, hm, _, _, rfl, rfl, rfl⟩ := h
    exact ⟨q, hm, rfl⟩
  · rintro ⟨q, hm, rfl⟩
    simp only [deeper, gives_bind, gives_modify, gives_pure]
    exact ⟨(), _, rfl, a, q, hm, (), _, rfl, rfl, rfl⟩

@[simp] theorem gives_calling {name : String} {m : Rendering α} {a : α} :
    (calling name m).Gives σ p a r ↔
      ∃ q, m.Gives σ (p.call name) a q ∧ r = q.hangUp p := by
  constructor
  · intro h
    simp only [calling, gives_bind, gives_observe, gives_modify, gives_within, gives_pure] at h
    obtain ⟨_, _, ⟨rfl, rfl⟩, _, _, rfl, b, _, ⟨q, hm, rfl⟩, _, _, rfl, rfl, rfl⟩ := h
    exact ⟨q, hm, rfl⟩
  · rintro ⟨q, hm, rfl⟩
    simp only [calling, gives_bind, gives_observe, gives_modify, gives_within, gives_pure]
    exact ⟨_, _, ⟨rfl, rfl⟩, (), _, rfl, a, _, ⟨q, hm, rfl⟩, (), _, rfl, rfl, rfl⟩

theorem Gives.bind {m : Rendering α} {f : α → Rendering β} {a : α} {b : β} (first : m.Gives σ p a q)
    (rest : (f a).Gives σ q b r) : (m >>= f).Gives σ p b r := gives_bind.2 ⟨a, q, first, rest⟩

theorem Gives.within {places : List Place} {m : Rendering α} {a : α} (h : m.Gives σ (p.enter places) a q) :
    (within places m).Gives σ p a (q.leave p) := gives_within.2 ⟨q, h, rfl⟩

theorem run_within (places : List Place) (m : Rendering α) (p : Pass) : ((within places m).run σ).run p =
    ((m.run σ).run (p.enter places)).map fun x => (x.1, x.2.leave p) := by
  show ((m.run σ).run (p.enter places) >>= fun x => pure (x.1, x.2.leave p)) = _
  cases (m.run σ).run (p.enter places) <;> rfl

theorem run_deeper (m : Rendering α) (p : Pass) :
    ((deeper m).run σ).run p = ((m.run σ).run p.down).map fun x => (x.1, x.2.up) := by
  show ((m.run σ).run p.down >>= fun x => pure (x.1, x.2.up)) = _
  cases (m.run σ).run p.down <;> rfl

theorem run_calling (name : String) (m : Rendering α) (p : Pass) : ((calling name m).run σ).run p =
    ((m.run σ).run (p.call name)).map fun x => (x.1, x.2.hangUp p) := by
  show (((within [.call] m).run σ).run { p with callName := some name } >>= fun x =>
    pure (x.1, { x.2 with callName := p.callName })) = _
  rw [run_within]
  show (((m.run σ).run (p.call name)).map _ >>= _) = _
  cases (m.run σ).run (p.call name) <;> rfl

end Rendering

end Stylesheet
