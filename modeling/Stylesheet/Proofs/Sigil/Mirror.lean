import Stylesheet.Proofs.Sigil.Texts

/-!
# Two dialects in step

A rendering is run once in each dialect. The second run starts from the pass of the first one with the sigils in its
registry replaced, and as long as nothing is returned and no animation is rendered, it goes the same way.
-/

namespace Stylesheet

open Rendering

namespace Registry

/-- Names of declarations and their values are texts of the output, the other names are those of the tree. -/
def inLess (r : Registry) : Registry :=
  { r with declarations := r.declarations.map fun d => (resigned d.1, d.2.map resigned) }

variable (r : Registry) (name value : String)

theorem nextSlot_inLess : r.inLess.nextSlot = r.nextSlot := List.length_map _

theorem openDeclaration_inLess : (r.openDeclaration name).inLess = r.inLess.openDeclaration (resigned name) := by
  simp [inLess, openDeclaration]

theorem closeDeclaration_inLess (slot : Nat) :
    (r.closeDeclaration slot value).inLess = r.inLess.closeDeclaration slot (resigned value) := by
  simp only [inLess, closeDeclaration, Registry.mk.injEq, true_and]
  generalize r.declarations = ds
  induction ds generalizing slot with
  | nil => simp
  | cons d ds ih => cases slot <;> simp [ih]

theorem valueOf?_inLess {name : String} (h : Unsigned name) :
    r.inLess.valueOf? name = (r.valueOf? name).map resigned := by
  unfold valueOf? inLess
  simp only
  rw [← List.map_reverse, List.findSome?_map]
  generalize r.declarations.reverse = ds
  induction ds with
  | nil => rfl
  | cons d ds ih =>
    rw [List.findSome?_cons, List.findSome?_cons, ih]
    by_cases hd : d.1 = name
    · have hd' : resigned d.1 = name := (resigned_eq_iff h).2 hd
      rw [Function.comp_apply, if_pos hd, if_pos hd']
      cases d.2 <;> rfl
    · have hd' : ¬ resigned d.1 = name := fun e => hd ((resigned_eq_iff h).1 e)
      rw [Function.comp_apply, if_neg hd, if_neg hd']

end Registry

namespace Pass

def inLess (p : Pass) : Pass := p.learn Registry.inLess

/-- The places in which a call is part of a value. -/
def valuePlaces : List Place := [.declarationValue, .mapLiteral, .xmlNamespace, .arguments, .condition]

/-- Nothing is returned, no animation is rendered, and what is rendered is part of a value if it has to be. -/
structure Stands (inValue : Prop) (p : Pass) : Prop where
  returning : p.returning = false
  keyframes : .keyframes ∉ p.places
  value : inValue → ∃ place ∈ p.places, place ∈ valuePlaces

variable {inValue inValue' : Prop} {p q : Pass}

theorem stands_start : Stands False {} := ⟨rfl, List.not_mem_nil, False.elim⟩

theorem Stands.reach (h : p.Stands inValue) (line : Option Nat) : (p.reach line).Stands inValue := by
  cases line with
  | none => exact h
  | some line => exact ⟨h.returning, h.keyframes, h.value⟩

theorem Stands.learn (h : p.Stands inValue) (change : Registry → Registry) : (p.learn change).Stands inValue :=
  ⟨h.returning, h.keyframes, h.value⟩

theorem Stands.leave (hp : p.Stands inValue) (hq : q.Stands inValue') : (q.leave p).Stands inValue :=
  ⟨hq.returning, hp.keyframes, hp.value⟩

theorem Stands.enter (h : p.Stands inValue) {place : Place} (other : place ≠ .keyframes)
    (value : inValue' → inValue ∨ place ∈ valuePlaces) : (p.enter [place]).Stands inValue' := by
  refine ⟨h.returning, ?_, fun hv => ?_⟩
  · intro hk
    rcases List.mem_cons.1 hk with hk | hk
    · exact other hk.symm
    · exact h.keyframes hk
  · rcases value hv with outer | here
    · obtain ⟨place, hp, hplace⟩ := h.value outer
      exact ⟨place, List.mem_cons_of_mem _ hp, hplace⟩
    · exact ⟨place, List.mem_cons_self, here⟩

/-- Inside a value a call is not a statement. -/
theorem Stands.inValuePlace (h : p.Stands True) :
    p.inAny [.declarationValue, .mapLiteral, .xmlNamespace, .keyframes, .arguments, .condition] = true := by
  obtain ⟨place, hp, hplace⟩ := h.value trivial
  have listed : place ∈ [Place.declarationValue, .mapLiteral, .xmlNamespace, .keyframes, .arguments, .condition] := by
    simp only [valuePlaces, List.mem_cons, List.not_mem_nil, or_false] at hplace ⊢
    rcases hplace with rfl | rfl | rfl | rfl | rfl <;> simp
  exact List.any_eq_true.2 ⟨place, listed, List.contains_iff_mem.2 hp⟩

theorem Stands.inKeyframes (h : p.Stands inValue) : p.inAny [.keyframes] = false := by
  simpa [inAny] using h.keyframes

end Pass

def Style.within (σ : Style) (d : Dialect) : Style := { σ with dialect := d }

namespace Rendering

variable {α β γ : Type} {σ : Style} {inValue inValue' : Prop} {m m' n n' : Rendering α} {f : α → α} {g : β → β}
  {k k' : α → Rendering β}

/-- From passes that stand there and differ by the sigil, what the second rendering gives in the second dialect is the
image of what the first one gives in the first dialect, failures included. -/
def Mirror (σ : Style) (inValue : Prop) (m m' : Rendering α) (f : α → α) : Prop := ∀ ⦃p⦄, p.Stands inValue →
  (m'.run (σ.within .less)).run p.inLess =
      ((m.run (σ.within .scss)).run p).map (fun x => (f x.1, x.2.inLess)) ∧
    ∀ ⦃a q⦄, m.Gives (σ.within .scss) p a q → q.Stands inValue

theorem Mirror.bind (hm : Mirror σ inValue m m' f) (hk : ∀ a, Mirror σ inValue (k a) (k' (f a)) g) :
    Mirror σ inValue (m >>= k) (m' >>= k') g := by
  intro p hp
  obtain ⟨same, kept⟩ := hm hp
  constructor
  · rw [ReaderT.run_bind, StateT.run_bind, ReaderT.run_bind, StateT.run_bind, same]
    cases h : (m.run (σ.within .scss)).run p with
    | error e => rfl
    | ok x => exact (hk x.1 (kept h)).1
  · intro b r h
    obtain ⟨a, q, ha, hb⟩ := gives_bind.1 h
    exact (hk a (kept ha)).2 hb

theorem mirror_pure {a b : α} (h : f a = b) : Mirror σ inValue (pure a) (pure b) f := by
  intro p hp
  constructor
  · subst h
    rfl
  · intro c q hc
    rw [(gives_pure.1 hc).2]
    exact hp

theorem mirror_missing (kind : Kind) (part : NeededPart) :
    Mirror σ inValue (missing kind part : Rendering α) (missing kind part) f :=
  fun _ _ => ⟨rfl, fun _ _ h => absurd h gives_missing⟩

theorem Mirror.ite {b : Prop} [Decidable b] (hm : Mirror σ inValue m m' f) (hn : Mirror σ inValue n n' f) :
    Mirror σ inValue (if b then m else n) (if b then m' else n') f := by
  split
  · exact hm
  · exact hn

/-- A choice between two first steps. -/
theorem Mirror.either {b : Prop} [Decidable b] (hm : Mirror σ inValue m m' f) (hn : Mirror σ inValue n n' f)
    (hk : ∀ a, Mirror σ inValue (k a) (k' (f a)) g) :
    Mirror σ inValue (if b then m >>= k else n >>= k) (if b then m' >>= k' else n' >>= k') g :=
  .ite (hm.bind hk) (hn.bind hk)

theorem mirror_modify {change change' : Pass → Pass} (same : ∀ p : Pass, change' p.inLess = (change p).inLess)
    (stands : ∀ p : Pass, p.Stands inValue → (change p).Stands inValue) :
    Mirror σ inValue (modify change) (modify change') id := by
  intro p hp
  constructor
  · show Except.ok ((), change' p.inLess) = Except.ok ((), (change p).inLess)
    rw [same]
  · intro u q h
    rw [gives_modify.1 h]
    exact stands p hp

theorem mirror_register {change change' : Registry → Registry}
    (h : ∀ r : Registry, change' r.inLess = (change r).inLess) :
    Mirror σ inValue (register change) (register change') id := by
  refine mirror_modify (fun p => ?_) fun p hp => hp.learn change
  show (p.inLess.learn change') = (p.learn change).inLess
  simp only [Pass.inLess, Pass.learn, h]

theorem mirror_observe {view view' : Pass → α} (h : ∀ p : Pass, p.Stands inValue → view' p.inLess = f (view p)) :
    Mirror σ inValue (observe view) (observe view') f := by
  intro p hp
  constructor
  · show Except.ok (view' p.inLess, p.inLess) = Except.ok (f (view p), p.inLess)
    rw [h p hp]
  · intro a q hg
    rw [(gives_observe.1 hg).2]
    exact hp

/-- What is observed is the same in both passes. -/
theorem Mirror.viewed {k k' : γ → Rendering β} {view : Pass → γ} (same : ∀ p : Pass, view p.inLess = view p)
    (hk : ∀ c, Mirror σ inValue (k c) (k' c) g) : Mirror σ inValue (observe view >>= k) (observe view >>= k') g := by
  have views : Mirror σ inValue (observe view) (observe view) id := mirror_observe fun p _ => same p
  exact views.bind hk

/-- What is observed is known. -/
theorem Mirror.observed {view : Pass → α} {a : α} (h : ∀ p : Pass, p.Stands inValue → view p = a ∧ view p.inLess = a)
    (hk : Mirror σ inValue (k a) (k' a) g) : Mirror σ inValue (observe view >>= k) (observe view >>= k') g := by
  intro p hp
  have run : ∀ (τ : Style) (p : Pass) (k : α → Rendering β),
      ((observe view >>= k).run τ).run p = ((k (view p)).run τ).run p := fun _ _ _ => rfl
  obtain ⟨first, second⟩ := h p hp
  obtain ⟨same, kept⟩ := hk hp
  constructor
  · rw [run, run, first, second, same]
  · intro b q hg
    obtain ⟨c, r, hc, hb⟩ := gives_bind.1 hg
    obtain ⟨rfl, rfl⟩ := gives_observe.1 hc
    rw [first] at hb
    exact kept hb

/-- Each run knows the style it is in. -/
theorem Mirror.styled {k k' : Style → Rendering β}
    (hk : Mirror σ inValue (k (σ.within .scss)) (k' (σ.within .less)) g) :
    Mirror σ inValue (read >>= k) (read >>= k') g := by
  intro p hp
  obtain ⟨same, kept⟩ := hk hp
  constructor
  · exact same
  · intro b q hg
    obtain ⟨τ, r, hτ, hb⟩ := gives_bind.1 hg
    obtain ⟨rfl, rfl⟩ := gives_read.1 hτ
    exact kept hb

theorem Mirror.spoken {k k' : Dialect → Rendering β} (hk : Mirror σ inValue (k .scss) (k' .less) g) :
    Mirror σ inValue (dialect >>= k) (dialect >>= k') g := by
  have run : ∀ k : Dialect → Rendering β, dialect >>= k = read >>= fun τ => k τ.dialect := fun _ => rfl
  rw [run, run]
  exact .styled hk

theorem mirror_variableRef {name : String} (h : Unsigned name) :
    Mirror σ inValue (variableRef name) (variableRef name) resigned :=
  .spoken (mirror_pure (resigned_variableRef h))

theorem mirror_indent : Mirror σ inValue indent indent resigned :=
  mirror_observe fun _ _ => (resigned_of_unsigned (unsigned_repeated _ (by decide))).symm

theorem mirror_lineBreaks (line : Option Nat) : Mirror σ inValue (lineBreaks line) (lineBreaks line) resigned := by
  cases line with
  | none => exact mirror_pure rfl
  | some line =>
    have owed : Mirror σ inValue (observe (·.owed line)) (observe (·.owed line)) id := mirror_observe fun _ _ => rfl
    have reached : Mirror σ inValue (modify (·.reach (some line))) (modify (·.reach (some line))) id :=
      mirror_modify (fun _ => rfl) fun _ hp => hp.reach (some line)
    exact owed.bind fun _ => reached.bind fun _ =>
      mirror_pure (resigned_of_unsigned (unsigned_repeated _ (by decide)))

theorem mirror_lineStart (line : Option Nat) : Mirror σ inValue (lineStart line) (lineStart line) resigned :=
  (mirror_lineBreaks line).bind fun breaks => mirror_indent.bind fun pad => mirror_pure (resigned_append breaks pad)

/-- What runs between a change of the pass and a return from it. -/
theorem Mirror.framed (hm : Mirror σ inValue' m m' f) (into : Pass → Pass) (back : Pass → Pass → Pass)
    (hn : ∀ τ p, (n.run τ).run p = ((m.run τ).run (into p)).map fun x => (x.1, back x.2 p))
    (hn' : ∀ τ p, (n'.run τ).run p = ((m'.run τ).run (into p)).map fun x => (x.1, back x.2 p))
    (into_inLess : ∀ p : Pass, into p.inLess = (into p).inLess)
    (back_inLess : ∀ q p : Pass, back q.inLess p.inLess = (back q p).inLess)
    (into_stands : ∀ p : Pass, p.Stands inValue → (into p).Stands inValue')
    (back_stands : ∀ q p : Pass, p.Stands inValue → q.Stands inValue' → (back q p).Stands inValue) :
    Mirror σ inValue n n' f := by
  intro p hp
  obtain ⟨same, kept⟩ := hm (into_stands p hp)
  constructor
  · rw [hn, hn', into_inLess, same]
    cases (m.run (σ.within .scss)).run (into p) with
    | error e => rfl
    | ok x =>
      show Except.ok (f x.1, back x.2.inLess p.inLess) = Except.ok (f x.1, (back x.2 p).inLess)
      rw [back_inLess]
  · intro a r hg
    rw [Gives, hn] at hg
    cases hrun : (m.run (σ.within .scss)).run (into p) with
    | error e =>
      rw [hrun] at hg
      cases hg
    | ok x =>
      rw [hrun] at hg
      cases hg
      exact back_stands x.2 p hp (kept hrun)

private theorem Mirror.entering {place : Place} (hm : Mirror σ inValue' m m' f) (other : place ≠ .keyframes)
    (value : inValue' → inValue ∨ place ∈ Pass.valuePlaces) :
    Mirror σ inValue (within [place] m) (within [place] m') f :=
  hm.framed (·.enter [place]) (·.leave ·) (fun _ => run_within [place] m) (fun _ => run_within [place] m')
    (fun _ => rfl) (fun _ _ => rfl) (fun _ hp => hp.enter other value) fun _ _ hp hq => hp.leave hq

/-- In the place of a value, calls are parts of values. -/
theorem Mirror.inside {place : Place} (hm : Mirror σ True m m' f) (value : place ∈ Pass.valuePlaces) :
    Mirror σ inValue (within [place] m) (within [place] m') f := by
  refine hm.entering (fun e => ?_) fun _ => .inr value
  subst e
  exact absurd value (by decide)

/-- In other places it is as it is around them. -/
theorem Mirror.around {place : Place} (hm : Mirror σ inValue m m' f) (other : place ≠ .keyframes) :
    Mirror σ inValue (within [place] m) (within [place] m') f := hm.entering other .inl

theorem Mirror.deeper (hm : Mirror σ inValue m m' f) : Mirror σ inValue (deeper m) (deeper m') f :=
  hm.framed Pass.down (fun q _ => q.up) (fun _ => run_deeper m) (fun _ => run_deeper m') (fun _ => rfl)
    (fun _ _ => rfl) (fun _ hp => ⟨hp.returning, hp.keyframes, hp.value⟩)
    fun _ _ _ hq => ⟨hq.returning, hq.keyframes, hq.value⟩

theorem Mirror.calling {name : String} (hm : Mirror σ inValue m m' f) :
    Mirror σ inValue (calling name m) (calling name m') f := by
  refine hm.framed (·.call name) (·.hangUp ·) (fun _ => run_calling name m) (fun _ => run_calling name m')
    (fun _ => rfl) (fun _ _ => rfl) (fun p hp => ?_) fun q p hp hq => ⟨hq.returning, hp.keyframes, hp.value⟩
  have named : { p with callName := some name }.Stands inValue := ⟨hp.returning, hp.keyframes, hp.value⟩
  exact named.enter (by decide) .inl

end Rendering

end Stylesheet
