import Stylesheet.Proofs.Lines.Scenes
import Stylesheet.Proofs.Run

/-!
# Renderings in step

Two renderings are in step if from passes that are alike they end the same way: both with values that are related and
in passes that are alike again, or both with faults whose messages differ in white space only. Passes that are alike
may differ in their lines and depths, and in the white space of the values that they know.
-/

namespace Stylesheet

open Text

variable {κ : Scene}

/-- Names that no look-up tells apart: they are the same, or both are computed. -/
def NameAlike (s t : String) : Prop := s = t ∨ '#' ∈ s.toList ∧ '#' ∈ t.toList

structure DeclarationAlike (word : List Char) (d d' : String × Option String) : Prop where
  name : NameAlike d.1 d'.1
  value : Option.Rel (Tight word) d.2 d'.2

structure Registry.Alike (word : List Char) (r r' : Registry) : Prop where
  variableNames : r.variableNames = r'.variableNames
  mapNames : r.mapNames = r'.mapNames
  paramNames : r.paramNames = r'.paramNames
  declarations : List.Forall₂ (DeclarationAlike word) r.declarations r'.declarations

/-- The passes are alike, and in keyframes or returning only where that is allowed for. -/
structure Pass.Alike (κ : Scene) (p p' : Pass) : Prop where
  places : p.places = p'.places
  callName : p.callName = p'.callName
  returning : p.returning = p'.returning
  registry : p.registry.Alike κ.search.valueWord p'.registry
  keyframes : p.inAny [.keyframes] → κ.steps
  returns : p.returning → κ.returns

namespace Registry

variable {word : List Char} {r r' : Registry} {name : String}

theorem alike_empty : Alike word {} {} := ⟨rfl, rfl, rfl, .nil⟩

theorem Alike.addVariable (h : r.Alike word r') (name : String) :
    (r.addVariable name).Alike word (r'.addVariable name) :=
  { h with variableNames := congrArg (List.insert name) h.variableNames }

theorem Alike.addMap (h : r.Alike word r') (name : String) : (r.addMap name).Alike word (r'.addMap name) :=
  { h with mapNames := congrArg (List.insert name) h.mapNames }

theorem Alike.setParams (h : r.Alike word r') (names : List String) :
    (r.setParams names).Alike word (r'.setParams names) :=
  { h with paramNames := rfl }

theorem Alike.clearParams (h : r.Alike word r') : r.clearParams.Alike word r'.clearParams :=
  { h with paramNames := rfl }

theorem Alike.nextSlot (h : r.Alike word r') : r.nextSlot = r'.nextSlot := h.declarations.length_eq

theorem Alike.openDeclaration (h : r.Alike word r') {name name' : String} (hn : NameAlike name name') :
    (r.openDeclaration name).Alike word (r'.openDeclaration name') where
  variableNames := h.variableNames
  mapNames := h.mapNames
  paramNames := h.paramNames
  declarations := List.rel_append h.declarations (.cons ⟨hn, .none⟩ .nil)

theorem Alike.closeDeclaration (h : r.Alike word r') {value value' : String} (hv : Tight word value value')
    (slot : Nat) : (r.closeDeclaration slot value).Alike word (r'.closeDeclaration slot value') where
  variableNames := h.variableNames
  mapNames := h.mapNames
  paramNames := h.paramNames
  declarations := by
    have close : ∀ {ds ds'}, List.Forall₂ (DeclarationAlike word) ds ds' → List.Forall₂ (DeclarationAlike word)
        (ds.modify slot fun d => (d.1, some value)) (ds'.modify slot fun d => (d.1, some value')) := by
      intro ds ds' hd
      induction hd generalizing slot with
      | nil =>
        rw [List.modify_nil, List.modify_nil]
        exact .nil
      | cons hd hds ih =>
        cases slot with
        | zero => exact .cons ⟨hd.name, .some hv⟩ hds
        | succ slot => exact .cons hd (ih slot)
    exact close h.declarations

theorem Alike.knowsVariable (h : r.Alike word r') (name : String) : r.knowsVariable name = r'.knowsVariable name := by
  rw [Registry.knowsVariable, Registry.knowsVariable, h.variableNames]

theorem Alike.knowsMap (h : r.Alike word r') (name : String) : r.knowsMap name = r'.knowsMap name := by
  rw [Registry.knowsMap, Registry.knowsMap, h.mapNames]

theorem Alike.knowsParam (h : r.Alike word r') (name : String) : r.knowsParam name = r'.knowsParam name := by
  rw [Registry.knowsParam, Registry.knowsParam, h.paramNames]

private theorem findSome?_alike (hn : '#' ∉ name.toList) {ds ds' : List (String × Option String)}
    (h : List.Forall₂ (DeclarationAlike word) ds ds') : Option.Rel (Tight word)
      (ds.findSome? fun d => if d.1 = name then d.2 else none)
      (ds'.findSome? fun d => if d.1 = name then d.2 else none) := by
  induction h with
  | nil => exact .none
  | @cons d d' ds ds' hd _ ih =>
    have same : d.1 = name ↔ d'.1 = name := by
      rcases hd.name with h | ⟨h, h'⟩
      · rw [h]
      · constructor
        · intro he
          exact absurd (he ▸ h) hn
        · intro he
          exact absurd (he ▸ h') hn
    rw [List.findSome?_cons, List.findSome?_cons]
    by_cases he : d.1 = name
    · rw [if_pos he, if_pos (same.1 he)]
      have hv := hd.value
      revert hv
      generalize d.2 = v, d'.2 = v'
      intro hv
      cases hv with
      | some hv => exact .some hv
      | none => exact ih
    · rw [if_neg he, if_neg (same.not.1 he)]
      exact ih

/-- A name that is not computed is declared in both or in none. -/
theorem Alike.valueOf? (h : r.Alike word r') (hn : '#' ∉ name.toList) :
    Option.Rel (Tight word) (r.valueOf? name) (r'.valueOf? name) :=
  findSome?_alike hn (List.forall₂_reverse_iff.2 h.declarations)

end Registry

namespace Pass

variable {p p' q q' : Pass}

theorem Alike.inAny (h : p.Alike κ p') (among : List Place) : p.inAny among = p'.inAny among := by
  rw [Pass.inAny, Pass.inAny, h.places]

theorem Alike.learn (h : p.Alike κ p') {change change' : Registry → Registry}
    (hr : (change p.registry).Alike κ.search.valueWord (change' p'.registry)) :
    (p.learn change).Alike κ (p'.learn change') :=
  { h with registry := hr }

/-- Inside of keyframes, which have to be allowed there. -/
theorem Alike.enter (h : p.Alike κ p') {places : List Place} {steps : Prop} (hs : κ.steps → steps)
    (hk : .keyframes ∈ places → steps) : (p.enter places).Alike { κ with steps } (p'.enter places) where
  places := congrArg (places ++ ·) h.places
  callName := h.callName
  returning := h.returning
  registry := h.registry
  keyframes := by
    intro hin
    have hm : Place.keyframes ∈ places ++ p.places := by simpa [Pass.inAny, Pass.enter] using hin
    rcases List.mem_append.1 hm with hm | hm
    · exact hk hm
    · exact hs (h.keyframes (by simpa [Pass.inAny] using hm))
  returns := h.returns

theorem Alike.leave {steps : Prop} (h : p.Alike κ p') (hq : q.Alike { κ with steps } q') :
    (q.leave p).Alike κ (q'.leave p') where
  places := h.places
  callName := hq.callName
  returning := hq.returning
  registry := hq.registry
  keyframes := h.keyframes
  returns := hq.returns

private theorem alike_inValue : p.Alike κ.inValue p' ↔ p.Alike κ p' := by
  have known : κ.inValue.search.valueWord = κ.search.valueWord := Search.valueWord_inValue κ.search
  constructor
  · intro h
    exact { h with registry := known ▸ h.registry }
  · intro h
    exact { h with registry := known.symm ▸ h.registry }

private theorem Alike.returningIn {κ' : Scene} (h : p.Alike κ p') (known : κ'.search.valueWord = κ.search.valueWord)
    (steps : κ.steps → κ'.steps) {returning : Bool} (returns : returning → κ'.returns) :
    Alike κ' { p with returning } { p' with returning } where
  places := h.places
  callName := h.callName
  returning := rfl
  registry := known ▸ h.registry
  keyframes := fun hin => steps (h.keyframes hin)
  returns := returns

theorem Alike.reach (h : p.Alike κ p') (line line' : Option Nat) : (p.reach line).Alike κ (p'.reach line') := by
  cases line <;> cases line' <;> exact { h with }

end Pass

namespace Rendering

variable {α β : Type} {σ : Style} {R : α → α → Prop} {S : β → β → Prop}

/-- The two ends of a run: related values and passes, or faults that read the same. -/
inductive Meet (κ : Scene) (R : α → α → Prop) : Except Fault (α × Pass) → Except Fault (α × Pass) → Prop
  | values {a a' : α} {q q' : Pass} (value : R a a') (pass : q.Alike κ q') : Meet κ R (.ok (a, q)) (.ok (a', q'))
  | faults {e e' : Fault} (message : removeBlanks e.message = removeBlanks e'.message) :
    Meet κ R (.error e) (.error e')

/-- From passes that are alike, the renderings end the same way. -/
def InStep (σ : Style) (κ : Scene) (m m' : Rendering α) (R : α → α → Prop) : Prop :=
  ∀ ⦃p p'⦄, p.Alike κ p' → Meet κ R ((m.run σ).run p) ((m'.run σ).run p')

variable {m m' n n' : Rendering α} {f f' : α → Rendering β}

theorem InStep.bind (hm : InStep σ κ m m' R) (hf : ∀ a a', R a a' → InStep σ κ (f a) (f' a') S) :
    InStep σ κ (m >>= f) (m' >>= f') S := by
  intro p p' hp
  have h := hm hp
  rw [ReaderT.run_bind, ReaderT.run_bind, StateT.run_bind, StateT.run_bind]
  generalize (m.run σ).run p = x, (m'.run σ).run p' = x' at h ⊢
  cases h with
  | values value pass => exact hf _ _ value pass
  | faults message => exact .faults message

theorem inStep_pure {a a' : α} (h : R a a') : InStep σ κ (pure a) (pure a') R := fun _ _ hp => .values h hp

theorem InStep.mono {R' : α → α → Prop} (h : InStep σ κ m m' R) (hr : ∀ a a', R a a' → R' a a') :
    InStep σ κ m m' R' := by
  intro p p' hp
  have hm := h hp
  generalize (m.run σ).run p = x, (m'.run σ).run p' = x' at hm ⊢
  cases hm with
  | values value pass => exact .values (hr _ _ value) pass
  | faults message => exact .faults message

theorem inStep_throw {e e' : Fault} (h : removeBlanks e.message = removeBlanks e'.message) :
    InStep σ κ (throw e : Rendering α) (throw e') R := fun _ _ _ => .faults h

theorem inStep_missing {kind : Kind} {part : NeededPart} :
    InStep σ κ (missing kind part : Rendering α) (missing kind part) R := inStep_throw rfl

theorem inStep_observe {view view' : Pass → α} (h : ∀ p p', p.Alike κ p' → R (view p) (view' p')) :
    InStep σ κ (observe view) (observe view') R := fun p p' hp => .values (h p p' hp) hp

theorem inStep_modify {change change' : Pass → Pass}
    (h : ∀ p p', p.Alike κ p' → (change p).Alike κ (change' p')) :
    InStep σ κ (modify change) (modify change') fun _ _ => True := fun p p' hp => .values trivial (h p p' hp)

theorem inStep_read : InStep σ κ read read fun τ τ' => τ = σ ∧ τ' = σ := fun _ _ hp => .values ⟨rfl, rfl⟩ hp

theorem inStep_dialect : InStep σ κ dialect dialect fun d d' => d = σ.dialect ∧ d' = σ.dialect :=
  fun _ _ hp => .values ⟨rfl, rfl⟩ hp

theorem InStep.ite {b b' : Prop} [Decidable b] [Decidable b'] (hb : b ↔ b') (hm : b → InStep σ κ m m' R)
    (hn : ¬ b → InStep σ κ n n' R) : InStep σ κ (if b then m else n) (if b' then m' else n') R := by
  by_cases h : b
  · rw [if_pos h, if_pos (hb.1 h)]
    exact hm h
  · rw [if_neg h, if_neg (hb.not.1 h)]
    exact hn h

/-- A choice between two first steps is one first step. -/
theorem InStep.either {b b' : Prop} [Decidable b] [Decidable b'] {g g' : α → Rendering β}
    (h : InStep σ κ (if b then m else n) (if b' then m' else n') R)
    (hg : ∀ a a', R a a' → InStep σ κ (g a) (g' a') S) :
    InStep σ κ (if b then m >>= g else n >>= g) (if b' then m' >>= g' else n' >>= g') S := by
  have one : ∀ {c : Prop} [Decidable c] {x y : Rendering α} {k : α → Rendering β},
      (if c then x >>= k else y >>= k) = (if c then x else y) >>= k := by
    intro c _ x y k
    split <;> rfl
  rw [one, one]
  exact h.bind hg

/-- Renderings that do not fail, each with a run of its own. -/
theorem inStep_of_gives (h : ∀ p p', p.Alike κ p' → ∃ a q a' q', m.Gives σ p a q ∧ m'.Gives σ p' a' q' ∧
    R a a' ∧ q.Alike κ q') : InStep σ κ m m' R := by
  intro p p' hp
  obtain ⟨a, q, a', q', hm, hm', value, pass⟩ := h p p' hp
  rw [hm, hm']
  exact .values value pass

/-- What runs between a change of the pass and a return from it. -/
theorem InStep.framed {κ' : Scene} (hm : InStep σ κ' m m' R) (into : Pass → Pass) (back : Pass → Pass → Pass)
    (hn : ∀ p, (n.run σ).run p = ((m.run σ).run (into p)).map fun x => (x.1, back x.2 p))
    (hn' : ∀ p, (n'.run σ).run p = ((m'.run σ).run (into p)).map fun x => (x.1, back x.2 p))
    (hinto : ∀ {p p'}, p.Alike κ p' → (into p).Alike κ' (into p'))
    (hback : ∀ {p p' q q'}, p.Alike κ p' → q.Alike κ' q' → (back q p).Alike κ (back q' p')) :
    InStep σ κ n n' R := by
  intro p p' hp
  have h := hm (hinto hp)
  rw [hn, hn']
  generalize (m.run σ).run (into p) = x, (m'.run σ).run (into p') = x' at h ⊢
  cases h with
  | values value pass => exact .values value (hback hp pass)
  | faults message => exact .faults message

theorem InStep.inValue (h : InStep σ κ.inValue m m' R) : InStep σ κ m m' R := by
  intro p p' hp
  have hm := h (Pass.alike_inValue.2 hp)
  generalize (m.run σ).run p = x, (m'.run σ).run p' = x' at hm ⊢
  cases hm with
  | values value pass => exact .values value (Pass.alike_inValue.1 pass)
  | faults message => exact .faults message

/-- A definition says whether it returns values before its parameters and its body, and that nothing does behind
them. -/
theorem InStep.inCallable {kind : DefinitionKind} (hk : kind = .function → κ.search ≠ .nowhere)
    (hm : InStep σ (κ.inCallable kind) m m' R) (hf : ∀ a a', R a a' → InStep σ κ (f a) (f' a') S) :
    InStep σ κ (do
      modify fun p => { p with returning := kind == .function }
      let a ← m
      modify fun p => { p with returning := false }
      f a) (do
      modify fun p => { p with returning := kind == .function }
      let a ← m'
      modify fun p => { p with returning := false }
      f' a) S := by
  intro p p' hp
  have known := Scene.valueWord_inCallable hk
  have h := hm (hp.returningIn known Scene.steps_inCallable.2 Scene.returns_inCallable)
  simp only [ReaderT.run_bind, StateT.run_bind]
  show Meet κ S (do let x ← (m.run σ).run { p with returning := kind == .function }; _)
    (do let x ← (m'.run σ).run { p' with returning := kind == .function }; _)
  generalize (m.run σ).run _ = x, (m'.run σ).run _ = x' at h ⊢
  cases h with
  | values value pass =>
    exact hf _ _ value (pass.returningIn known.symm Scene.steps_inCallable.1 fun h => absurd h Bool.false_ne_true)
  | faults message => exact .faults message

theorem InStep.within {places : List Place} (hk : .keyframes ∉ places) (h : InStep σ κ m m' R) :
    InStep σ κ (within places m) (within places m') R :=
  h.framed (·.enter places) (·.leave ·) (run_within places m) (run_within places m')
    (fun hp => hp.enter id fun hm => absurd hm hk) fun hp hq => hp.leave hq

theorem InStep.deeper (h : InStep σ κ m m' R) : InStep σ κ (deeper m) (deeper m') R :=
  h.framed Pass.down (fun q _ => q.up) (run_deeper m) (run_deeper m') (fun hp => { hp with }) fun _ hq => { hq with }

theorem InStep.calling {name : String} (h : InStep σ κ m m' R) :
    InStep σ κ (calling name m) (calling name m') R := by
  refine h.framed (·.call name) (·.hangUp ·) (run_calling name m) (run_calling name m') (fun {p p'} hp => ?_)
    fun {p p' q q'} hp hq => ?_
  · have named : { p with callName := some name }.Alike κ { p' with callName := some name } :=
      { hp with callName := rfl }
    exact named.enter id fun hm => by simp at hm
  · exact { hp.leave hq with callName := hp.callName }

theorem inStep_register {change change' : Registry → Registry}
    (h : ∀ r r', r.Alike κ.search.valueWord r' → (change r).Alike κ.search.valueWord (change' r')) :
    InStep σ κ (register change) (register change') fun _ _ => True :=
  inStep_modify fun _ _ hp => hp.learn (h _ _ hp.registry)

theorem inStep_variableRef (name : String) : InStep σ κ (variableRef name) (variableRef name)
    fun s t => s = σ.dialect.variableRef name ∧ t = σ.dialect.variableRef name :=
  inStep_dialect.bind fun _ _ ⟨hd, hd'⟩ => inStep_pure ⟨by rw [hd], by rw [hd']⟩

theorem blank_indent (p : Pass) : Blank p.indent := blank_repeated (by decide) _

theorem inStep_indent : InStep σ κ indent indent fun s t => Blank s ∧ Blank t :=
  inStep_observe fun p p' _ => ⟨blank_indent p, blank_indent p'⟩

theorem blank_breaksTo (p : Pass) (line : Option Nat) : Blank (p.breaksTo line) := by
  cases line with
  | none => simp [Pass.breaksTo, Blank]
  | some line => exact blank_repeated (by decide) _

theorem blank_lead (p : Pass) (line : Option Nat) : Blank (p.lead line) :=
  (blank_breaksTo p line).append (blank_indent p)

/-- Whatever the lines are, the breaks before them are white space. -/
theorem inStep_lineBreaks (line line' : Option Nat) :
    InStep σ κ (lineBreaks line) (lineBreaks line') fun s t => Blank s ∧ Blank t := by
  exact inStep_of_gives fun p p' hp => ⟨_, _, _, _, gives_lineBreaks.2 ⟨rfl, rfl⟩, gives_lineBreaks.2 ⟨rfl, rfl⟩,
    ⟨blank_breaksTo p line, blank_breaksTo p' line'⟩, hp.reach line line'⟩

theorem inStep_lineStart (line line' : Option Nat) :
    InStep σ κ (lineStart line) (lineStart line') fun s t => Blank s ∧ Blank t := by
  exact (inStep_lineBreaks line line').bind fun _ _ hs => inStep_indent.bind fun _ _ ht =>
    inStep_pure ⟨hs.1.append ht.1, hs.2.append ht.2⟩

end Rendering

end Stylesheet
