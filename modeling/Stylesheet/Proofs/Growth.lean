import Stylesheet.Proofs.Stepwise

/-!
# Registries only grow

A run forgets no variable, no map and no declaration. Declarations are added at the end, each of them with its value by
the time the run is over, and those that were open before stay open. What is open around a rendering does not show in
it.
-/

namespace Stylesheet

namespace Registry

def valued (ds : List (String × String)) : List (String × Option String) := ds.map fun d => (d.1, some d.2)

@[simp] theorem valued_nil : valued [] = [] := rfl

@[simp] theorem valued_append (ds es : List (String × String)) : valued (ds ++ es) = valued ds ++ valued es :=
  List.map_append

@[simp] theorem filter_valued (ds : List (String × String)) : (valued ds).filter (·.2.isSome) = valued ds :=
  List.filter_eq_self.2 fun d hd => by
    obtain ⟨e, -, rfl⟩ := List.mem_map.1 hd
    rfl

/-- Everything that `r` knows is known to `s`, whose other declarations come later and have values. -/
structure Grown (r s : Registry) : Prop where
  knownVariables : ∀ name, r.knowsVariable name → s.knowsVariable name
  knownMaps : ∀ name, r.knowsMap name → s.knowsMap name
  declarations : ∃ added, s.declarations = r.declarations ++ valued added

variable {r s t : Registry} {name value : String}

theorem Grown.refl (r : Registry) : r.Grown r := ⟨fun _ => id, fun _ => id, [], by simp⟩

theorem Grown.trans (h : r.Grown s) (h' : s.Grown t) : r.Grown t := by
  obtain ⟨first, hf⟩ := h.declarations
  obtain ⟨rest, hr⟩ := h'.declarations
  exact ⟨fun name known => h'.knownVariables name (h.knownVariables name known),
    fun name known => h'.knownMaps name (h.knownMaps name known),
    first ++ rest, by rw [hr, hf, valued_append, List.append_assoc]⟩

private theorem grown_addVariable (r : Registry) (name : String) : r.Grown (r.addVariable name) :=
  ⟨fun other known => by simp [knowsVariable_addVariable, known], fun _ => id, [], by simp [addVariable]⟩

private theorem grown_addMap (r : Registry) (name : String) : r.Grown (r.addMap name) :=
  ⟨fun _ => id, fun other known => by simp [knowsMap_addMap, known], [], by simp [addMap]⟩

private theorem declarations_closed (h : (r.openDeclaration name).Grown s) (value : String) : ∃ added,
    s.declarations = r.declarations ++ (name, none) :: valued added ∧
    (s.closeDeclaration r.nextSlot value).declarations = r.declarations ++ valued ((name, value) :: added) := by
  obtain ⟨added, h⟩ := h.declarations
  have opened : s.declarations = r.declarations ++ (name, none) :: valued added := by
    simpa [openDeclaration] using h
  refine ⟨added, opened, ?_⟩
  simp [closeDeclaration, opened, nextSlot, List.modify_eq_take_cons_drop, valued]

theorem Grown.closed (h : (r.openDeclaration name).Grown s) (value : String) :
    r.Grown (s.closeDeclaration r.nextSlot value) := by
  obtain ⟨added, -, closed⟩ := declarations_closed h value
  exact ⟨h.knownVariables, h.knownMaps, _, closed⟩

/-- The first of the declarations with values is found by its name. -/
theorem findSome?_valued (ds : List (String × String)) (name : String) :
    (valued ds).findSome? (fun d => if d.1 = name then d.2 else none) = ds.lookup name := by
  induction ds with
  | nil => rfl
  | cons d ds ih =>
    obtain ⟨declared, value⟩ := d
    by_cases same : name = declared
    · simp [valued, same]
    · have other : (name == declared) = false := beq_false_of_ne same
      rw [List.lookup_cons, other, ← ih]
      simp [valued, Ne.symm same]

private theorem valueOf?_grown {added : List (String × String)} (h : s.declarations = r.declarations ++ valued added)
    (name : String) : s.valueOf? name = (added.reverse.lookup name).or (r.valueOf? name) := by
  rw [valueOf?, h, List.reverse_append, List.findSome?_append, valued, ← List.map_reverse]
  exact congrArg (Option.or · _) (findSome?_valued added.reverse name)

private theorem closed_settled {s' : Registry} (h : (r.openDeclaration name).Grown s)
    (h' : (r.settled.openDeclaration name).Grown s') (same : s'.settled = s.settled) (value : String) :
    s'.closeDeclaration r.settled.nextSlot value = (s.closeDeclaration r.nextSlot value).settled := by
  obtain ⟨added, opened, closed⟩ := declarations_closed h value
  obtain ⟨added', opened', closed'⟩ := declarations_closed h' value
  have added_eq : valued added' = valued added := by
    have declarations := congrArg Registry.declarations same
    simpa [settled, opened, opened'] using declarations
  have declarations : (s'.closeDeclaration r.settled.nextSlot value).declarations =
      (s.closeDeclaration r.nextSlot value).settled.declarations := calc
    _ = r.settled.declarations ++ (name, some value) :: valued added' := closed'
    _ = (r.declarations ++ valued ((name, value) :: added)).filter (·.2.isSome) := by
      rw [added_eq, List.filter_append, filter_valued]
      rfl
    _ = _ := by rw [← closed]; rfl
  rw [settled, settled, Registry.mk.injEq] at same
  exact (Registry.mk.injEq ..).mpr ⟨same.1, same.2.1, same.2.2.1, declarations⟩

end Registry

/-- The registry of a pass grows with every step. -/
theorem Pass.grown_steps : StepRelation fun p q => p.registry.Grown q.registry where
  refl p := .refl p.registry
  trans := .trans
  move p _ := .refl p.registry
  addVariable p := Registry.grown_addVariable p.registry
  addMap p := Registry.grown_addMap p.registry
  within := id
  deeper := id
  calling := id
  declare h := h.closed _
  define h := ⟨h.knownVariables, h.knownMaps, h.declarations⟩

namespace Rendering

variable {α β : Type} {m : Rendering α}

/-- Without the declarations that are open around it the rendering runs the same, failures included. -/
def Oblivious (m : Rendering α) : Prop := ∀ (σ : Style) (p : Pass),
  (m.run σ).run p.settled = ((m.run σ).run p).map fun x => (x.1, x.2.settled)

theorem Oblivious.bind {f : α → Rendering β} (hm : m.Oblivious) (hf : ∀ a, (f a).Oblivious) :
    (m >>= f).Oblivious := by
  intro σ p
  rw [ReaderT.run_bind, StateT.run_bind, StateT.run_bind, hm σ p]
  cases (m.run σ).run p with
  | error e => rfl
  | ok x => exact hf x.1 σ x.2

private theorem oblivious_modify {change : Pass → Pass} (h : ∀ p : Pass, change p.settled = (change p).settled) :
    (modify change : Rendering Unit).Oblivious := by
  intro σ p
  show Except.ok ((), change p.settled) = Except.ok ((), (change p).settled)
  rw [h]

private theorem oblivious_register {change : Registry → Registry}
    (h : ∀ r : Registry, change r.settled = (change r).settled) :
    (register change).Oblivious := by
  refine oblivious_modify fun p => ?_
  show p.settled.learn change = (p.learn change).settled
  simp only [Pass.settled, Pass.learn, h]

private theorem oblivious_observe {view : Pass → α} (h : ∀ p : Pass, view p.settled = view p) :
    (observe view).Oblivious := by
  intro σ p
  show Except.ok (view p.settled, p.settled) = Except.ok (view p, p.settled)
  rw [h]

theorem Oblivious.within (places : List Place) (h : m.Oblivious) : (within places m).Oblivious := by
  intro σ p
  rw [run_within, run_within, show p.settled.enter places = (p.enter places).settled from rfl, h]
  cases (m.run σ).run (p.enter places) <;> rfl

theorem Oblivious.deeper (h : m.Oblivious) : (deeper m).Oblivious := by
  intro σ p
  rw [run_deeper, run_deeper, show p.settled.down = p.down.settled from rfl, h]
  cases (m.run σ).run p.down <;> rfl

theorem Oblivious.calling (name : String) (h : m.Oblivious) : (calling name m).Oblivious := by
  intro σ p
  rw [run_calling, run_calling, show p.settled.call name = (p.call name).settled from rfl, h]
  cases (m.run σ).run (p.call name) <;> rfl

private theorem oblivious_pure (a : α) : (pure a : Rendering α).Oblivious := fun _ _ => rfl

private theorem oblivious_dialect : dialect.Oblivious := fun _ _ => rfl

private theorem oblivious_lineStart (line : Option Nat) : (lineStart line).Oblivious := by
  intro σ p
  have run (p : Pass) : ((lineStart line).run σ).run p = .ok (p.lead line, p.reach line) :=
    gives_lineStart.2 ⟨rfl, rfl⟩
  rw [run, run]
  cases line <;> rfl

/-- From passes that differ by open declarations the rendering fails the same way, or gives the same. -/
theorem Oblivious.alike (h : m.Oblivious) {p p' : Pass} (same : p'.settled = p.settled) (σ : Style) :
    (∃ e, (m.run σ).run p = .error e ∧ (m.run σ).run p' = .error e) ∨
      ∃ a q q', m.Gives σ p a q ∧ m.Gives σ p' a q' ∧ q'.settled = q.settled := by
  have runs := h σ p'
  rw [same, h σ p] at runs
  cases here : (m.run σ).run p with
  | error e =>
    cases there : (m.run σ).run p' with
    | error e' =>
      rw [here, there] at runs
      cases runs
      exact .inl ⟨e, rfl, rfl⟩
    | ok x =>
      rw [here, there] at runs
      cases runs
  | ok x =>
    cases there : (m.run σ).run p' with
    | error e =>
      rw [here, there] at runs
      cases runs
    | ok x' =>
      obtain ⟨a, q⟩ := x
      obtain ⟨a', q'⟩ := x'
      rw [here, there] at runs
      obtain ⟨rfl, settled⟩ := Prod.mk.inj (Except.ok.inj runs)
      exact .inr ⟨a, q, q', here, there, settled.symm⟩

end Rendering

private theorem Pass.closed_settled {p s s' : Pass} {name : String}
    (h : (p.registry.openDeclaration name).Grown s.registry)
    (h' : (p.settled.registry.openDeclaration name).Grown s'.registry) (same : s'.settled = s.settled)
    (value : String) : s'.learn (·.closeDeclaration p.settled.registry.nextSlot value) =
      (s.learn (·.closeDeclaration p.registry.nextSlot value)).settled := by
  have registry := Registry.closed_settled h h' (congrArg Pass.registry same) value
  rw [settled, settled, Pass.mk.injEq] at same
  exact (Pass.mk.injEq ..).mpr ⟨same.1, same.2.1, same.2.2.1, same.2.2.2.1, same.2.2.2.2.1, registry⟩

namespace Render

open Rendering

variable {line : Option Nat} {name text : Rendering String}

private theorem closing_settled (σ : Style) {p s s' : Pass} {name : String}
    (h : (p.registry.openDeclaration name).Grown s.registry)
    (h' : (p.settled.registry.openDeclaration name).Grown s'.registry) (same : s'.settled = s.settled)
    (value : Expression Node) (before text : String) :
    ((closing value before name p.settled.registry.nextSlot text).run σ).run s' =
      (((closing value before name p.registry.nextSlot text).run σ).run s).map fun x => (x.1, x.2.settled) := by
  have indent : s'.settled.indent = s.settled.indent := by rw [same]
  unfold closing
  cases value.inlineName? with
  | none =>
    have closed := Pass.closed_settled h h' same text
    exact congrArg (fun q => Except.ok (_, q)) closed
  | some inner =>
    have known : (s'.learn (·.addVariable inner)).settled = (s.learn (·.addVariable inner)).settled :=
      congrArg (Pass.learn · (·.addVariable inner)) same
    have closed := Pass.closed_settled (h.trans (Registry.grown_addVariable _ inner))
      (h'.trans (Registry.grown_addVariable _ inner)) known (σ.dialect.variableRef inner)
    show Except.ok (before ++ Text.trimStart text ++ "\n" ++ s'.settled.indent ++ name ++ ": " ++ _ ++ ";", _) = _
    rw [indent]
    exact congrArg (fun q => Except.ok (_, q)) closed

private theorem property_oblivious (value : Expression Node) (hn : name.Oblivious) (ht : text.Oblivious)
    (grown : text.Relates fun p q => p.registry.Grown q.registry) : (property line name value text).Oblivious := by
  rw [property_eq]
  refine (oblivious_lineStart line).bind fun before => .within _ (hn.bind fun name σ p => ?_)
  have opened : (p.settled.learn (·.openDeclaration name)).settled = (p.learn (·.openDeclaration name)).settled := by
    simp [Pass.settled, Pass.learn, Registry.settled_openDeclaration, Registry.settled_settled]
  have run (p : Pass) : ((do
      let slot ← observe (·.registry.nextSlot)
      register (·.openDeclaration name)
      closing value before name slot (← text) : Rendering String).run σ).run p =
        (text.run σ).run (p.learn (·.openDeclaration name)) >>= fun x =>
          ((closing value before name p.registry.nextSlot x.1).run σ).run x.2 := rfl
  rw [run, run]
  rcases ht.alike opened σ with ⟨e, here, there⟩ | ⟨content, s, s', here, there, same⟩
  · rw [here, there]
    rfl
  · rw [here, there]
    exact closing_settled σ (grown here) (grown there) same value before content

private theorem callable_oblivious (kind : DefinitionKind) (names : List String) {defined : String}
    {params : Rendering (List String)} {body : Rendering String} (hp : params.Oblivious) (hb : body.Oblivious) :
    (callable defined line kind names params body).Oblivious := by
  have inside := Oblivious.within [.callableBody] <| hp.bind fun params => hb.bind fun body =>
    oblivious_pure (", ".intercalate params, body)
  have entered : (register (·.setParams names)).Oblivious := oblivious_register fun _ => rfl
  have left : (register (·.clearParams)).Oblivious := oblivious_register fun _ => rfl
  have returns (returning : Bool) : (modify fun p => { p with returning } : Rendering Unit).Oblivious :=
    oblivious_modify fun _ => rfl
  refine (oblivious_lineStart line).bind fun _ => entered.bind fun _ => (returns _).bind fun _ => ?_
  refine inside.bind fun _ => (returns false).bind fun _ => left.bind fun _ => ?_
  exact oblivious_dialect.bind fun _ => oblivious_pure _

end Render

/-- The registry grows with what is rendered, and what is open around a rendering does not show in it. -/
theorem Rendering.oblivious_stepwise : Stepwise True fun _ m =>
    m.Oblivious ∧ m.Relates fun p q => p.registry.Grown q.registry where
  pure a := ⟨oblivious_pure a, Pass.grown_steps.stepwise.pure a⟩
  throw e := ⟨fun _ _ => rfl, Pass.grown_steps.stepwise.throw e⟩
  bind hm hf := ⟨hm.1.bind fun a => (hf a).1, Pass.grown_steps.stepwise.bind hm.2 fun a => (hf a).2⟩
  dialect := ⟨oblivious_dialect, Pass.grown_steps.stepwise.dialect⟩
  quote same hf := ⟨fun σ p => (hf σ).1 σ p, Pass.grown_steps.stepwise.quote same fun σ => (hf σ).2⟩
  style _ _ _ hf := ⟨fun σ p => (hf σ).1 σ p, Pass.grown_steps.stepwise.style trivial fun σ => (hf σ).2⟩
  observe h := ⟨oblivious_observe h, Pass.grown_steps.stepwise.observe h⟩
  move change := ⟨oblivious_modify fun _ => rfl, Pass.grown_steps.stepwise.move change⟩
  addVariable name := ⟨oblivious_modify fun _ => rfl, Pass.grown_steps.stepwise.addVariable name⟩
  addMap name := ⟨oblivious_modify fun _ => rfl, Pass.grown_steps.stepwise.addMap name⟩
  within places _ hm := ⟨hm.1.within places, Pass.grown_steps.stepwise.within places hm.2⟩
  deeper hm := ⟨hm.1.deeper, Pass.grown_steps.stepwise.deeper hm.2⟩
  calling name _ hm := ⟨hm.1.calling name, Pass.grown_steps.stepwise.calling name hm.2⟩
  property line value _ _ hn ht :=
    ⟨Render.property_oblivious value hn.1 ht.1 ht.2, Pass.grown_steps.stepwise.property line value hn.2 ht.2⟩
  callable name line kind names _ _ hp hb :=
    ⟨Render.callable_oblivious kind names hp.1 hb.1, Pass.grown_steps.stepwise.callable name line kind names hp.2 hb.2⟩

namespace Render

open Rendering

/-- After a run all names known before are known, the declarations of before are there as they were, the open ones
still open, and those added behind them all have values. So a look-up finds what was added last, or what it found
before. Nor does an open declaration show in the run, which gives the same, or fails the same way, without those. -/
theorem registry_of_run (σ : Style) (p : Pass) (n : Node) :
    (∀ t q, (node n).Gives σ p t q →
      (∀ name, p.registry.knowsVariable name → q.registry.knowsVariable name) ∧
      (∀ name, p.registry.knowsMap name → q.registry.knowsMap name) ∧
      ∃ added : List (String × String),
        q.registry.declarations = p.registry.declarations ++ added.map (fun d => (d.1, some d.2)) ∧
        ∀ name, q.registry.valueOf? name = (added.reverse.lookup name).or (p.registry.valueOf? name)) ∧
    ((node n).run σ).run p.settled = (((node n).run σ).run p).map fun x => (x.1, x.2.settled) := by
  obtain ⟨oblivious, grows⟩ := oblivious_stepwise.node n fun _ _ _ => trivial
  refine ⟨fun t q h => ?_, oblivious σ p⟩
  obtain ⟨knownVariables, knownMaps, added, declarations⟩ := grows h
  exact ⟨knownVariables, knownMaps, added, declarations, Registry.valueOf?_grown declarations⟩

/-- A declaration of `w` in the value of another one, with a declaration in a block of its own: `w` is what it was
before both. -/
theorem registry_of_run_nested :
    let w : Node := .identifier { name := "w" }
    let handed : Node := .property [.literal "h" none] ⟨[w], none⟩ none
    let declared : Node := .property [.literal "w" none] ⟨[.call "grid" [] (some ⟨[handed], none⟩) none, w], none⟩ none
    let known : Registry :=
      { variableNames := ["gap"], mapNames := ["theme"], declarations := [("w", some "1"), ("w", none)] }
    let p : Pass := { depth := 1, registry := known }
    let q : Pass := { p with registry := { known with
      declarations := known.declarations ++ [("w", some "grid() \x7b\n    h: 1;\n  \x7d 1"), ("h", some "1")] } }
    let t := "  w: grid() \x7b\n    h: 1;\n  \x7d 1;"
    (node declared).Gives {} p t q ∧ q.registry.knowsVariable "gap" ∧ q.registry.knowsMap "theme" ∧
      (∃ added : List (String × String),
        q.registry.declarations = p.registry.declarations ++ added.map (fun d => (d.1, some d.2)) ∧
        ∀ name, q.registry.valueOf? name = (added.reverse.lookup name).or (p.registry.valueOf? name)) ∧
      (node declared).Gives {} p.settled t q.settled := by
  intro w handed declared known p q t
  have run : (node declared).Gives {} p t q := eq_ok_of_toOption (by decide +kernel)
  obtain ⟨grows, settled⟩ := registry_of_run {} p declared
  obtain ⟨knownVariables, knownMaps, declarations⟩ := grows t q run
  have gap : p.registry.knowsVariable "gap" := by decide +kernel
  have theme : p.registry.knowsMap "theme" := by decide +kernel
  rw [show ((node declared).run {}).run p = .ok (t, q) from run] at settled
  exact ⟨run, knownVariables "gap" gap, knownMaps "theme" theme, declarations, settled⟩

end Render

end Stylesheet
