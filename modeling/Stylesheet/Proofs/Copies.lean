import Stylesheet.Proofs.Frame

/-!
# Copies of animations

Whether keyframes are repeated for each engine is asked in keyframes alone, and there only when the rule is there. So
all copies are of one rule, which is rendered once, and without keyframes in it a rendering goes the same way in both
cases.
-/

namespace Stylesheet

namespace Rendering

variable {α β : Type} {m : Rendering α}

/-- The rendering runs the same whether keyframes are repeated or not, failures included. -/
def Blind (m : Rendering α) : Prop := ∀ (σ : Style) (copies : Bool) (p : Pass),
  (m.run { σ with vendorCopies := copies }).run p = (m.run σ).run p

private theorem blind_pure (a : α) : (pure a : Rendering α).Blind := fun _ _ _ => rfl

private theorem blind_dialect : dialect.Blind := fun _ _ _ => rfl

private theorem blind_modify (change : Pass → Pass) : (modify change : Rendering Unit).Blind := fun _ _ _ => rfl

private theorem blind_register (change : Registry → Registry) : (register change).Blind := fun _ _ _ => rfl

private theorem blind_observe (view : Pass → α) : (observe view).Blind := fun _ _ _ => rfl

private theorem blind_variableRef (name : String) : (variableRef name).Blind := fun _ _ _ => rfl

private theorem blind_lineStart (line : Option Nat) : (lineStart line).Blind := by
  intro σ copies p
  cases line <;> rfl

theorem Blind.bind {f : α → Rendering β} (hm : m.Blind) (hf : ∀ a, (f a).Blind) : (m >>= f).Blind := by
  intro σ copies p
  rw [ReaderT.run_bind, StateT.run_bind, ReaderT.run_bind, StateT.run_bind, hm σ copies p]
  cases (m.run σ).run p with
  | error e => rfl
  | ok x => exact hf x.1 σ copies x.2

theorem Blind.within (places : List Place) (h : m.Blind) : (within places m).Blind := by
  intro σ copies p
  rw [run_within, run_within, h]

theorem Blind.deeper (h : m.Blind) : (deeper m).Blind := by
  intro σ copies p
  rw [run_deeper, run_deeper, h]

theorem Blind.calling (name : String) (h : m.Blind) : (calling name m).Blind := by
  intro σ copies p
  rw [run_calling, run_calling, h]

/-! Two renderings of which one runs as the other does and then makes something of what that gives. -/

section map

variable {γ : Type} {σ : Style} {g : γ × Pass → β × Pass}

private theorem run_bind_map {f : α → Rendering β} {f' : α → Rendering γ}
    (h : ∀ a p, ((f a).run σ).run p = (((f' a).run σ).run p).map g) (m : Rendering α) (p : Pass) :
    ((m >>= f).run σ).run p = (((m >>= f').run σ).run p).map g := by
  rw [ReaderT.run_bind, StateT.run_bind, ReaderT.run_bind, StateT.run_bind]
  cases (m.run σ).run p with
  | error e => rfl
  | ok x => exact h x.1 x.2

private theorem run_within_map {places : List Place} {m : Rendering β} {m' : Rendering γ}
    (h : ∀ p, (m.run σ).run p = ((m'.run σ).run p).map g)
    (outside : ∀ c (q p : Pass), g (c, q.leave p) = ((g (c, q)).1, (g (c, q)).2.leave p)) (p : Pass) :
    ((within places m).run σ).run p = (((within places m').run σ).run p).map g := by
  rw [run_within, run_within, h]
  cases (m'.run σ).run (p.enter places) with
  | error e => rfl
  | ok x => exact congrArg Except.ok (outside x.1 x.2 p).symm

end map

end Rendering

namespace Render

open Rendering

variable {line : Option Nat}

private theorem property_blind (value : Expression Node) {name text : Rendering String} (hn : name.Blind)
    (ht : text.Blind) :
    (property line name value text).Blind := by
  refine (blind_lineStart line).bind fun before => .within _ (hn.bind fun name => ?_)
  refine (blind_observe _).bind fun slot => (blind_register _).bind fun _ => ht.bind fun content => ?_
  cases value.inlineName? with
  | none => exact (blind_register _).bind fun _ => blind_pure _
  | some inner =>
    exact (blind_variableRef inner).bind fun _ => (blind_register _).bind fun _ => (blind_observe _).bind fun _ =>
      blind_pure _

private theorem callable_blind (name : String) (kind : DefinitionKind) (names : List String)
    {params : Rendering (List String)} {body : Rendering String} (hp : params.Blind) (hb : body.Blind) :
    (callable name line kind names params body).Blind := by
  refine (blind_lineStart line).bind fun before => (blind_register _).bind fun _ => (blind_modify _).bind fun _ => ?_
  refine Blind.bind (.within _ (hp.bind fun _ => hb.bind fun _ => blind_pure _)) fun _ => ?_
  exact (blind_modify _).bind fun _ => (blind_register _).bind fun _ => blind_dialect.bind fun _ => blind_pure _

end Render

/-- Without keyframes nothing asks for the engines. -/
theorem Rendering.blind_stepwise : Stepwise False fun _ m => m.Blind where
  pure := blind_pure
  throw _ _ _ _ := rfl
  bind := .bind
  dialect := blind_dialect
  quote {α f} same hf := by
    intro σ copies p
    show ((f { σ with vendorCopies := copies }).run { σ with vendorCopies := copies }).run p = ((f σ).run σ).run p
    rw [same { σ with vendorCopies := copies } σ rfl]
    exact hf σ σ copies p
  style h := h.elim
  observe _ := blind_observe _
  move _ := blind_modify _
  addVariable _ := blind_register _
  addMap _ := blind_register _
  within places _ h := h.within places
  deeper h := h.deeper
  calling name _ h := h.calling name
  property _ value _ _ hn ht := Render.property_blind value hn ht
  callable name _ kind names _ _ hp hb := Render.callable_blind name kind names hp hb

namespace Render

open Rendering

variable {line : Option Nat} {texts : Rendering (List String)} {body : Rendering String}

/-- What keyframes render before they ask for the engines: the start of a line and the rule. -/
def animation (line : Option Nat) (segments statements : List Node) (texts : Rendering (List String))
    (body : Rendering String) : Rendering (String × String) :=
  within [.keyframes] do
    let before ← lineStart line
    let name ← named segments texts
    if (statements.head?.map Node.isExpression).getD false then throw (.unresolvedKeyframes name)
    return (before, name ++ (← body))

/-- All copies are of what is rendered once. -/
theorem run_keyframes (segments statements : List Node) (σ : Style) (p : Pass) :
    ((keyframes line segments statements texts body).run σ).run p =
      (((animation line segments statements texts body).run σ).run p).map fun x =>
        (x.1.1 ++ withEngines σ.vendorCopies x.2.indent x.1.2, x.2) := by
  refine run_within_map (run_bind_map (fun before p => run_bind_map (fun name p => ?_) _ p) _) (fun _ _ _ => rfl) p
  dsimp only
  split
  · rfl
  · exact run_bind_map (fun _ _ => rfl) body p

private theorem animation_gives {σ : Style} {p q : Pass} {segments statements : List Node} {before rule : String}
    (h : (animation line segments statements texts body).Gives σ p (before, rule) q) : before = p.lead line := by
  simp only [animation, gives_within, gives_perhaps, gives_bind, gives_lineStart, gives_pure, Prod.mk.injEq] at h
  obtain ⟨_, ⟨_, _, ⟨rfl, rfl⟩, _, _, _, _, _, _, _, _, ⟨rfl, rfl⟩, rfl⟩, rfl⟩ := h
  cases line <;> rfl

private theorem animation_blind (segments statements : List Node) (ht : texts.Blind) (hb : body.Blind) :
    (animation line segments statements texts body).Blind := by
  refine .within _ ((blind_lineStart line).bind fun before => (blind_stepwise.named segments ht).bind fun name => ?_)
  exact blind_stepwise.perhaps (blind_stepwise.throw _) fun _ => hb.bind fun _ => blind_pure _

/-- With and without the engines, keyframes that hold no other ones fail the same way, or write the same rule at the
same place and leave the same pass. The rule is rendered once, each engine gets a copy of it on a line of its own, and
the standard rule comes last. -/
theorem keyframes_copies (σ : Style) (p : Pass) (segments : List Node) (b : Option (Body Node)) (line : Option Nat)
    (alone : EveryIn (fun n => ¬n.isKeyframes) (Node.keyframes segments b line).parts) :
    (∃ e, ((node (.keyframes segments b line)).run { σ with vendorCopies := false }).run p = .error e ∧
        ((node (.keyframes segments b line)).run { σ with vendorCopies := true }).run p = .error e) ∨
      ∃ rule q,
        (node (.keyframes segments b line)).Gives { σ with vendorCopies := false } p
          (p.lead line ++ "@keyframes " ++ rule) q ∧
        (node (.keyframes segments b line)).Gives { σ with vendorCopies := true } p
          (p.lead line ++ String.join (["-webkit-", "-moz-", "-ms-", "-o-", "-khtml-"].map fun engine =>
            "@" ++ engine ++ "keyframes " ++ rule ++ "\n" ++ p.indent) ++ "@keyframes " ++ rule) q := by
  cases b with
  | none => exact .inl ⟨_, rfl, rfl⟩
  | some b =>
    obtain ⟨hs, hb⟩ := (everyIn_append _ _).1 alone
    have blind : (animation line segments b.statements (each segments) (Render.body b)).Blind :=
      animation_blind segments b.statements (blind_stepwise.each segments hs) (blind_stepwise.body b hb)
    have run (copies : Bool) :
        ((node (.keyframes segments (some b) line)).run { σ with vendorCopies := copies }).run p =
          (((animation line segments b.statements (each segments) (Render.body b)).run σ).run p).map fun x =>
            (x.1.1 ++ withEngines copies x.2.indent x.1.2, x.2) := by
      rw [← blind σ copies p]
      exact run_keyframes segments b.statements { σ with vendorCopies := copies } p
    cases once : ((animation line segments b.statements (each segments) (Render.body b)).run σ).run p with
    | error e =>
      rw [once] at run
      exact .inl ⟨e, run false, run true⟩
    | ok x =>
      obtain ⟨⟨before, rule⟩, q⟩ := x
      rw [once] at run
      obtain rfl := animation_gives once
      have indent : q.indent = p.indent := (node_stays (.keyframes segments (some b) line) (run false)).indent
      have plain : p.lead line ++ withEngines false q.indent rule = p.lead line ++ "@keyframes " ++ rule := by
        simp [withEngines, String.append_assoc]
      have copied : p.lead line ++ withEngines true q.indent rule = p.lead line ++
          String.join (engines.map fun engine => "@" ++ engine ++ "keyframes " ++ rule ++ "\n" ++ p.indent) ++
          "@keyframes " ++ rule := by
        rw [indent, withEngines, if_pos rfl, String.append_assoc, String.append_assoc, String.append_assoc]
      exact .inr ⟨rule, q, plain ▸ run false, copied ▸ run true⟩

/-- A step with a declaration, one level deep. Breaks, registry and line are those of one copy. -/
theorem keyframes_copies_fade :
    let declared : Node := .property [.literal "w" none] ⟨[.literal "1" none], none⟩ (some 5)
    let step : Node := .ruleSet [.selector [.literal "from" none] none] (some ⟨[declared], none⟩) (some 4)
    let fade : Node := .keyframes [.literal "fade" none] (some ⟨[step], none⟩) (some 3)
    let p : Pass := { depth := 1, line := 2 }
    let q : Pass := { depth := 1, line := 5, registry := { declarations := [("w", some "1")] } }
    let rule := "fade \x7b\n    from \x7b\n      w: 1;\n    \x7d\n  \x7d"
    EveryIn (fun n => ¬n.isKeyframes) fade.parts ∧
      (node fade).Gives { vendorCopies := false } p ("\n  @keyframes " ++ rule) q ∧
      (node fade).Gives {} p ("\n  " ++ String.join (["-webkit-", "-moz-", "-ms-", "-o-", "-khtml-"].map fun engine =>
        "@" ++ engine ++ "keyframes " ++ rule ++ "\n  ") ++ "@keyframes " ++ rule) q := by
  intro declared step fade p q rule
  have alone : EveryIn (fun n => ¬n.isKeyframes) fade.parts := by
    simp [fade, step, declared, Node.every_iff_everyIn, Node.isKeyframes]
  have plain : (node fade).Gives { vendorCopies := false } p (p.lead (some 3) ++ "@keyframes " ++ rule) q :=
    eq_ok_of_toOption (by decide +kernel)
  rcases keyframes_copies {} p [.literal "fade" none] (some ⟨[step], none⟩) (some 3) alone with
    ⟨e, fails, -⟩ | ⟨written, r, once, copied⟩
  · cases fails.symm.trans plain
  · obtain ⟨text, rfl⟩ := Prod.mk.inj (Except.ok.inj (once.symm.trans plain))
    obtain rfl : written = rule := (String.append_right_inj _).mp text
    exact ⟨alone, plain, copied⟩

end Render

end Stylesheet
