import Stylesheet.Proofs.Returns.Statements

/-!
# What speaks in the body of a function

The text of a node in the body of a function has the keyword just if the node is a return, a list that is not among
values, or something with a block, or if a part of it speaks. A block has something in it that speaks, or else it gets
the keyword itself. Nothing of this depends on the texts of the tree, as long as none of them spells the keyword.
-/

namespace Stylesheet

open Text Rendering

/-- The text has the keyword, or is silent. -/
def Speaks (loud : Bool) (s : String) : Prop := if loud then HasReturn s else Silent s

section Texts

variable {s t : String} {a b : Bool}

private theorem hasReturn_of_infix (h : s.toList <:+: t.toList) (hs : HasReturn s) : HasReturn t :=
  (occursIn_iff _ _).2 (((occursIn_iff _ _).1 hs).trans h)

theorem hasReturn_append : HasReturn s ∨ HasReturn t → HasReturn (s ++ t) := by
  rintro (h | h)
  · exact hasReturn_of_infix (String.toList_append ▸ List.infix_append_left) h
  · exact hasReturn_of_infix (String.toList_append ▸ List.infix_append_right) h

/-- No text is silent and has the keyword. -/
theorem Silent.not_hasReturn (h : Silent s) : ¬HasReturn s := by simp [h.marked.hasReturn_iff]

theorem Speaks.hasReturn_iff (h : Speaks a s) : HasReturn s ↔ a := by
  cases a with
  | true => exact iff_of_true h rfl
  | false => exact iff_of_false (Silent.not_hasReturn h) Bool.false_ne_true

theorem Speaks.append (hs : Speaks a s) (ht : Speaks b t) : Speaks (a || b) (s ++ t) := by
  cases a with
  | true => exact hasReturn_append (.inl hs)
  | false =>
    cases b with
    | true => exact hasReturn_append (.inr ht)
    | false => exact Silent.append hs ht

theorem Silent.speaks (h : Silent s) : Speaks false s := h

theorem Silent.then_speaks (hs : Silent s) (ht : Speaks b t) : Speaks b (s ++ t) := by
  simpa using hs.speaks.append ht

theorem Speaks.then_silent (hs : Speaks a s) (ht : Silent t) : Speaks a (s ++ t) := by
  simpa using hs.append ht.speaks

private theorem keyword_beside {c : Char} {cs ds : List Char} (hc : c ∉ returnKeyword)
    (h : returnKeyword <:+: cs ++ c :: ds) :
    returnKeyword <:+: cs ∨ returnKeyword <:+: ds := by
  have nonempty : returnKeyword ≠ [] := by decide
  have apart : occurrences returnKeyword (cs ++ c :: ds) =
      occurrences returnKeyword (cs ++ [c]) + occurrences returnKeyword ds := by
    rw [← occurrences_append (complete_of_last hc), List.append_assoc, List.singleton_append]
  by_cases first : returnKeyword <:+: cs ++ [c]
  · refine .inl ((List.infix_concat_iff.1 first).resolve_left fun ending => hc ?_)
    rcases List.suffix_concat_iff.1 ending with none | ⟨start, whole, -⟩
    · exact absurd none nonempty
    · simp [whole]
  · refine .inr (by_contra fun rest => ?_)
    rw [(occurrences_eq_zero_iff nonempty).2 first, (occurrences_eq_zero_iff nonempty).2 rest] at apart
    exact (occurrences_eq_zero_iff nonempty).1 apart h

private theorem keyword_before {cs ds : List Char} (hd : ∀ d ∈ ds, d ∉ returnKeyword)
    (h : returnKeyword <:+: cs ++ ds) :
    returnKeyword <:+: cs := by
  cases ds with
  | nil => simpa using h
  | cons d ds =>
    refine (keyword_beside (hd d List.mem_cons_self) h).resolve_right fun rest => ?_
    exact hd '@' (List.mem_cons_of_mem _ (rest.subset (by decide))) (by decide)

private theorem hasReturn_iff_occurs : HasReturn s ↔ returnKeyword <:+: s.toList := occursIn_iff _ _

theorem Speaks.edit {edit : String → String} (silent : Silent s → Silent (edit s))
    (loud : HasReturn s → HasReturn (edit s)) (h : Speaks a s) : Speaks a (edit s) := by
  cases a with
  | true => exact loud h
  | false => exact silent h

theorem Speaks.trimStart (h : Speaks a s) : Speaks a (trimStart s) := by
  refine h.edit Silent.trimStart fun hs => ?_
  have margin := (silent_of_blank (blank_margin s)).marked
  rw [Stylesheet.hasReturn_iff, ← margin_append_trimStart s, String.toList_append, occurrences_append margin.complete,
    margin.count, Nat.zero_add] at hs
  exact Stylesheet.hasReturn_iff.2 hs

theorem Speaks.dropTrailing (h : Speaks a s) : Speaks a (dropTrailing ';' s) := by
  refine h.edit Silent.dropTrailing fun hs => ?_
  obtain ⟨n, split⟩ := dropTrailing_append ';' s
  rw [hasReturn_iff_occurs, split] at hs
  refine hasReturn_iff_occurs.2 (keyword_before (fun d hd => ?_) hs)
  rw [List.eq_of_mem_replicate hd]
  decide

theorem Speaks.eraseFirst (h : Speaks a s) : Speaks a (eraseFirst ';' s) := by
  refine h.edit Silent.eraseFirst fun hs => ?_
  rw [hasReturn_iff_occurs] at hs ⊢
  rw [Text.eraseFirst, String.toList_ofList]
  by_cases hm : ';' ∈ s.toList
  · obtain ⟨cs, ds, -, split, erased⟩ := List.exists_erase_eq hm
    rw [split] at hs
    rw [erased]
    rcases keyword_beside (by decide) hs with before | behind
    · exact before.trans List.infix_append_left
    · exact behind.trans List.infix_append_right
  · rwa [List.erase_of_not_mem hm]

theorem Speaks.removeBlanks (h : Speaks a s) : Speaks a (removeBlanks s) := by
  refine h.edit Silent.removeBlanks fun hs => ?_
  rw [hasReturn_iff_occurs] at hs ⊢
  have solid : returnKeyword.filter (fun c => !isBlank c) = returnKeyword := by decide
  rw [Text.removeBlanks, String.toList_ofList]
  exact solid ▸ hs.filter _

theorem Speaks.outputPath (d : Dialect) (h : Speaks a s) : Speaks a (Render.outputPath d s) := by
  refine h.edit (fun hs => (Render.shows_outputPath d (hs.shows : Shows false 0 s)).silent rfl) fun hs => ?_
  unfold Render.outputPath
  cases hb : Text.before? Render.sheetEnding s with
  | none => exact hs
  | some stem =>
    have split : s.toList = stem.toList ++ '.' :: "styl".toList := by
      rw [append_of_before? hb, String.toList_append]
      rfl
    rw [hasReturn_iff_occurs, split] at hs
    have early := (keyword_beside (by decide) hs).resolve_right (by decide)
    exact hasReturn_append (.inl (hasReturn_iff_occurs.2 early))

end Texts

mutual

/-- Whether the text of a node has the keyword in the body of a function. Among values no list is returned; what has
a block has the keyword in it. -/
def Node.speaks (amongValues : Bool) : Node → Bool
  | .expression e => !amongValues || speaksIn true e.operands
  | .returned .. | .block _ | .ruleSet .. | .callable .. | .conditional .. | .loop .. | .keyframes .. | .media ..
  | .supports .. => true
  | .call _ _ (some _) _ | .atRule _ _ (some _) _ => true
  | .call _ args none _ => speaksIn true args
  | .atRule _ segments none _ => speaksIn amongValues segments
  | .identifier ⟨_, some value, _, _, _⟩ => value.speaks true
  | .arguments args => speaksIn true args
  | .property segments value _ => speaksIn true segments || speaksIn true value.operands
  | .mapLiteral entries _ => speaksInEntries entries
  | .selector ns _ | .queryList ns | .extend ns _ | .query ns none _ | .feature ns none => speaksIn amongValues ns
  | .importSheet path _ => speaksIn amongValues path.operands
  | .query features (some medium) _ => medium.speaks amongValues || speaksIn amongValues features
  | .feature segments (some value) =>
    speaksIn amongValues segments || (!amongValues || speaksIn true value.operands)
  | .binary _ left right | .member left right => left.speaks amongValues || right.speaks amongValues
  | .unary _ operand => operand.speaks amongValues
  | .xmlNamespace value _ _ => value.speaks amongValues
  | _ => false
termination_by structural n => n

def speaksIn (amongValues : Bool) : List Node → Bool
  | [] => false
  | n :: ns => n.speaks amongValues || speaksIn amongValues ns
termination_by structural ns => ns

def speaksInEntries : List (String × Node) → Bool
  | [] => false
  | (_, n) :: es => n.speaks true || speaksInEntries es
termination_by structural es => es

end

theorem speaksInEntries_eq (es : List (String × Node)) : speaksInEntries es = speaksIn true (es.map (·.2)) := by
  induction es with
  | nil => rfl
  | cons e es ih => rw [speaksInEntries, List.map_cons, speaksIn, ih]

def AllSpeak (amongValues : Bool) (ns : List Node) (ts : List String) : Prop :=
  List.Forall₂ (fun n t => Speaks (n.speaks amongValues) t) ns ts

namespace AllSpeak

variable {amongValues : Bool} {ns : List Node} {ts : List String} {s : String}

theorem edit {edit : String → String} (h : AllSpeak amongValues ns ts)
    (kept : ∀ {a : Bool} {t : String}, Speaks a t → Speaks a (edit t)) : AllSpeak amongValues ns (ts.map edit) := by
  induction h with
  | nil => exact .nil
  | cons head _ ih => exact .cons (kept head) ih

theorem intercalate (hs : Silent s) (h : AllSpeak amongValues ns ts) :
    Speaks (speaksIn amongValues ns) (s.intercalate ts) := by
  induction h with
  | nil => exact silent_of_plain (by simp)
  | @cons n t ns ts head rest ih =>
    rw [speaksIn]
    cases rest with
    | nil =>
      rw [String.intercalate_singleton]
      simpa [speaksIn] using head
    | cons next others =>
      rw [String.intercalate_cons_cons]
      exact (head.then_silent hs).append ih

theorem joinSegments (h : AllSpeak amongValues ns ts) :
    Speaks (speaksIn amongValues ns) (Render.joinSegments ns ts) := by
  induction h with
  | nil => exact silent_of_plain (by simp [Render.joinSegments, String.join])
  | @cons n t ns ts head _ ih =>
    rw [Render.joinSegments_cons, speaksIn]
    refine Speaks.append ?_ ih
    split
    · have opening : Silent "#\x7b" := by decide
      exact (opening.then_speaks head).then_silent (by decide)
    · exact head

theorem joinOperands (inValue : Bool) (h : AllSpeak amongValues ns ts) :
    Speaks (speaksIn amongValues ns) (Render.joinOperands inValue ns ts) := by
  have separated (n : Node) : Silent (Render.separator inValue n) := by
    unfold Render.separator
    split <;> decide
  have others {ns : List Node} {ts : List String} (h : AllSpeak amongValues ns ts) : Speaks (speaksIn amongValues ns)
      (String.join ((ns.zip ts).map fun x => Render.separator inValue x.1 ++ x.2)) := by
    induction h with
    | nil => exact silent_of_plain (by simp [String.join])
    | cons head _ ih =>
      rw [List.zip_cons_cons, List.map_cons, String.join_cons, speaksIn]
      exact ((separated _).then_speaks head).append ih
  cases h with
  | nil => exact silent_of_plain (by simp [Render.joinOperands])
  | cons head rest => exact head.append (others rest)

/-- A quoted piece is written as its own text. -/
theorem joinPath (h : AllSpeak amongValues ns ts)
    (plain : ∀ n ∈ ns, ∀ q, n.quotedText? = some q → '@' ∉ q.text.toList) :
    Speaks (speaksIn amongValues ns) (Render.joinPath ns ts) := by
  induction h with
  | nil => exact silent_of_plain (by simp [Render.joinPath, String.join])
  | @cons n t ns ts head rest ih =>
    obtain ⟨hn, hns⟩ := List.forall_mem_cons.1 plain
    rw [Render.joinPath_cons, speaksIn]
    refine Speaks.append ?_ (ih hns)
    cases hq : n.quotedText? with
    | none => exact head
    | some q =>
      have leaf : n.speaks amongValues = false := by
        cases n with
        | quoted q => rfl
        | _ => cases hq
      rw [leaf]
      exact silent_of_plain (hn q hq)

end AllSpeak

namespace Pass

/-- In the body of a function, with declarations whose values are silent. -/
structure InBody (p : Pass) : Prop where
  values : p.registry.Holds Silent
  function : p.inFunction

/-- `q` is in the same places as `p`, and nothing that `p` had is returned or declared otherwise. -/
structure Onward (p q : Pass) : Prop where
  places : q.places = p.places
  returning : q.returning = p.returning
  values : p.registry.Holds Silent → q.registry.Holds Silent

variable {p q r : Pass}

theorem stand_of_places (h : q.places = p.places) : q.stand = p.stand := by
  unfold Pass.stand Pass.inAny
  rw [h]

namespace Onward

theorem refl (p : Pass) : p.Onward p := ⟨rfl, rfl, id⟩

theorem trans (h : p.Onward q) (h' : q.Onward r) : p.Onward r :=
  ⟨h'.places.trans h.places, h'.returning.trans h.returning, fun hp => h'.values (h.values hp)⟩

theorem stand (h : p.Onward q) : q.stand = p.stand := stand_of_places h.places

theorem inBody (h : p.Onward q) (hp : p.InBody) : q.InBody where
  values := h.values hp.values
  function := by
    have function := hp.function
    unfold Pass.inFunction Pass.inAny at function ⊢
    rwa [h.places, h.returning]

theorem leave {places : List Place} (h : (p.enter places).Onward r) : p.Onward (r.leave p) :=
  ⟨rfl, h.returning, h.values⟩

theorem hangUp {name : String} (h : (p.call name).Onward r) : p.Onward (r.hangUp p) :=
  ⟨rfl, h.returning, h.values⟩

theorem learn (h : p.Onward q) {change : Registry → Registry}
    (kept : q.registry.Holds Silent → (change q.registry).Holds Silent) : p.Onward (q.learn change) :=
  ⟨h.places, h.returning, fun hp => kept (h.values hp)⟩

end Onward

theorem Along.onward (h : p.Along q) : p.Onward q := ⟨h.places, h.returning, h.holds⟩

theorem onward_reach (p : Pass) (line : Option Nat) : p.Onward (p.reach line) := (p.along_reach line).onward

theorem onward_down (p : Pass) : p.Onward p.down := ⟨rfl, rfl, id⟩

theorem onward_up (p : Pass) : p.Onward p.up := ⟨rfl, rfl, id⟩

theorem onward_nextLine (p : Pass) : p.Onward p.nextLine := ⟨rfl, rfl, id⟩

/-- More places around do not lead out of the function. -/
theorem InBody.enter (h : p.InBody) (places : List Place) : (p.enter places).InBody where
  values := h.values
  function := by
    have function := h.function
    simp only [Pass.inFunction, Pass.inAny, Pass.enter, List.any_cons, List.any_nil, Bool.or_false,
      List.contains_eq_mem, List.mem_append, Bool.and_eq_true, decide_eq_true_eq] at function ⊢
    exact ⟨.inr function.1, function.2⟩

/-- A list is returned unless it is among values. -/
theorem InBody.returnsList_eq (h : p.InBody) : p.returnsList = !p.stand.amongValues := by
  have function := h.function
  simp only [Pass.inFunction, Bool.and_eq_true] at function
  simp [Pass.returnsList, function.2, Pass.stand]

theorem amongValues_enter (p : Pass) (place : Place)
    (h : place ∈ [.expression, .arguments, .declarationValue, .mapLiteral, .condition]) :
    (p.enter [place]).stand.amongValues = true :=
  List.any_eq_true.2 ⟨place, h, by simp [Pass.enter]⟩

end Pass

namespace Rendering

variable {α β : Type} {σ : Style} {m : Rendering α} {f : α → Rendering β} {Q : Bool → α → Prop}
  {R : Bool → β → Prop} {p q r : Pass} {a : α} {b : β} {line : Option Nat}

/-- From a pass in the body of a function the rendering goes on in it, and gives something with a property that
depends on whether it is among values. -/
def Tells (σ : Style) (m : Rendering α) (Q : Bool → α → Prop) : Prop :=
  ∀ ⦃p a q⦄, p.InBody → m.Gives σ p a q → p.Onward q ∧ Q p.stand.amongValues a

theorem Tells.mono (hm : m.Tells σ Q) {Q' : Bool → α → Prop} (h : ∀ among a, Q among a → Q' among a) :
    m.Tells σ Q' := by
  intro p a q hp ha
  obtain ⟨onward, hQ⟩ := hm hp ha
  exact ⟨onward, h _ a hQ⟩

theorem tells_pure (h : ∀ among, Q among a) : (pure a : Rendering α).Tells σ Q := by
  intro p b q _ hb
  obtain ⟨rfl, rfl⟩ := gives_pure.1 hb
  exact ⟨.refl q, h _⟩

theorem Tells.bind (hm : m.Tells σ Q) (hf : ∀ a, (f a).Tells σ fun among b => Q among a → R among b) :
    (m >>= f).Tells σ R := by
  intro p b r hp h
  obtain ⟨a, q, ha, hb⟩ := gives_bind.1 h
  obtain ⟨first, hQ⟩ := hm hp ha
  obtain ⟨rest, hR⟩ := hf a (first.inBody hp) hb
  rw [first.stand] at hR
  exact ⟨first.trans rest, hR hQ⟩

/-- A run from a pass that came on from one in the body. -/
theorem Tells.after (hm : m.Tells σ Q) (hp : p.InBody) (onward : p.Onward q) (h : m.Gives σ q a r) :
    p.Onward r ∧ Q p.stand.amongValues a := by
  obtain ⟨rest, hQ⟩ := hm (onward.inBody hp) h
  rw [onward.stand] at hQ
  exact ⟨onward.trans rest, hQ⟩

theorem Tells.reached (hm : m.Tells σ Q) (hp : p.InBody) (h : m.Gives σ (p.reach line) a q) :
    p.Onward q ∧ Q p.stand.amongValues a := hm.after hp (p.onward_reach line) h

/-- Two runs in a row are among values alike. -/
theorem Tells.both {m' : Rendering β} (hm : m.Tells σ Q) (hm' : m'.Tells σ R) (hp : p.InBody) (ha : m.Gives σ p a q)
    (hb : m'.Gives σ q b r) : p.Onward r ∧ Q p.stand.amongValues a ∧ R p.stand.amongValues b := by
  obtain ⟨first, hQ⟩ := hm hp ha
  obtain ⟨rest, hR⟩ := hm'.after hp first hb
  exact ⟨rest, hQ, hR⟩

theorem Tells.inside (hm : m.Tells σ Q) (hp : p.InBody) {place : Place}
    (values : place ∈ [.expression, .arguments, .declarationValue, .mapLiteral, .condition])
    (h : m.Gives σ (p.enter [place]) a r) : p.Onward (r.leave p) ∧ Q true a := by
  obtain ⟨onward, hQ⟩ := hm (hp.enter _) h
  rw [p.amongValues_enter _ values] at hQ
  exact ⟨onward.leave, hQ⟩

end Rendering

end Stylesheet
