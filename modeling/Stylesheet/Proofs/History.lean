import Mathlib.Data.Set.Card
import Stylesheet.Proofs.Lookups

/-!
# Registries and their histories

A registry answers for all that was done to it since it was empty, in whatever order that was. A name is known from the
change on that added it, and the parameters are those of the last change that set or cleared them. Values are given to
slots, late, again and again, between other declarations or before anything has taken the slot, and a name has the last
value of the latest of its declarations that were given one since they were opened. What a pass does to its registry is
such a history.
-/

namespace Stylesheet

namespace Registry

inductive Change
  | addVariable (name : String)
  | addMap (name : String)
  | openDeclaration (name : String)
  | closeDeclaration (slot : Nat) (value : String)
  | setParams (names : List String)
  | clearParams
deriving DecidableEq

namespace Change

def apply (r : Registry) : Change → Registry
  | addVariable name => r.addVariable name
  | addMap name => r.addMap name
  | openDeclaration name => r.openDeclaration name
  | closeDeclaration slot value => r.closeDeclaration slot value
  | setParams names => r.setParams names
  | clearParams => r.clearParams

/-- What the change answers with: an opening tells the slot that it takes. -/
def slot? (r : Registry) : Change → Option Nat
  | openDeclaration _ => some r.nextSlot
  | _ => none

def opens : Change → Bool
  | openDeclaration _ => true
  | _ => false

/-- The value that the change gives to the declaration at `slot`. -/
def given? (slot : Nat) : Change → Option String
  | closeDeclaration taken value => if taken = slot then some value else none
  | _ => none

def setsParams : Change → Bool
  | setParams _ | clearParams => true
  | _ => false

end Change

/-- The registry after a history, whose oldest change comes first. -/
def run (r : Registry) (h : List Change) : Registry := h.foldl Change.apply r

def openings (h : List Change) : Nat := h.countP Change.opens

/-- In the history, the declaration that took `slot` was opened under `name`, and `value` is the last that it was given
since. -/
def Declares (h : List Change) (slot : Nat) (name value : String) : Prop :=
  ∃ before since, h = before ++ .openDeclaration name :: since ∧ openings before = slot ∧
    (since.filterMap (Change.given? slot)).getLast? = some value

@[simp] theorem run_nil (r : Registry) : r.run [] = r := rfl

@[simp] theorem run_cons (r : Registry) (c : Change) (h : List Change) : r.run (c :: h) = (c.apply r).run h := rfl

private theorem run_append (r : Registry) (h h' : List Change) : r.run (h ++ h') = (r.run h).run h' := List.foldl_append

private theorem run_snoc (r : Registry) (h : List Change) (c : Change) :
    r.run (h ++ [c]) = c.apply (r.run h) := run_append ..

@[simp] theorem openings_snoc (h : List Change) (c : Change) : openings (h ++ [c]) = openings h + c.opens.toNat := by
  cases hc : c.opens <;> simp [openings, hc]

variable {r : Registry} {h : List Change} {slot : Nat} {name value : String}

/-- The changes of the kind `add` put their names into a list that starts empty, and no other change alters it. -/
structure Collects (names : Registry → List String) (add : String → Change) : Prop where
  injective : Function.Injective add
  fresh : names {} = []
  added : ∀ r name, names ((add name).apply r) = (names r).insert name
  kept : ∀ r c, (∀ name, c ≠ add name) → names (c.apply r) = names r

private theorem collects_variables : Collects variableNames .addVariable where
  injective _ _ := Change.addVariable.inj
  fresh := rfl
  added _ _ := rfl
  kept r c other := by
    cases c with
    | addVariable name => exact absurd rfl (other name)
    | _ => rfl

private theorem collects_maps : Collects mapNames .addMap where
  injective _ _ := Change.addMap.inj
  fresh := rfl
  added _ _ := rfl
  kept r c other := by
    cases c with
    | addMap name => exact absurd rfl (other name)
    | _ => rfl

namespace Collects

variable {names : Registry → List String} {add : String → Change}

private theorem apply_cases (collects : Collects names add) (r : Registry) (c : Change) :
    (∃ other, c = add other ∧ names (c.apply r) = (names r).insert other) ∨
      (∀ other, c ≠ add other) ∧ names (c.apply r) = names r := by
  by_cases adds : ∃ other, c = add other
  · obtain ⟨other, rfl⟩ := adds
    exact .inl ⟨other, rfl, collects.added r other⟩
  · rw [not_exists] at adds
    exact .inr ⟨adds, collects.kept r c adds⟩

private theorem mem_run (collects : Collects names add) (h : List Change) (name : String) :
    name ∈ names (run {} h) ↔ add name ∈ h := by
  induction h using List.reverseRecOn with
  | nil => simp [collects.fresh]
  | append_singleton h c ih =>
    rw [run_snoc, List.mem_append, List.mem_singleton]
    obtain ⟨other, rfl, inserted⟩ | ⟨otherwise, kept⟩ := collects.apply_cases (run {} h) c
    · rw [inserted, List.mem_insert_iff, ih, collects.injective.eq_iff, or_comm]
    · rw [kept, ih, or_iff_left (Ne.symm (otherwise name))]

private theorem nodup_run (collects : Collects names add) (h : List Change) : (names (run {} h)).Nodup := by
  induction h using List.reverseRecOn with
  | nil => simp [collects.fresh]
  | append_singleton h c ih =>
    rw [run_snoc]
    obtain ⟨other, -, inserted⟩ | ⟨-, kept⟩ := collects.apply_cases (run {} h) c
    · rw [inserted]
      exact ih.insert
    · rwa [kept]

private theorem encard_run (collects : Collects names add) (h : List Change) :
    {name | add name ∈ h}.encard = (names (run {} h)).length := by
  have listed : {name | add name ∈ h} = ((names (run {} h)).toFinset : Set String) := by
    ext name
    simp [collects.mem_run]
  rw [listed, Set.encard_coe_eq_coe_finsetCard, List.toFinset_card_of_nodup (collects.nodup_run h)]

end Collects

private theorem knowsParam_run (h : List Change) (name : String) : (run {} h).knowsParam name ↔
    ∃ names, (h.filter Change.setsParams).getLast? = some (.setParams names) ∧ name ∈ names := by
  induction h using List.reverseRecOn with
  | nil => simp [knowsParam]
  | append_singleton h c ih =>
    rw [run_snoc, List.filter_append, List.getLast?_append]
    cases c with
    | setParams names => simp [Change.apply, knowsParam, setParams, Change.setsParams]
    | clearParams => simp [Change.apply, knowsParam, clearParams, Change.setsParams]
    | _ => exact ih

private theorem nextSlot_run (h : List Change) : (run {} h).nextSlot = openings h := by
  induction h using List.reverseRecOn with
  | nil => rfl
  | append_singleton h c ih =>
    rw [run_snoc, openings_snoc, ← ih]
    cases c with
    | openDeclaration name => exact nextSlot_openDeclaration ..
    | closeDeclaration slot value => exact nextSlot_closeDeclaration ..
    | _ => rfl

private theorem exists_opening (taken : slot < openings h) :
    ∃ before name since, h = before ++ .openDeclaration name :: since ∧ openings before = slot := by
  induction h using List.reverseRecOn with
  | nil => exact absurd taken (Nat.not_lt_zero slot)
  | append_singleton h c ih =>
    by_cases earlier : slot < openings h
    · obtain ⟨before, name, since, rfl, place⟩ := ih earlier
      exact ⟨before, name, since ++ [c], by simp, place⟩
    · rw [openings_snoc] at taken
      cases c with
      | openDeclaration name =>
        have last : openings h = slot := by
          simp only [Change.opens, Bool.toNat_true] at taken
          omega
        exact ⟨h, name, [], rfl, last⟩
      | _ => exact absurd taken earlier

private theorem getElem?_apply {before : Option String} (taken : r.declarations[slot]? = some (name, before))
    (c : Change) :
    (c.apply r).declarations[slot]? = some (name, (c.given? slot).or before) := by
  cases c with
  | openDeclaration other =>
    obtain ⟨bound, -⟩ := List.getElem?_eq_some_iff.1 taken
    simp [Change.apply, openDeclaration, Change.given?, List.getElem?_append_left bound, taken]
  | closeDeclaration other text =>
    by_cases same : other = slot <;> simp [Change.apply, closeDeclaration, Change.given?, taken, same]
  | _ => exact taken

private theorem getElem?_run {before : Option String} (taken : r.declarations[slot]? = some (name, before))
    (h : List Change) :
    (r.run h).declarations[slot]? = some (name, (h.filterMap (Change.given? slot)).getLast?.or before) := by
  induction h using List.reverseRecOn with
  | nil => simpa using taken
  | append_singleton h c ih =>
    rw [run_snoc, getElem?_apply ih c, List.filterMap_append, List.getLast?_append, Option.or_assoc]
    cases hc : c.given? slot <;> simp [hc]

private theorem getElem?_opening (before since : List Change) (name : String) :
    (run {} (before ++ .openDeclaration name :: since)).declarations[openings before]? =
      some (name, (since.filterMap (Change.given? (openings before))).getLast?) := by
  have taken : ((run {} before).openDeclaration name).declarations[openings before]? = some (name, none) := by
    rw [← nextSlot_run]
    simp [openDeclaration, nextSlot]
  rw [run_append, run_cons, Change.apply, getElem?_run taken, Option.or_none]

/-- What a history declares is what the registry holds after it. -/
theorem declares_iff :
    Declares h slot name value ↔ (run {} h).declarations[slot]? = some (name, some value) := by
  constructor
  · rintro ⟨before, since, rfl, rfl, last⟩
    rw [getElem?_opening, last]
  · intro found
    -- As many slots are taken as there are openings, so one of these took this slot.
    obtain ⟨bound, -⟩ := List.getElem?_eq_some_iff.1 found
    have taken : slot < openings h := by rwa [← nextSlot_run]
    obtain ⟨before, other, since, rfl, rfl⟩ := exists_opening taken
    rw [getElem?_opening] at found
    obtain ⟨rfl, last⟩ := Prod.mk.inj (Option.some.inj found)
    exact ⟨before, since, rfl, rfl, last⟩

private theorem valueOf?_eq_none_iff (r : Registry) (name : String) :
    r.valueOf? name = none ↔ ∀ (slot : Nat) (value : String), r.declarations[slot]? ≠ some (name, some value) := by
  rw [valueOf?, List.findSome?_eq_none_iff]
  constructor
  · intro unvalued slot value found
    have listed := List.mem_reverse.2 (List.mem_of_getElem? found)
    simpa using unvalued _ listed
  · rintro unvalued ⟨declared, value⟩ listed
    obtain ⟨slot, found⟩ := List.getElem?_of_mem (List.mem_reverse.1 listed)
    by_cases same : declared = name
    · subst same
      cases value with
      | none => simp
      | some value => exact absurd found (unvalued slot value)
    · simp [same]

private theorem exists_latest (found : r.valueOf? name = some value) :
    ∃ slot, r.declarations[slot]? = some (name, some value) ∧
      ∀ (other : Nat) (text : String), r.declarations[other]? = some (name, some text) → other ≤ slot := by
  rw [valueOf?, List.findSome?_eq_some_iff] at found
  -- The search starts at the end, so the declarations that it passes over are those behind the one it stops at.
  obtain ⟨later, ⟨declared, given⟩, earlier, reversed, here, passed⟩ := found
  obtain ⟨rfl, rfl⟩ : declared = name ∧ given = some value := by simpa using here
  have split : r.declarations = earlier.reverse ++ (declared, some value) :: later.reverse := by
    rw [← List.reverse_reverse r.declarations, reversed]
    simp
  refine ⟨earlier.length, by simp [split], fun other text listed => ?_⟩
  by_contra behind
  have bound : (earlier.reverse ++ [(declared, some value)]).length ≤ other := by
    rw [List.length_append, List.length_reverse, List.length_singleton]
    omega
  rw [split, List.append_cons, List.getElem?_append_right bound] at listed
  have among : (declared, some text) ∈ later := List.mem_reverse.1 (List.mem_of_getElem? listed)
  simpa using passed _ among

/-- A look-up finds the value of the last slot that has one for the name. -/
theorem valueOf?_eq_some_iff (r : Registry) (name value : String) : r.valueOf? name = some value ↔
    ∃ slot, r.declarations[slot]? = some (name, some value) ∧
      ∀ (other : Nat) (text : String), r.declarations[other]? = some (name, some text) → other ≤ slot := by
  refine ⟨exists_latest, ?_⟩
  rintro ⟨slot, listed, last⟩
  cases found : r.valueOf? name with
  | none => exact absurd listed ((valueOf?_eq_none_iff r name).1 found slot value)
  | some other =>
    obtain ⟨place, there, latest⟩ := exists_latest found
    obtain rfl : place = slot := Nat.le_antisymm (last place other there) (latest slot value listed)
    simpa [listed, eq_comm] using there

/-- After any history that starts from nothing, names are known as variables and as maps if and only if they were added
as such, and counted once each. A name is one of the parameters if and only if the last change of these set it. An
opening is told how many came before it, and a value for a slot that none of them has taken is lost. A look-up finds
the last value given to the latest declaration of the name that was given one since it was opened, and nothing if there
is none. -/
theorem answers_of_history (h : List Change) :
    (∀ name, (run {} h).knowsVariable name ↔ .addVariable name ∈ h) ∧
    (∀ name, (run {} h).knowsMap name ↔ .addMap name ∈ h) ∧
    {name | .addVariable name ∈ h}.encard = (run {} h).variableCount ∧
    {name | .addMap name ∈ h}.encard = (run {} h).mapCount ∧
    (∀ name, (run {} h).knowsParam name ↔
      ∃ names, (h.filter Change.setsParams).getLast? = some (.setParams names) ∧ name ∈ names) ∧
    (∀ name, Change.slot? (run {} h) (.openDeclaration name) = some (openings h)) ∧
    (∀ slot value, openings h ≤ slot → run {} (h ++ [.closeDeclaration slot value]) = run {} h) ∧
    (∀ name value, (run {} h).valueOf? name = some value ↔
      ∃ slot, Declares h slot name value ∧ ∀ other text, Declares h other name text → other ≤ slot) ∧
    ∀ name, (run {} h).valueOf? name = none ↔ ∀ slot value, ¬ Declares h slot name value := by
  refine ⟨fun name => ?_, fun name => ?_, collects_variables.encard_run h, collects_maps.encard_run h, knowsParam_run h,
    fun name => ?_, fun slot value untaken => ?_, fun name value => ?_, fun name => ?_⟩
  · rw [knowsVariable, List.contains_iff_mem, collects_variables.mem_run]
  · rw [knowsMap, List.contains_iff_mem, collects_maps.mem_run]
  · rw [Change.slot?, nextSlot_run]
  · rw [run_snoc]
    exact closeDeclaration_of_nextSlot_le (by rwa [nextSlot_run]) value
  · simp only [valueOf?_eq_some_iff, declares_iff]
  · simp only [valueOf?_eq_none_iff, declares_iff, ne_eq]

/-- The values of two declarations come in the wrong order, the third one has none yet, and two values are lost: one
comes before the slot is taken, and the other is for no slot. -/
example :
    let r := run {} [.closeDeclaration 1 "lost", .openDeclaration "w", .openDeclaration "w", .closeDeclaration 1 "2px",
      .setParams ["n"], .openDeclaration "w", .closeDeclaration 0 "1px", .closeDeclaration 7 "lost"]
    r.valueOf? "w" = some "2px" ∧ r.nextSlot = 3 ∧ r.knowsParam "n" := by
  decide +kernel

end Registry

namespace Pass

variable {p q : Pass}

private theorem Moves.history (moved : p.Moves q) : ∃ h, q.registry = p.registry.run h := by
  cases moved with
  | go => exact ⟨[], rfl⟩
  | addVariable name => exact ⟨[.addVariable name], rfl⟩
  | addMap name => exact ⟨[.addMap name], rfl⟩
  | openDeclaration name => exact ⟨[.openDeclaration name], rfl⟩
  | closeDeclaration slot value => exact ⟨[.closeDeclaration slot value], rfl⟩
  | setParams names => exact ⟨[.setParams names], rfl⟩

/-- At any moment of what is rendered from a pass on, the registry is what some history has made of that of the pass. -/
theorem Later.history (later : p.Later q) : ∃ h, q.registry = p.registry.run h := by
  induction later with
  | refl => exact ⟨[], rfl⟩
  | tail _ last ih =>
    obtain ⟨earlier, reached⟩ := ih
    obtain ⟨h, moved⟩ := last.history
    exact ⟨earlier ++ h, by rw [moved, reached, Registry.run_append]⟩

end Pass

end Stylesheet
