/-!
# Registry of names

The variables, maps and declarations met so far. Once known, a name is known everywhere after it; only the
parameters belong to the callable being rendered.
-/

namespace Stylesheet

structure Registry where
  variableNames : List String := []
  mapNames : List String := []
  paramNames : List String := []
  /-- In the order of their start; a value is missing while it is being rendered. -/
  declarations : List (String × Option String) := []
deriving Repr, DecidableEq

namespace Registry

def addVariable (r : Registry) (name : String) : Registry :=
  { r with variableNames := r.variableNames.insert name }

def knowsVariable (r : Registry) (name : String) : Bool := r.variableNames.contains name

def variableCount (r : Registry) : Nat := r.variableNames.length

def addMap (r : Registry) (name : String) : Registry := { r with mapNames := r.mapNames.insert name }

def knowsMap (r : Registry) (name : String) : Bool := r.mapNames.contains name

def mapCount (r : Registry) : Nat := r.mapNames.length

def setParams (r : Registry) (names : List String) : Registry := { r with paramNames := names }

def clearParams (r : Registry) : Registry := { r with paramNames := [] }

def knowsParam (r : Registry) (name : String) : Bool := r.paramNames.contains name

def nextSlot (r : Registry) : Nat := r.declarations.length

def openDeclaration (r : Registry) (name : String) : Registry :=
  { r with declarations := r.declarations ++ [(name, none)] }

/-- Gives the declaration at `slot` its value; a slot not yet taken changes nothing. -/
def closeDeclaration (r : Registry) (slot : Nat) (value : String) : Registry :=
  { r with declarations := r.declarations.modify slot fun d => (d.1, some value) }

/-- The value of the latest declaration of `name` that has one. -/
def valueOf? (r : Registry) (name : String) : Option String :=
  r.declarations.reverse.findSome? fun d => if d.1 = name then d.2 else none

theorem knowsVariable_addVariable (r : Registry) (name other : String) :
    (r.addVariable name).knowsVariable other = (other == name || r.knowsVariable other) := by
  rw [Bool.eq_iff_iff]
  simp [addVariable, knowsVariable]

theorem knowsMap_addMap (r : Registry) (name other : String) :
    (r.addMap name).knowsMap other = (other == name || r.knowsMap other) := by
  rw [Bool.eq_iff_iff]
  simp [addMap, knowsMap]

@[simp] theorem nextSlot_openDeclaration (r : Registry) (name : String) :
    (r.openDeclaration name).nextSlot = r.nextSlot + 1 := by
  simp [openDeclaration, nextSlot]

@[simp] theorem nextSlot_closeDeclaration (r : Registry) (slot : Nat) (value : String) :
    (r.closeDeclaration slot value).nextSlot = r.nextSlot := by
  simp [closeDeclaration, nextSlot]

theorem closeDeclaration_of_nextSlot_le {r : Registry} {slot : Nat} (h : r.nextSlot ≤ slot)
    (value : String) : r.closeDeclaration slot value = r := by
  simp only [closeDeclaration, List.modify_eq_self h]

theorem valueOf?_openDeclaration (r : Registry) (name other : String) :
    (r.openDeclaration name).valueOf? other = r.valueOf? other := by
  simp [openDeclaration, valueOf?]

end Registry

end Stylesheet
