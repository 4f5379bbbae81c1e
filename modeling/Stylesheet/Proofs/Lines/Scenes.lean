import Stylesheet.Proofs.Lines.Alike
import Stylesheet.Tree.Shape

/-!
# Where the keyword is looked for

The keyword of a return is looked for in the texts of functions, and what a declaration holds can be looked up there.
How much two texts have to be alike depends on where in the tree they are written.
-/

namespace Stylesheet

open Text

/-- The keyword that is looked for in the bodies of functions. -/
def returnKeyword : List Char := "@return".toList

/-- Where the keyword can be looked for: nowhere, in the values of declarations, which can be looked up in functions,
or in all texts. -/
inductive Search
  | nowhere
  | values
  | everywhere
  deriving DecidableEq

namespace Search

/-- The word that is looked for in the texts. -/
def word : Search → List Char
  | everywhere => returnKeyword
  | nowhere | values => []

/-- The word that is looked for in the values of declarations. -/
def valueWord : Search → List Char
  | nowhere => []
  | values | everywhere => returnKeyword

def inValue : Search → Search
  | nowhere => nowhere
  | values | everywhere => everywhere

private theorem word_inValue (k : Search) : k.inValue.word = k.valueWord := by cases k <;> rfl

theorem valueWord_inValue (k : Search) : k.inValue.valueWord = k.valueWord := by cases k <;> rfl

end Search

/-- What has to be allowed for at a place of a tree: that its rule sets are steps of keyframes, that its blocks
return values, and that the keyword is looked for. -/
structure Scene where
  steps : Prop
  returns : Prop
  search : Search
  searched : returns → search = .everywhere

namespace Scene

variable (κ : Scene)

def word : List Char := κ.search.word

def inValue : Scene where
  steps := κ.steps
  returns := κ.returns
  search := κ.search.inValue
  searched := by
    intro h
    rw [κ.searched h]
    rfl

def inKeyframes : Scene := { κ with steps := True }

def inCallable : DefinitionKind → Scene
  | .mixin => κ
  | .function => { steps := κ.steps, returns := True, search := .everywhere, searched := fun _ => rfl }

variable {κ} {kind : DefinitionKind}

theorem word_of_searched (h : κ.search = .everywhere) : κ.word = returnKeyword := by
  rw [word, h]
  rfl

private theorem word_of_not_searched (h : κ.search ≠ .everywhere) : κ.word = [] := by
  cases hs : κ.search with
  | everywhere => exact absurd hs h
  | nowhere | values => rw [word, hs]; rfl

theorem steps_inCallable : (κ.inCallable kind).steps ↔ κ.steps := by cases kind <;> rfl

theorem returns_inCallable (h : kind == .function) : (κ.inCallable kind).returns := by
  cases kind with
  | mixin => cases h
  | function => trivial

theorem search_inValue_ne : κ.inValue.search ≠ .nowhere ↔ κ.search ≠ .nowhere := by
  rcases κ with ⟨_, _, _ | _ | _, _⟩ <;> simp [inValue, Search.inValue]

theorem search_ne_of_inValue (h : κ.inValue.search = .everywhere) : κ.search ≠ .nowhere :=
  search_inValue_ne.1 (by simp [h])

/-- Where a function is defined, look-ups have to be allowed for before it. -/
theorem valueWord_inCallable (h : kind = .function → κ.search ≠ .nowhere) :
    (κ.inCallable kind).search.valueWord = κ.search.valueWord := by
  cases kind with
  | mixin => rfl
  | function =>
    cases hs : κ.search with
    | nowhere => exact absurd hs (h rfl)
    | values | everywhere => rfl

end Scene

/-- Texts that differ in white space only, wherever they come to stand. -/
abbrev Twin (κ : Scene) : String → String → Prop := Tight κ.word

abbrev Twins (κ : Scene) : List String → List String → Prop := AllTight κ.word

variable {κ : Scene} {s t : String}

private theorem twin_of_tight (h : Tight returnKeyword s t) : Twin κ s t := by
  by_cases hk : κ.search = .everywhere
  · rw [Twin, Scene.word_of_searched hk]
    exact h
  · rw [Twin, Scene.word_of_not_searched hk]
    exact h.empty

theorem twin_refl (h : Clear returnKeyword s.toList) : Twin κ s s := twin_of_tight (tight_refl h)

/-- What holds where the keyword is looked for is nothing to ask elsewhere. -/
theorem twin_refl_of_searched (h : κ.search = .everywhere → Clear returnKeyword s.toList) : Twin κ s s := by
  by_cases hk : κ.search = .everywhere
  · exact twin_refl (h hk)
  · rw [Twin, Scene.word_of_not_searched hk]
    exact tight_refl (clear_empty _)

/-- The values of declarations are at least as much alike as the texts around them. -/
theorem twin_of_valueWord (h : Tight κ.search.valueWord s t) : Twin κ s t := by
  rcases κ with ⟨_, _, _ | _ | _, _⟩
  · exact h
  · exact h.empty
  · exact h

theorem tight_of_inValue (h : Twin κ.inValue s t) : Tight κ.search.valueWord s t := by
  rwa [Twin, Scene.word, Scene.inValue, Search.word_inValue] at h

theorem twin_of_inValue (h : Twin κ.inValue s t) : Twin κ s t := twin_of_valueWord (tight_of_inValue h)

theorem twin_of_inCallable {kind : DefinitionKind} (h : Twin (κ.inCallable kind) s t) : Twin κ s t := by
  cases kind with
  | mixin => exact h
  | function => exact twin_of_tight h

end Stylesheet
