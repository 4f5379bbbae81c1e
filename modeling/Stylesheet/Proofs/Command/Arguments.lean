import Mathlib.Data.List.Induction
import Mathlib.Data.List.Nodup
import Stylesheet.Command.Invocation

/-!
# Arguments and what they ask for

A command line is accepted just if it spells out one choice of each kind at most, in any order and each in any of its
spellings. The settings are those that the choices name, and the default ones elsewhere.
-/

namespace Stylesheet.Command

def Argument.text : Argument → String
  | stop => "--"
  | long name none => "--" ++ name
  | long name (some value) => "--" ++ name ++ "=" ++ value
  | short name attached => "-" ++ String.singleton name ++ attached
  | plain text => text

private theorem Argument.text_ofText (s : String) : (ofText s).text = s := by
  apply String.toList_inj.1
  rw [ofText]
  split
  · next h => simp [text, h]
  · next rest _ h =>
    have parts := rest.takeWhile_append_dropWhile (p := (· != '='))
    dsimp only
    split
    · next value tail => simp [text, h, ← tail, parts]
    · next other =>
      have none : rest.dropWhile (· != '=') = [] := by
        cases tail : rest.dropWhile (· != '=') with
        | nil => rfl
        | cons c value =>
          have sign := List.head?_dropWhile_not (· != '=') rest
          simp only [tail, List.head?_cons, bne_eq_false_iff_eq] at sign
          exact absurd (sign ▸ tail) (other value)
      rw [none, List.append_nil] at parts
      simp [text, h, parts]
  · next c rest _ _ h => simp [text, h]
  · rfl

private theorem Argument.eq_text {s : String} {a : Argument} (h : ofText s = a) : s = a.text :=
  h ▸ (text_ofText s).symm

/-- What one path, option or flag of a conversion asks for. -/
inductive Choice
  | path (text : String)
  | value (option : ValueOption) (text : String)
  | noVendorCopies
deriving DecidableEq

private def ValueOption.longName : ValueOption → String
  | dialect => "dialect"
  | quote => "quote"
  | hostIndent => "host-indent"
  | output => "output"

private theorem ValueOption.ofLongName?_eq_some_iff {name : String} {option : ValueOption} :
    ofLongName? name = some option ↔ name = option.longName := by
  constructor
  · intro h
    unfold ofLongName? at h
    split at h <;> cases h <;> rfl
  · rintro rfl
    cases option <;> rfl

/-- How choices are written as arguments. The value of an option may stand in the next argument if it does not look like
an option itself. -/
inductive Spells : List Choice → List String → Prop
  | nil : Spells [] []
  | stop (paths : List String) : Spells (paths.map .path) ("--" :: paths)
  | path {text : String} {cs : List Choice} {rest : List String} (plain : Argument.ofText text = .plain text)
      (others : Spells cs rest) : Spells (.path text :: cs) (text :: rest)
  | flag {cs : List Choice} {rest : List String} (others : Spells cs rest) :
      Spells (.noVendorCopies :: cs) ("--no-autoprefix" :: rest)
  | joined (option : ValueOption) (text : String) {cs : List Choice} {rest : List String} (others : Spells cs rest) :
      Spells (.value option text :: cs) (("--" ++ option.longName ++ "=" ++ text) :: rest)
  | apart (option : ValueOption) {text : String} {cs : List Choice} {rest : List String}
      (plain : Argument.ofText text = .plain text) (others : Spells cs rest) :
      Spells (.value option text :: cs) (("--" ++ option.longName) :: text :: rest)
  | shortJoined {attached : String} {cs : List Choice} {rest : List String} (some : attached ≠ "")
      (others : Spells cs rest) :
      Spells (.value .output ((Text.after? "=" attached).getD attached) :: cs) (("-o" ++ attached) :: rest)
  | shortApart {text : String} {cs : List Choice} {rest : List String} (plain : Argument.ofText text = .plain text)
      (others : Spells cs rest) : Spells (.value .output text :: cs) ("-o" :: text :: rest)

private def Given.take? (g : Given) : Choice → Option Given
  | .path text => g.putPath? text
  | .value option text => g.put? option text
  | .noVendorCopies => if g.noVendorCopies then none else some { g with noVendorCopies := true }

private theorem paths?_eq (g : Given) (paths : List String) :
    paths? g paths = (paths.map Choice.path).foldlM Given.take? g := by
  induction paths generalizing g with
  | nil => rfl
  | cons path paths ih =>
    rw [paths?, List.map_cons, List.foldlM_cons]
    exact bind_congr ih

private theorem ofText_joined (option : ValueOption) (text : String) :
    Argument.ofText ("--" ++ option.longName ++ "=" ++ text) = .long option.longName (some text) := by
  cases option <;> simp [Argument.ofText, ValueOption.longName]

private theorem ofText_apart (option : ValueOption) :
    Argument.ofText ("--" ++ option.longName) = .long option.longName none := by
  cases option <;> decide

private theorem ofText_short (attached : String) : Argument.ofText ("-o" ++ attached) = .short 'o' attached := by
  simp [Argument.ofText]

/-- Arguments that spell choices are taken up like these. -/
private theorem Spells.given?_eq {cs : List Choice} {arguments : List String} (h : Spells cs arguments) (g : Given) :
    given? g arguments = cs.foldlM Given.take? g := by
  induction h generalizing g with
  | nil => rfl
  | stop paths => exact paths?_eq g paths
  | path plain _ ih =>
    rw [given?.eq_def, List.foldlM_cons]
    simp only [plain]
    exact bind_congr ih
  | flag _ ih =>
    have form : Argument.ofText "--no-autoprefix" = .long "no-autoprefix" none := by decide
    rw [given?.eq_def, List.foldlM_cons]
    simp only [form, Given.take?]
    split
    · rfl
    · exact ih _
  | joined option text _ ih =>
    rw [given?.eq_def, List.foldlM_cons]
    simp only [ofText_joined, ValueOption.ofLongName?_eq_some_iff.2 rfl]
    exact bind_congr ih
  | apart option plain _ ih =>
    rw [given?.eq_def, List.foldlM_cons]
    have noFlag : option.longName ≠ "no-autoprefix" := by cases option <;> decide
    simp only [ofText_apart, ValueOption.ofLongName?_eq_some_iff.2 rfl, plain]
    exact bind_congr ih
  | shortJoined some _ ih =>
    rw [given?.eq_def, List.foldlM_cons]
    simp only [ofText_short]
    exact bind_congr ih
  | shortApart plain _ ih =>
    have form : Argument.ofText "-o" = .short 'o' "" := by decide
    rw [given?.eq_def, List.foldlM_cons]
    simp only [form, plain]
    exact bind_congr ih

/-- Whatever is taken up spells some choices. -/
private theorem exists_spells {g g' : Given} {arguments : List String} (h : given? g arguments = some g') :
    ∃ cs, Spells cs arguments := by
  fun_induction given? g arguments with
  | case1 => exact ⟨[], .nil⟩
  | case2 g text rest form =>
    obtain rfl := Argument.eq_text form
    exact ⟨_, .stop rest⟩
  | case3 g text rest path form ih =>
    obtain ⟨_, _, h⟩ := Option.bind_eq_some_iff.1 h
    obtain ⟨cs, others⟩ := ih _ h
    obtain rfl := Argument.eq_text form
    exact ⟨_, .path form others⟩
  | case4 => cases h
  | case5 g text rest form _ ih =>
    obtain ⟨cs, others⟩ := ih h
    obtain rfl := Argument.eq_text form
    exact ⟨_, .flag others⟩
  | case6 g text rest name value form ih =>
    obtain ⟨option, named, h⟩ := Option.bind_eq_some_iff.1 h
    obtain ⟨_, _, h⟩ := Option.bind_eq_some_iff.1 h
    obtain ⟨cs, others⟩ := ih _ h
    obtain rfl := Argument.eq_text form
    obtain rfl := ValueOption.ofLongName?_eq_some_iff.1 named
    exact ⟨_, .joined option value others⟩
  | case7 g text name _ form option value rest named plain isPlain ih =>
    obtain ⟨_, _, h⟩ := Option.bind_eq_some_iff.1 h
    obtain ⟨cs, others⟩ := ih _ h
    obtain rfl := Argument.eq_text form
    obtain rfl := Argument.eq_text isPlain
    obtain rfl := ValueOption.ofLongName?_eq_some_iff.1 named
    exact ⟨_, .apart option isPlain others⟩
  | case10 g text form value rest plain isPlain ih =>
    obtain ⟨_, _, h⟩ := Option.bind_eq_some_iff.1 h
    obtain ⟨cs, others⟩ := ih _ h
    obtain rfl := Argument.eq_text form
    obtain rfl := Argument.eq_text isPlain
    exact ⟨_, .shortApart isPlain others⟩
  | case13 g text rest attached some form ih =>
    obtain ⟨_, _, h⟩ := Option.bind_eq_some_iff.1 h
    obtain ⟨cs, others⟩ := ih _ h
    obtain rfl := Argument.eq_text form
    exact ⟨_, .shortJoined some others⟩
  | _ => cases h

/-- The choice without its text; no kind is chosen twice. -/
def Choice.kind : Choice → Choice
  | path _ => path ""
  | value option _ => value option ""
  | noVendorCopies => noVendorCopies

def ValueOption.Takes (text : String) : ValueOption → Prop
  | dialect => (Dialect.ofName? text).isSome
  | quote => (character? text).isSome
  | hostIndent => (natural? text).isSome
  | output => text ≠ ""

def Choice.text : Choice → String
  | path text | value _ text => text
  | noVendorCopies => ""

def textOf (kind : Choice) (cs : List Choice) : Option String := (cs.find? (·.kind = kind)).map Choice.text

/-- Everything that the choices ask for, wherever they stand. -/
def Given.ofChoices (cs : List Choice) : Given where
  path := textOf (.path "") cs
  dialect := (textOf (.value .dialect "") cs).bind Dialect.ofName?
  quote := (textOf (.value .quote "") cs).bind character?
  hostIndent := (textOf (.value .hostIndent "") cs).bind natural?
  output := textOf (.value .output "") cs
  noVendorCopies := (textOf .noVendorCopies cs).isSome

/-- At most one choice of each kind, and texts that their options take. -/
structure Admissible (cs : List Choice) : Prop where
  kinds : (cs.map Choice.kind).Nodup
  texts : ∀ option text, .value option text ∈ cs → option.Takes text

variable {cs : List Choice} {c : Choice} {g : Given}

private theorem textOf_eq_none_iff {kind : Choice} : textOf kind cs = none ↔ kind ∉ cs.map Choice.kind := by
  simp [textOf]

private theorem textOf_concat (kind : Choice) :
    textOf kind (cs ++ [c]) = (textOf kind cs).or (if c.kind = kind then some c.text else none) := by
  rw [textOf, textOf, List.find?_append, Option.map_or]
  by_cases same : c.kind = kind <;> simp [same]

private theorem takes_of_textOf (h : Admissible cs) {option : ValueOption} {text : String}
    (found : textOf (.value option "") cs = some text) : option.Takes text := by
  obtain ⟨c, first, rfl⟩ := Option.map_eq_some_iff.1 found
  have mem := List.mem_of_find?_eq_some first
  have kind : c.kind = .value option "" := by simpa using List.find?_some first
  cases c with
  | value option' text =>
    cases kind
    exact h.texts option text mem
  | _ => cases kind

private theorem admissible_concat_iff : Admissible (cs ++ [c]) ↔
    Admissible cs ∧ c.kind ∉ cs.map Choice.kind ∧ ∀ option text, c = .value option text → option.Takes text := by
  have kinds : ((cs ++ [c]).map Choice.kind).Nodup ↔ (cs.map Choice.kind).Nodup ∧ c.kind ∉ cs.map Choice.kind := by
    rw [List.map_append, List.map_singleton, List.nodup_append_comm, List.singleton_append, List.nodup_cons, and_comm]
  constructor
  · intro h
    obtain ⟨distinct, new⟩ := kinds.1 h.kinds
    exact ⟨⟨distinct, fun option text mem => h.texts option text (List.mem_append_left _ mem)⟩, new,
      fun option text same => h.texts option text (by simp [same])⟩
  · rintro ⟨h, new, takes⟩
    refine ⟨kinds.2 ⟨h.kinds, new⟩, fun option text mem => ?_⟩
    rcases List.mem_append.1 mem with before | last
    · exact h.texts option text before
    · exact takes option text (List.mem_singleton.1 last).symm

/-- A choice is taken up after others if it keeps them admissible. -/
private theorem take?_ofChoices (h : Admissible cs) : (Given.ofChoices cs).take? c = some g ↔
    Admissible (cs ++ [c]) ∧ g = .ofChoices (cs ++ [c]) := by
  rw [admissible_concat_iff]
  cases taken : textOf c.kind cs with
  | some s =>
    have met : c.kind ∈ cs.map Choice.kind := by
      by_contra new
      cases taken.symm.trans (textOf_eq_none_iff.2 new)
    have refused : (Given.ofChoices cs).take? c = none := by
      cases c with
      | path text => simp_all [Given.take?, Given.putPath?, Given.first?, Given.ofChoices, Choice.kind]
      | noVendorCopies => simp_all [Given.take?, Given.ofChoices, Choice.kind]
      | value option text =>
        have takes := takes_of_textOf h taken
        cases option <;>
          simp_all [Given.take?, Given.put?, Given.first?, Given.ofChoices, Choice.kind, ValueOption.Takes]
    simp [refused, met]
  | none =>
    have new := textOf_eq_none_iff.1 taken
    cases c with
    | path text =>
      simp_all [Given.take?, Given.putPath?, Given.first?, Given.ofChoices, Choice.kind, Choice.text, textOf_concat]
      exact eq_comm
    | noVendorCopies =>
      simp_all [Given.take?, Given.ofChoices, Choice.kind, Choice.text, textOf_concat]
      exact eq_comm
    | value option text =>
      cases option
      all_goals simp_all [Given.take?, Given.put?, Given.first?, Given.ofChoices, Choice.kind, Choice.text,
        textOf_concat, ValueOption.Takes]
      case dialect => cases Dialect.ofName? text <;> simp [eq_comm]
      case quote => cases character? text <;> simp [eq_comm]
      case hostIndent => cases natural? text <;> simp [eq_comm]
      case output => by_cases empty : text = "" <;> simp [empty, eq_comm]

/-- Choices are all taken up just if they are admissible. -/
private theorem foldlM_take?_eq_some_iff : cs.foldlM Given.take? {} = some g ↔ Admissible cs ∧ g = .ofChoices cs := by
  induction cs using List.reverseRecOn generalizing g with
  | nil =>
    have empty : Admissible [] := ⟨List.nodup_nil, nofun⟩
    simp [empty, Given.ofChoices, textOf, eq_comm]
  | append_singleton cs c ih =>
    rw [List.foldlM_append, Option.bind_eq_bind, Option.bind_eq_some_iff]
    constructor
    · rintro ⟨before, taken, last⟩
      obtain ⟨h, rfl⟩ := ih.1 taken
      exact (take?_ofChoices h).1 (by simpa using last)
    · rintro ⟨h, rfl⟩
      have before := (admissible_concat_iff.1 h).1
      exact ⟨_, ih.2 ⟨before, rfl⟩, by simpa using (take?_ofChoices before).2 ⟨h, rfl⟩⟩

/-- A command line asks for a conversion just if it spells admissible choices, one of them a path. The settings and the
output are those chosen. -/
theorem ofArguments?_eq_convert_iff {arguments : List String} {path : String} {settings : Settings}
    {output : Option String} :
    Invocation.ofArguments? arguments = some (.convert path settings output) ↔
      ∃ cs rest, arguments = "convert" :: rest ∧ Spells cs rest ∧ Admissible cs ∧
        (Given.ofChoices cs).path = some path ∧ settings = (Given.ofChoices cs).settings ∧
          output = (Given.ofChoices cs).output := by
  constructor
  · intro h
    unfold Invocation.ofArguments? at h
    split at h
    · cases h
    · next first rest =>
      split at h
      case h_4 form =>
        obtain ⟨g, taken, h⟩ := Option.bind_eq_some_iff.1 h
        obtain ⟨path, named, h⟩ := Option.bind_eq_some_iff.1 h
        cases h
        obtain ⟨cs, spells⟩ := exists_spells taken
        obtain ⟨admissible, rfl⟩ := foldlM_take?_eq_some_iff.1 (spells.given?_eq {} ▸ taken)
        obtain rfl := Argument.eq_text form
        exact ⟨cs, rest, rfl, spells, admissible, named, rfl, rfl⟩
      all_goals simp at h
  · rintro ⟨cs, rest, rfl, spells, admissible, named, rfl, rfl⟩
    have form : Argument.ofText "convert" = .plain "convert" := by decide
    have taken : given? {} rest = some (.ofChoices cs) := by
      rw [spells.given?_eq, foldlM_take?_eq_some_iff]
      exact ⟨admissible, rfl⟩
    simp [Invocation.ofArguments?, form, taken, named]

/-- Behind the path of a check only the mark that ends the options may follow. -/
private theorem checked?_some {given path : String} {rest : List String} (h : checked? (some given) rest = some path) :
    given = path ∧ (rest = [] ∨ rest = ["--"]) := by
  cases rest with
  | nil => exact ⟨Option.some.inj h, .inl rfl⟩
  | cons text rest =>
    unfold checked? at h
    split at h
    case h_3 form given =>
      cases given
      obtain rfl := Argument.eq_text form
      cases rest with
      | nil => exact ⟨Option.some.inj h, .inr rfl⟩
      | cons _ _ => cases h
    all_goals simp_all

/-- A check asks for one path, which a mark in front of it or behind it may set off from the options. -/
theorem ofArguments?_eq_check_iff {arguments : List String} {path : String} :
    Invocation.ofArguments? arguments = some (.check path) ↔
      arguments = ["check", "--", path] ∨ Argument.ofText path = .plain path ∧
        (arguments = ["check", path] ∨ arguments = ["check", path, "--"]) := by
  have stop : Argument.ofText "--" = .stop := by decide
  constructor
  · intro h
    unfold Invocation.ofArguments? at h
    split at h
    · cases h
    · next first rest =>
      split at h
      case h_3 form =>
        obtain ⟨found, taken, h⟩ := Option.map_eq_some_iff.1 h
        cases h
        obtain rfl := Argument.eq_text form
        unfold checked? at taken
        split at taken
        · cases taken
        · next text rest =>
          split at taken
          · next p plain _ =>
            obtain rfl := Argument.eq_text plain
            obtain ⟨rfl, rfl | rfl⟩ := checked?_some taken
            · exact .inr ⟨plain, .inl rfl⟩
            · exact .inr ⟨plain, .inr rfl⟩
          · next mark _ =>
            obtain rfl := Argument.eq_text mark
            split at taken <;> cases taken
            exact .inl rfl
          · next given => cases given
          · cases taken
      case h_4 =>
        obtain ⟨_, _, h⟩ := Option.bind_eq_some_iff.1 h
        obtain ⟨_, _, h⟩ := Option.bind_eq_some_iff.1 h
        cases h
      all_goals simp at h
  · have form : Argument.ofText "check" = .plain "check" := by decide
    rintro (rfl | ⟨plain, rfl | rfl⟩)
    · simp [Invocation.ofArguments?, form, checked?, stop]
    · simp [Invocation.ofArguments?, form, checked?, plain]
    · simp [Invocation.ofArguments?, form, checked?, stop, plain]

end Stylesheet.Command
