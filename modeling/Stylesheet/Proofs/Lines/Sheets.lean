import Stylesheet.Proofs.Lines.Trees

/-!
# Sheets without lines

Sheets that are the same but for their lines are converted to texts that are the same but for white space.
-/

namespace Stylesheet

open Text Rendering

/-- What a conversion ends in, with all white space deleted from the output or from the message. -/
def withoutBlanks : Except Fault String → Except String String
  | .ok text => .ok (removeBlanks text)
  | .error e => .error (removeBlanks e.message)

namespace Sheet

def DefinesFunction (s : Sheet) : Prop := ∃ n ∈ s.statements, ∃ m : Node, m.Occurs n ∧ m.isFunction

/-- No selector stands for itself, and all nodes can stand on any line. In functions, and in values that can be looked
up there, nothing could begin the keyword. -/
structure Steady (d : Dialect) (s : Sheet) : Prop where
  heads : ∀ n ∈ s.statements, n.isSelector = false
  nodes : EveryIn Node.Steady s.statements
  names : s.DefinesFunction → EveryIn (Node.Guarded d) s.statements

private theorem removeBlanks_indented (width : Nat) (text : String) :
    removeBlanks (.ofList (indentLines width text.toList ++ ['\n'])) = removeBlanks text := by
  rw [removeBlanks, String.toList_ofList, List.filter_append, filter_indentLines (by decide) (by decide),
    List.filter_singleton, removeBlanks]
  simp [isBlank, blanks]

private theorem withoutBlanks_render (s : Sheet) (settings : Settings) :
    withoutBlanks (s.convert settings) = withoutBlanks ((s.render settings.toStyle).map Prod.fst) := by
  rw [convert]
  cases s.render settings.toStyle with
  | error e => rfl
  | ok x => exact congrArg Except.ok (removeBlanks_indented settings.hostIndent x.1)

private theorem Steady.exists_ready {d : Dialect} {s : Sheet} (h : s.Steady d) :
    ∃ κ : Scene, EveryIn (Node.Ready d κ) s.statements := by
  have outside {k : Search} (hk : k ≠ .everywhere) (guarded : k ≠ .nowhere → EveryIn (Node.Guarded d) s.statements)
      (function : s.DefinesFunction → k ≠ .nowhere) :
      EveryIn (Node.Ready d ⟨False, False, k, False.elim⟩) s.statements := fun n hn m hm => {
    steady := h.nodes n hn m hm
    heads := False.elim
    spelled := fun he => absurd he hk
    guarded := fun hk => guarded hk n hn m hm
    function := fun hf => function ⟨n, hn, m, hm, hf⟩ }
  by_cases hf : s.DefinesFunction
  · exact ⟨_, outside (k := .values) (by decide) (fun _ => h.names hf) fun _ => by decide⟩
  · exact ⟨_, outside (k := .nowhere) (by decide) (absurd rfl) fun h => absurd h hf⟩

/-- A steady sheet and the one without its lines end the same way. -/
theorem withoutBlanks_unlined (s : Sheet) (settings : Settings) (quote : settings.quote ≠ '@')
    (h : s.Steady settings.dialect) :
    withoutBlanks (s.convert settings) = withoutBlanks (s.unlined.convert settings) := by
  obtain ⟨κ, ready⟩ := h.exists_ready
  have start : Pass.Alike κ {} {} := ⟨rfl, rfl, rfl, Registry.alike_empty, by simp [Pass.inAny], by simp⟩
  have ends : Meet κ (Twin κ) (s.render settings.toStyle) (s.unlined.render settings.toStyle) :=
    Render.statements_inStep (σ := settings.toStyle) quote κ none none s.statements ready h.heads start
  rw [convert, convert]
  generalize s.render settings.toStyle = x, s.unlined.render settings.toStyle = x' at ends ⊢
  cases ends with
  | values value _ =>
    show Except.ok (removeBlanks _) = Except.ok (removeBlanks _)
    rw [removeBlanks_indented, removeBlanks_indented, value.loose.spaced.removeBlanks_eq]
  | faults message => exact congrArg Except.error message

/-- Two sheets that are the same but for their lines are converted to texts, or fail with messages, that are the same
but for white space. -/
theorem withoutBlanks_convert (s s' : Sheet) (settings : Settings) (quote : settings.quote ≠ '@')
    (same : s.unlined = s'.unlined) (h : s.Steady settings.dialect) (h' : s'.Steady settings.dialect) :
    withoutBlanks (s.convert settings) = withoutBlanks (s'.convert settings) := by
  rw [s.withoutBlanks_unlined settings quote h, same, s'.withoutBlanks_unlined settings quote h']

theorem withoutBlanks_convert_spread :
    let next (lines : Nat → Option Nat) : Node :=
      .callable "next" [{ name := "n", line := lines 1 }]
        (some ⟨[.binary "+" (.identifier { name := "n", line := lines 2 }) (.literal "1" (lines 2))], lines 1⟩)
        (lines 1)
    let rule (lines : Nat → Option Nat) : Node :=
      .ruleSet [.selector [.literal ".a" (lines 4)] (lines 4), .selector [.literal ".b" (lines 5)] (lines 5)]
        (some ⟨[.comment ⟨"/* one */", false, lines 6⟩,
          .property [.literal "width" (lines 7)]
            ⟨[.call "next" [.number 4 (some "px")] none (lines 7)], lines 7⟩ (lines 7)], lines 5⟩) (lines 4)
    let sheet (lines : Nat → Option Nat) : Sheet := ⟨[next lines, rule lines]⟩
    let settings : Settings := {}
    let spread := "@function next($n) \x7b\n  @return $n + 1;\n\x7d\n\n" ++
      ".a,\n.b \x7b\n  /*! one */\n  width: next(4px);\n\x7d\n"
    let dense := "@function next($n) \x7b\n  @return $n + 1;\n\x7d" ++
      ".a, .b \x7b\n  /*! one */  width: next(4px);\n\x7d\n"
    settings.quote ≠ '@' ∧ (sheet some).convert settings = .ok spread ∧
      (sheet fun _ => none).convert settings = .ok dense ∧
      withoutBlanks ((sheet some).convert settings) = withoutBlanks ((sheet fun _ => none).convert settings) := by
  intro next rule sheet settings spread dense
  have steady (lines) : (sheet lines).Steady settings.dialect := by
    constructor
    · simp [sheet, next, rule, Node.isSelector]
    · simp [sheet, next, rule, Node.every_iff_everyIn, Node.steady_iff, Node.plain_iff, Node.inner,
        Node.isSelector, Node.segments, Node.isSegment, Node.Regular]
    · intro _
      show EveryIn (Node.Guarded .scss) (sheet lines).statements
      simp [sheet, next, rule, Node.every_iff_everyIn, Node.Guarded, Node.isFunction, Node.Spelled, Dialect.Spells]
  have first : (sheet some).convert settings = .ok spread := by
    rw [convert_unindented _ rfl]
    exact eq_ok_of_toOption (by decide +kernel)
  have second : (sheet fun _ => none).convert settings = .ok dense := by
    rw [convert_unindented _ rfl]
    exact eq_ok_of_toOption (by decide +kernel)
  exact ⟨by decide, first, second, withoutBlanks_convert (sheet some) (sheet fun _ => none) settings (by decide)
    rfl (steady some) (steady fun _ => none)⟩

/-- Lines show in sheets that are plain without being steady. -/
theorem withoutBlanks_convert_unsteady :
    let empty : Option (Body Node) := some {}
    let less : Settings := { dialect := .less }
    let re : Identifier Node := { name := "re" }
    let assigned : Node :=
      .property [.literal "w" none] ⟨[.identifier { re with value := some (.expression {}) }], none⟩ none
    let queried (medium : Option Nat → Node) (line : Option Nat) : List Node :=
      [.media (.query [.literal "x" none] (some (medium line)) none) empty none]
    let called (params : List (Identifier Node)) (before : List Node) (name : String)
        (line : Option Nat) : List Node :=
      [.callable "f" params (some ⟨before ++ [.call name [] none line], none⟩) none]
    let inherited (line : Option Nat) : List Node :=
      let declared : Node := .property [.literal "w" none] ⟨[.identifier re], none⟩ none
      let mixin : Node := .callable "g" [re] (some ⟨[declared], none⟩) none
      let value : Node := .arguments [.expression ⟨[.identifier { name := "w" }], none⟩]
      mixin :: called [] [value] "turn" line
    let stepped (line : Option Nat) : List Node :=
      let head : Node := .block ⟨[.literal "#" none, .call "\x7b-" [] none line], none⟩
      [.keyframes [] (some ⟨[.ruleSet [head] empty none], none⟩) none]
    let looked (line : Option Nat) : List Node :=
      let map : Node := .expression ⟨[.mapLiteral [] none], none⟩
      let value : Node := .member (.identifier { name := "t" }) (.call "return" [] none line)
      [.identifier { name := "t", value := some map }, .callable "f" [] (some ⟨[value], none⟩) none]
    let seen : List (Settings × (Option Nat → List Node)) := [
      ({}, queried fun line => .comment ⟨"", false, line⟩),
      ({}, queried fun line => .arguments [.comment ⟨";", false, line⟩]),
      (less, called [re] [.identifier re] "turn"),
      (less, called [] [.arguments [assigned]] "turn"), (less, inherited),
      ({}, called [] [.arguments [.atRule "ret" [] none none]] "urn"),
      ({ vendorCopies := false }, stepped), ({ quote := '@' }, looked)]
    ∀ p ∈ seen, let s (line : Option Nat) : Sheet := ⟨p.2 line⟩
      (s none).unlined = (s (some 5)).unlined ∧
      (∀ line, (∀ n ∈ (s line).statements, n.isSelector = false) ∧ EveryIn Node.Plain (s line).statements) ∧
      withoutBlanks ((s none).convert p.1) ≠ withoutBlanks ((s (some 5)).convert p.1) := by
  intro empty less re assigned queried called inherited stepped looked seen p hp s
  have same : ∀ q ∈ seen, unlinedAll (q.2 none) = unlinedAll (q.2 (some 5)) := by
    simp [seen, queried, called, inherited, stepped, looked, Node.unlined, unlinedBodyOf]
  have plain : ∀ q ∈ seen, ∀ line, (∀ n ∈ q.2 line, n.isSelector = false) ∧ EveryIn Node.Plain (q.2 line) := by
    simp [seen, queried, called, assigned, inherited, stepped, looked, re, empty, Node.every_iff_everyIn,
      Node.plain_iff, Node.inner, Node.isSelector, Node.segments, Node.isSegment]
  have differ : ∀ q ∈ seen, withoutBlanks (Sheet.convert ⟨q.2 none⟩ q.1) ≠
      withoutBlanks (Sheet.convert ⟨q.2 (some 5)⟩ q.1) := by
    simp only [withoutBlanks_render, seen, List.forall_mem_cons, List.not_mem_nil, false_implies, implies_true,
      and_true]
    refine ⟨?_, ?_, ?_, ?_, ?_, ?_, ?_, ?_⟩ <;> decide +kernel
  exact ⟨congrArg Sheet.mk (same p hp), plain p hp, differ p hp⟩

end Sheet

end Stylesheet
