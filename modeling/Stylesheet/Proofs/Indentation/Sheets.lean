import Stylesheet.Proofs.Indentation.Trees

/-!
# Sheets indented by their nesting

A sheet of statements on lines of their own has all the parts it needs, and its output is read from the first line to
the last.
-/

namespace Stylesheet

open Text Rendering Render

mutual

theorem Node.IsAssigned.sufficient (n : Node) (h : n.IsAssigned) : n.Every Node.Sufficient := by
  match n with
  | .expression e => exact (every_sufficient_iff _).2 ⟨rfl, assigned_sufficient e.operands h⟩
  | .mapLiteral es _ => exact (every_sufficient_iff _).2 ⟨rfl, entries_sufficient es h⟩
  | .null | .literal .. | .number .. | .quoted _ | .boolean _ | .color _ | .identifier _ | .binary .. | .unary ..
  | .queryList _ | .query .. | .feature .. | .arguments _ | .block _ | .selector .. | .ruleSet .. | .property ..
  | .call .. | .callable .. | .returned .. | .conditional .. | .loop .. | .keyframes .. | .media .. | .supports ..
  | .xmlNamespace .. | .charset .. | .importSheet .. | .extend .. | .atRule .. | .comment _ | .member .. =>
    exact Node.Values.sufficient h
termination_by structural n

private theorem assigned_sufficient (ns : List Node) (h : AreAssigned ns) : EveryIn Node.Sufficient ns := by
  match ns with
  | [] => exact everyIn_nil
  | n :: ns => exact (everyIn_cons _ _).2 ⟨Node.IsAssigned.sufficient n h.1, assigned_sufficient ns h.2⟩
termination_by structural ns

private theorem entries_sufficient (es : List (String × Node)) (h : AreEntries es) :
    EveryIn Node.Sufficient (es.map (·.2)) := by
  match es with
  | [] => exact everyIn_nil
  | (_, n) :: es => exact (everyIn_cons _ _).2 ⟨Node.IsAssigned.sufficient n h.2.1, entries_sufficient es h.2.2⟩
termination_by structural es

end

theorem Node.IsRuleHead.sufficient {inKeyframes : Bool} {rule : Option Nat} {n : Node}
    (h : n.IsRuleHead inKeyframes rule) : n.Every Node.Sufficient := by
  cases n with
  | selector => exact (every_sufficient_iff _).2 ⟨rfl, h.2.1.pieces.sufficient⟩
  | literal => exact (every_sufficient_iff _).2 ⟨rfl, everyIn_nil⟩
  | _ => exact h.elim

theorem Node.IsExtended.sufficient {n : Node} (h : n.IsExtended) : n.Every Node.Sufficient := by
  cases n with
  | selector => exact (every_sufficient_iff _).2 ⟨rfl, EveryIn.sufficient h⟩
  | _ => exact Node.Values.sufficient h

theorem Expression.IsDeclared.sufficient {e : Expression Node} (h : e.IsDeclared) :
    EveryIn Node.Sufficient e.operands := by
  rcases h with simple | ⟨id, value, operands, bound, -, assigned⟩
  · exact simple.sufficient
  · rw [operands, everyIn_cons, every_sufficient_iff]
    refine ⟨⟨rfl, ?_⟩, everyIn_nil⟩
    have expression : (Node.expression value).Every Node.Sufficient :=
      (every_sufficient_iff _).2 ⟨rfl, assigned_sufficient value.operands assigned⟩
    simpa [bound] using expression

private theorem keyframes_not_deficient {segments : List Node} {b : Option (Body Node)} {line : Option Nat}
    (h : BodyIndents true b) : (Node.keyframes segments b line).isDeficient = false := by
  cases b with
  | none => exact h.elim
  | some b =>
    obtain ⟨ns, l⟩ := b
    cases ns with
    | nil => rfl
    | cons n ns =>
      have first : n.Indents true := h.1
      cases n with
      | expression e => exact first.elim
      | _ => rfl

mutual

theorem Node.Indents.sufficient {inKeyframes : Bool} (n : Node) (h : n.Indents inKeyframes) :
    n.Every Node.Sufficient := by
  rw [every_sufficient_iff]
  match n with
  | .identifier id =>
    exact ⟨rfl, fun v hv => Node.IsAssigned.sufficient v (h.2.2 v (by simpa using hv))⟩
  | .property _ _ _ => exact ⟨rfl, (everyIn_append _ _).2 ⟨h.1.pieces.sufficient, h.2.sufficient⟩⟩
  | .ruleSet _ b _ =>
    have ⟨given, hb⟩ := bodyIndents_sufficient b h.2.2
    exact ⟨given, (everyIn_append _ _).2 ⟨fun s hs => (h.2.1 s hs).sufficient, hb⟩⟩
  | .call _ _ none _ => exact ⟨rfl, (everyIn_append _ _).2 ⟨h.2.2.sufficient, everyIn_nil⟩⟩
  | .media _ b _ | .supports _ b _ =>
    have ⟨given, hb⟩ := bodyIndents_sufficient b h.2
    exact ⟨given, (everyIn_cons _ _).2 ⟨Node.Values.sufficient h.1, hb⟩⟩
  | .keyframes _ b _ =>
    have hb := (bodyIndents_sufficient b h.2).2
    exact ⟨keyframes_not_deficient h.2, (everyIn_append _ _).2 ⟨h.1.sufficient, hb⟩⟩
  | .atRule _ _ none _ => exact ⟨rfl, (everyIn_append _ _).2 ⟨h.2.1.sufficient, everyIn_nil⟩⟩
  | .atRule _ _ (some b) _ =>
    have hb := (bodyIndents_sufficient (some b) (h.2.2.resolve_left (by simp))).2
    exact ⟨rfl, (everyIn_append _ _).2 ⟨h.2.1.sufficient, hb⟩⟩
  | .conditional _ b alternatives _ _ =>
    obtain ⟨hc, hb, ha⟩ := h
    have ⟨given, hb⟩ := bodyIndents_sufficient b hb
    have ⟨kinds, ha⟩ := branchesIndent_sufficient alternatives ha
    refine ⟨?_, (everyIn_append _ _).2 ⟨(everyIn_cons _ _).2 ⟨Node.Values.sufficient hc, hb⟩, ha⟩⟩
    simp [given, kinds]
  | .loop _ _ iterable b _ =>
    obtain ⟨-, -, ⟨e, he, operands⟩, hb⟩ := h
    have ⟨given, hb⟩ := bodyIndents_sufficient b hb
    cases he
    exact ⟨by simpa using given, (everyIn_append _ _).2 ⟨operands.sufficient, hb⟩⟩
  | .importSheet _ _ => exact ⟨rfl, EveryIn.sufficient h⟩
  | .extend selectors _ => exact ⟨by simpa using h.1, fun s hs => (h.2 s hs).sufficient⟩
  | .xmlNamespace _ _ _ => exact ⟨rfl, (everyIn_cons _ _).2 ⟨Node.Values.sufficient h.1, everyIn_nil⟩⟩
  | .charset _ _ | .comment _ => exact ⟨rfl, everyIn_nil⟩
  | .null | .literal .. | .number .. | .quoted _ | .boolean _ | .color _ | .expression _ | .arguments _ | .block _
  | .selector .. | .call _ _ (some _) _ | .callable .. | .returned .. | .binary .. | .unary .. | .queryList _
  | .query .. | .feature .. | .member .. | .mapLiteral .. => exact h.elim
termination_by structural n

private theorem allIndent_sufficient {inKeyframes : Bool} (ns : List Node) (h : AllIndent inKeyframes ns) :
    EveryIn Node.Sufficient ns := by
  match ns with
  | [] => exact everyIn_nil
  | n :: ns => exact (everyIn_cons _ _).2 ⟨Node.Indents.sufficient n h.1, allIndent_sufficient ns h.2⟩
termination_by structural ns

private theorem bodyIndents_sufficient {inKeyframes : Bool} (b : Option (Body Node)) (h : BodyIndents inKeyframes b) :
    b.isNone = false ∧ EveryIn Node.Sufficient (statementsOf b) := by
  match b with
  | none => exact h.elim
  | some b => exact ⟨rfl, allIndent_sufficient b.statements h⟩
termination_by structural b

private theorem branchesIndent_sufficient {inKeyframes : Bool} (ns : List Node) (h : BranchesIndent inKeyframes ns) :
    ns.all Node.isAlternative ∧ EveryIn Node.Sufficient ns := by
  match ns with
  | [] => exact ⟨rfl, everyIn_nil⟩
  | n :: ns =>
    cases n with
    | conditional condition b alternatives negated line =>
      obtain ⟨hc, hb, ha, hns⟩ := h
      have ⟨given, hb⟩ := bodyIndents_sufficient b hb
      have ⟨kinds, ha⟩ := branchesIndent_sufficient alternatives ha
      have ⟨others, hns⟩ := branchesIndent_sufficient ns hns
      refine ⟨others, (everyIn_cons _ _).2 ⟨(every_sufficient_iff _).2 ⟨by simp [given, kinds], ?_⟩, hns⟩⟩
      exact (everyIn_append _ _).2 ⟨(everyIn_cons _ _).2 ⟨Node.Values.sufficient hc, hb⟩, ha⟩
    | block b =>
      have ⟨others, hns⟩ := branchesIndent_sufficient ns h.2
      have hb := allIndent_sufficient b.statements h.1
      exact ⟨others, (everyIn_cons _ _).2 ⟨(every_sufficient_iff _).2 ⟨rfl, hb⟩, hns⟩⟩
    | _ => exact h.elim
termination_by structural ns

end

/-- A sheet of statements on lines of their own is converted, and without an indentation of the host each line of the
output is blank or indented by the braces and parentheses open before it. -/
theorem Sheet.convert_indentedByNesting (s : Sheet) (settings : Settings) (host : settings.hostIndent = 0)
    (quote : IsKeyQuote settings.quote) (h : AllIndent false s.statements) :
    ∃ output, s.convert settings = .ok output ∧ IndentedByNesting output.toList := by
  obtain ⟨text, q, hg⟩ :=
    (Render.statements_succeedsIff none s.statements settings.toStyle {}).2 (allIndent_sufficient s.statements h)
  obtain ⟨⟨-, opens⟩, -⟩ := Render.statements_aligns quote none s.statements h Pass.among_start hg
  have reads : ∃ k : Cursor, (Cursor.fresh 0).Reads anyStart text k := by
    rcases opens rfl with rfl | aligned
    · exact ⟨_, Cursor.reads_empty⟩
    · exact ⟨_, aligned.fresh⟩
  obtain ⟨k, reads⟩ := reads
  refine ⟨text ++ "\n", ?_, Cursor.indentedByNesting_of_reads (reads.append Cursor.reads_newline)⟩
  have render : s.render settings.toStyle = .ok (text, q) := hg
  rw [s.convert_unindented host, render]
  rfl

/-- A map of maps, a rule in a branch with an assignment as a value and a comment beside it, and an animation, on lines
that go back and forth. -/
theorem Sheet.convert_indentedByNesting_branches :
    let word (text : String) : Node := .literal text none
    let inner : Node := .mapLiteral [("b", word "1px")] none
    let sizes : Node :=
      .identifier { name := "sizes", value := some (.mapLiteral [("a", inner)] (some 3)), line := some 2 }
    let x : Node := .identifier { name := "x", value := some (.expression ⟨[word "2px"], some 7⟩) }
    let top : Node := .property [word "top"] ⟨[x], none⟩ (some 2)
    let comment : Node := .comment { text := "/* c */", line := some 2 }
    let rule : Node := .ruleSet [.selector [word ".a"] none, .selector [.literal ".b" (some 6)] none]
      (some ⟨[top, comment], none⟩) (some 4)
    let call : Node := .call "mix" [] none none
    let branch : Node := .conditional (word "x") (some ⟨[rule], none⟩) [.block ⟨[call], none⟩] false (some 1)
    let step : Node := .ruleSet [.selector [word "50%"] none] (some ⟨[comment], none⟩) none
    let frames : Node := .keyframes [word "k"] (some ⟨[step], none⟩) (some 8)
    let sheet : Sheet := ⟨[sizes, branch, frames]⟩
    let settings : Settings := { vendorCopies := false }
    let output := "\n$sizes: (\n  'a': (\n    'b': 1px\n  )\n);@if x \x7b\n\n\n  .a,\n\n  .b \x7b\n    $x: 2px;\n" ++
      "    top: $x; /*! c */\n  \x7d\n\x7d @else \x7b\n  @include mix();\n\x7d\n\n\n\n\n@keyframes k \x7b\n" ++
      "  50% \x7b\n    /*! c */\n  \x7d\n\x7d\n"
    settings.hostIndent = 0 ∧ IsKeyQuote settings.quote ∧ AllIndent false sheet.statements ∧
      sheet.convert settings = .ok output ∧ IndentedByNesting output.toList := by
  intro word inner sizes x top comment rule call branch step frames sheet settings output
  have quote : IsKeyQuote settings.quote := ⟨by decide, by decide, by decide, by decide⟩
  have value (text : String) (inert : Inert text) (line : Option Nat) :
      (Node.literal text line).Every (Node.Values Inert) :=
    (Node.every_iff_everyIn _).2 ⟨⟨rfl, by simpa [Node.TextsHold] using inert⟩, everyIn_nil⟩
  have name (text : String) (inert : Inert text) (solid : Solid text) (line : Option Nat) :
      IsName [.literal text line] :=
    ⟨by simpa using value text inert line, by simpa using solid⟩
  have hx : Inert "x" ∧ AreAssigned [word "2px"] := ⟨by decide, value "2px" (by decide) none, trivial⟩
  have htop (inKeyframes : Bool) : top.Indents inKeyframes :=
    ⟨name "top" (by decide) (by decide) none, .inr ⟨_, _, rfl, rfl, hx⟩⟩
  have hc (inKeyframes : Bool) : comment.Indents inKeyframes := ⟨by decide, by decide⟩
  have heads : ∀ s ∈ [Node.selector [word ".a"] none, .selector [.literal ".b" (some 6)] none],
      s.IsRuleHead false (some 4) := by
    simp [Node.IsRuleHead, word, name ".a" (by decide) (by decide) none, name ".b" (by decide) (by decide) (some 6)]
  have hstep : step.Indents true := by
    refine ⟨by simp, ?_, hc true, trivial⟩
    simp [Node.IsRuleHead, word, name "50%" (by decide) (by decide) none, Node.line]
  have hrule : rule.Indents false := ⟨by simp, heads, htop false, hc false, trivial⟩
  have hsizes : sizes.Indents false := by
    refine ⟨rfl, by decide, fun v hv => ?_⟩
    cases hv
    exact ⟨by decide, ⟨by decide, value "1px" (by decide) none, trivial⟩, trivial⟩
  have hbranch : branch.Indents false :=
    ⟨value "x" (by decide) none, ⟨hrule, trivial⟩, ⟨⟨rfl, by decide, everyIn_nil⟩, trivial⟩, trivial⟩
  have hframes : frames.Indents false := ⟨(name "k" (by decide) (by decide) none).pieces, hstep, trivial⟩
  have indent : AllIndent false sheet.statements := ⟨hsizes, hbranch, hframes, trivial⟩
  have converts : sheet.convert settings = .ok output := by
    rw [sheet.convert_unindented rfl]
    exact eq_ok_of_toOption (by decide +kernel)
  obtain ⟨text, same, indented⟩ := sheet.convert_indentedByNesting settings rfl quote indent
  obtain rfl : text = output := Except.ok.inj (same.symm.trans converts)
  exact ⟨rfl, quote, indent, converts, indented⟩

/-- White space for a quote is one space too many before a key, a parenthesis for a quote is closed by no other one, a
semicolon for a quote is taken out before a key that starts with a space, and an empty head leaves the space before its
brace. -/
theorem Sheet.convert_misaligned :
    let word (text : String) : Node := .literal text none
    let map (entries : List (String × Node)) : Node :=
      .identifier { name := "m", value := some (.mapLiteral entries none) }
    let spaced := "$m: (\n   k : v\n);\n"
    let unclosed := "$m: (\n  (k(: v\n);\n"
    let erased := "$m: (\n  ;a;: (\n     k;: v\n  )\n);\n"
    let headless := " \x7b\n  \n\x7d\n"
    (Sheet.convert ⟨[map [("k", word "v")]]⟩ { quote := ' ' } = .ok spaced ∧ ¬ IndentedByNesting spaced.toList) ∧
      (Sheet.convert ⟨[map [("k", word "v")]]⟩ { quote := '(' } = .ok unclosed ∧
        ¬ IndentedByNesting unclosed.toList) ∧
      (Sheet.convert ⟨[map [("a", .mapLiteral [(" k", word "v")] none)]]⟩ { quote := ';' } = .ok erased ∧
        ¬ IndentedByNesting erased.toList) ∧
      Sheet.convert ⟨[.ruleSet [.selector [] none] (some ⟨[], none⟩) none]⟩ {} = .ok headless ∧
        ¬ IndentedByNesting headless.toList := by
  refine ⟨⟨eq_ok_of_toOption (by decide +kernel), fun h => ?_⟩, ⟨eq_ok_of_toOption (by decide +kernel), fun h => ?_⟩,
    ⟨eq_ok_of_toOption (by decide +kernel), fun h => ?_⟩, eq_ok_of_toOption (by decide +kernel), fun h => ?_⟩
  · exact absurd (h "$m: (\n".toList "   k : v".toList "\n);\n".toList rfl (.inr rfl) (by decide) (.inr rfl))
      (by decide)
  · exact absurd (h "$m: (\n  (k(: v\n".toList ");".toList "\n".toList rfl (.inr rfl) (by decide) (.inr rfl))
      (by decide)
  · exact absurd (h "$m: (\n  ;a;: (\n".toList "     k;: v".toList "\n  )\n);\n".toList rfl (.inr rfl) (by decide)
      (.inr rfl)) (by decide)
  · exact absurd (h [] " \x7b".toList "\n  \n\x7d\n".toList rfl (.inl rfl) (by decide) (.inr rfl)) (by decide)

end Stylesheet
