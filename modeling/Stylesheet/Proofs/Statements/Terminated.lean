import Stylesheet.Proofs.Statements.Rows
import Stylesheet.Proofs.Success

/-!
# Ends of statements

What stands in the body of a function ends with a semicolon or a brace, each statement by itself. Values are no
exception in their blocks, where the block ends the last of them, but are not ended in front of another statement.
-/

namespace Stylesheet

open Text Rendering

private theorem endsWith_append {c : Char} {t : String} (h : endsWith c t) (s : String) : endsWith c (s ++ t) := by
  rw [endsWith, beq_iff_eq] at h ⊢
  rw [String.toList_append, List.getLast?_append, h]
  rfl

private theorem endsWith_trimStart {c : Char} (hc : isBlank c = false) {t : String} (h : endsWith c t) :
    endsWith c (trimStart t) := by
  obtain ⟨cs, hcs⟩ := List.getLast?_eq_some_iff.1 (beq_iff_eq.1 h)
  have last : [c].dropWhile isBlank = [c] := List.dropWhile_cons_of_neg (by simp [hc])
  rw [endsWith, beq_iff_eq, trimStart, String.toList_ofList, hcs, List.dropWhile_append, last]
  split <;> simp

private theorem endsWith_removeBlanks {c : Char} (hc : isBlank c = false) {t : String} (h : endsWith c t) :
    endsWith c (removeBlanks t) := by
  obtain ⟨cs, hcs⟩ := List.getLast?_eq_some_iff.1 (beq_iff_eq.1 h)
  rw [endsWith, beq_iff_eq, removeBlanks, String.toList_ofList, hcs]
  simp [hc]

def Stops (t : String) : Prop := endsWith ';' t ∨ endsWith '\x7d' t

namespace Stops

variable {s t : String}

theorem append (h : Stops t) (s : String) : Stops (s ++ t) :=
  h.imp (endsWith_append · s) (endsWith_append · s)

theorem semicolon (s : String) : Stops (s ++ ";") := append (.inl (by decide)) s

theorem trimStart (h : Stops t) : Stops (Text.trimStart t) :=
  h.imp (endsWith_trimStart (by decide)) (endsWith_trimStart (by decide))

/-- Behind a text that stops there may be others that do. -/
theorem join (h : Stops s) {ts : List String} (others : ∀ t ∈ ts, Stops t) : Stops (s ++ String.join ts) := by
  induction ts generalizing s with
  | nil => simpa using h
  | cons t ts ih =>
    obtain ⟨ht, hts⟩ := List.forall_mem_cons.1 others
    rw [String.join_cons, ← String.append_assoc]
    exact ih (ht.append s) hts

theorem terminated (t : String) : Stops (Render.terminated t) := by
  unfold Render.terminated
  split
  · next h => exact (Bool.or_eq_true_iff.1 h)
  · exact semicolon t

end Stops

/-- What a function body consists of: values, assignments, declarations, returns, branches and loops. -/
def Node.isStep : Node → Bool
  | .expression _ | .property .. | .returned .. | .conditional .. | .loop .. => true
  | .identifier id => id.isBound && !id.value.any Node.isCallable
  | _ => false

namespace Render

variable {σ : Style} {p q : Pass} {t : String} {ts : List String}

private theorem body_closes {b : Body Node} (h : (body b).Gives σ p t q) : endsWith '\x7d' t := by
  obtain ⟨ss, line⟩ := b
  have braced : (block (statements none ss)).Gives σ p t q := h
  obtain ⟨_, _, _, _, -, -, -, rfl⟩ := block_gives braced
  exact endsWith_append (by decide) _

private theorem joinOperands_closes {c : Char} {ns : List Node} (same : ts.length = ns.length)
    (h : ∃ t ∈ ts.getLast?, endsWith c t) (inValue : Bool) : endsWith c (joinOperands inValue ns ts) := by
  have behind : ∀ (ns : List Node) (t : String) (us : List String), us.length = ns.length →
      (∃ u ∈ (t :: us).getLast?, endsWith c u) →
      endsWith c (t ++ String.join ((ns.zip us).map fun x => separator inValue x.1 ++ x.2)) := by
    intro ns
    induction ns with
    | nil =>
      intro t us same h
      obtain rfl := List.length_eq_zero_iff.1 same
      simpa using h
    | cons n ns ih =>
      intro t us same h
      match us, same with
      | u :: us, same =>
        rw [List.zip_cons_cons, List.map_cons, String.join_cons, String.append_assoc, ← String.append_assoc]
        exact endsWith_append (ih u us (Nat.succ.inj same) (by simpa using h)) _
  match ns, ts, same with
  | [], [], _ => simp at h
  | _ :: ns, t :: us, same => exact behind ns t us (Nat.succ.inj same) h

mutual

private theorem node_closes (n : Node) (hands : n.handsBlock) {p q : Pass} {t : String} (h : (node n).Gives σ p t q) :
    endsWith '\x7d' t := by
  match n with
  | .call name args none _ => cases hands
  | .call name args (some b) line =>
    have run : (call name line (each args) (some (body b))).Gives σ p t q := h
    obtain ⟨_, _, -, ⟨none, -⟩ | ⟨_, content, eq, hb, rfl⟩⟩ := call_gives run
    · cases none
    · cases eq
      exact endsWith_append (body_closes hb) _
  | .expression e =>
    obtain ⟨before, _, ts, _, -, hts, -, rfl⟩ := expression_gives h
    obtain ⟨same, last⟩ := each_closes e.operands hands hts
    have joined := joinOperands_closes same last (p.inAny [.declarationValue])
    refine endsWith_append ?_ before
    split
    · exact endsWith_removeBlanks (by decide) joined
    · exact joined
  | .null | .literal .. | .identifier _ | .number .. | .quoted _ | .boolean _ | .color _ | .arguments _ | .block _
  | .selector .. | .ruleSet .. | .property .. | .callable .. | .returned .. | .conditional .. | .loop .. | .binary ..
  | .unary .. | .keyframes .. | .media .. | .queryList _ | .query .. | .feature .. | .supports .. | .xmlNamespace ..
  | .charset .. | .importSheet .. | .extend .. | .atRule .. | .comment _ | .member .. | .mapLiteral .. => cases hands
termination_by structural n

private theorem each_closes (ns : List Node) (hands : lastHandsBlock ns) {p q : Pass} {ts : List String}
    (h : (each ns).Gives σ p ts q) : ts.length = ns.length ∧ ∃ t ∈ ts.getLast?, endsWith '\x7d' t := by
  match ns with
  | [] => cases hands
  | [n] =>
    simp only [eachWith, gives_bind, gives_pure] at h
    obtain ⟨t, _, ht, _, _, ⟨rfl, rfl⟩, rfl, rfl⟩ := h
    exact ⟨rfl, t, rfl, node_closes n hands ht⟩
  | n :: m :: ns =>
    have run : (do return (← node n) :: (← each (m :: ns))).Gives σ p ts q := h
    simp only [gives_bind, gives_pure] at run
    obtain ⟨t, r, -, us, _, hus, rfl, rfl⟩ := run
    obtain ⟨same, last⟩ := each_closes (m :: ns) hands hus
    cases us with
    | nil => cases same
    | cons u us => exact ⟨congrArg (· + 1) same, by simpa using last⟩
termination_by structural ns

end

private theorem property_stops {segments : List Node} {value : Expression Node} {line : Option Nat}
    (h : (node (.property segments value line)).Gives σ p t q) : Stops t := by
  obtain ⟨name, _, content, _, -, hc, ⟨_, -, -, rfl⟩ | ⟨-, -, rfl⟩⟩ := property_gives h
  · exact Stops.semicolon _
  · split
    · next ended =>
      rw [String.append_empty]
      refine ((?_ : Stops content).append (name ++ ": ")).append _
      rcases Bool.or_eq_true_iff.1 ended with ends | hands
      · exact .inl ends
      · exact .inr (node_closes (.expression value) hands hc)
    · exact (Stops.semicolon _).append _

private theorem conditional_stops {start : BranchStart} {negated : Bool} {condition : Rendering String} {b : Body Node}
    {others : Rendering (List String)} (ho : ∀ ⦃p ts q⦄, others.Gives σ p ts q → ∀ t ∈ ts, Stops t)
    (h : (conditional start negated condition (body b) others).Gives σ p t q) : Stops t := by
  obtain ⟨_, _, content, _, ts, -, hb, hts, rfl⟩ := conditional_gives h
  exact Stops.join (Stops.append (.inr (body_closes hb)) _) (ho hts)

mutual

private theorem alternative_stops (n : Node) {p q : Pass} {t : String} (h : (alternative n).Gives σ p t q) :
    Stops t := by
  match n with
  | .conditional condition none alts negated line => exact absurd h gives_missing
  | .conditional condition (some b) alts negated line =>
    exact conditional_stops (fun _ _ _ ho => alternatives_stop alts ho) (chained_gives h)
  | .block b =>
    obtain ⟨content, hb, rfl⟩ := otherwise_gives (chained_gives h)
    exact Stops.append (.inr (body_closes hb)) _
  | .null | .literal .. | .identifier _ | .number .. | .quoted _ | .boolean _ | .color _ | .expression _ | .arguments _
  | .selector .. | .ruleSet .. | .property .. | .call .. | .callable .. | .returned .. | .loop .. | .binary ..
  | .unary .. | .keyframes .. | .media .. | .queryList _ | .query .. | .feature .. | .supports .. | .xmlNamespace ..
  | .charset .. | .importSheet .. | .extend .. | .atRule .. | .comment _ | .member .. | .mapLiteral .. =>
    exact absurd h gives_missing
termination_by structural n

private theorem alternatives_stop (ns : List Node) {p q : Pass} {ts : List String}
    (h : (alternatives ns).Gives σ p ts q) :
    ∀ t ∈ ts, Stops t := by
  match ns with
  | [] =>
    obtain ⟨rfl, -⟩ := gives_pure.1 h
    nofun
  | n :: ns =>
    rw [alternatives_cons] at h
    simp only [gives_bind, gives_pure] at h
    obtain ⟨t, _, ht, us, _, hus, rfl, -⟩ := h
    exact List.forall_mem_cons.2 ⟨alternative_stops n ht, alternatives_stop ns hus⟩
termination_by structural ns

end

/-- Each kind of statement ends itself, but for the values. -/
theorem node_stops {n : Node} (step : n.isStep) (other : n.isExpression = false)
    (h : (node n).Gives σ p t q) : Stops t := by
  match n with
  | .identifier ⟨name, none, placeholder, rest, line⟩ => cases step
  | .identifier ⟨name, some v, placeholder, rest, line⟩ =>
    cases v with
    | null => cases step
    | callable => cases step
    | expression e =>
      have run : (assignment name e (each e.operands)).Gives σ p t q := h
      obtain ⟨_, _, _, _, -, -, -, rfl⟩ := assignment_gives run
      exact Stops.semicolon _
    | _ =>
      obtain ⟨_, _, -, -, rfl⟩ := boundValue_gives h
      exact Stops.semicolon _
  | .property .. => exact property_stops h
  | .returned value line =>
    obtain ⟨_, _, -, -, rfl⟩ := returned_gives h
    exact Stops.semicolon _
  | .conditional _ none _ _ _ => exact absurd h gives_missing
  | .conditional condition (some b) alts negated line =>
    exact conditional_stops (fun _ _ _ ho => alternatives_stop alts ho) h
  | .loop _ _ none _ _ => exact absurd h gives_missing
  | .loop _ _ (some _) none _ => exact absurd h gives_missing
  | .loop item key (some e) (some b) line =>
    obtain ⟨_, _, content, -, hb, rfl⟩ := loop_gives h
    exact Stops.append (.inr (body_closes hb)) _
  | .expression _ => cases other

/-- So each statement of a row but the values ends itself. -/
theorem row_stops {ns : List Node} {previous : Option Nat} (steps : ∀ n ∈ ns, n.isStep)
    (h : (row previous ns).Gives σ p ts q) :
    List.Forall₂ (fun n t => n.isExpression = false → Stops t) ns ts := by
  induction ns generalizing previous p ts with
  | nil =>
    obtain ⟨rfl, -⟩ := gives_pure.1 h
    exact .nil
  | cons n ns ih =>
    obtain ⟨step, steps⟩ := List.forall_mem_cons.1 steps
    obtain ⟨t, r, us, ht, hus, rfl⟩ := gives_row_cons.1 h
    rw [statement_eq_node (by rintro c rfl; cases step)] at ht
    exact .cons (fun other => node_stops step other ht) (ih steps hus)

private theorem trimStart_of_head {s : String} (h : ∀ c ∈ s.toList.head?, isBlank c = false) : trimStart s = s := by
  rw [trimStart]
  cases hs : s.toList with
  | nil => rw [List.dropWhile_nil, ← hs, String.ofList_toList]
  | cons c cs =>
    have solid : isBlank c = false := h c (by simp [hs])
    rw [List.dropWhile_cons_of_neg (by simp [solid]), ← hs, String.ofList_toList]

private theorem head_trimStart (s : String) : ∀ c ∈ (trimStart s).toList.head?, isBlank c = false := by
  intro c hc
  rw [trimStart, String.toList_ofList] at hc
  have first := List.head?_dropWhile_not isBlank s.toList
  rw [Option.mem_def.1 hc] at first
  simpa using first

/-- What a body is made of its statements: they stay behind their margin, with the keyword in between if they do not
have it, and a semicolon behind them if they do not end with one or with a brace. -/
structure Framed (keyword statements content : String) : Prop where
  parts : ∃ gap word ending, Blank gap ∧ (word = "" ∨ word = keyword) ∧ (ending = "" ∨ ending = ";") ∧
    content = gap ++ word ++ trimStart statements ++ ending
  stops : Stops content

theorem framed_withReturn (within : p.inFunction) {content : String} (h : (withReturn content).Gives σ p t q) :
    Framed σ.dialect.returnWord content t := by
  have ended (u : String) : ∃ ending, (ending = "" ∨ ending = ";") ∧ terminated u = u ++ ending := by
    unfold terminated
    split
    · exact ⟨"", .inl rfl, String.append_empty.symm⟩
    · exact ⟨";", .inr rfl, rfl⟩
  rcases withReturn_gives h with ⟨outside, -⟩ | ⟨-, rfl, -⟩ | ⟨-, inserted, hi, rfl⟩
  · rw [within] at outside
    cases outside
  · obtain ⟨ending, he, eq⟩ := ended content
    refine ⟨⟨margin content, "", ending, blank_margin content, .inl rfl, he, ?_⟩, .terminated content⟩
    rw [String.append_empty, margin_append_trimStart, eq]
  · obtain ⟨gap, rfl, hgap⟩ := insertReturn_gives hi
    obtain ⟨ending, he, eq⟩ := ended (gap ++ σ.dialect.returnWord ++ trimStart content)
    have blank : Blank gap := by
      rcases hgap with ⟨rfl, -⟩ | ⟨rfl, -⟩
      · exact blank_margin content
      · exact blank_newline.append (blank_indent p)
    exact ⟨⟨gap, σ.dialect.returnWord, ending, blank, .inr rfl, he, eq⟩, .terminated _⟩

theorem Framed.ownLines {statements content : String} (h : Framed σ.dialect.returnWord statements content) (p : Pass) :
    Framed σ.dialect.returnWord statements (p.ownLines content) := by
  unfold Pass.ownLines
  split
  · exact h
  · obtain ⟨⟨gap, word, ending, blank, hw, he, rfl⟩, stops⟩ := h
    have solid : ∀ c ∈ (word ++ trimStart statements ++ ending).toList.head?, isBlank c = false := by
      intro c hc
      simp only [String.toList_append, List.head?_append, Option.mem_def, Option.or_eq_some_iff] at hc
      rcases hc with (hc | ⟨-, hc⟩) | ⟨-, hc⟩
      · have keyword : word = "@return " := by
          rcases hw with rfl | rfl
          · cases hc
          · cases σ.dialect <;> rfl
        cases keyword
        cases hc
        decide
      · exact head_trimStart statements c hc
      · rcases he with rfl | rfl
        · cases hc
        · cases hc
          decide
    have trimmed : trimStart (gap ++ word ++ trimStart statements ++ ending) =
        word ++ trimStart statements ++ ending := by
      rw [String.append_assoc, String.append_assoc, trimStart_append blank, ← String.append_assoc,
        trimStart_of_head solid]
    refine ⟨⟨"\n" ++ p.indent, word, ending, blank_newline.append (blank_indent p), hw, he, ?_⟩,
      stops.trimStart.append _⟩
    rw [trimmed]
    simp only [String.append_assoc]

private theorem params_scope {ids : List (Identifier Node)} (plain : ¬Defined (ids.flatMap (·.value.toList)))
    (h : (params ids).Gives σ p ts q) : q.scope = p.scope := by
  induction ids generalizing p ts with
  | nil =>
    obtain ⟨-, rfl⟩ := gives_pure.1 h
    rfl
  | cons id ids ih =>
    rw [List.flatMap_cons, defined_append, not_or] at plain
    simp only [paramsWith, gives_bind, gives_pure] at h
    obtain ⟨t, r, ht, us, _, hus, -, rfl⟩ := h
    obtain ⟨_, s, hs, rfl, -⟩ := param_gives ht
    have kept : s.scope = p.scope := by
      rcases hs with ⟨-, -, rfl⟩ | ⟨-, _, s', hd, rfl, -⟩
      · rfl
      · simpa using (optional_scoped id.value hd).kept plain.1
    rw [ih plain.2 hus, Pass.addVariable_scope, kept]

private theorem params_inside {ids : List (Identifier Node)} (plain : ¬Defined (ids.flatMap (·.value.toList)))
    (h : (params ids).Gives σ p ts q) : p.Inside q :=
  .of_run (Pass.beside_steps.params ids h) (params_scope plain h)

theorem inFunction_intoCallable (p : Pass) (names : List String) : (intoCallable p .function names).inFunction := by
  simp [intoCallable, Pass.inFunction, Pass.inAny, Pass.enter]

/-- In a function in which nothing else is defined, and in the blocks of its branches and loops, each statement but a
value ends itself, and what stands in the braces ends as well: the statements as they are, behind their margin. -/
theorem terminated_of_function (σ : Style) (p : Pass) {name : String} {ids : List (Identifier Node)} {b : Body Node}
    {line : Option Nat} (function : DefinitionKind.ofBody b.statements = .function)
    (steps : ∀ c ∈ b :: blocksOf b.statements, ∀ n ∈ c.statements, n.isStep)
    (plain : ¬Defined (ids.flatMap (·.value.toList) ++ b.statements))
    (complete : (Node.callable name ids (some b) line).Every Node.Sufficient) :
    ∃ t q, (node (.callable name ids (some b) line)).Gives σ p t q ∧
      ∀ c ∈ b :: blocksOf b.statements, ∃ r ts s content pad, (row none c.statements).Gives σ r ts s ∧
        List.Forall₂ (fun n u => n.isExpression = false → Stops u) c.statements ts ∧
        Framed σ.dialect.returnWord (String.join ts) content ∧
        ("\x7b" ++ content ++ "\n" ++ pad ++ "\x7d").toList <:+: t.toList := by
  obtain ⟨t, q, run⟩ := (node_succeedsIff _ σ p).2 complete
  refine ⟨t, q, run, fun c hc => ?_⟩
  obtain ⟨defaults, statements⟩ := not_or.1 (mt (defined_append _ _).2 plain)
  have definition :
      (callable name line (.ofBody b.statements) (ids.map (·.name)) (params ids) (body b)).Gives σ p t q := run
  rw [function] at definition
  obtain ⟨_, r, _, _, hparams, hbody, -, rfl⟩ := callable_gives definition
  have entered : r.inFunction := by
    rw [(params_inside defaults hparams).inFunction, inFunction_intoCallable]
  obtain ⟨r', ts, s, content, s', inner, further, hts, hcontent, found⟩ :=
    (body_encloses_all b statements hbody c hc).append_left (p.lead line ++ callableHead _ _ _ _)
  have within : s.inFunction := (inner.trans further).inFunction.trans entered
  have framed := (framed_withReturn within hcontent).ownLines s'
  exact ⟨r', ts, s, _, _, hts, row_stops (steps c hc) hts, framed, found⟩

/-- An assignment, a branch with a value in its block, and a value. -/
theorem terminated_of_function_branch :
    let word (x : String) : Node := .literal x none
    let n : Identifier Node := { name := "n" }
    let value (ns : List Node) (line : Nat) : Node := .expression ⟨ns, some line⟩
    let assigned : Node := .identifier { name := "x", value := some (value [word "1px"] 2), line := some 2 }
    let inner : Body Node := ⟨[value [.identifier n] 4], some 3⟩
    let branch : Node := .conditional (.identifier n) (some inner) [] false (some 3)
    let b : Body Node := ⟨[assigned, branch, value [.identifier { name := "x" }, .identifier n] 6], some 1⟩
    let t := "@function f($n) \x7b\n  $x: 1px;\n  @if $n \x7b\n    @return $n;\n  \x7d\n\n  @return $x $n;\n\x7d"
    DefinitionKind.ofBody b.statements = .function ∧ blocksOf b.statements = [inner] ∧
      (∃ q, (node (.callable "f" [n] (some b) (some 1))).Gives {} {} t q) ∧
      ∃ r ts s content pad, (row none b.statements).Gives {} r ts s ∧
        List.Forall₂ (fun n u => n.isExpression = false → Stops u) b.statements ts ∧
        Framed "@return " (String.join ts) content ∧
        ("\x7b" ++ content ++ "\n" ++ pad ++ "\x7d").toList <:+: t.toList := by
  intro word n value assigned inner branch b t
  have steps : ∀ c ∈ b :: blocksOf b.statements, ∀ n ∈ c.statements, n.isStep := by
    simp [b, inner, branch, assigned, value, word, n, blocksOf, blocksIn, Node.blocks, Node.isStep, Identifier.isBound,
      Node.isCallable]
  have plain : ¬Defined ([n].flatMap (·.value.toList) ++ b.statements) := by
    simp [b, inner, branch, assigned, value, word, n, Node.defines_iff, Node.isCallable]
  have complete : (Node.callable "f" [n] (some b) (some 1)).Every Node.Sufficient := by
    simp [b, inner, branch, assigned, value, word, n, Node.every_iff_everyIn, Node.Sufficient]
  have run : (node (.callable "f" [n] (some b) (some 1))).Gives {} {} t
      { line := 6, registry := { variableNames := ["x", "n"] } } := eq_ok_of_toOption (by decide +kernel)
  obtain ⟨u, q, hu, ends⟩ := terminated_of_function {} {} rfl steps plain complete
  cases run.symm.trans hu
  exact ⟨rfl, rfl, ⟨_, run⟩, ends b List.mem_cons_self⟩

/-- Of two values in a row the first one is not ended. -/
theorem values_run_together :
    let value (x : String) (line : Nat) : Node := .expression ⟨[.literal x none], some line⟩
    let b : Body Node := ⟨[value "a" 2, value "b" 3], none⟩
    let p : Pass := { depth := 1, places := [.callableBody], returning := true }
    (∀ n ∈ b.statements, n.isStep) ∧ Sheet.convert ⟨[.callable "f" [] (some b) (some 1)]⟩ {} =
        .ok "@function f() \x7b\n  @return a\n  @return b;\n\x7d\n" ∧
      ¬∀ ts q, (row none b.statements).Gives {} p ts q → ∀ u ∈ ts.dropLast, Stops u := by
  intro value b p
  refine ⟨by decide, eq_ok_of_toOption (by decide +kernel), fun stop => ?_⟩
  have run : (row none b.statements).Gives {} p ["\n  @return a", "\n  @return b"] { p with line := 3 } :=
    eq_ok_of_toOption (by decide +kernel)
  have first := stop _ _ run "\n  @return a" (by decide)
  rcases first with h | h <;> cases h

end Render

end Stylesheet
