import Mathlib.Data.List.TakeWhile
import Stylesheet.Proofs.Returns.Moments
import Stylesheet.Proofs.Statements.Terminated

/-!
# Where the keyword goes

A body of a function in which nothing speaks gets the keyword once, in front of all that its statements say. With
assignments before the value, that is in front of the first of them, and the value is not what the keyword stands by.
-/

namespace Stylesheet

open Text Rendering

mutual

private theorem Node.speaks_of_amongValues (n : Node) (h : n.speaks true) : n.speaks false := by
  have either {a b c d : Bool} (hab : a → c) (hcd : b → d) (h : a || b) : c || d :=
    Bool.or_eq_true_iff.2 ((Bool.or_eq_true_iff.1 h).imp hab hcd)
  match n with
  | .expression _ => rfl
  | .returned .. | .block _ | .ruleSet .. | .callable .. | .conditional .. | .loop .. | .keyframes .. | .media ..
  | .supports .. => rfl
  | .call _ _ (some _) _ | .atRule _ _ (some _) _ => rfl
  | .call _ _ none _ | .arguments _ | .property .. | .mapLiteral .. => exact h
  | .identifier ⟨_, some _, _, _, _⟩ => exact h
  | .identifier ⟨_, none, _, _, _⟩ => cases h
  | .atRule _ segments none _ => exact speaksIn_of_amongValues segments h
  | .selector ns _ | .queryList ns | .extend ns _ | .query ns none _ | .feature ns none =>
    exact speaksIn_of_amongValues ns h
  | .importSheet path _ => exact speaksIn_of_amongValues path.operands h
  | .query features (some medium) _ =>
    exact either medium.speaks_of_amongValues (speaksIn_of_amongValues features) h
  | .feature segments (some value) => exact either (speaksIn_of_amongValues segments) (fun _ => rfl) h
  | .binary _ left right | .member left right => exact either left.speaks_of_amongValues right.speaks_of_amongValues h
  | .unary _ operand => exact operand.speaks_of_amongValues h
  | .xmlNamespace value _ _ => exact value.speaks_of_amongValues h
  | .null | .literal .. | .number .. | .quoted _ | .boolean _ | .color _ | .charset .. | .comment _ => cases h
termination_by structural n

private theorem speaksIn_of_amongValues (ns : List Node) (h : speaksIn true ns) : speaksIn false ns := by
  match ns with
  | [] => cases h
  | n :: ns =>
    exact Bool.or_eq_true_iff.2
      ((Bool.or_eq_true_iff.1 h).imp n.speaks_of_amongValues (speaksIn_of_amongValues ns))
termination_by structural ns

end

private theorem speaksIn_eq_false {ns : List Node} (h : speaksIn false ns = false) (among : Bool) :
    speaksIn among ns = false := by
  cases among with
  | false => exact h
  | true => exact Bool.eq_false_iff.2 fun loud => Bool.false_ne_true (h.symm.trans (speaksIn_of_amongValues ns loud))

private theorem trimStart_eq_empty_iff {s : String} : trimStart s = "" ↔ Blank s := by
  rw [← String.toList_inj, trimStart, String.toList_ofList]
  exact List.dropWhile_eq_nil_iff

private theorem trimStart_append_of_solid {s : String} (solid : trimStart s ≠ "") (t : String) :
    trimStart (s ++ t) = trimStart s ++ t := by
  have kept : (s.toList.dropWhile isBlank).isEmpty = false := by
    rw [Bool.eq_false_iff]
    intro none
    apply solid
    rw [trimStart, List.isEmpty_iff.1 none]
  rw [trimStart, String.toList_append, List.dropWhile_append, if_neg (by simp [kept]), String.ofList_append,
    String.ofList_toList]
  rfl

private theorem append_ne_trimStart {s : String} (some : s ≠ "") (t : String) : s ++ t ≠ trimStart t := by
  intro same
  have lengths := congrArg List.length (congrArg String.toList same)
  have shorter : (trimStart t).toList.length ≤ t.toList.length := by
    rw [trimStart, String.toList_ofList]
    exact (List.dropWhile_suffix isBlank).length_le
  have nonempty : s.toList ≠ [] := fun none => some (String.toList_inj.1 none)
  have := List.length_pos_of_ne_nil nonempty
  rw [String.toList_append, List.length_append] at lengths
  omega

namespace Node

def isAssignment : Node → Bool
  | identifier id => id.isBound && !id.value.any isCallable
  | _ => false

/-- A value that has no keyword of its own: a bare name, a leaf or an operation. -/
def isBareValue : Node → Bool
  | identifier id => !id.isBound
  | literal .. | number .. | binary .. | unary .. => true
  | _ => false

end Node

namespace Render

variable {σ : Style} {p q : Pass} {t : String} {ts : List String}

/-- The text of an assignment: its variable and the value, behind the margin that it has. -/
def Assigns (σ : Style) (n : Node) (t : String) : Prop :=
  ∃ (id : Identifier Node) (margin value : String), n = .identifier id ∧ Blank margin ∧
    t = margin ++ (σ.dialect.variableRef id.name ++ ": " ++ value ++ ";")

private theorem assignment_written {n : Node} (assigned : n.isAssignment) (h : (node n).Gives σ p t q) :
    Assigns σ n t := by
  match n with
  | .identifier ⟨name, none, placeholder, rest, line⟩ => cases assigned
  | .identifier ⟨name, some v, placeholder, rest, line⟩ =>
    cases v with
    | null => cases assigned
    | callable => cases assigned
    | expression e =>
      have run : (assignment name e (each e.operands)).Gives σ p t q := h
      obtain ⟨before, _, ts, _, start, -, -, rfl⟩ := assignment_gives run
      have blank : Blank before := by
        rcases start with ⟨-, rfl, -⟩ | ⟨-, rfl, -⟩
        · exact fun _ hc => nomatch hc
        · exact blank_lead p e.line
      exact ⟨_, before, dropTrailing ';' (" ".intercalate ts), rfl, blank, by simp only [String.append_assoc]⟩
    | _ =>
      obtain ⟨value, _, -, -, rfl⟩ := boundValue_gives h
      exact ⟨_, p.lead line, dropTrailing ';' value, rfl, blank_lead p line, by simp only [String.append_assoc]⟩

private theorem assignments_written {ns : List Node} {previous : Option Nat} (assigned : ∀ n ∈ ns, n.isAssignment)
    (h : (row previous ns).Gives σ p ts q) : List.Forall₂ (Assigns σ) ns ts := by
  induction ns generalizing previous p ts with
  | nil =>
    obtain ⟨rfl, -⟩ := gives_pure.1 h
    exact .nil
  | cons n ns ih =>
    obtain ⟨first, others⟩ := List.forall_mem_cons.1 assigned
    obtain ⟨t, r, us, ht, hus, rfl⟩ := gives_row_cons.1 h
    rw [statement_eq_node (by rintro c rfl; cases first)] at ht
    exact .cons (assignment_written first ht) (ih others hus)

private theorem withReturn_of_silent {content : String} (function : p.inFunction) (silent : Silent content)
    (h : (withReturn content).Gives σ p t q) (r : Pass) : ∃ gap ending, Blank gap ∧ (ending = "" ∨ ending = ";") ∧
      r.ownLines t = gap ++ "@return " ++ trimStart content ++ ending ∧ Marked 1 (r.ownLines t) := by
  have once : Marked 1 (r.ownLines t) := by
    rcases withReturn_inserts h function with ⟨found, -⟩ | ⟨-, s, hs, rfl⟩
    · exact absurd found silent.not_hasReturn
    · exact marked_ownLines r (marked_terminated (insertReturn_marked silent.marked hs).1)
  obtain ⟨⟨gap, word, ending, blank, hw, he, written⟩, -⟩ := (framed_withReturn function h).ownLines r
  have keyword : word = "@return " := by
    rcases hw with rfl | rfl
    -- without the word there would be no keyword at all
    · have plain : Silent ending := by rcases he with rfl | rfl <;> decide
      have none : Silent (r.ownLines t) := by
        rw [written, String.append_empty]
        exact ((silent_of_blank blank).append silent.trimStart).append plain
      have never := none.marked.count
      rw [once.count] at never
      cases never
    · cases σ.dialect <;> rfl
  exact ⟨gap, ending, blank, he, keyword ▸ written, once⟩

private theorem body_of_silent (quote : σ.quote ≠ '@') {ns : List Node} {line : Option Nat}
    (discreet : EveryIn (Node.Discreet σ.dialect) ns) (silent : speaksIn false ns = false) (hp : p.InBody)
    (h : (body ⟨ns, line⟩).Gives σ p t q) : ∃ content r gap ending pad,
      (statements none ns).Gives σ p.down content r ∧ Blank gap ∧ Blank pad ∧ (ending = "" ∨ ending = ";") ∧
      t = " \x7b" ++ (gap ++ "@return " ++ trimStart content ++ ending) ++ "\n" ++ pad ++ "\x7d" ∧
      Marked 1 (gap ++ "@return " ++ trimStart content ++ ending) := by
  have braced : (block (statements none ns)).Gives σ p t q := h
  obtain ⟨content, r, content', r', hc, hw, -, rfl⟩ := block_gives braced
  have inside : p.down.InBody := p.onward_down.inBody hp
  obtain ⟨onward, speech⟩ := statements_tells quote none ns discreet inside hc
  rw [speaksIn_eq_false silent] at speech
  obtain ⟨gap, ending, blank, he, written, once⟩ :=
    withReturn_of_silent (onward.inBody inside).function speech hw r'
  rw [written] at once ⊢
  exact ⟨content, r, gap, ending, r'.up.indent, hc, blank, blank_indent _, he, rfl, once⟩

private theorem params_tells (quote : σ.quote ≠ '@') {ids : List (Identifier Node)}
    (h : EveryIn (Node.Discreet σ.dialect) (ids.flatMap (·.value.toList))) : (params ids).Tells σ fun _ _ => True := by
  induction ids with
  | nil => exact tells_pure fun _ => trivial
  | cons id ids ih =>
    rw [List.flatMap_cons, everyIn_append] at h
    exact (param_tells quote h.1).bind fun _ => (ih h.2).bind fun _ => tells_pure fun _ _ _ => trivial

private theorem trimStart_assignments {ns : List Node} (some : ns ≠ []) (written : List.Forall₂ (Assigns σ) ns ts) :
    trimStart (String.join ts) ≠ "" := by
  cases written with
  | nil => exact absurd rfl some
  | cons first _ =>
    obtain ⟨id, margin, value, -, -, rfl⟩ := first
    rw [Ne, trimStart_eq_empty_iff]
    intro blank
    have semicolon := blank ';' (by simp [String.join_cons])
    revert semicolon
    decide

private theorem ofBody_assignments {assignments : List Node} {value : Node}
    (assigned : ∀ n ∈ assignments, n.isAssignment)
    (bare : value.isBareValue) : DefinitionKind.ofBody (assignments ++ [value]) = .function := by
  cases assignments with
  | nil => cases value <;> first | rfl | cases bare
  | cons n ns =>
    have first := assigned n List.mem_cons_self
    cases n <;> first | rfl | cases first

private theorem statements_concat {ns : List Node} {n : Node} {previous : Option Nat} (other : ∀ c, n ≠ .comment c)
    (h : (statements previous (ns ++ [n])).Gives σ p t q) : ∃ ts s u, (row previous ns).Gives σ p ts s ∧
      (node n).Gives σ s u q ∧ t = String.join ts ++ u := by
  rw [statements_append] at h
  simp only [gives_bind, gives_pure] at h
  obtain ⟨first, s, hfirst, last, _, hlast, rfl, rfl⟩ := h
  obtain ⟨ts, hts, rfl⟩ := gives_statements.1 hfirst
  obtain ⟨us, hus, rfl⟩ := gives_statements.1 hlast
  obtain ⟨u, r, rest, hu, hrest, rfl⟩ := gives_row_cons.1 hus
  obtain ⟨rfl, rfl⟩ := gives_pure.1 hrest
  rw [statement_eq_node other] at hu
  exact ⟨ts, s, u, hts, hu, by simp⟩

/-- A function that assigns variables and ends with a bare value has the keyword once, in front of all of its
statements: by the value if and only if there is no assignment, and by the name of the first variable otherwise. The
assignments and the value are written as they are. -/
theorem keyword_before_assignments (σ : Style) (p : Pass) {name : String} {ids : List (Identifier Node)}
    {assignments : List Node} {value : Node} {line bodyLine : Option Nat} (quote : σ.quote ≠ '@')
    (assigned : ∀ n ∈ assignments, n.isAssignment) (bare : value.isBareValue)
    (discreet : EveryIn (Node.Discreet σ.dialect) (ids.flatMap (·.value.toList) ++ (assignments ++ [value])))
    (silent : speaksIn false (assignments ++ [value]) = false) (values : p.registry.Holds Silent)
    (complete : (Node.callable name ids (some ⟨assignments ++ [value], bodyLine⟩) line).Every Node.Sufficient) :
    ∃ t q, (node (.callable name ids (some ⟨assignments ++ [value], bodyLine⟩) line)).Gives σ p t q ∧
      ∃ (params : List String) (texts : List String) (text gap ending pad : String) (r s u : Pass),
        t = p.lead line ++ callableHead σ.dialect .function name (", ".intercalate params) ++ " \x7b" ++
          (gap ++ "@return " ++ trimStart (String.join texts ++ text) ++ ending) ++ "\n" ++ pad ++ "\x7d" ∧
        Blank gap ∧ Blank pad ∧ (ending = "" ∨ ending = ";") ∧
        occurrences returnKeyword (gap ++ "@return " ++ trimStart (String.join texts ++ text) ++ ending).toList = 1 ∧
        (row none assignments).Gives σ r texts s ∧ (node value).Gives σ s text u ∧
        List.Forall₂ (Assigns σ) assignments texts ∧
        (trimStart (String.join texts ++ text) = trimStart text ↔ assignments = []) ∧
        (assignments ≠ [] → trimStart (String.join texts ++ text) = trimStart (String.join texts) ++ text) := by
  obtain ⟨t, q, run⟩ := (node_succeedsIff _ σ p).2 complete
  refine ⟨t, q, run, ?_⟩
  have definition : (callable name line (.ofBody (assignments ++ [value])) (ids.map (·.name)) (params ids)
      (body ⟨assignments ++ [value], bodyLine⟩)).Gives σ p t q := run
  rw [ofBody_assignments assigned bare] at definition
  obtain ⟨heads, start, _, _, hparams, hbody, -, rfl⟩ := callable_gives definition
  obtain ⟨defaults, statements⟩ := (everyIn_append _ _).1 discreet
  have entered : (intoCallable (p.reach line) .function (ids.map (·.name))).InBody :=
    ⟨((p.along_reach line).holds values).setParams, inFunction_intoCallable _ _⟩
  have inside : start.InBody := (params_tells quote defaults entered hparams).1.inBody entered
  obtain ⟨content, u, gap, ending, pad, hc, blank, padded, he, rfl, once⟩ :=
    body_of_silent quote statements silent inside hbody
  obtain ⟨texts, s, text, hts, htext, rfl⟩ := statements_concat (by rintro c rfl; cases bare) hc
  have written := assignments_written assigned hts
  refine ⟨heads, texts, text, gap, ending, pad, _, s, u, by simp only [String.append_assoc], blank, padded, he,
    once.count, hts, htext, written, ⟨fun same => ?_, ?_⟩, fun some => ?_⟩
  · by_contra some
    have solid := trimStart_assignments some written
    rw [trimStart_append_of_solid solid] at same
    exact append_ne_trimStart solid text same
  · rintro rfl
    cases written
    rfl
  · exact trimStart_append_of_solid (trimStart_assignments some written) text

/-- A variable and its sum with a parameter: the keyword is by the variable. -/
theorem keyword_before_assignments_sum :
    let n : Identifier Node := { name := "n" }
    let x : Identifier Node := { name := "x" }
    let assigned : Node := .identifier { x with value := some (.expression ⟨[.literal "1px" none], some 2⟩) }
    let sum : Node := .binary "+" (.identifier x) (.identifier n)
    let t := "@function f($n) \x7b\n  @return $x: 1px;$x + $n;\n\x7d"
    (∃ q, (node (.callable "f" [n] (some ⟨[assigned] ++ [sum], none⟩) (some 1))).Gives {} {} t q) ∧
      ∃ (head gap ending pad : String) (texts : List String) (text : String) (r s u : Pass),
        t = head ++ " \x7b" ++ (gap ++ "@return " ++ trimStart (String.join texts ++ text) ++ ending) ++ "\n" ++ pad ++
          "\x7d" ∧
        occurrences returnKeyword (gap ++ "@return " ++ trimStart (String.join texts ++ text) ++ ending).toList = 1 ∧
        (row none [assigned]).Gives {} r texts s ∧ (node sum).Gives {} s text u ∧
        trimStart (String.join texts ++ text) = trimStart (String.join texts) ++ text := by
  intro n x assigned sum t
  have run : (node (.callable "f" [n] (some ⟨[assigned] ++ [sum], none⟩) (some 1))).Gives {} {} t
      { line := 2, registry := { variableNames := ["x", "n"] } } := eq_ok_of_toOption (by decide +kernel)
  have discreet : EveryIn (Node.Discreet .scss) ([n].flatMap (·.value.toList) ++ ([assigned] ++ [sum])) := by
    simp only [n, x, assigned, sum, List.flatMap_cons, List.flatMap_nil, Option.toList_none, Option.toList_some,
      List.append_nil, List.cons_append, List.nil_append, Node.every_iff_everyIn, Node.parts, everyIn_cons, everyIn_nil,
      and_true]
    decide
  have complete : (Node.callable "f" [n] (some ⟨[assigned] ++ [sum], none⟩) (some 1)).Every Node.Sufficient := by
    simp [n, x, assigned, sum, Node.every_iff_everyIn, Node.Sufficient]
  have values : ({} : Registry).Holds Silent := by
    intro _ held
    cases held
  obtain ⟨u, q, hu, heads, texts, text, gap, ending, pad, r, s, v, split, -, -, -, once, hts, htext, -, -, whole⟩ :=
    keyword_before_assignments {} {} (by decide) (by decide) (by decide) discreet (by decide) values complete
  cases run.symm.trans hu
  exact ⟨⟨_, run⟩, _, gap, ending, pad, texts, text, r, s, v, split, once, hts, htext, whole (by simp)⟩

/-- Behind an assignment the value is not what the keyword stands by. -/
theorem value_without_keyword :
    let x : Identifier Node := { name := "x" }
    let assigned : Node := .identifier { x with value := some (.expression ⟨[.literal "1px" none], some 2⟩) }
    let value : Node := .literal "a" (some 3)
    let t := "@function f() \x7b\n  @return $x: 1px;a;\n\x7d\n"
    assigned.isAssignment ∧ value.isBareValue ∧
      Sheet.convert ⟨[.callable "f" [] (some ⟨[assigned, value], none⟩) (some 1)]⟩ {} = .ok t ∧
      ¬ "@return a".toList <:+: t.toList := by
  intro x assigned value t
  exact ⟨rfl, rfl, eq_ok_of_toOption (by decide +kernel), by decide +kernel⟩

end Render

end Stylesheet
