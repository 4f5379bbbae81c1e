import Stylesheet.Proofs.Closed
import Stylesheet.Proofs.Resolution

/-!
# Separators of values

In the value of a declaration, an operand that is a list is told apart from the one before it by a comma, and so is one
in any list inside of an assigned value. The operands of the assigned value itself stand apart by blanks alone. Nothing
else tells the two values apart.
-/

namespace Stylesheet

open Rendering

namespace Registry

def asVariable (r : Registry) (d : Dialect) (name : String) : String :=
  if r.knowsVariable name || r.knowsParam name then d.variableRef name else name

/-- What a name without a value reads as outside of calls. -/
def read (r : Registry) (d : Dialect) (id : Identifier Node) : String :=
  if id.placeholder then if id.name = "block" then d.content else d.interpolation id.name
  else if id.rest then r.asVariable d id.name ++ "..." else r.asVariable d id.name

end Registry

mutual

/-- The text of a simple node in a value, in which names are written as they are looked up. -/
def Node.valueText (look : Identifier Node → String) : Node → String
  | .literal text _ => text
  | .identifier id => look id
  | .number value suffix => Render.number value ++ suffix.getD ""
  | .quoted q => Render.quoted q
  | .boolean value => if value then "true" else "false"
  | .color text => text
  | .expression e => Render.joinOperands true e.operands (valueTexts look e.operands)
  | .binary operator left right => Render.binary operator right (left.valueText look) (right.valueText look)
  | .unary operator operand => Render.unary operator (operand.valueText look)
  | _ => ""
termination_by structural n => n

def valueTexts (look : Identifier Node → String) : List Node → List String
  | [] => []
  | n :: ns => n.valueText look :: valueTexts look ns
termination_by structural ns => ns

end

private theorem length_valueTexts (look : Identifier Node → String) (ns : List Node) :
    (valueTexts look ns).length = ns.length := by
  induction ns with
  | nil => rfl
  | cons n ns ih => simp [valueTexts, ih]

/-- Texts without semicolons, and no name that a declaration has given a value to. -/
structure Node.Undeclared (r : Registry) (n : Node) : Prop where
  texts : n.TextsHold Unended
  name : ∀ x ∈ n.bareName?, r.valueOf? x = none

instance (r : Registry) (n : Node) : Decidable (n.Undeclared r) :=
  decidable_of_iff ((∀ t ∈ n.texts, Unended t) ∧ ∀ x ∈ n.bareName?, r.valueOf? x = none)
    ⟨fun h => ⟨h.1, h.2⟩, fun h => ⟨h.texts, h.name⟩⟩

/-- The pass is in the value of a declaration or of an assignment, and in no call. -/
structure Pass.InValue (p : Pass) : Prop where
  value : p.inAny [.declarationValue]
  noCall : p.inAny [.call] = false

namespace Pass

variable {p : Pass}

private theorem InValue.enter_expression (h : p.InValue) : (p.enter [.expression]).InValue where
  value := by simpa [inAny, enter] using h.value
  noCall := by simpa [inAny, enter] using h.noCall

private theorem inValue_enter (noCall : p.inAny [.call] = false) : (p.enter [.declarationValue]).InValue where
  value := by simp [inAny, enter]
  noCall := by simpa [inAny, enter] using noCall

private theorem referenceText_of_undeclared (noCall : p.inAny [.call] = false) {id : Identifier Node}
    (free : p.registry.valueOf? id.name = none) (d : Dialect) :
    Render.referenceText d p id = p.registry.read d id := by
  simp only [Render.referenceText, noCall, free, Option.getD_none, Bool.false_eq_true, if_false, ite_self,
    Registry.read, Registry.asVariable]

end Pass

private theorem Node.isSimple_of_mem {ns : List Node} (simple : allSimple ns) {n : Node} (held : n ∈ ns) :
    n.isSimple := by
  induction ns with
  | nil => cases held
  | cons m ms ih =>
    obtain ⟨hm, hms⟩ := Bool.and_eq_true_iff.1 simple
    rcases List.mem_cons.1 held with rfl | held
    · exact hm
    · exact ih hms held

private theorem Expression.inlineName?_of_simple {e : Expression Node} (simple : allSimple e.operands) :
    e.inlineName? = none := by
  cases found : e.inlineName? with
  | none => rfl
  | some name =>
    obtain ⟨id, held, -, bound⟩ := Expression.identifier_of_inlineName? found
    have bare := Node.isSimple_of_mem simple held
    simp [Node.isSimple, bound] at bare

private theorem Expression.holdsMap_of_simple {e : Expression Node} (simple : allSimple e.operands) :
    e.holdsMap = false := by
  rw [Expression.holdsMap, List.any_eq_false]
  intro n held map
  have := Node.isSimple_of_mem simple held
  cases n <;> simp_all [Node.isSimple, Node.isMapLiteral]

mutual

private theorem Node.handsBlock_of_simple (n : Node) (simple : n.isSimple) : n.handsBlock = false := by
  match n with
  | .expression e => exact lastHandsBlock_of_simple e.operands simple
  | .call .. => cases simple
  | .null | .literal .. | .identifier _ | .number .. | .quoted _ | .boolean _ | .color _ | .binary .. | .unary .. => rfl
termination_by structural n

private theorem lastHandsBlock_of_simple (ns : List Node) (simple : allSimple ns) : lastHandsBlock ns = false := by
  match ns with
  | [] => rfl
  | [n] => exact Node.handsBlock_of_simple n (Bool.and_eq_true_iff.1 simple).1
  | _ :: m :: ns => exact lastHandsBlock_of_simple (m :: ns) (Bool.and_eq_true_iff.1 simple).2
termination_by structural ns

end

section texts

variable {σ : Style}

namespace Render

mutual

private theorem node_gives_valueText {p : Pass} (h : p.InValue) (n : Node) (simple : n.isSimple)
    (free : n.Every (Node.Undeclared p.registry)) :
    (node n).Gives σ p (n.valueText (p.registry.read σ.dialect)) p := by
  have parts : EveryIn (Node.Undeclared p.registry) n.parts := free.parts
  match n with
  | .null | .literal .. | .number .. | .quoted _ | .boolean _ | .color _ => exact gives_pure.2 ⟨rfl, rfl⟩
  | .identifier id =>
    have bare : id.isBound = false := by simpa [Node.isSimple] using simple
    have unvalued := free.self.name id.name (Identifier.bareName?_of_unbound bare)
    have text := Pass.referenceText_of_undeclared h.noCall unvalued σ.dialect
    rw [node_of_bare bare]
    exact (gives_dialect.2 ⟨rfl, rfl⟩).bind (gives_observe.2 ⟨text.symm, rfl⟩)
  | .expression e =>
    have texts : (each e.operands).Gives σ (p.enter [.expression])
        (valueTexts (p.registry.read σ.dialect) e.operands) (p.enter [.expression]) :=
      each_gives_valueTexts h.enter_expression e.operands simple parts
    have list := gives_list h.value h.noCall e texts
    exact list
  | .binary operator left right =>
    obtain ⟨hl, hr⟩ := Bool.and_eq_true_iff.1 simple
    exact (node_gives_valueText h left hl (parts left (by simp))).bind <|
      (node_gives_valueText h right hr (parts right (by simp))).bind (gives_pure.2 ⟨rfl, rfl⟩)
  | .unary operator operand =>
    exact (node_gives_valueText h operand simple (parts operand (by simp))).bind (gives_pure.2 ⟨rfl, rfl⟩)
termination_by structural n

private theorem each_gives_valueTexts {p : Pass} (h : p.InValue) (ns : List Node) (simple : allSimple ns)
    (free : EveryIn (Node.Undeclared p.registry) ns) :
    (each ns).Gives σ p (valueTexts (p.registry.read σ.dialect) ns) p := by
  match ns with
  | [] => exact gives_pure.2 ⟨rfl, rfl⟩
  | n :: ns =>
    obtain ⟨hn, hns⟩ := Bool.and_eq_true_iff.1 simple
    rw [everyIn_cons] at free
    exact (node_gives_valueText h n hn free.1).bind <|
      (each_gives_valueTexts h ns hns free.2).bind (gives_pure.2 ⟨rfl, rfl⟩)
termination_by structural ns

end

end Render

end texts

namespace Unended

variable {s t : String} {ts : List String}

theorem joinOperands (h : ∀ t ∈ ts, Unended t) (inValue : Bool) (ns : List Node) :
    Unended (Render.joinOperands inValue ns ts) :=
  rowwise.joinOperands (by decide) (by decide) inValue ns h

theorem asVariable (h : Unended s) (r : Registry) (d : Dialect) : Unended (r.asVariable d s) := by
  unfold Registry.asVariable
  split
  · exact h.variableRef d
  · exact h

theorem interpolation (h : Unended s) (d : Dialect) : Unended (d.interpolation s) := by
  have brace : Unended "\x7d" := by decide
  cases d with
  | scss => exact ((show Unended "#\x7b$" by decide).append h.bare).append brace
  | less => exact ((show Unended "@\x7b" by decide).append h.bare).append brace

theorem read {id : Identifier Node} (h : Unended id.name) (r : Registry) (d : Dialect) : Unended (r.read d id) := by
  unfold Registry.read
  split
  · split
    · cases d <;> decide
    · exact h.interpolation d
  · have dots : Unended "..." := by decide
    split
    · exact (h.asVariable r d).append dots
    · exact h.asVariable r d

theorem binary {operator : String} (right : Node) (ho : Unended operator) (hs : Unended s) (ht : Unended t) :
    Unended (Render.binary operator right s t) := by
  have blank : Unended " " := by decide
  have grouped : Unended (if right.isExpression then "(" ++ t ++ ")" else t) := by
    split
    · exact .append (.append (by decide) ht) (by decide)
    · exact ht
  exact (((hs.append blank).append (spelling ho)).append blank).append grouped

theorem unary {operator : String} (ho : Unended operator) (hs : Unended s) : Unended (Render.unary operator s) :=
  (((spelling ho).append (t := "(") (by decide)).append hs).append (by decide)

end Unended

mutual

private theorem Node.valueText_unended {look : Identifier Node → String}
    (free : ∀ id : Identifier Node, Unended id.name → Unended (look id)) (n : Node)
    (h : n.Every (Node.TextsHold Unended)) : Unended (n.valueText look) := by
  have texts := h.self
  have parts : EveryIn (Node.TextsHold Unended) n.parts := h.parts
  match n with
  | .literal text _ => exact texts text (by simp)
  | .color text => exact texts text (by simp)
  | .identifier id => exact free id (texts id.name (by simp))
  | .number value suffix =>
    have ending : Unended (suffix.getD "") :=
      Unended.rowwise.optional fun s hs => texts s (by simp [Option.mem_def.1 hs])
    exact (Unended.number value).append ending
  | .quoted q => exact ((texts q.quote (by simp)).append (texts q.text (by simp))).append (texts q.quote (by simp))
  | .boolean value =>
    show Unended (if value then "true" else "false")
    cases value <;> decide
  | .expression e => exact .joinOperands (valueTexts_unended free e.operands parts) true e.operands
  | .binary operator left right =>
    have hl := Node.valueText_unended free left (parts left (by simp))
    have hr := Node.valueText_unended free right (parts right (by simp))
    exact .binary right (texts operator (by simp)) hl hr
  | .unary operator operand =>
    exact .unary (texts operator (by simp)) (Node.valueText_unended free operand (parts operand (by simp)))
  | .null | .arguments _ | .block _ | .selector .. | .ruleSet .. | .property .. | .call .. | .callable .. | .returned ..
  | .conditional .. | .loop .. | .keyframes .. | .media .. | .queryList _ | .query .. | .feature .. | .supports ..
  | .xmlNamespace .. | .charset .. | .importSheet .. | .extend .. | .atRule .. | .comment _ | .member ..
  | .mapLiteral .. => exact (by decide : Unended "")
termination_by structural n

private theorem valueTexts_unended {look : Identifier Node → String}
    (free : ∀ id : Identifier Node, Unended id.name → Unended (look id)) (ns : List Node)
    (h : EveryIn (Node.TextsHold Unended) ns) : ∀ t ∈ valueTexts look ns, Unended t := by
  match ns with
  | [] => simp [valueTexts]
  | n :: ns =>
    rw [everyIn_cons] at h
    exact List.forall_mem_cons.2 ⟨Node.valueText_unended free n h.1, valueTexts_unended free ns h.2⟩
termination_by structural ns

end

namespace Render

variable {σ : Style} {p : Pass}

private theorem separated_eq_iff (t : String) {ns : List Node} {ts : List String} (same : ts.length = ns.length) :
    " ".intercalate (t :: ts) = t ++ String.join ((ns.zip ts).map fun x => separator true x.1 ++ x.2) ↔
      ∀ n ∈ ns, n.children = [] := by
  induction ns generalizing t ts with
  | nil =>
    obtain rfl := List.length_eq_zero_iff.1 same
    simp
  | cons n ns ih =>
    match ts, same with
    | u :: us, same =>
      have ih := ih u (Nat.succ.inj same)
      rw [String.intercalate_cons_cons, List.zip_cons_cons, List.map_cons, String.join_cons, List.forall_mem_cons, ← ih,
        String.append_assoc, String.append_right_inj, separator]
      cases none : n.children with
      | nil => simp [String.append_assoc]
      | cons m ms =>
        -- the second characters differ
        simp [String.append_assoc, ← String.toList_inj]

private theorem joined_eq_iff {ns : List Node} {ts : List String} (same : ts.length = ns.length) :
    " ".intercalate ts = joinOperands true ns ts ↔ ∀ n ∈ ns.tail, n.children = [] := by
  match ns, ts, same with
  | [], [], _ => simp [joinOperands]
  | _ :: ns, t :: ts, same => exact separated_eq_iff t (Nat.succ.inj same)

/-- Assigned and declared from the same pass, a simple value has the same texts for its operands, lists inside of it
included, which a declaration separates as any list in a value and an assignment by blanks. So the two values are the
same just if no operand behind the first one is a list. -/
theorem assigned_as_declared (σ : Style) (noCall : p.inAny [.call] = false) (id : Identifier Node)
    {value : Expression Node} (simple : allSimple value.operands)
    (free : EveryIn (Node.Undeclared p.registry) value.operands) (property : String) (propertyLine line : Option Nat) :
    let texts := valueTexts (p.registry.read σ.dialect) value.operands
    let assigned := " ".intercalate texts
    let declared := joinOperands true value.operands texts
    (∃ q, (node (.identifier { id with value := some (.expression value) })).Gives σ p
      (p.lead value.line ++ σ.dialect.variableRef id.name ++ ": " ++ assigned ++ ";") q) ∧
    (∃ q, (node (.property [.literal property propertyLine] value line)).Gives σ p
      (p.lead line ++ property ++ ": " ++ declared ++ ";") q) ∧
    (assigned = declared ↔ ∀ n ∈ value.operands.tail, n.children = []) := by
  intro texts assigned declared
  have unended : ∀ t ∈ texts, Unended t :=
    valueTexts_unended (fun id named => named.read p.registry σ.dialect) value.operands fun n hn =>
      (free n hn).mono fun _ hm => hm.texts
  refine ⟨?_, ?_, joined_eq_iff (length_valueTexts _ _)⟩
  · have start : (p.reach value.line).inAny [.call] = false := by rw [Pass.reach_inAny, noCall]
    have known : (p.reach value.line).registry = p.registry := Pass.reach_registry p value.line
    have operands := each_gives_valueTexts (σ := σ) (Pass.inValue_enter start) value.operands simple
      (by rwa [Pass.enter_registry, known])
    rw [Pass.enter_registry, known] at operands
    have blank : Unended " " := by decide
    have noMap := Expression.holdsMap_of_simple simple
    exact ⟨_, gives_assignment noCall noMap id.name operands (blank.intercalate unended)⟩
  · have start : (p.reach line).inAny [.call] = false := by rw [Pass.reach_inAny, noCall]
    have known : (p.reach line).registry = p.registry := Pass.reach_registry p line
    have opened : (((p.reach line).enter [.declarationValue]).learn (·.openDeclaration property)).InValue :=
      ⟨(Pass.inValue_enter start).value, (Pass.inValue_enter start).noCall⟩
    -- a declaration that is open has no value yet
    have closed : EveryIn (Node.Undeclared (p.registry.openDeclaration property)) value.operands := fun n hn =>
      (free n hn).mono fun _ hm => ⟨hm.texts, fun x hx => by rw [Registry.valueOf?_openDeclaration, hm.name x hx]⟩
    have operands := each_gives_valueTexts (σ := σ) opened.enter_expression value.operands simple
      (by rwa [Pass.enter_registry, Pass.learn_registry, Pass.enter_registry, known])
    rw [Pass.enter_registry, Pass.learn_registry, Pass.enter_registry, known] at operands
    have single := Expression.inlineName?_of_simple simple
    have noBlock : value.handsBlock = false := lastHandsBlock_of_simple value.operands simple
    exact ⟨_, gives_property noCall single noBlock property propertyLine line operands
      (.joinOperands unended true value.operands)⟩

/-- Lists inside of a list, which is the first operand, and a variable behind them. -/
theorem assigned_as_declared_margin :
    let gap : Node := .identifier { name := "gap" }
    let px (x : String) : Node := .literal x none
    let list (ns : List Node) : Node := .expression ⟨ns, none⟩
    let value : Expression Node := ⟨[list [gap, list [px "1px", px "2px"], px "3px"], gap], some 3⟩
    let known : Registry := { variableNames := ["gap"], declarations := [("top", some "0")] }
    let p : Pass := { depth := 1, line := 2, places := [.keyframes], registry := known }
    p.inAny [.call] = false ∧ allSimple value.operands ∧ EveryIn (Node.Undeclared known) value.operands ∧
      (∃ q, (node (.identifier { name := "space", value := some (.expression value) })).Gives {} p
        "\n  $space: $gap, 1px 2px 3px $gap;" q) ∧
      (∃ q, (node (.property [.literal "margin" none] value (some 4))).Gives {} p
        "\n\n  margin: $gap, 1px 2px 3px $gap;" q) ∧ ∀ n ∈ value.operands.tail, n.children = [] := by
  intro gap px list value known p
  have free : EveryIn (Node.Undeclared known) value.operands := by
    simp only [Node.every_iff_everyIn, value, list, gap, px, Node.parts, Option.toList_none, everyIn_cons, everyIn_nil,
      and_true]
    decide
  obtain ⟨assigned, declared, -⟩ :=
    assigned_as_declared (p := p) {} rfl { name := "space" } (by decide) free "margin" none (some 4)
  have first : p.lead (some 3) ++ Dialect.variableRef .scss "space" ++ ": " ++
      " ".intercalate (valueTexts (known.read .scss) value.operands) ++ ";" =
        "\n  $space: $gap, 1px 2px 3px $gap;" := by decide +kernel
  have second : p.lead (some 4) ++ "margin" ++ ": " ++
      joinOperands true value.operands (valueTexts (known.read .scss) value.operands) ++ ";" =
        "\n\n  margin: $gap, 1px 2px 3px $gap;" := by decide +kernel
  exact ⟨rfl, by decide, free, first ▸ assigned, second ▸ declared, by decide⟩

/-- Two lists in a row are separated by a comma if they are declared, and by a blank if they are assigned. -/
theorem assigned_without_commas :
    let list (property time : String) : Node := .expression ⟨[.literal property none, .literal time none], none⟩
    let value : Expression Node := ⟨[list "opacity" "1s", list "transform" "2s"], none⟩
    let assigned : Node := .identifier { name := "t", value := some (.expression value) }
    let declared : Node := .property [.literal "t" none] value none
    Sheet.convert ⟨[assigned]⟩ {} = .ok "$t: opacity 1s transform 2s;\n" ∧
      Sheet.convert ⟨[declared]⟩ {} = .ok "t: opacity 1s, transform 2s;\n" ∧
      ¬∀ first second q r, (node assigned).Gives {} {} ("$t: " ++ first ++ ";") q →
        (node declared).Gives {} {} ("t: " ++ second ++ ";") r → first = second := by
  intro list value assigned declared
  refine ⟨eq_ok_of_toOption (by decide +kernel), eq_ok_of_toOption (by decide +kernel), fun same => ?_⟩
  have first : (node assigned).Gives {} {} ("$t: " ++ "opacity 1s transform 2s" ++ ";")
      { registry := { variableNames := ["t"] } } := eq_ok_of_toOption (by decide +kernel)
  have second : (node declared).Gives {} {} ("t: " ++ "opacity 1s, transform 2s" ++ ";")
      { registry := { declarations := [("t", some "opacity 1s, transform 2s")] } } :=
    eq_ok_of_toOption (by decide +kernel)
  exact absurd (same _ _ _ _ first second) (by decide)

end Render

end Stylesheet
