import Stylesheet.Proofs.Edits
import Stylesheet.Proofs.Growth
import Stylesheet.Proofs.Numerals
import Stylesheet.Proofs.Rowwise

/-!
# What names resolve to

In a row of declarations and assignments a name reads as what the statements before have made of it. Declarations give
it their value, which is put in place of the name in other declarations, and assignments make it a variable. What the
statements so far have given names is an environment, and every pass of such a run has the registry of one.
-/

namespace Stylesheet

/-- A text without semicolons, so that none is taken from its end. -/
def Unended (s : String) : Prop := ';' ∉ s.toList

instance (s : String) : Decidable (Unended s) := inferInstanceAs (Decidable (';' ∉ s.toList))

namespace Unended

variable {s t : String} {ts : List String}

theorem append (hs : Unended s) (ht : Unended t) : Unended (s ++ t) := by
  rw [Unended, String.toList_append, List.mem_append, not_or]
  exact ⟨hs, ht⟩

theorem rowwise : Rowwise Unended := ⟨by decide, append⟩

theorem intercalate (hs : Unended s) (h : ∀ t ∈ ts, Unended t) : Unended (s.intercalate ts) :=
  rowwise.intercalate hs h

theorem endsWith (h : Unended s) : Text.endsWith ';' s = false := by
  rw [Text.endsWith, beq_eq_false_iff_ne]
  exact fun last => h (List.mem_of_getLast? last)

theorem dropTrailing (h : Unended s) : Text.dropTrailing ';' s = s := by
  have kept : s.toList.reverse.dropWhile (· == ';') = s.toList.reverse := by
    cases hr : s.toList.reverse with
    | nil => rfl
    | cons c cs =>
      have last : c ∈ s.toList := List.mem_reverse.1 (hr ▸ List.mem_cons_self)
      have other : c ≠ ';' := fun e => h (e ▸ last)
      simp [other]
  rw [Text.dropTrailing, kept, List.reverse_reverse, String.ofList_toList]

theorem number (x : Float) : Unended (Render.number x) := fun hc => by
  cases Render.isNumeral_number hc

theorem spelling (h : Unended s) : Unended (Operator.spelling s) := by
  unfold Operator.spelling
  split
  · decide
  · decide
  · decide
  · exact h

theorem bare (h : Unended s) : Unended (Dialect.bare s) := by
  unfold Dialect.bare
  cases rest : Text.after? "$" s with
  | none => exact h
  | some t =>
    have split := Text.append_of_after? rest
    intro hc
    exact h (by rw [split, String.toList_append]; exact List.mem_append_right _ hc)

theorem variableRef (h : Unended s) (d : Dialect) : Unended (d.variableRef s) := by
  have sigil : Unended d.sigil.toString := by cases d <;> decide
  exact sigil.append h.bare

end Unended

/-- Leaves that are written as they are, plain bare names, and operations over these, all without semicolons. -/
inductive Node.Operand : Node → Prop
  | literal {text : String} (line : Option Nat) (free : Unended text) : Operand (.literal text line)
  | number (value : Float) {suffix : Option String} (free : ∀ s ∈ suffix, Unended s) : Operand (.number value suffix)
  | quoted {q : QuotedText} (text : Unended q.text) (quote : Unended q.quote) : Operand (.quoted q)
  | boolean (value : Bool) : Operand (.boolean value)
  | color {text : String} (free : Unended text) : Operand (.color text)
  | name {id : Identifier Node} (bare : id.isBound = false) (plain : id.placeholder = false) (single : id.rest = false)
      (free : Unended id.name) : Operand (.identifier id)
  | binary {operator : String} {left right : Node} (free : Unended operator) (hl : Operand left) (hr : Operand right) :
      Operand (.binary operator left right)

/-- The text of an operand in which names are looked up. -/
def Node.read (look : String → String) : Node → String
  | .literal text _ => text
  | .number value suffix => Render.number value ++ suffix.getD ""
  | .quoted q => Render.quoted q
  | .boolean value => if value then "true" else "false"
  | .color text => text
  | .identifier id => look id.name
  | .binary operator left right =>
    left.read look ++ " " ++ Operator.spelling operator ++ " " ++ right.read look
  | _ => ""

/-- What the statements so far have given names: a value if they were declared, the latest one first, and being a
variable if they were assigned. -/
structure Environment where
  /-- The last line that was written. -/
  line : Nat := 1
  declared : List (String × String) := []
  assigned : List String := []

namespace Environment

def asVariable (d : Dialect) (env : Environment) (name : String) : String :=
  if name ∈ env.assigned then d.variableRef name else name

def asValue (d : Dialect) (env : Environment) (name : String) : String :=
  (env.declared.lookup name).getD (env.asVariable d name)

end Environment

/-- A statement that gives a name something to read as. -/
inductive Binding
  | declaration (name : String) (nameLine : Option Nat) (value : Expression Node) (line : Option Nat)
  | assignment (id : Identifier Node) (value : Expression Node)
  /-- An assignment of a value that is no list. -/
  | single (id : Identifier Node) (value : Node)

namespace Binding

def node : Binding → Node
  | declaration name nameLine value line => .property [.literal name nameLine] value line
  | assignment id value => .identifier { id with value := some (.expression value) }
  | single id value => .identifier { id with value := some value }

def operands : Binding → List Node
  | declaration _ _ value _ | assignment _ value => value.operands
  | single _ value => [value]

def line : Binding → Option Nat
  | declaration _ _ _ line => line
  | assignment _ value => value.line
  | single id _ => id.line

def head (d : Dialect) : Binding → String
  | declaration name _ _ _ => name
  | assignment id _ | single id _ => d.variableRef id.name

def look (d : Dialect) (env : Environment) : Binding → String → String
  | declaration .. => env.asValue d
  | assignment .. | single .. => env.asVariable d

/-- The value of the statement: its operands in the environment before it. -/
def value (d : Dialect) (env : Environment) (b : Binding) : String :=
  " ".intercalate (b.operands.map (Node.read (b.look d env)))

/-- The statement as it is written behind others. -/
def row (d : Dialect) (env : Environment) (b : Binding) : String :=
  Text.repeated (b.line.getD env.line - env.line) '\n' ++ b.head d ++ ": " ++ b.value d env ++ ";"

def bind (d : Dialect) (env : Environment) (b : Binding) : Environment :=
  match b with
  | declaration name .. =>
    { env with line := b.line.getD env.line, declared := (name, b.value d env) :: env.declared }
  | assignment id _ | single id _ =>
    { env with line := b.line.getD env.line, assigned := id.name :: env.assigned }

/-- Statements in a row, each of them in the environment that the ones before it make. -/
def rows (d : Dialect) : Environment → List Binding → List String
  | _, [] => []
  | env, b :: bs => b.row d env :: rows d (b.bind d env) bs

end Binding

theorem Render.node_of_bare {id : Identifier Node} (bare : id.isBound = false) :
    node (.identifier id) = reference id := by
  obtain ⟨name, value, placeholder, rest, line⟩ := id
  match value, bare with
  | none, _ => rfl
  | some .null, _ => rfl

/-- In the pass, plain names are rendered as they are looked up. -/
def Pass.Reads (p : Pass) (d : Dialect) (look : String → String) : Prop := ∀ id : Identifier Node,
  id.placeholder = false → id.rest = false → Render.referenceText d p id = look id.name

namespace Node.Operand

open Rendering

variable {n : Node}

theorem isExpression (h : n.Operand) : n.isExpression = false := by cases h <;> rfl

theorem children (h : n.Operand) : n.children = [] := by cases h <;> rfl

theorem handsBlock (h : n.Operand) : n.handsBlock = false := by cases h <;> rfl

theorem isMapLiteral (h : n.Operand) : n.isMapLiteral = false := by cases h <;> rfl

private theorem read_unended {look : String → String} (h : n.Operand)
    (free : ∀ name, Unended name → Unended (look name)) :
    Unended (n.read look) := by
  induction h with
  | literal _ h => exact h
  | number value h => exact (Unended.number value).append (Unended.rowwise.optional h)
  | quoted text quote => exact (quote.append text).append quote
  | boolean value =>
    show Unended (if value then "true" else "false")
    cases value <;> decide
  | color h => exact h
  | name _ _ _ h => exact free _ h
  | binary h _ _ ihl ihr =>
    have blank : Unended " " := by decide
    exact (((ihl.append blank).append h.spelling).append blank).append ihr

/-- To render an operand is to read it, if names are rendered that way. The pass stays as it is. -/
theorem gives {look : String → String} (h : n.Operand) {σ : Style} {p : Pass} (names : p.Reads σ.dialect look) :
    (Render.node n).Gives σ p (n.read look) p := by
  induction h with
  | literal | number | quoted | boolean | color => exact gives_pure.2 ⟨rfl, rfl⟩
  | @name id bare plain single _ =>
    have reference : (Render.reference id).Gives σ p (look id.name) p :=
      (gives_dialect.2 ⟨rfl, rfl⟩).bind (gives_observe.2 ⟨(names id plain single).symm, rfl⟩)
    rwa [← Render.node_of_bare bare] at reference
  | @binary operator left right _ _ hr ihl ihr =>
    refine ihl.bind (ihr.bind (gives_pure.2 ⟨?_, rfl⟩))
    rw [Render.binary, hr.isExpression]
    rfl

private theorem gives_each {ns : List Node} {look : String → String} (h : ∀ n ∈ ns, n.Operand) {σ : Style} {p : Pass}
    (names : p.Reads σ.dialect look) : (Render.each ns).Gives σ p (ns.map (Node.read look)) p := by
  induction ns with
  | nil => exact gives_pure.2 ⟨rfl, rfl⟩
  | cons n ns ih =>
    obtain ⟨hn, hns⟩ := List.forall_mem_cons.1 h
    exact (hn.gives names).bind ((ih hns).bind (gives_pure.2 ⟨rfl, rfl⟩))

private theorem join_separated (inValue : Bool) (f : Node → String) (t : String) {ns : List Node}
    (h : ∀ n ∈ ns, n.Operand) :
    t ++ String.join ((ns.zip (ns.map f)).map fun x => Render.separator inValue x.1 ++ x.2) =
      " ".intercalate (t :: ns.map f) := by
  induction ns generalizing t with
  | nil => simp
  | cons n ns ih =>
    obtain ⟨hn, hns⟩ := List.forall_mem_cons.1 h
    have blank : Render.separator inValue n = " " := by simp [Render.separator, hn.children]
    rw [List.map_cons, String.intercalate_cons_cons, ← ih (f n) hns, List.zip_cons_cons, List.map_cons,
      String.join_cons]
    simp only [blank, String.append_assoc]

theorem joinOperands (inValue : Bool) (f : Node → String) {ns : List Node} (h : ∀ n ∈ ns, n.Operand) :
    Render.joinOperands inValue ns (ns.map f) = " ".intercalate (ns.map f) := by
  cases ns with
  | nil => rfl
  | cons n ns => exact join_separated inValue f (f n) (List.forall_mem_cons.1 h).2

theorem lastHandsBlock {ns : List Node} (h : ∀ n ∈ ns, n.Operand) : lastHandsBlock ns = false := by
  induction ns with
  | nil => rfl
  | cons n ns ih =>
    obtain ⟨hn, hns⟩ := List.forall_mem_cons.1 h
    cases ns with
    | nil => exact hn.handsBlock
    | cons m ms => exact ih hns

theorem inlineName? {e : Expression Node} (h : ∀ n ∈ e.operands, n.Operand) : e.inlineName? = none := by
  cases found : e.inlineName? with
  | none => rfl
  | some name =>
    obtain ⟨id, held, -, bound⟩ := Expression.identifier_of_inlineName? found
    cases h _ held with
    | name bare =>
      rw [bare] at bound
      cases bound

theorem holdsMap {e : Expression Node} (h : ∀ n ∈ e.operands, n.Operand) : e.holdsMap = false := by
  rw [Expression.holdsMap, List.any_eq_false]
  exact fun n hn => by simp [(h n hn).isMapLiteral]

end Node.Operand

namespace Render

open Rendering

variable {σ : Style} {p : Pass}

/-- In the value of a declaration or of an assignment, a list is its operands, with the separators they have there. -/
theorem gives_list (inside : p.inAny [.declarationValue]) (noCall : p.inAny [.call] = false) (e : Expression Node)
    {texts : Rendering (List String)} {ts : List String} {q : Pass}
    (operands : texts.Gives σ (p.enter [.expression]) ts q) :
    (expression e texts).Gives σ p (joinOperands true e.operands ts) (q.leave p) := by
  have listed : p.inAny [.expression, .arguments, .declarationValue, .mapLiteral, .condition] := by
    simp_all [Pass.inAny]
  refine .bind (a := true) (gives_observe.2 ⟨listed.symm, rfl⟩) ?_
  refine .bind (a := true) (gives_observe.2 ⟨inside.symm, rfl⟩) ?_
  refine .bind (a := false) (gives_observe.2 ⟨by rw [Bool.not_true, Bool.and_false], rfl⟩) ?_
  simp only [Bool.false_eq_true, if_false]
  refine .bind (gives_pure.2 ⟨rfl, rfl⟩) (operands.within.bind ?_)
  refine .bind (a := false) (gives_observe.2 ⟨?_, rfl⟩) (gives_pure.2 ⟨?_, rfl⟩)
  · exact (Bool.and_eq_false_imp.2 fun inCall => by cases noCall.symm.trans inCall).symm
  · rw [if_neg Bool.false_ne_true, String.empty_append]

private theorem gives_closing {e : Expression Node} (single : e.inlineName? = none) (noBlock : e.handsBlock = false)
    {text : String} (free : Unended text) (before name : String) (slot : Nat) (p : Pass) :
    (closing e before name slot text).Gives σ p (before ++ name ++ ": " ++ text ++ ";")
      (p.learn (·.closeDeclaration slot text)) := by
  simp only [closing, single, free.endsWith, noBlock, Bool.or_self, Bool.false_eq_true, if_false]
  exact (gives_register.2 rfl).bind (a := ()) (gives_pure.2 ⟨rfl, rfl⟩)

/-- A declaration is open while its operands are rendered, and has their text for its value after that. -/
theorem gives_property (noCall : p.inAny [.call] = false) {value : Expression Node} (single : value.inlineName? = none)
    (noBlock : value.handsBlock = false) (name : String) (nameLine line : Option Nat)
    {texts : Rendering (List String)} {ts : List String}
    (operands : texts.Gives σ
      ((((p.reach line).enter [.declarationValue]).learn (·.openDeclaration name)).enter [.expression]) ts
      ((((p.reach line).enter [.declarationValue]).learn (·.openDeclaration name)).enter [.expression]))
    (free : Unended (joinOperands true value.operands ts)) :
    (property line (named [.literal name nameLine] (each [.literal name nameLine])) value
      (expression value texts)).Gives σ p
      (p.lead line ++ name ++ ": " ++ joinOperands true value.operands ts ++ ";")
      ((p.reach line).learn fun r =>
        (r.openDeclaration name).closeDeclaration r.nextSlot (joinOperands true value.operands ts)) := by
  -- the name is rendered before the declaration is open, its value after that
  have named : (named [.literal name nameLine] (each [.literal name nameLine])).Gives σ
      ((p.reach line).enter [.declarationValue]) name ((p.reach line).enter [.declarationValue]) := by
    have piece : joinSegments [.literal name nameLine] [name] = name := by simp [joinSegments, Node.isExpression]
    have texts : (each [.literal name nameLine]).Gives σ ((p.reach line).enter [.declarationValue]) [name]
        ((p.reach line).enter [.declarationValue]) := rfl
    exact texts.bind (gives_pure.2 ⟨piece.symm, rfl⟩)
  have inside : (((p.reach line).enter [.declarationValue]).learn (·.openDeclaration name)).inAny
      [.declarationValue] := by
    simp [Pass.inAny, Pass.enter, Pass.learn]
  have outside : (((p.reach line).enter [.declarationValue]).learn (·.openDeclaration name)).inAny [.call] = false := by
    simpa [Pass.inAny, Pass.enter, Pass.learn] using noCall
  have content := gives_list inside outside value operands
  have closed := gives_closing single noBlock free (σ := σ) (p.lead line) name (p.reach line).registry.nextSlot
    (((p.reach line).enter [.declarationValue]).learn (·.openDeclaration name))
  rw [property_eq]
  exact .bind (gives_lineStart.2 ⟨rfl, rfl⟩) <| gives_within.2 ⟨_, named.bind <| .bind (gives_observe.2 ⟨rfl, rfl⟩) <|
    .bind (a := ()) (gives_register.2 rfl) <| content.bind closed, rfl⟩

private theorem gives_bound {value : String} (free : Unended value) (before name : String) (p : Pass) :
    (do
      register (·.addVariable name)
      return before ++ (← variableRef name) ++ ": " ++ Text.dropTrailing ';' value ++ ";" : Rendering String).Gives σ p
        (before ++ σ.dialect.variableRef name ++ ": " ++ value ++ ";") (p.learn (·.addVariable name)) := by
  rw [free.dropTrailing]
  exact (gives_register.2 rfl).bind (a := ()) (.bind (gives_variableRef.2 ⟨rfl, rfl⟩) (gives_pure.2 ⟨rfl, rfl⟩))

/-- An assignment outside of calls of what is no map. Its operands stand apart by blanks. -/
theorem gives_assignment (noCall : p.inAny [.call] = false) {value : Expression Node} (noMap : value.holdsMap = false)
    (name : String) {texts : Rendering (List String)} {ts : List String}
    (operands : texts.Gives σ ((p.reach value.line).enter [.declarationValue]) ts
      ((p.reach value.line).enter [.declarationValue])) (free : Unended (" ".intercalate ts)) :
    (assignment name value texts).Gives σ p
      (p.lead value.line ++ σ.dialect.variableRef name ++ ": " ++ " ".intercalate ts ++ ";")
      ((p.reach value.line).learn (·.addVariable name)) := by
  simp only [assignment, noMap, Bool.false_eq_true, if_false]
  refine .bind (a := false) (gives_observe.2 ⟨noCall.symm, rfl⟩) ?_
  simp only [Bool.false_eq_true, if_false]
  exact .bind (gives_lineStart.2 ⟨rfl, rfl⟩) <|
    operands.within.bind (gives_bound free (p.lead value.line) name (p.reach value.line))

end Render

namespace Environment

open Rendering

/-- The pass between two statements: outside of everything, with the registry that the statements so far have left. No
operand asks for maps or for the call being rendered. -/
structure Models (env : Environment) (p : Pass) : Prop where
  depth : p.depth = 0
  line : p.line = env.line
  places : p.places = []
  returning : p.returning = false
  params : p.registry.paramNames = []
  known : ∀ name, p.registry.knowsVariable name ↔ name ∈ env.assigned
  declarations : p.registry.declarations = Registry.valued env.declared.reverse
  free : ∀ d ∈ env.declared, Unended d.2

private theorem models_start : ({} : Environment).Models {} :=
  ⟨rfl, rfl, rfl, rfl, rfl, by simp [Registry.knowsVariable], rfl, by simp⟩

variable {env : Environment} {p : Pass} {d : Dialect} {name : String}

theorem Models.valueOf? (h : env.Models p) (name : String) : p.registry.valueOf? name = env.declared.lookup name := by
  have reversed : (Registry.valued env.declared.reverse).reverse = Registry.valued env.declared := by
    simp [Registry.valued]
  rw [Registry.valueOf?, h.declarations, reversed, Registry.findSome?_valued]

private theorem unended_asVariable (h : Unended name) : Unended (env.asVariable d name) := by
  unfold asVariable
  split
  · exact h.variableRef d
  · exact h

private theorem Models.unended_asValue (h : env.Models p) (hn : Unended name) : Unended (env.asValue d name) := by
  unfold asValue
  cases found : env.declared.lookup name with
  | none => exact unended_asVariable hn
  | some value =>
    obtain ⟨later, earlier, split, -⟩ := List.lookup_eq_some_iff.1 found
    exact h.free (name, value) (split ▸ List.mem_append_right later List.mem_cons_self)

private theorem Models.reads_asVariable (h : env.Models p) :
    (p.enter [.declarationValue]).Reads d (env.asVariable d) := by
  intro id plain single
  have outside : (p.enter [.declarationValue]).inAny [.expression] = false := by
    simp [Pass.inAny, Pass.enter, h.places]
  have noParam : p.registry.knowsParam id.name = false := by simp [Registry.knowsParam, h.params]
  simp only [Render.referenceText, outside, plain, single, Pass.enter_registry, noParam, Bool.or_false,
    Bool.false_eq_true, if_false, h.known, asVariable]

private theorem Models.reads_asValue (h : env.Models p) (declared : String) :
    (((p.enter [.declarationValue]).learn (·.openDeclaration declared)).enter [.expression]).Reads d
      (env.asValue d) := by
  intro id plain single
  have inside : (((p.enter [.declarationValue]).learn (·.openDeclaration declared)).enter [.expression]).inAny
      [.expression] = true := by
    simp [Pass.inAny, Pass.enter, Pass.learn]
  have noCall : (((p.enter [.declarationValue]).learn (·.openDeclaration declared)).enter [.expression]).inAny
      [.call] = false := by
    simp [Pass.inAny, Pass.enter, Pass.learn, h.places]
  have noParam : (p.registry.openDeclaration declared).knowsParam id.name = false := by
    simp [Registry.knowsParam, Registry.openDeclaration, h.params]
  have known : (p.registry.openDeclaration declared).knowsVariable id.name ↔ id.name ∈ env.assigned := h.known id.name
  simp only [Render.referenceText, inside, noCall, plain, single, Pass.enter_registry, Pass.learn_registry, noParam,
    Bool.or_false, Bool.false_eq_true, if_false, if_true, known, Registry.valueOf?_openDeclaration, h.valueOf?, asValue,
    asVariable]

/-- At the level of statements nothing is indented. -/
theorem Models.lead (h : env.Models p) (line : Option Nat) :
    p.lead line = Text.repeated (line.getD env.line - env.line) '\n' := by
  have indent : p.indent = "" := by rw [Pass.indent, h.depth]; rfl
  cases line with
  | none => simp [Pass.lead, Pass.breaksTo, indent, Text.repeated]
  | some line => simp [Pass.lead, Pass.breaksTo, Pass.owed, indent, h.line]

theorem Models.reach (h : env.Models p) (line : Option Nat) :
    ({ env with line := line.getD env.line } : Environment).Models (p.reach line) := by
  cases line with
  | none => exact h
  | some line => exact ⟨h.depth, rfl, h.places, h.returning, h.params, h.known, h.declarations, h.free⟩

theorem Models.addVariable (h : env.Models p) (name : String) :
    ({ env with assigned := name :: env.assigned } : Environment).Models (p.learn (·.addVariable name)) where
  depth := h.depth
  line := h.line
  places := h.places
  returning := h.returning
  params := h.params
  known other := by simp [Registry.knowsVariable_addVariable, h.known]
  declarations := h.declarations
  free := h.free

theorem Models.declare (h : env.Models p) (name : String) {value : String} (free : Unended value) :
    ({ env with declared := (name, value) :: env.declared } : Environment).Models
      (p.learn fun r => (r.openDeclaration name).closeDeclaration r.nextSlot value) where
  depth := h.depth
  line := h.line
  places := h.places
  returning := h.returning
  params := h.params
  known := h.known
  declarations := by
    simp [Pass.learn, Registry.openDeclaration, Registry.closeDeclaration, Registry.nextSlot, h.declarations,
      List.modify_eq_take_cons_drop, Registry.valued]
  free := List.forall_mem_cons.2 ⟨free, h.free⟩

end Environment

namespace Binding

open Rendering

def Plain (b : Binding) : Prop := ∀ n ∈ b.operands, n.Operand

variable {σ : Style} {env : Environment} {p : Pass} {b : Binding}

private theorem unended_value (plain : b.Plain) (h : env.Models p) : Unended (b.value σ.dialect env) := by
  have blank : Unended " " := by decide
  refine blank.intercalate fun t ht => ?_
  obtain ⟨n, hn, rfl⟩ := List.mem_map.1 ht
  refine (plain n hn).read_unended fun name free => ?_
  cases b with
  | declaration => exact h.unended_asValue free
  | assignment | single => exact Environment.unended_asVariable free

private theorem gives_declaration (h : env.Models p) {name : String} {nameLine line : Option Nat}
    {value : Expression Node}
    (plain : (declaration name nameLine value line).Plain) : ∃ q,
    (Render.node (declaration name nameLine value line).node).Gives σ p
      ((declaration name nameLine value line).row σ.dialect env) q ∧
    ((declaration name nameLine value line).bind σ.dialect env).Models q := by
  have start := h.reach line
  have free := unended_value (σ := σ) plain h
  have noCall : p.inAny [.call] = false := by simp [Pass.inAny, h.places]
  have joined : (declaration name nameLine value line).value σ.dialect env = Render.joinOperands true value.operands
      (value.operands.map (Node.read (env.asValue σ.dialect))) := (Node.Operand.joinOperands true _ plain).symm
  have texts := Node.Operand.gives_each plain (σ := σ) (start.reads_asValue name)
  have run := Render.gives_property noCall (Node.Operand.inlineName? plain) (Node.Operand.lastHandsBlock plain) name
    nameLine line texts (joined ▸ free)
  refine ⟨_, ?_, start.declare name free⟩
  rw [row, ← h.lead, joined]
  exact run

theorem gives_assignment (h : env.Models p) {id : Identifier Node} {value : Expression Node}
    (plain : (assignment id value).Plain) : ∃ q,
    (Render.node (assignment id value).node).Gives σ p ((assignment id value).row σ.dialect env) q ∧
    ((assignment id value).bind σ.dialect env).Models q := by
  have start := h.reach value.line
  have noCall : p.inAny [.call] = false := by simp [Pass.inAny, h.places]
  have texts := Node.Operand.gives_each plain (σ := σ) start.reads_asVariable
  refine ⟨(p.reach value.line).learn (·.addVariable id.name), ?_, start.addVariable id.name⟩
  rw [row, ← h.lead]
  exact Render.gives_assignment noCall (Node.Operand.holdsMap plain) id.name texts (unended_value plain h)

private theorem gives_single (h : env.Models p) {id : Identifier Node} {value : Node}
    (plain : (single id value).Plain) : ∃ q,
    (Render.node (single id value).node).Gives σ p ((single id value).row σ.dialect env) q ∧
    ((single id value).bind σ.dialect env).Models q := by
  have start := h.reach id.line
  have operand : value.Operand := plain value List.mem_cons_self
  have text := operand.gives (σ := σ) start.reads_asVariable
  have alone : (single id value).value σ.dialect env = value.read (env.asVariable σ.dialect) :=
    String.intercalate_singleton ..
  have bound : Render.node (single id value).node = Render.boundValue id.name id.line (Render.node value) := by
    cases operand <;> rfl
  refine ⟨(p.reach id.line).learn (·.addVariable id.name), ?_, start.addVariable id.name⟩
  rw [bound, row, ← h.lead]
  refine .bind (gives_lineStart.2 ⟨rfl, rfl⟩) (text.within.bind ?_)
  rw [alone]
  exact Render.gives_bound (alone ▸ unended_value plain h) (p.lead id.line) id.name (p.reach id.line)

private theorem gives_row (h : env.Models p) (plain : b.Plain) : ∃ q,
    (Render.node b.node).Gives σ p (b.row σ.dialect env) q ∧ (b.bind σ.dialect env).Models q := by
  cases b with
  | declaration => exact gives_declaration h plain
  | assignment => exact gives_assignment h plain
  | single => exact gives_single h plain

private theorem gives_rows {bs : List Binding} (h : env.Models p) (plain : ∀ b ∈ bs, b.Plain) (previous : Option Nat) :
    ∃ q,
    (Render.statements previous (bs.map node)).Gives σ p (String.join (rows σ.dialect env bs)) q := by
  induction bs generalizing env p previous with
  | nil => exact ⟨p, gives_pure.2 ⟨rfl, rfl⟩⟩
  | cons b bs ih =>
    obtain ⟨hb, hbs⟩ := List.forall_mem_cons.1 plain
    obtain ⟨r, row, after⟩ := gives_row h hb (σ := σ)
    obtain ⟨q, rest⟩ := ih after hbs b.node.line
    have statement : (Render.statement previous b.node).Gives σ p (b.row σ.dialect env) r := by cases b <;> exact row
    refine ⟨q, ?_⟩
    rw [List.map_cons, Render.statements_cons, rows, String.join_cons]
    exact statement.bind (rest.bind (gives_pure.2 ⟨rfl, rfl⟩))

/-- Declarations and assignments of plain operands in a row are rendered as their environments say. Each of them is
written with its operands in the environment of the statements before it: in a declaration a name reads as the value
that it was declared with last, or else as a variable if it was assigned, or else as itself, in an assignment as a
variable or itself, and nowhere as what its own statement makes of it. -/
theorem bindings_resolve (σ : Style) (bs : List Binding) (plain : ∀ b ∈ bs, b.Plain) : ∃ q,
    (Render.statements none (bs.map node)).Gives σ {} (String.join (rows σ.dialect {} bs)) q :=
  gives_rows Environment.models_start plain none

/-- A variable with a dollar sign, a declaration read back in another one, and names that are their own. -/
theorem bindings_resolve_height :
    let name (x : String) : Node := .identifier { name := x }
    let word (x : String) : Node := .literal x none
    let bs : List Binding := [
      .assignment { name := "$gap" } ⟨[word "4px"], some 1⟩,
      .declaration "width" none ⟨[.binary "+" (word "2px") (name "$gap")], none⟩ (some 2),
      .declaration "height" none ⟨[name "width", name "height"], none⟩ (some 3),
      .assignment { name := "half" } ⟨[name "height", name "half"], some 4⟩,
      .declaration "height" none ⟨[name "height", name "half"], none⟩ (some 5)]
    (∀ b ∈ bs, b.Plain) ∧ ∃ q, (Render.statements none (bs.map node)).Gives { dialect := .less } {}
      ("@gap: 4px;\nwidth: 2px + @gap;\nheight: 2px + @gap height;\n@half: height half;\n" ++
        "height: 2px + @gap height @half;") q := by
  intro name word bs
  have plain : ∀ b ∈ bs, b.Plain := by
    have ofName (x : String) (free : Unended x) : (name x).Operand := .name rfl rfl rfl free
    have ofWord (x : String) (free : Unended x) : (word x).Operand := .literal none free
    have gap : (Node.binary "+" (word "2px") (name "$gap")).Operand :=
      .binary (by decide) (ofWord _ (by decide)) (ofName _ (by decide))
    simp only [bs, List.forall_mem_cons, Plain, operands]
    refine ⟨⟨?_, nofun⟩, ⟨gap, nofun⟩, ⟨?_, ?_, nofun⟩, ⟨?_, ?_, nofun⟩, ⟨?_, ?_, nofun⟩, nofun⟩
    · exact ofWord _ (by decide)
    all_goals exact ofName _ (by decide)
  obtain ⟨q, run⟩ := bindings_resolve { dialect := .less } bs plain
  have rows : String.join (rows .less {} bs) = "@gap: 4px;\nwidth: 2px + @gap;\nheight: 2px + @gap height;\n" ++
      "@half: height half;\n" ++ "height: 2px + @gap height @half;" := by decide +kernel
  exact ⟨plain, q, rows ▸ run⟩

end Binding

end Stylesheet
