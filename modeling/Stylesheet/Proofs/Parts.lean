import Stylesheet.Tree.Shape

/-!
# Parts of trees

The nodes that a node holds, at any depth and in any field, and the texts it holds itself. A property of all
nodes of a tree splits into the property of the root and the same for each of its parts.
-/

namespace Stylesheet

@[simp] def statementsOf : Option (Body Node) → List Node
  | none => []
  | some b => b.statements

@[simp] def operandsOf : Option (Expression Node) → List Node
  | none => []
  | some e => e.operands

mutual

/-- Leaves and bare names, and what lists and operators make of them. -/
def Node.isSimple : Node → Bool
  | .null | .literal .. | .number .. | .quoted _ | .boolean _ | .color _ => true
  | .identifier id => !id.isBound
  | .expression e => allSimple e.operands
  | .binary _ left right => left.isSimple && right.isSimple
  | .unary _ operand => operand.isSimple
  | _ => false
termination_by structural n => n

def allSimple : List Node → Bool
  | [] => true
  | n :: ns => n.isSimple && allSimple ns
termination_by structural ns => ns

end

namespace Node

def isConditional : Node → Bool
  | conditional .. => true
  | _ => false

def isBlock : Node → Bool
  | block _ => true
  | _ => false

def isKeyframes : Node → Bool
  | keyframes .. => true
  | _ => false

def isSelector : Node → Bool
  | selector .. => true
  | _ => false

def isLiteral : Node → Bool
  | literal .. => true
  | _ => false

def isCallable : Node → Bool
  | callable .. => true
  | _ => false

def isFunction : Node → Bool
  | callable _ _ (some b) _ => DefinitionKind.ofBody b.statements == .function
  | _ => false

def isCall : Node → Bool
  | call .. => true
  | _ => false

def isImportSheet : Node → Bool
  | importSheet .. => true
  | _ => false

/-- The pieces that a name, a selector or the head of an at-rule is put together from. -/
def segments : Node → List Node
  | selector segments _ | property segments _ _ | keyframes segments _ _ | feature segments _
  | atRule _ segments _ _ => segments
  | _ => []

/-- The nodes right below a node, from all of its fields. Parameters are no nodes, but their defaults are. -/
@[simp] def parts : Node → List Node
  | identifier id => id.value.toList
  | expression e => e.operands
  | arguments args => args
  | block b => b.statements
  | selector segments _ => segments
  | ruleSet selectors b _ => selectors ++ statementsOf b
  | property segments value _ => segments ++ value.operands
  | call _ args b _ => args ++ statementsOf b
  | callable _ params b _ => params.flatMap (·.value.toList) ++ statementsOf b
  | returned value _ => value.operands
  | conditional condition b alternatives _ _ => condition :: statementsOf b ++ alternatives
  | loop _ _ iterable b _ => operandsOf iterable ++ statementsOf b
  | binary _ left right => [left, right]
  | unary _ operand => [operand]
  | keyframes segments b _ => segments ++ statementsOf b
  | media q b _ => q :: statementsOf b
  | queryList queries => queries
  | query features medium _ => features ++ medium.toList
  | feature segments value => segments ++ operandsOf value
  | supports condition b _ => condition :: statementsOf b
  | xmlNamespace value _ _ => [value]
  | importSheet path _ => path.operands
  | extend selectors _ => selectors
  | atRule _ segments b _ => segments ++ statementsOf b
  | member left right => [left, right]
  | mapLiteral entries _ => entries.map (·.2)
  | null | literal .. | number .. | quoted _ | boolean _ | color _ | charset .. | comment _ => []

@[simp] def texts : Node → List String
  | literal text _ => [text]
  | identifier id => [id.name]
  | number _ suffix => suffix.toList
  | quoted q => [q.text, q.quote]
  | color text => [text]
  | call name _ _ _ => [name]
  | callable name params _ _ => name :: params.map (·.name)
  | loop item key _ _ _ => item :: key.toList
  | binary operator _ _ => [operator]
  | unary operator _ => [operator]
  | query _ _ predicate => predicate.toList
  | xmlNamespace _ shortName _ => shortName.toList
  | charset encoding _ => [encoding.text, encoding.quote]
  | atRule name _ _ _ => [name]
  | comment c => [c.text]
  | mapLiteral entries _ => entries.map (·.1)
  | null | boolean _ | expression _ | arguments _ | block _ | selector .. | ruleSet .. | property .. |
    returned .. | conditional .. | keyframes .. | media .. | queryList _ | feature .. | supports .. |
    importSheet .. | extend .. | member .. => []

/-- A node occurs in itself and in whatever holds it. -/
inductive Occurs : Node → Node → Prop
  | here (n : Node) : Occurs n n
  | within {m c n : Node} (inside : Occurs m c) (held : c ∈ n.parts) : Occurs m n

def Every (P : Node → Prop) (n : Node) : Prop := ∀ m, m.Occurs n → P m

theorem Occurs.trans {a b c : Node} (inner : Occurs a b) (outer : Occurs b c) : Occurs a c := by
  induction outer with
  | here => exact inner
  | within _ held ih => exact .within ih held

private theorem every_iff (P : Node → Prop) (n : Node) : n.Every P ↔ P n ∧ ∀ c ∈ n.parts, c.Every P := by
  constructor
  · intro h
    exact ⟨h n (.here n), fun c hc m hm => h m (.within hm hc)⟩
  · rintro ⟨hn, hparts⟩ m hm
    cases hm with
    | here => exact hn
    | within inside held => exact hparts _ held m inside

theorem Every.self {P : Node → Prop} {n : Node} (h : n.Every P) : P n := h n (.here n)

theorem Every.part {P : Node → Prop} {c n : Node} (h : n.Every P) (held : c ∈ n.parts) : c.Every P :=
  ((every_iff P n).1 h).2 c held

theorem Every.mono {P Q : Node → Prop} {n : Node} (h : n.Every P) (hpq : ∀ m, P m → Q m) : n.Every Q :=
  fun m hm => hpq m (h m hm)

end Node

def EveryIn (P : Node → Prop) (ns : List Node) : Prop := ∀ n ∈ ns, n.Every P

variable {P : Node → Prop}

@[simp] theorem everyIn_nil : EveryIn P [] := by simp [EveryIn]

@[simp] theorem everyIn_cons (n : Node) (ns : List Node) : EveryIn P (n :: ns) ↔ n.Every P ∧ EveryIn P ns := by
  simp [EveryIn]

@[simp] theorem everyIn_append (ns ms : List Node) : EveryIn P (ns ++ ms) ↔ EveryIn P ns ∧ EveryIn P ms := by
  simp [EveryIn, or_imp, forall_and]

/-- The name assigned inside a declaration is that of a bound identifier among the operands. -/
theorem Expression.identifier_of_inlineName? {e : Expression Node} {name : String} (h : e.inlineName? = some name) :
    ∃ id : Identifier Node, .identifier id ∈ e.operands ∧ id.name = name ∧ id.isBound := by
  unfold Expression.inlineName? at h
  split at h
  · next id ho =>
    split at h
    · next hv => exact ⟨id, ho ▸ List.mem_singleton_self _, Option.some.inj h, by rw [Identifier.isBound, hv]⟩
    · cases h
  · cases h

theorem Identifier.bareName?_of_unbound {id : Identifier Node} (bare : id.isBound = false) :
    (Node.identifier id).bareName? = some id.name := by simp [Node.bareName?, bare]

theorem Node.every_iff_everyIn (n : Node) : n.Every P ↔ P n ∧ EveryIn P n.parts := Node.every_iff P n

theorem Node.Every.parts {n : Node} (h : n.Every P) : EveryIn P n.parts := ((Node.every_iff_everyIn n).1 h).2

end Stylesheet
