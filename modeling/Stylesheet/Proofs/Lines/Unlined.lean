import Stylesheet.Proofs.Parts

/-!
# Trees without lines

A tree with all of its lines taken out, the lines of identifiers, lists and bodies included. Two trees that are the
same but for their lines are the same without them, and no shape that decides the output looks at a line.
-/

namespace Stylesheet

mutual

def Node.unlined : Node → Node
  | .null => .null
  | .literal text _ => .literal text none
  | .identifier id => .identifier ⟨id.name, unlinedValue id.value, id.placeholder, id.rest, none⟩
  | .number value suffix => .number value suffix
  | .quoted q => .quoted q
  | .boolean value => .boolean value
  | .color text => .color text
  | .expression e => .expression ⟨unlinedAll e.operands, none⟩
  | .arguments args => .arguments (unlinedAll args)
  | .block b => .block ⟨unlinedAll b.statements, none⟩
  | .selector segments _ => .selector (unlinedAll segments) none
  | .ruleSet selectors b _ => .ruleSet (unlinedAll selectors) (unlinedBodyOf b) none
  | .property segments value _ => .property (unlinedAll segments) ⟨unlinedAll value.operands, none⟩ none
  | .call name args b _ => .call name (unlinedAll args) (unlinedBodyOf b) none
  | .callable name params b _ => .callable name (unlinedParams params) (unlinedBodyOf b) none
  | .returned value _ => .returned ⟨unlinedAll value.operands, none⟩ none
  | .conditional condition b alternatives negated _ =>
    .conditional condition.unlined (unlinedBodyOf b) (unlinedAll alternatives) negated none
  | .loop item key iterable b _ => .loop item key (unlinedExpressionOf iterable) (unlinedBodyOf b) none
  | .binary operator left right => .binary operator left.unlined right.unlined
  | .unary operator operand => .unary operator operand.unlined
  | .keyframes segments b _ => .keyframes (unlinedAll segments) (unlinedBodyOf b) none
  | .media q b _ => .media q.unlined (unlinedBodyOf b) none
  | .queryList queries => .queryList (unlinedAll queries)
  | .query features medium predicate => .query (unlinedAll features) (unlinedValue medium) predicate
  | .feature segments value => .feature (unlinedAll segments) (unlinedExpressionOf value)
  | .supports condition b _ => .supports condition.unlined (unlinedBodyOf b) none
  | .xmlNamespace value shortName _ => .xmlNamespace value.unlined shortName none
  | .charset encoding _ => .charset encoding none
  | .importSheet path _ => .importSheet ⟨unlinedAll path.operands, none⟩ none
  | .extend selectors _ => .extend (unlinedAll selectors) none
  | .atRule name segments b _ => .atRule name (unlinedAll segments) (unlinedBodyOf b) none
  | .comment c => .comment { c with line := none }
  | .member left right => .member left.unlined right.unlined
  | .mapLiteral entries _ => .mapLiteral (unlinedEntries entries) none
termination_by structural n => n

def unlinedAll : List Node → List Node
  | [] => []
  | n :: ns => n.unlined :: unlinedAll ns
termination_by structural ns => ns

def unlinedValue : Option Node → Option Node
  | none => none
  | some n => some n.unlined
termination_by structural n => n

def unlinedExpressionOf : Option (Expression Node) → Option (Expression Node)
  | none => none
  | some e => some ⟨unlinedAll e.operands, none⟩
termination_by structural e => e

def unlinedBodyOf : Option (Body Node) → Option (Body Node)
  | none => none
  | some b => some ⟨unlinedAll b.statements, none⟩
termination_by structural b => b

def unlinedParams : List (Identifier Node) → List (Identifier Node)
  | [] => []
  | id :: ids => ⟨id.name, unlinedValue id.value, id.placeholder, id.rest, none⟩ :: unlinedParams ids
termination_by structural ids => ids

def unlinedEntries : List (String × Node) → List (String × Node)
  | [] => []
  | (key, n) :: es => (key, n.unlined) :: unlinedEntries es
termination_by structural es => es

end

def Identifier.unlined (id : Identifier Node) : Identifier Node :=
  { id with value := unlinedValue id.value, line := none }

def Expression.unlined (e : Expression Node) : Expression Node := ⟨unlinedAll e.operands, none⟩

def Body.unlined (b : Body Node) : Body Node := ⟨unlinedAll b.statements, none⟩

def Sheet.unlined (s : Sheet) : Sheet := ⟨unlinedAll s.statements⟩

@[simp] theorem unlinedAll_eq (ns : List Node) : unlinedAll ns = ns.map Node.unlined := by
  induction ns with
  | nil => rfl
  | cons n ns ih => rw [unlinedAll, ih, List.map_cons]

@[simp] theorem unlinedValue_eq (n : Option Node) : unlinedValue n = n.map Node.unlined := by
  cases n <;> rfl

@[simp] theorem Expression.unlined_operands (e : Expression Node) :
    e.unlined.operands = e.operands.map Node.unlined := unlinedAll_eq e.operands

theorem names_unlinedParams (ids : List (Identifier Node)) :
    (unlinedParams ids).map (·.name) = ids.map (·.name) := by
  induction ids with
  | nil => rfl
  | cons id ids ih => rw [unlinedParams, List.map_cons, List.map_cons, ih]

namespace Node

@[simp] theorem isExpression_unlined (n : Node) : n.unlined.isExpression = n.isExpression := by cases n <;> rfl

@[simp] theorem isMapLiteral_unlined (n : Node) : n.unlined.isMapLiteral = n.isMapLiteral := by cases n <;> rfl

@[simp] theorem quotedText?_unlined (n : Node) : n.unlined.quotedText? = n.quotedText? := by cases n <;> rfl

@[simp] theorem children_unlined (n : Node) : n.unlined.children = n.children.map unlined := by
  cases n <;> first | rfl | exact unlinedAll_eq _

@[simp] theorem chainStart?_unlined (n : Node) : n.unlined.chainStart? = n.chainStart? := by
  match n with
  | .member left _ => exact chainStart?_unlined left
  | .identifier _ => rfl
  | .null | .literal .. | .number .. | .quoted _ | .boolean _ | .color _ | .expression _ | .arguments _ | .block _
  | .selector .. | .ruleSet .. | .property .. | .call .. | .callable .. | .returned .. | .conditional ..
  | .loop .. | .binary .. | .unary .. | .keyframes .. | .media .. | .queryList _ | .query .. | .feature ..
  | .supports .. | .xmlNamespace .. | .charset .. | .importSheet .. | .extend .. | .atRule .. | .comment _
  | .mapLiteral .. => rfl
termination_by structural n

end Node

@[simp] theorem Identifier.isBound_unlined (id : Identifier Node) : id.unlined.isBound = id.isBound := by
  unfold Identifier.isBound Identifier.unlined
  cases id.value with
  | none => rfl
  | some v => cases v <;> rfl

@[simp] theorem Node.bareName?_unlined (n : Node) : n.unlined.bareName? = n.bareName? := by
  cases n with
  | identifier id =>
    show (if id.unlined.isBound then none else _) = if id.isBound then none else _
    rw [id.isBound_unlined]
  | _ => rfl

mutual

@[simp] theorem Node.handsBlock_unlined (n : Node) : n.unlined.handsBlock = n.handsBlock := by
  match n with
  | .call _ _ b _ => cases b <;> rfl
  | .expression e => exact lastHandsBlock_unlined e.operands
  | .null | .literal .. | .number .. | .quoted _ | .boolean _ | .color _ | .identifier _ | .arguments _ | .block _
  | .selector .. | .ruleSet .. | .property .. | .member .. | .callable .. | .returned .. | .conditional ..
  | .loop .. | .binary .. | .unary .. | .keyframes .. | .media .. | .queryList _ | .query .. | .feature ..
  | .supports .. | .xmlNamespace .. | .charset .. | .importSheet .. | .extend .. | .atRule .. | .comment _
  | .mapLiteral .. => rfl
termination_by structural n

private theorem lastHandsBlock_unlined (ns : List Node) : lastHandsBlock (unlinedAll ns) = lastHandsBlock ns := by
  match ns with
  | [] => rfl
  | [n] => exact n.handsBlock_unlined
  | _ :: n :: ns => exact lastHandsBlock_unlined (n :: ns)
termination_by structural ns

end

mutual

private theorem Node.isSome_range?_unlined (n : Node) : n.unlined.range?.isSome = n.range?.isSome := by
  match n with
  | .binary operator _ _ =>
    show (if _ then _ else _ : Option Range).isSome = (if _ then _ else _ : Option Range).isSome
    split <;> rfl
  | .expression e => exact isSome_firstRange?_unlined e.operands
  | .null | .literal .. | .number .. | .quoted _ | .boolean _ | .color _ | .identifier _ | .arguments _ | .block _
  | .selector .. | .ruleSet .. | .property .. | .member .. | .callable .. | .returned .. | .conditional ..
  | .loop .. | .call .. | .unary .. | .keyframes .. | .media .. | .queryList _ | .query .. | .feature ..
  | .supports .. | .xmlNamespace .. | .charset .. | .importSheet .. | .extend .. | .atRule .. | .comment _
  | .mapLiteral .. => rfl
termination_by structural n

theorem isSome_firstRange?_unlined (ns : List Node) :
    (firstRange? (unlinedAll ns)).isSome = (firstRange? ns).isSome := by
  match ns with
  | [] => rfl
  | n :: ns =>
    show (n.unlined.range? <|> firstRange? (unlinedAll ns)).isSome = (n.range? <|> firstRange? ns).isSome
    simp only [Option.orElse_eq_orElse, Option.orElse_eq_or, Option.isSome_or, n.isSome_range?_unlined,
      isSome_firstRange?_unlined ns]
termination_by structural ns

end

theorem ofBody_unlined (ns : List Node) :
    DefinitionKind.ofBody (ns.map Node.unlined) = DefinitionKind.ofBody ns := by
  cases ns with
  | nil => rfl
  | cons n ns => cases n <;> rfl

namespace Expression

variable (e : Expression Node)

@[simp] theorem holdsMap_unlined : e.unlined.holdsMap = e.holdsMap := by
  rw [holdsMap, holdsMap, unlined_operands, List.any_map]
  exact congrArg e.operands.any (funext fun n => n.isMapLiteral_unlined)

@[simp] theorem handsBlock_unlined : e.unlined.handsBlock = e.handsBlock :=
  lastHandsBlock_unlined e.operands

@[simp] theorem inlineName?_unlined : e.unlined.inlineName? = e.inlineName? := by
  rw [inlineName?, inlineName?, unlined_operands]
  match e.operands with
  | [] => rfl
  | [n] =>
    cases n with
    | identifier id =>
      obtain ⟨name, value, placeholder, rest, line⟩ := id
      cases value with
      | none => rfl
      | some v => cases v <;> rfl
    | _ => rfl
  | m :: n :: ns => cases m <;> rfl

end Expression

end Stylesheet
