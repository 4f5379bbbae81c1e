import Mathlib.Logic.Relation
import Stylesheet.Proofs.Json.RoundTrip
import Stylesheet.Proofs.Load.Fields

/-!
# Spellings of a tree

Two records that differ in the order of their keys, in keys that nobody reads or in fields that hold what their
absence means are spellings of the same tree. Loading does not tell them apart, wherever in the tree they stand.
-/

namespace Stylesheet

open Decode

inductive Owner
  | sheet
  | node (k : Kind)
  | param
  | body
  | expression
  | arguments
  | quoted
deriving DecidableEq

namespace Owner

def name : Owner → String
  | sheet => "Root"
  | node k => k.recordName
  | param => "Ident"
  | body => "Block"
  | expression => "Expression"
  | arguments => "Arguments"
  | quoted => "Str"

def schema : Owner → Schema
  | sheet => Schema.arguments
  | node k => Schema.ofKind k
  | param => Schema.identifier
  | body | expression => Schema.listOf
  | arguments => Schema.arguments
  | quoted => Schema.quoted

def isNode : Owner → Bool
  | node _ => true
  | _ => false

/-- The type of an item of the list that may stand for the record. The first item of a node is its tag. -/
def slot? (o : Owner) (place : Nat) : Option FieldType :=
  match o.isNode, place with
  | true, 0 => none
  | true, place + 1 => o.schema[place]?.map Prod.snd
  | false, place => o.schema[place]?.map Prod.snd

def default? (o : Owner) (key : String) : Option Part := (o.schema.lookup key).bind FieldType.default?

end Owner

/-- The owner of the fields in such a field, if it is no node. -/
def FieldType.owner? : FieldType → Option Owner
  | body => some .body
  | path | expression | optionalExpression | iterable => some .expression
  | arguments => some .arguments
  | quoted => some .quoted
  | _ => none

mutual

/-- One change inside the value of a field. -/
inductive Respelled : FieldType → Json → Json → Prop
  | node {type : FieldType} {k : Kind} {j j' : Json} (isNode : type = .node ∨ type = .optionalNode)
      (tagged : kindOf j = .ok k) (change : ValueRespelled (.node k) j j') : Respelled type j j'
  | ofType {type : FieldType} {o : Owner} {j j' : Json} (owner : type.owner? = some o)
      (change : ValueRespelled o j j') : Respelled type j j'
  | item (before after : List Json) {j j' : Json} (change : Respelled .node j j') :
      Respelled .nodes (.list (before ++ j :: after)) (.list (before ++ j' :: after))
  | param (before after : List Json) {j j' : Json} (change : ValueRespelled .param j j') :
      Respelled .params (.list (before ++ j :: after)) (.list (before ++ j' :: after))
  | entry (before after : List (String × Json)) (key : String) {j j' : Json} (change : Respelled .node j j') :
      Respelled .entries (.record (before ++ (key, j) :: after)) (.record (before ++ (key, j') :: after))

/-- One change of a record, or inside an item of the list that stands for it. -/
inductive ValueRespelled : Owner → Json → Json → Prop
  | record {o : Owner} {es es' : List (String × Json)} (change : RecordRespelled o es es') :
      ValueRespelled o (.record es) (.record es')
  | item {o : Owner} (before after : List Json) {type : FieldType} {j j' : Json}
      (slot : o.slot? before.length = some type) (change : Respelled type j j') :
      ValueRespelled o (.list (before ++ j :: after)) (.list (before ++ j' :: after))

/-- One change of a record: its keys are put into another order, a key is added that is not read, a field is
added that holds `null` or its default, or the value of a field changes. -/
inductive RecordRespelled : Owner → List (String × Json) → List (String × Json) → Prop
  | reordered {o : Owner} {es es' : List (String × Json)} (perm : es.Perm es') : RecordRespelled o es es'
  | ignored {o : Owner} (before after : List (String × Json)) {key : String} (j : Json)
      (unknown : o.schema.lookup key = none) (noTag : o.isNode → key ≠ "__type") :
      RecordRespelled o (before ++ after) (before ++ (key, j) :: after)
  | null {o : Owner} (before after : List (String × Json)) {key : String} {type : FieldType}
      (known : o.schema.lookup key = some type) (optional : type.isOptional)
      (missing : valuesAt key (before ++ after) = []) :
      RecordRespelled o (before ++ after) (before ++ (key, .null) :: after)
  | default {o : Owner} (before after : List (String × Json)) {key : String} {type : FieldType} {j : Json}
      {p : Part} (known : o.schema.lookup key = some type) (holds : part type j = .ok p)
      (isDefault : type.default? = some p) (missing : valuesAt key (before ++ after) = []) :
      RecordRespelled o (before ++ after) (before ++ (key, j) :: after)
  | field {o : Owner} (before after : List (String × Json)) {key : String} {type : FieldType} {j j' : Json}
      (known : o.schema.lookup key = some type) (change : Respelled type j j') :
      RecordRespelled o (before ++ (key, j) :: after) (before ++ (key, j') :: after)

end

def Owner.blank? (o : Owner) (key : String) : Option Part :=
  if (o.schema.lookup key).any FieldType.isOptional then some .absent else o.default? key

/-- A field is missing or holds what its absence means. -/
def Owner.Blank (o : Owner) (key : String) (x : Option Part) : Prop :=
  x = none ∨ ∃ p, x = some p ∧ o.blank? key = some p

/-- Two readings of a field are the same, or both are blank. -/
def Owner.Agree (o : Owner) (key : String) (x x' : Option Part) : Prop := x = x' ∨ o.Blank key x ∧ o.Blank key x'

namespace Owner.Agree

variable {o : Owner} {key : String} {x x' : Option Part}

theorem symm (h : o.Agree key x x') : o.Agree key x' x := h.elim (fun e => .inl e.symm) fun b => .inr b.symm

/-- Whatever does not tell the blank part from a missing one does not tell readings that agree apart. -/
theorem congr {α : Type} (h : o.Agree key x x') (view : Option Part → α)
    (blank : ∀ p, o.blank? key = some p → view (some p) = view none) : view x = view x' := by
  have ofBlank : ∀ {y}, o.Blank key y → view y = view none := by
    rintro y (rfl | ⟨p, rfl, hp⟩)
    · rfl
    · exact blank p hp
  rcases h with rfl | ⟨h, h'⟩
  · rfl
  · rw [ofBlank h, ofBlank h']

end Owner.Agree

/-- Under every known key the two give the same, or nothing that counts. -/
def Parts.Alike (o : Owner) (ps ps' : Parts) : Prop :=
  ∀ key, (o.schema.lookup key).isSome → o.Agree key (ps.lookup key) (ps'.lookup key)

namespace Parts.Alike

variable {o : Owner} {ps ps' : Parts}

theorem getD {α : Type} (h : Alike o ps ps') (view : Part → Option α) (a : α) (key : String)
    (known : (o.schema.lookup key).isSome) (blank : ∀ p, o.blank? key = some p → (view p).getD a = a) :
    (Parts.optional view ps key).getD a = (Parts.optional view ps' key).getD a :=
  (h key known).congr (fun x => (x.bind view).getD a) blank

theorem optional {α : Type} (h : Alike o ps ps') (view : Part → Option α) (key : String)
    (known : (o.schema.lookup key).isSome) (blank : ∀ p, o.blank? key = some p → view p = none) :
    Parts.optional view ps key = Parts.optional view ps' key :=
  (h key known).congr (fun x => x.bind view) blank

theorem required {α : Type} (h : Alike o ps ps') (view : Part → Option α) (key : String)
    (known : (o.schema.lookup key).isSome) (needed : o.blank? key = none) :
    Parts.required view ps key = Parts.required view ps' key := by
  rw [Parts.required, Parts.required, h.optional view key known (by simp [needed])]

theorem absent (h : Alike o ps ps') {α : Type} (view : Part → Option α) (key : String)
    (known : (o.schema.lookup key).isSome) (blank : o.blank? key = some .absent) (none : view .absent = none) :
    Parts.optional view ps key = Parts.optional view ps' key :=
  h.optional view key known fun _ hp => Option.some.inj (blank.symm.trans hp) ▸ none

theorem line (h : Alike o ps ps') (known : (o.schema.lookup "lineno").isSome)
    (blank : o.blank? "lineno" = some .absent) : Parts.line ps = Parts.line ps' :=
  h.absent _ _ known blank rfl

theorem body (h : Alike o ps ps') (known : (o.schema.lookup "block").isSome)
    (blank : o.blank? "block" = some .absent) : Parts.body ps = Parts.body ps' :=
  h.absent _ _ known blank rfl

theorem flag (h : Alike o ps ps') (key : String) (known : (o.schema.lookup key).isSome)
    (blank : o.blank? key = some (.flag false)) : Parts.flag ps key = Parts.flag ps' key :=
  h.getD _ _ key known fun _ hp => Option.some.inj (blank.symm.trans hp) ▸ rfl

theorem nodes (h : Alike o ps ps') (key : String) (known : (o.schema.lookup key).isSome)
    (blank : o.blank? key = some (.nodes [])) : Parts.nodes ps key = Parts.nodes ps' key :=
  h.getD _ _ key known fun _ hp => Option.some.inj (blank.symm.trans hp) ▸ rfl

theorem expression (h : Alike o ps ps') (key : String) (known : (o.schema.lookup key).isSome)
    (blank : o.blank? key = some (.expression {})) : Parts.expression ps key = Parts.expression ps' key :=
  h.getD _ _ key known fun _ hp => Option.some.inj (blank.symm.trans hp) ▸ rfl

end Parts.Alike

namespace Assemble

open Parts (Alike)

variable {ps ps' : Parts}

private theorem node_alike {k : Kind} (h : Alike (.node k) ps ps') : node k ps = node k ps' := by
  cases k with
  | null => rfl
  | literal => simp only [node, h.required Part.text? "val" rfl rfl, h.line rfl rfl]
  | identifier =>
    simp only [node, identifier, h.required Part.text? "name" rfl rfl, h.absent Part.node? "val" rfl rfl rfl,
      h.flag "mixin" rfl rfl, h.flag "rest" rfl rfl, h.line rfl rfl]
  | number =>
    simp only [node, h.required Part.real? "val" rfl rfl, h.absent Part.text? "type" rfl rfl rfl]
  | quoted =>
    simp only [node, quoted, h.required Part.text? "val" rfl rfl,
      h.getD Part.text? "" "quote" rfl (by rintro _ ⟨⟩; rfl)]
  | boolean => simp only [node, h.required Part.flag? "val" rfl rfl]
  | color => simp only [node, h.required Part.text? "raw" rfl rfl]
  | expression => simp only [node, expression, h.nodes "nodes" rfl rfl, h.line rfl rfl]
  | arguments => simp only [node, h.nodes "nodes" rfl rfl]
  | block => simp only [node, body, h.nodes "nodes" rfl rfl, h.line rfl rfl]
  | selector => simp only [node, h.nodes "segments" rfl rfl, h.line rfl rfl]
  | ruleSet => simp only [node, h.nodes "nodes" rfl rfl, h.body rfl rfl, h.line rfl rfl]
  | property => simp only [node, h.nodes "segments" rfl rfl, h.expression "expr" rfl rfl, h.line rfl rfl]
  | call =>
    simp only [node, h.required Part.text? "name" rfl rfl, h.nodes "args" rfl rfl, h.body rfl rfl, h.line rfl rfl]
  | callable =>
    simp only [node, h.required Part.text? "name" rfl rfl,
      h.getD Part.params? [] "params" rfl (by rintro _ ⟨⟩; rfl), h.body rfl rfl, h.line rfl rfl]
  | returned => simp only [node, h.expression "expr" rfl rfl, h.line rfl rfl]
  | conditional =>
    simp only [node, h.required Part.node? "cond" rfl rfl, h.body rfl rfl, h.nodes "elses" rfl rfl,
      h.flag "negate" rfl rfl, h.line rfl rfl]
  | loop =>
    simp only [node, h.required Part.text? "val" rfl rfl, h.absent Part.text? "key" rfl rfl rfl,
      h.absent Part.expression? "expr" rfl rfl rfl, h.body rfl rfl, h.line rfl rfl]
  | binary =>
    simp only [node, h.required Part.text? "op" rfl rfl, h.required Part.node? "left" rfl rfl,
      h.required Part.node? "right" rfl rfl]
  | unary => simp only [node, h.required Part.text? "op" rfl rfl, h.required Part.node? "expr" rfl rfl]
  | keyframes => simp only [node, h.nodes "segments" rfl rfl, h.body rfl rfl, h.line rfl rfl]
  | media => simp only [node, h.required Part.node? "val" rfl rfl, h.body rfl rfl, h.line rfl rfl]
  | queryList => simp only [node, h.nodes "nodes" rfl rfl]
  | query =>
    simp only [node, h.nodes "nodes" rfl rfl, h.absent Part.node? "type" rfl rfl rfl,
      h.absent Part.text? "predicate" rfl rfl rfl]
  | feature => simp only [node, h.nodes "segments" rfl rfl, h.absent Part.expression? "expr" rfl rfl rfl]
  | supports => simp only [node, h.required Part.node? "condition" rfl rfl, h.body rfl rfl, h.line rfl rfl]
  | xmlNamespace =>
    simp only [node, h.required Part.node? "val" rfl rfl, h.absent Part.text? "prefix" rfl rfl rfl, h.line rfl rfl]
  | charset => simp only [node, h.required Part.quoted? "val" rfl rfl, h.line rfl rfl]
  | importSheet => simp only [node, h.required Part.expression? "path" rfl rfl, h.line rfl rfl]
  | extend => simp only [node, h.nodes "selectors" rfl rfl, h.line rfl rfl]
  | atRule =>
    simp only [node, h.required Part.text? "type" rfl rfl, h.nodes "segments" rfl rfl, h.body rfl rfl, h.line rfl rfl]
  | comment =>
    simp only [node, comment, h.required Part.text? "str" rfl rfl, h.flag "suppress" rfl rfl, h.line rfl rfl]
  | member => simp only [node, h.required Part.node? "left" rfl rfl, h.required Part.node? "right" rfl rfl]
  | mapLiteral =>
    simp only [node, h.getD Part.entries? [] "vals" rfl (by rintro _ ⟨⟩; rfl), h.line rfl rfl]

private theorem identifier_alike (h : Alike .param ps ps') : identifier ps = identifier ps' := by
  simp only [identifier, h.required Part.text? "name" rfl rfl, h.absent Part.node? "val" rfl rfl rfl,
    h.flag "mixin" rfl rfl, h.flag "rest" rfl rfl, h.line rfl rfl]

private theorem body_alike (h : Alike .body ps ps') : body ps = body ps' := by
  simp only [body, h.nodes "nodes" rfl rfl, h.line rfl rfl]

private theorem expression_alike (h : Alike .expression ps ps') : expression ps = expression ps' := by
  simp only [expression, h.nodes "nodes" rfl rfl, h.line rfl rfl]

private theorem quoted_alike (h : Alike .quoted ps ps') : quoted ps = quoted ps' := by
  simp only [quoted, h.required Part.text? "val" rfl rfl, h.getD Part.text? "" "quote" rfl (by rintro _ ⟨⟩; rfl)]

private theorem part_alike {type : FieldType} {o : Owner} (owner : type.owner? = some o) (h : Alike o ps ps') :
    part type ps = part type ps' := by
  cases type <;> cases owner
  case arguments => simp only [part, h.nodes "nodes" rfl rfl]
  case body => simp only [part, body_alike h]
  case path | expression | optionalExpression | iterable => simp only [part, expression_alike h]
  case quoted => simp only [part, quoted_alike h]

end Assemble

/-- What an owner reads: a record by its keys, or a list by its places. -/
def Owner.parts (o : Owner) : Json → Except LoadFault Parts
  | .record es => fields o.schema [] es
  | .list js => row o.name 0 o.schema (if o.isNode then js.tail else js)
  | j => .error (.wrongType j.found (.fields o.name))

private theorem node_eq (j : Json) : node j = kindOf j >>= fun k => (Owner.node k).parts j >>= Assemble.node k := by
  cases j with
  | record => rfl
  | list js => cases js <;> rfl
  | _ => rfl

private theorem param_eq (j : Json) : param j = Owner.param.parts j >>= Assemble.identifier := by cases j <;> rfl

private theorem record?_of_owner? {type : FieldType} {o : Owner} (owner : type.owner? = some o) :
    type.record? = some (o.name, o.schema) := by
  cases type <;> cases owner <;> rfl

private theorem part_eq_parts {type : FieldType} {o : Owner} (owner : type.owner? = some o) :
    (∀ es, part type (.record es) = o.parts (.record es) >>= Assemble.part type) ∧
      ∀ js, part type (.list js) = o.parts (.list js) >>= Assemble.part type := by
  have noNode : o.isNode = false := by cases type <;> cases owner <;> rfl
  simpa [Owner.parts, noNode] using part_record_eq (record?_of_owner? owner)

/-- What is read under a key of the first record is also read, or is blank as well, under that of the second. -/
def FieldsCarry (o : Owner) (es es' : List (String × Json)) : Prop :=
  ∀ key type, o.schema.lookup key = some type → ∀ x, partAt key type (valuesAt key es) = .ok x →
    ∃ x', partAt key type (valuesAt key es') = .ok x' ∧ o.Agree key x x'

structure SameFields (o : Owner) (es es' : List (String × Json)) : Prop where
  there : FieldsCarry o es es'
  back : FieldsCarry o es' es
  tags : o.isNode → (valuesAt "__type" es).Perm (valuesAt "__type" es')

theorem FieldsCarry.fields {o : Owner} {es es' : List (String × Json)} (h : FieldsCarry o es es') {ps : Parts}
    (read : fields o.schema [] es = .ok ps) : ∃ ps', fields o.schema [] es' = .ok ps' ∧ ps.Alike o ps' := by
  have carried : ∀ key type, o.schema.lookup key = some type →
      ∃ x', partAt key type (valuesAt key es') = .ok x' ∧ o.Agree key (ps.lookup key) x' := fun key type known =>
    h key type known _ (fields_gives read known).1
  obtain ⟨ps', read'⟩ : ∃ ps', Decode.fields o.schema [] es' = .ok ps' := exists_fields fun key type known =>
    ⟨(carried key type known).imp fun _ found => found.1, fun met => nomatch met⟩
  refine ⟨ps', read', fun key known => ?_⟩
  obtain ⟨type, known⟩ := Option.isSome_iff_exists.1 known
  obtain ⟨x', found, agree⟩ := carried key type known
  cases found.symm.trans (fields_gives read' known).1
  exact agree

variable {o : Owner} {es es' : List (String × Json)}

structure SameParts (o : Owner) (j j' : Json) : Prop where
  there : ∀ {ps}, o.parts j = .ok ps → ∃ ps', o.parts j' = .ok ps' ∧ ps.Alike o ps'
  back : ∀ {ps}, o.parts j' = .ok ps → ∃ ps', o.parts j = .ok ps' ∧ ps.Alike o ps'
  kinds : o.isNode → ∀ {k}, kindOf j = .ok k → kindOf j' = .ok k
  textTags : o.isNode → (Load.HasTextTag j ↔ Load.HasTextTag j')

private theorem SameParts.bind_iff {α : Type} {j j' : Json} (h : SameParts o j j') (make : Parts → Except LoadFault α)
    (alike : ∀ {ps ps'}, Parts.Alike o ps ps' → make ps = make ps') (a : α) :
    (o.parts j >>= make) = .ok a ↔ (o.parts j' >>= make) = .ok a := by
  constructor
  · intro made
    obtain ⟨ps, read, made⟩ := exists_of_bind made
    obtain ⟨ps', read', agree⟩ := h.there read
    rw [read']
    exact (alike agree).symm.trans made
  · intro made
    obtain ⟨ps, read, made⟩ := exists_of_bind made
    obtain ⟨ps', read', agree⟩ := h.back read
    rw [read']
    exact (alike agree).symm.trans made

private theorem kind_perm (h : (valuesAt "__type" es).Perm (valuesAt "__type" es')) {k : Kind}
    (tagged : kind none es = .ok k) : kind none es' = .ok k := by
  obtain ⟨j, only, tag⟩ := kind_eq_ok_iff.1 tagged
  rw [only] at h
  exact kind_eq_ok_iff.2 ⟨j, List.singleton_perm.1 h |>.symm, tag⟩

/-- The same node is read from two values with the same parts. -/
theorem SameParts.node_iff {k : Kind} {j j' : Json} (h : SameParts (.node k) j j') (tagged : kindOf j = .ok k)
    (n : Node) : node j = .ok n ↔ node j' = .ok n := by
  rw [node_eq, node_eq, tagged, h.kinds rfl tagged]
  exact h.bind_iff _ Assemble.node_alike n

private theorem SameParts.param_iff {j j' : Json} (h : SameParts .param j j') (id : Identifier Node) :
    param j = .ok id ↔ param j' = .ok id := by
  rw [param_eq, param_eq]
  exact h.bind_iff _ Assemble.identifier_alike id

private theorem part_node_iff {type : FieldType} (isNode : type = .node ∨ type = .optionalNode) {j : Json} {k : Kind}
    (tagged : kindOf j = .ok k) {p : Part} : part type j = .ok p ↔ ∃ n, node j = .ok n ∧ p = .node n := by
  have unfolded : part type j = node j >>= fun n => .ok (.node n) := by
    cases j with
    | record es => exact (part_node_eq isNode).1 es
    | list js => exact (part_node_eq isNode).2 js
    | _ => cases tagged
  rw [unfolded]
  constructor
  · intro h
    obtain ⟨n, read, h⟩ := exists_of_bind h
    exact ⟨n, read, (Except.ok.inj h).symm⟩
  · rintro ⟨n, read, rfl⟩
    rw [read]
    rfl

/-! The other items of a list do not matter, as long as the one that changes is read as before. -/

private theorem bind_iff {α β : Type} {x x' : Except LoadFault α} (same : ∀ a, x = .ok a ↔ x' = .ok a)
    (f : α → Except LoadFault β) (b : β) : (x >>= f) = .ok b ↔ (x' >>= f) = .ok b := by
  constructor
  · intro h
    obtain ⟨a, hx, h⟩ := exists_of_bind h
    rw [(same a).1 hx]
    exact h
  · intro h
    obtain ⟨a, hx, h⟩ := exists_of_bind h
    rw [(same a).2 hx]
    exact h

private theorem nodes_iff {j j' : Json} (same : ∀ n, node j = .ok n ↔ node j' = .ok n) (after : List Json) :
    ∀ (before : List Json) (ns : List Node),
      nodes (before ++ j :: after) = .ok ns ↔ nodes (before ++ j' :: after) = .ok ns
  | [], ns => bind_iff same _ ns
  | k :: before, ns => by
    have below := nodes_iff same after before
    simp only [List.cons_append, nodes]
    cases node k with
    | error _ => rfl
    | ok n => exact bind_iff below _ ns

private theorem params_iff {j j' : Json} (same : ∀ id, param j = .ok id ↔ param j' = .ok id) (after : List Json) :
    ∀ (before : List Json) (ids : List (Identifier Node)),
      params (before ++ j :: after) = .ok ids ↔ params (before ++ j' :: after) = .ok ids
  | [], ids => bind_iff same _ ids
  | k :: before, ids => by
    have below := params_iff same after before
    simp only [List.cons_append, params]
    cases param k with
    | error _ => rfl
    | ok id => exact bind_iff below _ ids

private theorem entries_iff {j j' : Json} (same : ∀ n, node j = .ok n ↔ node j' = .ok n) (key : String)
    (after : List (String × Json)) : ∀ (before : List (String × Json)) (ns : List (String × Node)),
      entries (before ++ (key, j) :: after) = .ok ns ↔ entries (before ++ (key, j') :: after) = .ok ns
  | [], ns => bind_iff same _ ns
  | (k, v) :: before, ns => by
    have below := entries_iff same key after before
    simp only [List.cons_append, entries]
    cases node v with
    | error _ => rfl
    | ok n => exact bind_iff below _ ns

private theorem node_iff_of_part {j j' : Json} (same : ∀ p, part .node j = .ok p ↔ part .node j' = .ok p) (n : Node) :
    node j = .ok n ↔ node j' = .ok n := by
  have part_iff (j : Json) : part .node j = .ok (.node n) ↔ node j = .ok n := by
    cases tagged : kindOf j with
    | ok k => simp [part_node_iff (.inl rfl) tagged]
    | error fault =>
      have none : node j = .error fault := by
        rw [node_eq, tagged]
        rfl
      cases j with
      | record es => simp [(part_node_eq (.inl rfl)).1, none, bind, Except.bind]
      | list js => simp [(part_node_eq (.inl rfl)).2, none, bind, Except.bind]
      | _ => exact ⟨nofun, nofun⟩
  rw [← part_iff, ← part_iff]
  exact same _

private theorem row_iff (name : String) {type : FieldType} {j j' : Json}
    (same : ∀ p, part type j = .ok p ↔ part type j' = .ok p) (after : List Json) :
    ∀ (before : List Json) (place : Nat) (schema : Schema) (ps : Parts),
      schema[before.length]?.map Prod.snd = some type →
        (row name place schema (before ++ j :: after) = .ok ps ↔ row name place schema (before ++ j' :: after) = .ok ps)
  | [], _, (key, _) :: schema, ps, rfl => bind_iff same _ ps
  | k :: before, place, (key, type) :: schema, ps, slot => by
    have below := row_iff name same after before (place + 1) schema
    simp only [List.cons_append, row]
    cases part type k with
    | error _ => rfl
    | ok p => exact bind_iff (fun ps => below ps (by simpa using slot)) _ ps

private theorem partAt_perm {key : String} {type : FieldType} : ∀ {js js' : List Json}, js.Perm js' →
    partAt key type js = partAt key type js'
  | [], _, h => by rw [h.nil_eq]
  | [j], _, h => by rw [List.singleton_perm.1 h]
  | _ :: _ :: _, [], h => nomatch h.length_eq
  | _ :: _ :: _, [_], h => nomatch h.length_eq
  | _ :: _ :: _, _ :: _ :: _, _ => rfl

private theorem partAt_iff (key : String) {type : FieldType} {j j' : Json}
    (same : ∀ p, part type j = .ok p ↔ part type j' = .ok p) (x : Option Part) :
    ∀ before after : List Json,
      partAt key type (before ++ j :: after) = .ok x ↔ partAt key type (before ++ j' :: after) = .ok x
  | [], [] => bind_iff (f := fun p => .ok (some p)) same x
  | [], _ :: _ => Iff.rfl
  | [_], _ => Iff.rfl
  | _ :: _ :: _, _ => Iff.rfl

private theorem valuesAt_insert_of_ne {key key' : String} (h : key ≠ key') (before after : List (String × Json))
    (j : Json) :
    valuesAt key' (before ++ (key, j) :: after) = valuesAt key' (before ++ after) := by
  simp [valuesAt_cons_of_ne h]

private theorem FieldsCarry.of_key {key : String} (others : ∀ key', key ≠ key' → valuesAt key' es = valuesAt key' es')
    (here : ∀ type, o.schema.lookup key = some type → ∀ x, partAt key type (valuesAt key es) = .ok x →
      ∃ x', partAt key type (valuesAt key es') = .ok x' ∧ o.Agree key x x') : FieldsCarry o es es' := by
  intro key' type known x read
  by_cases same : key = key'
  · subst same
    exact here type known x read
  · exact ⟨x, others key' same ▸ read, .inl rfl⟩

theorem Owner.lookup_tag (h : o.isNode) : o.schema.lookup "__type" = none := by
  cases o with
  | node k => exact Decode.lookup_tag k
  | _ => cases h

private theorem Owner.tags_of_known {key : String} {type : FieldType} (known : o.schema.lookup key = some type)
    (others : ∀ key', key ≠ key' → valuesAt key' es = valuesAt key' es') (h : o.isNode) :
    (valuesAt "__type" es).Perm (valuesAt "__type" es') := by
  have other : key ≠ "__type" := by
    rintro rfl
    cases (Owner.lookup_tag h).symm.trans known
  rw [others _ other]

private theorem SameFields.of_blank {before after : List (String × Json)} {key : String} {type : FieldType} {j : Json}
    {p : Part} (known : o.schema.lookup key = some type) (holds : part type j = .ok p)
    (blank : o.blank? key = some p) (missing : valuesAt key (before ++ after) = []) :
    SameFields o (before ++ after) (before ++ (key, j) :: after) := by
  have others : ∀ key', key ≠ key' → valuesAt key' (before ++ (key, j) :: after) = valuesAt key' (before ++ after) :=
    fun key' h => valuesAt_insert_of_ne h before after j
  have present : valuesAt key (before ++ (key, j) :: after) = [j] := by
    have none := List.append_eq_nil_iff.1 (valuesAt_append ▸ missing)
    simp [none.1, none.2]
  have agree : o.Agree key none (some p) := .inr ⟨.inl rfl, .inr ⟨p, rfl, blank⟩⟩
  have without : ∀ type, partAt key type (valuesAt key (before ++ after)) = .ok none := fun type => by
    rw [missing]
    rfl
  have within : partAt key type (valuesAt key (before ++ (key, j) :: after)) = .ok (some p) := by
    rw [present, partAt, holds]
    rfl
  refine ⟨.of_key (fun key' h => (others key' h).symm) ?_, .of_key others ?_,
    Owner.tags_of_known known fun key' h => (others key' h).symm⟩
  · intro type' known' x read
    cases known.symm.trans known'
    cases (without _).symm.trans read
    exact ⟨_, within, agree⟩
  · intro type' known' x read
    cases known.symm.trans known'
    cases within.symm.trans read
    exact ⟨_, without _, agree.symm⟩

private theorem part_null {type : FieldType} (h : type.isOptional) : part type .null = .ok .absent := by
  cases type <;> first | rfl | cases h

private theorem Owner.blank?_of_optional {key : String} {type : FieldType} (known : o.schema.lookup key = some type)
    (h : type.isOptional) : o.blank? key = some .absent := by
  simp [Owner.blank?, known, h]

private theorem Owner.blank?_of_default? {key : String} {type : FieldType} {p : Part}
    (known : o.schema.lookup key = some type) (h : type.default? = some p) : o.blank? key = some p := by
  have required : type.isOptional = false := by
    cases type <;> first | rfl | cases h
  simp [Owner.blank?, Owner.default?, known, required, h]

theorem SameFields.parts (h : SameFields o es es') : SameParts o (.record es) (.record es') where
  there read := h.there.fields read
  back read := h.back.fields read
  kinds isNode := kind_perm (h.tags isNode)
  textTags isNode := by
    have perm := h.tags isNode
    constructor
    · rintro ⟨only⟩
      exact .record (List.singleton_perm.1 (only ▸ perm)).symm
    · rintro ⟨only⟩
      exact .record (List.perm_singleton.1 (only ▸ perm))

private theorem SameParts.of_item {before after : List Json} {type : FieldType} {j j' : Json}
    (slot : o.slot? before.length = some type) (same : ∀ p, part type j = .ok p ↔ part type j' = .ok p) :
    SameParts o (.list (before ++ j :: after)) (.list (before ++ j' :: after)) := by
  have of_parts (parts : ∀ ps, o.parts (.list (before ++ j :: after)) = .ok ps ↔
        o.parts (.list (before ++ j' :: after)) = .ok ps)
      (kinds : o.isNode → ∀ {k}, kindOf (.list (before ++ j :: after)) = .ok k →
        kindOf (.list (before ++ j' :: after)) = .ok k)
      (textTags : o.isNode → (Load.HasTextTag (.list (before ++ j :: after)) ↔
        Load.HasTextTag (.list (before ++ j' :: after)))) :
      SameParts o (.list (before ++ j :: after)) (.list (before ++ j' :: after)) :=
    ⟨fun read => ⟨_, (parts _).1 read, fun _ _ => .inl rfl⟩, fun read => ⟨_, (parts _).2 read, fun _ _ => .inl rfl⟩,
      kinds, textTags⟩
  cases isNode : o.isNode with
  | false =>
    refine of_parts (fun ps => ?_) (by simp [isNode]) (by simp [isNode])
    simp only [Owner.parts, isNode, Bool.false_eq_true, if_false]
    exact row_iff _ same after before 0 o.schema ps (by simpa [Owner.slot?, isNode] using slot)
  | true =>
    cases before with
    | nil => simp [Owner.slot?, isNode] at slot
    | cons t before =>
      refine of_parts (fun ps => ?_) (fun _ _ tagged => tagged) fun _ => ?_
      · simp only [Owner.parts, isNode, if_true, List.cons_append, List.tail_cons]
        exact row_iff _ same after before 0 o.schema ps (by simpa [Owner.slot?, isNode] using slot)
      · constructor <;> intro tagged <;> cases tagged <;> exact .list _ _

mutual

private theorem Respelled.part_iff : ∀ {type : FieldType} {j j' : Json}, Respelled type j j' →
    ∀ p, part type j = .ok p ↔ part type j' = .ok p
  | _, _, _, .node isNode tagged change, p => by
    have same := change.same
    simp only [part_node_iff isNode tagged, part_node_iff isNode (same.kinds rfl tagged), same.node_iff tagged]
  | type, _, _, .ofType owner change, p => by
    have made := change.same.bind_iff (Assemble.part type) (Assemble.part_alike owner) p
    cases change with
    | record => rwa [(part_eq_parts owner).1, (part_eq_parts owner).1]
    | item => rwa [(part_eq_parts owner).2, (part_eq_parts owner).2]
  | _, _, _, .item before after change, p => bind_iff (nodes_iff (node_iff_of_part change.part_iff) after before) _ p
  | _, _, _, .param before after change, p =>
    bind_iff (params_iff change.same.param_iff after before) _ p
  | _, _, _, .entry before after key change, p =>
    bind_iff (entries_iff (node_iff_of_part change.part_iff) key after before) _ p

theorem ValueRespelled.same : ∀ {o : Owner} {j j' : Json}, ValueRespelled o j j' → SameParts o j j'
  | _, _, _, .record change => change.same.parts
  | _, _, _, .item _ _ slot change => .of_item slot change.part_iff

/-- A record and its respelling are read the same way. -/
theorem RecordRespelled.same : ∀ {o : Owner} {es es' : List (String × Json)}, RecordRespelled o es es' →
    SameFields o es es'
  | _, _, _, .reordered perm =>
    have carry : ∀ {o es es'}, es.Perm es' → FieldsCarry o es es' := fun perm key type _ x read =>
      ⟨x, partAt_perm (valuesAt_perm perm) ▸ read, .inl rfl⟩
    ⟨carry perm, carry perm.symm, fun _ => valuesAt_perm perm⟩
  | o, _, _, @RecordRespelled.ignored _ before after key j unknown noTag => by
    have others : ∀ key', key ≠ key' →
        valuesAt key' (before ++ (key, j) :: after) = valuesAt key' (before ++ after) := fun key' h =>
      valuesAt_insert_of_ne h before after j
    refine ⟨.of_key (fun key' h => (others key' h).symm) ?_, .of_key others ?_, fun h => ?_⟩
    · intro type known
      cases unknown.symm.trans known
    · intro type known
      cases unknown.symm.trans known
    · rw [others _ (noTag h)]
  | _, _, _, .null _ _ known isOptional missing =>
    .of_blank known (part_null isOptional) (Owner.blank?_of_optional known isOptional) missing
  | _, _, _, .default _ _ known holds isDefault missing =>
    .of_blank known holds (Owner.blank?_of_default? known isDefault) missing
  | o, _, _, @RecordRespelled.field _ before after key type j j' known change => by
    have same := change.part_iff
    have others : ∀ key', key ≠ key' →
        valuesAt key' (before ++ (key, j) :: after) = valuesAt key' (before ++ (key, j') :: after) := fun key' h => by
      rw [valuesAt_insert_of_ne h, valuesAt_insert_of_ne h]
    refine ⟨.of_key others ?_, .of_key (fun key' h => (others key' h).symm) ?_, Owner.tags_of_known known others⟩
    · intro type' known' x read
      cases known.symm.trans known'
      simp only [valuesAt_append, valuesAt_cons_self] at read ⊢
      exact ⟨x, (partAt_iff _ same x _ _).1 read, .inl rfl⟩
    · intro type' known' x read
      cases known.symm.trans known'
      simp only [valuesAt_append, valuesAt_cons_self] at read ⊢
      exact ⟨x, (partAt_iff _ same x _ _).2 read, .inl rfl⟩

end

private theorem Respelled.hasTextTag_iff {j j' : Json} (h : Respelled .node j j') :
    Load.HasTextTag j ↔ Load.HasTextTag j' := by
  cases h with
  | ofType owner => cases owner
  | node _ _ change => exact change.same.textTags rfl

private theorem Owner.sheet_known {key : String} {type : FieldType}
    (known : Owner.sheet.schema.lookup key = some type) :
    key = "nodes" ∧ type = .nodes := by
  by_cases h : key = "nodes"
  · subst h
    cases known
    exact ⟨rfl, rfl⟩
  · have apart : (key == "nodes") = false := by simpa using h
    simp [Owner.schema, Schema.arguments, List.lookup_cons, apart] at known

private theorem eq_nil_of_nodes {js : List Json} (h : nodes js = .ok []) : js = [] := by
  cases js with
  | nil => rfl
  | cons j js =>
    obtain ⟨n, _, h⟩ := exists_of_bind h
    obtain ⟨ns, _, h⟩ := exists_of_bind h
    cases h

private theorem Respelled.textTags {j j' : Json} (h : Respelled .nodes j j') :
    (∀ js, j = .list js → ∀ j ∈ js, Load.HasTextTag j) ↔ ∀ js, j' = .list js → ∀ j ∈ js, Load.HasTextTag j := by
  cases h with
  | node isNode => rcases isNode with h | h <;> cases h
  | ofType owner => cases owner
  | item before after change => simp [or_imp, forall_and, change.hasTextTag_iff]

private theorem RecordRespelled.textTags {es es' : List (String × Json)} (h : RecordRespelled .sheet es es') :
    (∀ js, .list js ∈ valuesAt "nodes" es → ∀ j ∈ js, Load.HasTextTag j) ↔
      ∀ js, .list js ∈ valuesAt "nodes" es' → ∀ j ∈ js, Load.HasTextTag j := by
  cases h with
  | reordered perm => simp only [(valuesAt_perm perm).mem_iff]
  | @ignored _ before after key j unknown _ =>
    have other : key ≠ "nodes" := by
      rintro rfl
      cases unknown
    rw [valuesAt_insert_of_ne other]
  | null before after known isOptional _ =>
    obtain ⟨rfl, rfl⟩ := Owner.sheet_known known
    cases isOptional
  | @default _ before after key type j p known holds isDefault _ =>
    obtain ⟨rfl, rfl⟩ := Owner.sheet_known known
    obtain ⟨js, ns, rfl, read, rfl⟩ := Load.part_nodes_eq_ok_iff.1 holds
    have none : ns = [] := by simpa [FieldType.default?] using isDefault.symm
    obtain rfl := eq_nil_of_nodes (none ▸ read)
    simp [or_imp, forall_and]
  | @field _ before after key type j j' known change =>
    obtain ⟨rfl, rfl⟩ := Owner.sheet_known known
    have here := change.textTags
    simp only [@eq_comm _ j, @eq_comm _ j'] at here
    simp [or_imp, forall_and, here]

private theorem sheetOf_iff_of_lists {j j' : Json} {values values' : List Json} (lists : Load.listsOf j = some values)
    (lists' : Load.listsOf j' = some values')
    (textTags : (∀ js, .list js ∈ values → ∀ j ∈ js, Load.HasTextTag j) ↔
      ∀ js, .list js ∈ values' → ∀ j ∈ js, Load.HasTextTag j)
    (there : ∀ x, partAt "nodes" .nodes values = .ok x →
      ∃ x', partAt "nodes" .nodes values' = .ok x' ∧ Owner.sheet.Agree "nodes" x x')
    (back : ∀ x, partAt "nodes" .nodes values' = .ok x →
      ∃ x', partAt "nodes" .nodes values = .ok x' ∧ Owner.sheet.Agree "nodes" x x') (s : Sheet) :
    Load.sheetOf j = .ok s ↔ Load.sheetOf j' = .ok s := by
  have statements : ∀ {x x' : Option Part}, Owner.sheet.Agree "nodes" x x' →
      (x.bind Part.nodes?).getD [] = (x'.bind Part.nodes?).getD [] := fun agree =>
    agree.congr (fun x => (x.bind Part.nodes?).getD []) (by rintro _ ⟨⟩; rfl)
  simp only [Load.sheetOf_eq_ok_iff, lists, lists', Option.some.injEq, exists_eq_left', textTags]
  refine and_congr_right fun _ => ⟨?_, ?_⟩
  · rintro ⟨x, read, rfl⟩
    obtain ⟨x', read', agree⟩ := there x read
    exact ⟨x', read', by rw [statements agree]⟩
  · rintro ⟨x, read, rfl⟩
    obtain ⟨x', read', agree⟩ := back x read
    exact ⟨x', read', by rw [statements agree]⟩

private theorem ValueRespelled.sheetOf_iff {j j' : Json} (h : ValueRespelled .sheet j j') (s : Sheet) :
    Load.sheetOf j = .ok s ↔ Load.sheetOf j' = .ok s := by
  cases h with
  | record change =>
    have same := change.same
    exact sheetOf_iff_of_lists rfl rfl change.textTags (same.there "nodes" .nodes rfl)
      (same.back "nodes" .nodes rfl) s
  | @item _ before after type j j' slot change =>
    obtain ⟨rfl, rfl⟩ : before = [] ∧ type = .nodes := by
      cases before with
      | nil => exact ⟨rfl, (Option.some.inj slot).symm⟩
      | cons => cases slot
    have textTags := change.textTags
    simp only [@eq_comm _ j, @eq_comm _ j'] at textTags
    have same := fun x => partAt_iff "nodes" change.part_iff x [] after
    exact sheetOf_iff_of_lists rfl rfl (by simp [or_imp, forall_and, textTags])
      (fun x read => ⟨x, (same x).1 read, .inl rfl⟩) (fun x read => ⟨x, (same x).2 read, .inl rfl⟩) s

/-- What a text loads to does not depend on its spelling: any number of changes, anywhere in the tree, leave the
sheet as it is. -/
theorem Sheet.load_of_respelled {text text' : String} {j j' : Json} (read : Json.read? text = some j)
    (read' : Json.read? text' = some j') (changes : Relation.EqvGen (ValueRespelled .sheet) j j') {s : Sheet}
    (loads : Sheet.load text = .ok s) : Sheet.load text' = .ok s := by
  rw [Sheet.load_of_read? read] at loads
  rw [Sheet.load_of_read? read']
  have same : Load.sheetOf j = .ok s ↔ Load.sheetOf j' = .ok s := by
    clear read read' loads
    induction changes with
    | rel j j' h => exact h.sheetOf_iff s
    | refl => rfl
    | symm _ _ _ ih => exact ih.symm
    | trans _ _ _ _ _ ih ih' => exact ih.trans ih'
  exact same.1 loads

/-- A name with its value given as absent. -/
def boundToNothing : Json := .record [("__type", .text "Ident"), ("name", .text "a"), ("val", .null)]

/-- The same name with a default written out and its tag put last. -/
def taggedLast : Json := .record [("mixin", .boolean false), ("name", .text "a"), ("__type", .text "Ident")]

/-- A query for the name, written as a list. -/
def queried (name : Json) : Json := .list [.text "Media", name, .null, .null]

/-- The same sheet is loaded for both spellings of the name, wherever it stands and beside a key that sheets do not
have. -/
theorem Sheet.load_of_respelled_name :
    let sheet : Sheet := ⟨[.identifier { name := "a" }, .media (.identifier { name := "a" }) none none]⟩
    Sheet.load (Json.record [("nodes", .list [boundToNothing, queried boundToNothing])]).print = .ok sheet ∧
      Sheet.load (Json.record [("lineno", .list []), ("nodes", .list [taggedLast, queried taggedLast])]).print =
        .ok sheet := by
  intro sheet
  have renamed (place : Json → Json) (inside : ∀ {j j'}, kindOf j = .ok .identifier →
      ValueRespelled (.node .identifier) j j' → ValueRespelled .sheet (place j) (place j')) :
      Relation.EqvGen (ValueRespelled .sheet) (place boundToNothing) (place taggedLast) := by
    have bare : RecordRespelled (.node .identifier) [("__type", .text "Ident"), ("name", .text "a")]
        [("__type", .text "Ident"), ("name", .text "a"), ("val", .null)] :=
      .null [("__type", .text "Ident"), ("name", .text "a")] [] rfl rfl rfl
    have flagged : RecordRespelled (.node .identifier) [("__type", .text "Ident"), ("name", .text "a")]
        [("mixin", .boolean false), ("__type", .text "Ident"), ("name", .text "a")] :=
      .default [] [("__type", .text "Ident"), ("name", .text "a")] rfl rfl rfl rfl
    have swapped : RecordRespelled (.node .identifier)
        [("mixin", .boolean false), ("__type", .text "Ident"), ("name", .text "a")]
        [("mixin", .boolean false), ("name", .text "a"), ("__type", .text "Ident")] :=
      .reordered (.cons _ (.swap ..))
    exact .trans _ _ _ (.symm _ _ (.rel _ _ (inside rfl (.record bare))))
      (.trans _ _ _ (.rel _ _ (inside rfl (.record flagged))) (.rel _ _ (inside rfl (.record swapped))))
  have first := renamed (fun name => .record [("nodes", .list [name, queried boundToNothing])])
    fun tagged change => .record (.field [] [] rfl (.item [] _ (.node (.inl rfl) tagged change)))
  have second := renamed (fun name => .record [("nodes", .list [taggedLast, queried name])])
    fun tagged change => .record (.field [] [] rfl (.item [taggedLast] [] (.node (.inl rfl) rfl
      (.item [.text "Media"] _ rfl (.node (.inl rfl) tagged change)))))
  have beside : RecordRespelled .sheet [("nodes", .list [taggedLast, queried taggedLast])]
      [("lineno", .list []), ("nodes", .list [taggedLast, queried taggedLast])] :=
    .ignored [] [("nodes", .list [taggedLast, queried taggedLast])] (.list []) rfl (by decide)
  have read := Json.read?_print (j := .record [("nodes", .list [boundToNothing, queried boundToNothing])])
    (by decide) fun _ h => nomatch h
  have read' := Json.read?_print
    (j := .record [("lineno", .list []), ("nodes", .list [taggedLast, queried taggedLast])]) (by decide)
    fun _ h => nomatch h
  have loads : Sheet.load (Json.record [("nodes", .list [boundToNothing, queried boundToNothing])]).print =
      .ok sheet := (Sheet.load_of_read? read).trans rfl
  exact ⟨loads, Sheet.load_of_respelled read read'
    (.trans _ _ _ first (.trans _ _ _ second (.rel _ _ (.record beside)))) loads⟩

end Stylesheet
