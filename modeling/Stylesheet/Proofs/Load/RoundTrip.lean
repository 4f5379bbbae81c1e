import Stylesheet.Proofs.Json.RoundTrip
import Stylesheet.Proofs.Load.Fields
import Stylesheet.Proofs.Parts
import Stylesheet.Tree.Encode

/-!
# Loading what was saved

Encoding a sheet, printing it and loading the text gives the sheet back, as long as its data fit into the format
and its brackets are not nested too deeply. Every node of it carries the tag of its kind.
-/

namespace Stylesheet

/-- The lines that a node holds itself, those of its bodies, expressions and parameters included. -/
def Node.ownLines : Node → List Nat
  | .property _ value line | .returned value line => value.line.toList ++ line.toList
  | .importSheet path line => path.line.toList ++ line.toList
  | .call _ _ b line | .ruleSet _ b line | .conditional _ b _ _ line | .keyframes _ b line | .media _ b line
  | .supports _ b line | .atRule _ _ b line => (b.bind (·.line)).toList ++ line.toList
  | .callable _ params b line => params.flatMap (·.line.toList) ++ (b.bind (·.line)).toList ++ line.toList
  | .loop _ _ iterable b line => (iterable.bind (·.line)).toList ++ (b.bind (·.line)).toList ++ line.toList
  | .feature _ value => (value.bind (·.line)).toList
  | n => n.line.toList

/-- What a node holds itself fits into the format: its lines have 64 bits, the keys of a map differ, and a
number is finite and can be told from its text. -/
structure Node.Fits (n : Node) : Prop where
  lines : ∀ line ∈ n.ownLines, line < Word.unsignedLimit
  keys : ∀ entries line, n = .mapLiteral entries line → (entries.map Prod.fst).Nodup
  number : ∀ value suffix, n = .number value suffix → value.isFinite ∧ (Json.Number.real value).ReadsBack

namespace Decode

/-- The entries are the fields of the schema in order, and the parts are what they are read as. -/
inductive Fills : Schema → List (String × Json) → Parts → Prop
  | nil : Fills [] [] []
  | cons {key : String} {type : FieldType} {j : Json} {p : Part} {schema : Schema} {es : List (String × Json)}
      {ps : Parts} (read : part type j = .ok p) (others : Fills schema es ps) :
      Fills ((key, type) :: schema) ((key, j) :: es) ((key, p) :: ps)

variable {schema : Schema} {es : List (String × Json)} {ps : Parts}

theorem Fills.keys (h : Fills schema es ps) : es.map Prod.fst = schema.map Prod.fst := by
  induction h with
  | nil => rfl
  | cons _ _ ih => simp [ih]

private theorem Fills.fields_eq {whole : Schema} {seen : List String} (h : Fills schema es ps)
    (known : ∀ slot ∈ schema, whole.lookup slot.1 = some slot.2) (distinct : (schema.map Prod.fst).Nodup)
    (new : ∀ slot ∈ schema, slot.1 ∉ seen) : fields whole seen es = .ok ps := by
  induction h generalizing seen with
  | nil => rfl
  | @cons key type j p schema es ps read others ih =>
    have here : whole.lookup key = some type := known (key, type) List.mem_cons_self
    have first : key ∉ seen := new (key, type) List.mem_cons_self
    have below : fields whole (key :: seen) es = .ok ps := by
      refine ih (fun slot h => known slot (List.mem_cons_of_mem _ h)) (List.nodup_cons.1 distinct).2 fun slot h => ?_
      rintro (_ | ⟨_, met⟩)
      · exact (List.nodup_cons.1 distinct).1 (List.mem_map.2 ⟨slot, h, rfl⟩)
      · exact new slot (List.mem_cons_of_mem _ h) met
    simp [fields, here, first, read, below, bind, Except.bind, pure, Except.pure]

/-- A schema has each of its fields once. -/
private def Lawful (schema : Schema) : Prop :=
  (schema.map Prod.fst).Nodup ∧ ∀ slot ∈ schema, schema.lookup slot.1 = some slot.2

private theorem lawful_ofKind (k : Kind) : Lawful (Schema.ofKind k) := by
  unfold Lawful
  cases k <;> decide

private theorem fields_of_fills (lawful : Lawful schema) (h : Fills schema es ps) : fields schema [] es = .ok ps :=
  h.fields_eq lawful.2 lawful.1 (by simp)

private theorem node_of_fills {k : Kind} {n : Node} (h : Fills (Schema.ofKind k) es ps)
    (made : Assemble.node k ps = .ok n) :
    node (Encode.tagged k es) = .ok n := by
  have untagged : valuesAt "__type" es = [] := by
    refine valuesAt_eq_nil (h.keys ▸ ?_)
    cases k <;> decide
  have hkind : kind none (("__type", .text k.tag) :: es) = .ok k :=
    kind_eq_ok_iff.2 ⟨.text k.tag, by simp [untagged], by simp [tag, tagText, Kind.ofTag?_tag]⟩
  rw [Encode.tagged, node, hkind]
  simp only [bind, Except.bind, fields, lookup_tag, fields_of_fills (lawful_ofKind k) h]
  exact made

private theorem part_text (s : String) : part .text (.text s) = .ok (.text s) := rfl

private theorem part_defaultText (s : String) : part .defaultText (.text s) = .ok (.text s) := rfl

private theorem part_boolean (b : Bool) : part .boolean (.boolean b) = .ok (.flag b) := rfl

private theorem part_flag (b : Bool) : part .flag (.boolean b) = .ok (.flag b) := rfl

private theorem part_real (x : Float) : part .real (.number (.real x)) = .ok (.real x) := rfl

private theorem part_line (line : Option Nat) : part .line (.ofNat? line) = .ok (line.elim .absent .line) := by
  cases line <;> rfl

private theorem part_optionalText (s : Option String) :
    part .optionalText (.ofString? s) = .ok (s.elim .absent .text) := by
  cases s <;> rfl

private theorem part_nodes {ns : List Node} {js : List Json} (h : nodes js = .ok ns) :
    part .nodes (.list js) = .ok (.nodes ns) := by
  simp [part, h, bind, Except.bind, pure, Except.pure]

private theorem part_of_node {type : FieldType} (isNode : type = .node ∨ type = .optionalNode) {j : Json} {n : Node}
    (h : node j = .ok n) : part type j = .ok (.node n) := by
  cases j with
  | record es =>
    rw [(part_node_eq isNode).1, h]
    rfl
  | list js =>
    rw [(part_node_eq isNode).2, h]
    rfl
  | _ => cases h

private theorem part_node {j : Json} {n : Node} (h : node j = .ok n) : part .node j = .ok (.node n) :=
  part_of_node (.inl rfl) h

private theorem part_params {ids : List (Identifier Node)} {js : List Json} (h : params js = .ok ids) :
    part .params (.list js) = .ok (.params ids) := by
  simp [part, h, bind, Except.bind, pure, Except.pure]

private theorem part_entries {ns : List (String × Node)} {es : List (String × Json)} (h : entries es = .ok ns)
    (distinct : (ns.map Prod.fst).Nodup) : part .entries (.record es) = .ok (.entries ns) := by
  simp [part, h, Entries.distinct_of_nodup distinct, bind, Except.bind, pure, Except.pure]

private theorem fills_identifier (id : Identifier Node) {j : Json} {p : Part} (value : part .optionalNode j = .ok p) :
    Fills Schema.identifier (Encode.identifierFields id j)
      [("name", .text id.name), ("val", p), ("mixin", .flag id.placeholder), ("rest", .flag id.rest),
        ("lineno", id.line.elim .absent .line)] :=
  .cons (part_text id.name) (.cons value (.cons (part_flag id.placeholder) (.cons (part_flag id.rest)
    (.cons (part_line id.line) .nil))))

private theorem param_encode (id : Identifier Node) {j : Json}
    (value : part .optionalNode j = .ok (id.value.elim .absent .node)) :
    param (.record (Encode.identifierFields id j)) = .ok id := by
  have read := fields_of_fills (by unfold Lawful; decide) (fills_identifier id value)
  rw [param, read]
  obtain ⟨name, bound, placeholder, rest, line⟩ := id
  cases bound <;> cases line <;> rfl

private theorem fields_listOf {ns : List Node} {js : List Json} (h : nodes js = .ok ns) (line : Option Nat) :
    fields Schema.listOf [] [("nodes", .list js), ("lineno", .ofNat? line)] =
      .ok [("nodes", .nodes ns), ("lineno", line.elim .absent .line)] :=
  fields_of_fills (by unfold Lawful; decide) (.cons (part_nodes h) (.cons (part_line line) .nil))

private theorem part_listOf {type : FieldType} {name : String} (known : type.record? = some (name, Schema.listOf))
    {ns : List Node} {js : List Json} (h : nodes js = .ok ns) (line : Option Nat) :
    part type (Encode.listOf js line) =
      Assemble.part type [("nodes", .nodes ns), ("lineno", line.elim .absent .line)] := by
  rw [Encode.listOf, (part_record_eq known).1, fields_listOf h line]
  rfl

private theorem part_expression {ns : List Node} {js : List Json} (h : nodes js = .ok ns) (line : Option Nat) :
    part .expression (Encode.listOf js line) = .ok (.expression ⟨ns, line⟩) := by
  rw [part_listOf rfl h line]
  cases line <;> rfl

private theorem part_path {ns : List Node} {js : List Json} (h : nodes js = .ok ns) (line : Option Nat) :
    part .path (Encode.listOf js line) = .ok (.expression ⟨ns, line⟩) := by
  rw [part_listOf rfl h line]
  cases line <;> rfl

private theorem part_arguments {ns : List Node} {js : List Json} (h : nodes js = .ok ns) :
    part .arguments (.record [("nodes", .list js)]) = .ok (.nodes ns) := by
  have read : fields Schema.arguments [] [("nodes", .list js)] = .ok [("nodes", .nodes ns)] :=
    fields_of_fills (by unfold Lawful; decide) (.cons (part_nodes h) .nil)
  rw [(part_record_eq rfl).1, read]
  rfl

private theorem part_quoted (q : QuotedText) : part .quoted (Encode.quoted q) = .ok (.quoted q) := rfl

mutual

private theorem node_encode : ∀ n : Node, n.Every Node.Fits → node (Encode.node n) = .ok n
  | .null, _ => node_of_fills .nil rfl
  | .literal text line, _ =>
    node_of_fills (.cons (part_text text) (.cons (part_line line) .nil)) (by cases line <;> rfl)
  | .identifier ⟨name, value, placeholder, rest, line⟩, h =>
    node_of_fills (fills_identifier _ (part_optional value h.parts)) (by cases value <;> cases line <;> rfl)
  | .number value suffix, _ =>
    node_of_fills (.cons (part_real value) (.cons (part_optionalText suffix) .nil)) (by cases suffix <;> rfl)
  | .quoted q, _ => node_of_fills (.cons (part_text q.text) (.cons (part_defaultText q.quote) .nil)) rfl
  | .boolean value, _ => node_of_fills (.cons (part_boolean value) .nil) rfl
  | .color text, _ => node_of_fills (.cons (part_text text) .nil) rfl
  | .expression ⟨operands, line⟩, h =>
    node_of_fills (.cons (part_nodes (nodes_encode operands h.parts)) (.cons (part_line line) .nil))
      (by cases line <;> rfl)
  | .arguments args, h => node_of_fills (.cons (part_nodes (nodes_encode args h.parts)) .nil) rfl
  | .block ⟨statements, line⟩, h =>
    node_of_fills (.cons (part_nodes (nodes_encode statements h.parts)) (.cons (part_line line) .nil))
      (by cases line <;> rfl)
  | .selector segments line, h =>
    node_of_fills (.cons (part_nodes (nodes_encode segments h.parts)) (.cons (part_line line) .nil))
      (by cases line <;> rfl)
  | .ruleSet selectors b line, h =>
    have ⟨inHead, inBody⟩ := (everyIn_append _ _).1 h.parts
    node_of_fills (.cons (part_nodes (nodes_encode selectors inHead)) (.cons (part_body b inBody)
      (.cons (part_line line) .nil))) (by cases b <;> cases line <;> rfl)
  | .property segments ⟨operands, valueLine⟩ line, h =>
    have ⟨inName, inValue⟩ := (everyIn_append _ _).1 h.parts
    node_of_fills (.cons (part_nodes (nodes_encode segments inName))
      (.cons (part_expression (nodes_encode operands inValue) valueLine) (.cons (part_line line) .nil)))
      (by cases line <;> rfl)
  | .call name args b line, h =>
    have ⟨inArgs, inBody⟩ := (everyIn_append _ _).1 h.parts
    node_of_fills (.cons (part_text name) (.cons (part_arguments (nodes_encode args inArgs))
      (.cons (part_body b inBody) (.cons (part_line line) .nil)))) (by cases b <;> cases line <;> rfl)
  | .callable name ps b line, h =>
    have ⟨inParams, inBody⟩ := (everyIn_append _ _).1 h.parts
    node_of_fills (.cons (part_text name) (.cons (part_params (params_encode ps inParams))
      (.cons (part_body b inBody) (.cons (part_line line) .nil)))) (by cases b <;> cases line <;> rfl)
  | .returned ⟨operands, valueLine⟩ line, h =>
    node_of_fills (.cons (part_expression (nodes_encode operands h.parts) valueLine)
      (.cons (part_line line) .nil)) (by cases line <;> rfl)
  | .conditional condition b alternatives negated line, h =>
    have ⟨before, inElse⟩ := (everyIn_append _ _).1 h.parts
    have ⟨inCondition, inBody⟩ := (everyIn_cons _ _).1 before
    node_of_fills (.cons (part_node (node_encode condition inCondition)) (.cons (part_body b inBody)
      (.cons (part_nodes (nodes_encode alternatives inElse)) (.cons (part_flag negated)
      (.cons (part_line line) .nil))))) (by cases b <;> cases line <;> rfl)
  | .loop item key iterable b line, h =>
    have ⟨inIterable, inBody⟩ := (everyIn_append _ _).1 h.parts
    node_of_fills (.cons (part_text item) (.cons (part_optionalText key)
      (.cons (part_iterable iterable inIterable) (.cons (part_body b inBody)
      (.cons (part_line line) .nil))))) (by cases key <;> cases iterable <;> cases b <;> cases line <;> rfl)
  | .binary operator left right, h =>
    have ⟨inLeft, inRight⟩ := (everyIn_cons _ _).1 h.parts
    node_of_fills (.cons (part_text operator) (.cons (part_node (node_encode left inLeft))
      (.cons (part_node (node_encode right ((everyIn_cons _ _).1 inRight).1)) .nil))) rfl
  | .unary operator operand, h =>
    node_of_fills (.cons (part_text operator)
      (.cons (part_node (node_encode operand ((everyIn_cons _ _).1 h.parts).1)) .nil)) rfl
  | .keyframes segments b line, h =>
    have ⟨inName, inBody⟩ := (everyIn_append _ _).1 h.parts
    node_of_fills (.cons (part_nodes (nodes_encode segments inName)) (.cons (part_body b inBody)
      (.cons (part_line line) .nil))) (by cases b <;> cases line <;> rfl)
  | .media query b line, h =>
    have ⟨inQuery, inBody⟩ := (everyIn_cons _ _).1 h.parts
    node_of_fills (.cons (part_node (node_encode query inQuery)) (.cons (part_body b inBody)
      (.cons (part_line line) .nil))) (by cases b <;> cases line <;> rfl)
  | .queryList queries, h => node_of_fills (.cons (part_nodes (nodes_encode queries h.parts)) .nil) rfl
  | .query features medium predicate, h =>
    have ⟨inFeatures, inMedium⟩ := (everyIn_append _ _).1 h.parts
    node_of_fills (.cons (part_nodes (nodes_encode features inFeatures)) (.cons (part_optional medium inMedium)
      (.cons (part_optionalText predicate) .nil))) (by cases medium <;> cases predicate <;> rfl)
  | .feature segments value, h =>
    have ⟨inName, inValue⟩ := (everyIn_append _ _).1 h.parts
    node_of_fills (.cons (part_nodes (nodes_encode segments inName))
      (.cons (part_optionalExpression value inValue) .nil)) (by cases value <;> rfl)
  | .supports condition b line, h =>
    have ⟨inCondition, inBody⟩ := (everyIn_cons _ _).1 h.parts
    node_of_fills (.cons (part_node (node_encode condition inCondition)) (.cons (part_body b inBody)
      (.cons (part_line line) .nil))) (by cases b <;> cases line <;> rfl)
  | .xmlNamespace value shortName line, h =>
    node_of_fills (.cons (part_node (node_encode value ((everyIn_cons _ _).1 h.parts).1))
      (.cons (part_optionalText shortName) (.cons (part_line line) .nil)))
      (by cases shortName <;> cases line <;> rfl)
  | .charset encoding line, _ =>
    node_of_fills (.cons (part_quoted encoding) (.cons (part_line line) .nil)) (by cases line <;> rfl)
  | .importSheet ⟨operands, pathLine⟩ line, h =>
    node_of_fills (.cons (part_path (nodes_encode operands h.parts) pathLine) (.cons (part_line line) .nil))
      (by cases line <;> rfl)
  | .extend selectors line, h =>
    node_of_fills (.cons (part_nodes (nodes_encode selectors h.parts)) (.cons (part_line line) .nil))
      (by cases line <;> rfl)
  | .atRule name segments b line, h =>
    have ⟨inHead, inBody⟩ := (everyIn_append _ _).1 h.parts
    node_of_fills (.cons (part_text name) (.cons (part_nodes (nodes_encode segments inHead))
      (.cons (part_body b inBody) (.cons (part_line line) .nil)))) (by cases b <;> cases line <;> rfl)
  | .comment ⟨text, suppressed, line⟩, _ =>
    node_of_fills (.cons (part_text text) (.cons (part_flag suppressed) (.cons (part_line line) .nil)))
      (by cases line <;> rfl)
  | .member left right, h =>
    have ⟨inLeft, inRight⟩ := (everyIn_cons _ _).1 h.parts
    node_of_fills (.cons (part_node (node_encode left inLeft))
      (.cons (part_node (node_encode right ((everyIn_cons _ _).1 inRight).1)) .nil)) rfl
  | .mapLiteral es line, h =>
    node_of_fills (.cons (part_entries (entries_encode es h.parts) (h.self.keys es line rfl))
      (.cons (part_line line) .nil)) (by cases line <;> rfl)

private theorem nodes_encode : ∀ ns : List Node, EveryIn Node.Fits ns → nodes (Encode.nodes ns) = .ok ns
  | [], _ => rfl
  | n :: ns, h => by
    have ⟨first, others⟩ := (everyIn_cons _ _).1 h
    simp [Encode.nodes, nodes, node_encode n first, nodes_encode ns others, bind, Except.bind, pure, Except.pure]

private theorem part_optional : ∀ n : Option Node, EveryIn Node.Fits n.toList →
    part .optionalNode (Encode.optional n) = .ok (n.elim .absent .node)
  | none, _ => rfl
  | some n, h => part_of_node (.inr rfl) (node_encode n ((everyIn_cons _ _).1 h).1)

private theorem params_encode : ∀ ids : List (Identifier Node), EveryIn Node.Fits (ids.flatMap (·.value.toList)) →
    params (Encode.params ids) = .ok ids
  | [], _ => rfl
  | id :: ids, h => by
    have ⟨first, others⟩ := (everyIn_append _ _).1 h
    simp [Encode.params, params, param_encode id (part_optional id.value first), params_encode ids others, bind,
      Except.bind, pure, Except.pure]

private theorem part_body : ∀ b : Option (Body Node), EveryIn Node.Fits (statementsOf b) →
    part .body (Encode.body b) = .ok (b.elim .absent .body)
  | none, _ => rfl
  | some ⟨statements, line⟩, h => by
    rw [Encode.body, part_listOf rfl (nodes_encode statements h) line]
    cases line <;> rfl

private theorem part_optionalExpression : ∀ e : Option (Expression Node), EveryIn Node.Fits (operandsOf e) →
    part .optionalExpression (Encode.expression e) = .ok (e.elim .absent .expression)
  | none, _ => rfl
  | some ⟨operands, line⟩, h => by
    rw [Encode.expression, part_listOf rfl (nodes_encode operands h) line]
    cases line <;> rfl

private theorem part_iterable : ∀ e : Option (Expression Node), EveryIn Node.Fits (operandsOf e) →
    part .iterable (Encode.expression e) = .ok (e.elim .absent .expression)
  | none, _ => rfl
  | some ⟨operands, line⟩, h => by
    rw [Encode.expression, part_listOf rfl (nodes_encode operands h) line]
    cases line <;> rfl

private theorem entries_encode : ∀ es : List (String × Node), EveryIn Node.Fits (es.map (·.2)) →
    entries (Encode.entries es) = .ok es
  | [], _ => rfl
  | (k, n) :: es, h => by
    have ⟨first, others⟩ := (everyIn_cons _ _).1 h
    simp [Encode.entries, entries, node_encode n first, entries_encode es others, bind, Except.bind, pure,
      Except.pure]

end

end Decode

namespace Json

@[simp] theorem readsBack_null : ReadsBack .null := fun _ h => nomatch h

@[simp] theorem readsBack_text (s : String) : ReadsBack (.text s) := fun _ h => nomatch h

@[simp] theorem readsBack_boolean (b : Bool) : ReadsBack (.boolean b) := fun _ h => nomatch h

@[simp] theorem readsBack_ofString? (s : Option String) : (ofString? s).ReadsBack := by cases s <;> simp [ofString?]

@[simp] theorem readsBack_nil : ReadsBack (.list []) := fun _ h => nomatch h

@[simp] theorem readsBack_cons (j : Json) (js : List Json) :
    ReadsBack (.list (j :: js)) ↔ j.ReadsBack ∧ ReadsBack (.list js) := List.forall_mem_append

@[simp] theorem readsBack_record_nil : ReadsBack (.record []) := fun _ h => nomatch h

@[simp] theorem readsBack_record_cons (key : String) (j : Json) (es : List (String × Json)) :
    ReadsBack (.record ((key, j) :: es)) ↔ j.ReadsBack ∧ ReadsBack (.record es) := List.forall_mem_append

private theorem readsBack_ofNat? (line : Option Nat) (h : ∀ n ∈ line.toList, n < Word.unsignedLimit) :
    (ofNat? line).ReadsBack := by
  cases line with
  | none => simp [ofNat?]
  | some n => simpa [ofNat?, ReadsBack, numbers] using readsBack_natural (h n (by simp))

end Json

namespace Encode

open Json (readsBack_ofNat?)

mutual

private theorem node_readsBack : ∀ n : Node, n.Every Node.Fits → (node n).ReadsBack
  | .null, _ => by simp [node, tagged]
  | .literal text line, h => by simp [node, tagged, readsBack_ofNat? line h.self.lines]
  | .identifier id, h => by
    simp [node, tagged, identifierFields, optional_readsBack id.value h.parts, readsBack_ofNat? id.line h.self.lines]
  | .number value suffix, h => by
    have written : (Json.number (.real value)).ReadsBack := by
      simpa [Json.ReadsBack, Json.numbers] using (h.self.number value suffix rfl).2
    simp [node, tagged, written]
  | .quoted q, _ => by simp [node, tagged]
  | .boolean value, _ => by simp [node, tagged]
  | .color text, _ => by simp [node, tagged]
  | .expression e, h => by
    simp [node, tagged, nodes_readsBack e.operands h.parts, readsBack_ofNat? e.line h.self.lines]
  | .arguments args, h => by simp [node, tagged, nodes_readsBack args h.parts]
  | .block b, h => by
    simp [node, tagged, nodes_readsBack b.statements h.parts, readsBack_ofNat? b.line h.self.lines]
  | .selector segments line, h => by
    simp [node, tagged, nodes_readsBack segments h.parts, readsBack_ofNat? line h.self.lines]
  | .ruleSet selectors b line, h => by
    have ⟨inHead, inBody⟩ := (everyIn_append _ _).1 h.parts
    have ⟨bodyLine, own⟩ := List.forall_mem_append.1 h.self.lines
    simp [node, tagged, nodes_readsBack selectors inHead, body_readsBack b inBody bodyLine, readsBack_ofNat? line own]
  | .property segments value line, h => by
    have ⟨inName, inValue⟩ := (everyIn_append _ _).1 h.parts
    have ⟨valueLine, own⟩ := List.forall_mem_append.1 h.self.lines
    simp [node, tagged, listOf, nodes_readsBack segments inName, nodes_readsBack value.operands inValue,
      readsBack_ofNat? value.line valueLine, readsBack_ofNat? line own]
  | .call name args b line, h => by
    have ⟨inArgs, inBody⟩ := (everyIn_append _ _).1 h.parts
    have ⟨bodyLine, own⟩ := List.forall_mem_append.1 h.self.lines
    simp [node, tagged, nodes_readsBack args inArgs, body_readsBack b inBody bodyLine, readsBack_ofNat? line own]
  | .callable name ps b line, h => by
    have ⟨inParams, inBody⟩ := (everyIn_append _ _).1 h.parts
    have ⟨before, own⟩ := List.forall_mem_append.1 h.self.lines
    have ⟨paramLines, bodyLine⟩ := List.forall_mem_append.1 before
    simp [node, tagged, params_readsBack ps inParams paramLines, body_readsBack b inBody bodyLine,
      readsBack_ofNat? line own]
  | .returned value line, h => by
    have ⟨valueLine, own⟩ := List.forall_mem_append.1 h.self.lines
    simp [node, tagged, listOf, nodes_readsBack value.operands h.parts, readsBack_ofNat? value.line valueLine,
      readsBack_ofNat? line own]
  | .conditional condition b alternatives negated line, h => by
    have ⟨before, inElse⟩ := (everyIn_append _ _).1 h.parts
    have ⟨inCondition, inBody⟩ := (everyIn_cons _ _).1 before
    have ⟨bodyLine, own⟩ := List.forall_mem_append.1 h.self.lines
    simp [node, tagged, node_readsBack condition inCondition, body_readsBack b inBody bodyLine,
      nodes_readsBack alternatives inElse, readsBack_ofNat? line own]
  | .loop item key iterable b line, h => by
    have ⟨inIterable, inBody⟩ := (everyIn_append _ _).1 h.parts
    have ⟨before, own⟩ := List.forall_mem_append.1 h.self.lines
    have ⟨iterableLine, bodyLine⟩ := List.forall_mem_append.1 before
    simp [node, tagged, expression_readsBack iterable inIterable iterableLine, body_readsBack b inBody bodyLine,
      readsBack_ofNat? line own]
  | .binary operator left right, h => by
    have ⟨inLeft, inRight⟩ := (everyIn_cons _ _).1 h.parts
    simp [node, tagged, node_readsBack left inLeft, node_readsBack right ((everyIn_cons _ _).1 inRight).1]
  | .unary operator operand, h => by
    simp [node, tagged, node_readsBack operand ((everyIn_cons _ _).1 h.parts).1]
  | .keyframes segments b line, h => by
    have ⟨inName, inBody⟩ := (everyIn_append _ _).1 h.parts
    have ⟨bodyLine, own⟩ := List.forall_mem_append.1 h.self.lines
    simp [node, tagged, nodes_readsBack segments inName, body_readsBack b inBody bodyLine, readsBack_ofNat? line own]
  | .media query b line, h => by
    have ⟨inQuery, inBody⟩ := (everyIn_cons _ _).1 h.parts
    have ⟨bodyLine, own⟩ := List.forall_mem_append.1 h.self.lines
    simp [node, tagged, node_readsBack query inQuery, body_readsBack b inBody bodyLine, readsBack_ofNat? line own]
  | .queryList queries, h => by simp [node, tagged, nodes_readsBack queries h.parts]
  | .query features medium predicate, h => by
    have ⟨inFeatures, inMedium⟩ := (everyIn_append _ _).1 h.parts
    simp [node, tagged, nodes_readsBack features inFeatures, optional_readsBack medium inMedium]
  | .feature segments value, h => by
    have ⟨inName, inValue⟩ := (everyIn_append _ _).1 h.parts
    simp [node, tagged, nodes_readsBack segments inName, expression_readsBack value inValue h.self.lines]
  | .supports condition b line, h => by
    have ⟨inCondition, inBody⟩ := (everyIn_cons _ _).1 h.parts
    have ⟨bodyLine, own⟩ := List.forall_mem_append.1 h.self.lines
    simp [node, tagged, node_readsBack condition inCondition, body_readsBack b inBody bodyLine,
      readsBack_ofNat? line own]
  | .xmlNamespace value shortName line, h => by
    simp [node, tagged, node_readsBack value ((everyIn_cons _ _).1 h.parts).1, readsBack_ofNat? line h.self.lines]
  | .charset encoding line, h => by simp [node, tagged, quoted, readsBack_ofNat? line h.self.lines]
  | .importSheet path line, h => by
    have ⟨pathLine, own⟩ := List.forall_mem_append.1 h.self.lines
    simp [node, tagged, listOf, nodes_readsBack path.operands h.parts, readsBack_ofNat? path.line pathLine,
      readsBack_ofNat? line own]
  | .extend selectors line, h => by
    simp [node, tagged, nodes_readsBack selectors h.parts, readsBack_ofNat? line h.self.lines]
  | .atRule name segments b line, h => by
    have ⟨inHead, inBody⟩ := (everyIn_append _ _).1 h.parts
    have ⟨bodyLine, own⟩ := List.forall_mem_append.1 h.self.lines
    simp [node, tagged, nodes_readsBack segments inHead, body_readsBack b inBody bodyLine, readsBack_ofNat? line own]
  | .comment c, h => by simp [node, tagged, readsBack_ofNat? c.line h.self.lines]
  | .member left right, h => by
    have ⟨inLeft, inRight⟩ := (everyIn_cons _ _).1 h.parts
    simp [node, tagged, node_readsBack left inLeft, node_readsBack right ((everyIn_cons _ _).1 inRight).1]
  | .mapLiteral es line, h => by
    simp [node, tagged, entries_readsBack es h.parts, readsBack_ofNat? line h.self.lines]

private theorem nodes_readsBack : ∀ ns : List Node, EveryIn Node.Fits ns → (Json.list (nodes ns)).ReadsBack
  | [], _ => by simp [nodes]
  | n :: ns, h => by
    have ⟨first, others⟩ := (everyIn_cons _ _).1 h
    simpa [nodes] using ⟨node_readsBack n first, nodes_readsBack ns others⟩

private theorem optional_readsBack : ∀ n : Option Node, EveryIn Node.Fits n.toList → (optional n).ReadsBack
  | none, _ => by simp [optional]
  | some n, h => node_readsBack n ((everyIn_cons _ _).1 h).1

private theorem params_readsBack : ∀ ids : List (Identifier Node), EveryIn Node.Fits (ids.flatMap (·.value.toList)) →
    (∀ line ∈ ids.flatMap (·.line.toList), line < Word.unsignedLimit) → (Json.list (params ids)).ReadsBack
  | [], _, _ => by simp [params]
  | id :: ids, h, lines => by
    have ⟨first, others⟩ := (everyIn_append _ _).1 h
    have ⟨firstLine, otherLines⟩ := List.forall_mem_append.1 lines
    simpa [params, identifierFields, optional_readsBack id.value first, readsBack_ofNat? id.line firstLine] using
      params_readsBack ids others otherLines

private theorem body_readsBack : ∀ b : Option (Body Node), EveryIn Node.Fits (statementsOf b) →
    (∀ line ∈ (b.bind (·.line)).toList, line < Word.unsignedLimit) → (body b).ReadsBack
  | none, _, _ => by simp [body]
  | some b, h, lines => by simp [body, listOf, nodes_readsBack b.statements h, readsBack_ofNat? b.line lines]

private theorem expression_readsBack : ∀ e : Option (Expression Node), EveryIn Node.Fits (operandsOf e) →
    (∀ line ∈ (e.bind (·.line)).toList, line < Word.unsignedLimit) → (expression e).ReadsBack
  | none, _, _ => by simp [expression]
  | some e, h, lines => by simp [expression, listOf, nodes_readsBack e.operands h, readsBack_ofNat? e.line lines]

private theorem entries_readsBack : ∀ es : List (String × Node), EveryIn Node.Fits (es.map (·.2)) →
    (Json.record (entries es)).ReadsBack
  | [], _ => by simp [entries]
  | (k, n) :: es, h => by
    have ⟨first, others⟩ := (everyIn_cons _ _).1 h
    simpa [entries] using ⟨node_readsBack n first, entries_readsBack es others⟩

end

end Encode

private theorem Encode.tags_node (n : Node) :
    ∃ es, Encode.node n = .record es ∧ valuesAt "__type" es = [.text n.kind.tag] := by
  cases n <;> exact ⟨_, rfl, by simp [valuesAt, Node.kind, Encode.identifierFields]⟩

private theorem Load.statement_encode {n : Node} (fits : n.Every Node.Fits) :
    Load.statement (Encode.node n) = .ok n := by
  obtain ⟨es, node, tags⟩ := Encode.tags_node n
  have decoded := Decode.node_encode n fits
  rw [node] at decoded ⊢
  exact Load.statement_eq_ok_iff.2 ⟨.record tags, decoded⟩

private theorem Load.statements_encode : ∀ {ns : List Node}, EveryIn Node.Fits ns →
    (Encode.nodes ns).mapM Load.statement = .ok ns
  | [], _ => rfl
  | n :: ns, h => by
    have ⟨first, others⟩ := (everyIn_cons _ _).1 h
    simp [Encode.nodes, Load.statement_encode first, Load.statements_encode others, bind, Except.bind, pure,
      Except.pure]

/-- Loading undoes saving: a sheet whose data fit into the format, nested no deeper than it allows, is loaded
from its own text, in which every node carries the tag of its kind. -/
theorem Sheet.load_print_encode {s : Sheet} (fits : EveryIn Node.Fits s.statements)
    (room : (Encode.sheet s).depth ≤ Json.depthLimit) :
    Sheet.load (Encode.sheet s).print = .ok s ∧
      ∀ n : Node, ∃ es, Encode.node n = .record es ∧ valuesAt "__type" es = [.text n.kind.tag] := by
  have back : (Encode.sheet s).ReadsBack := by simpa [Encode.sheet] using Encode.nodes_readsBack s.statements fits
  refine ⟨?_, Encode.tags_node⟩
  rw [Sheet.load_of_read? (Json.read?_print room back)]
  simp [Encode.sheet, Load.sheetOf, Reading.ofFields, Reading.ofEntries, Load.takeField, Reading.onceOf,
    Reading.ofItems, Load.statements_encode fits, bind, Except.bind, pure, Except.pure, Except.map]

deriving instance DecidableEq for Json.Number

/-- A map whose keys are not in alphabetical order, a number, a name bound to the null node and the greatest line. -/
def mapSheet : Sheet := ⟨[.mapLiteral
  [("b\n", .number 1.5 (some "px")), ("a", .identifier { name := "\"", value := some .null })]
  (some 18446744073709551615)]⟩

theorem mapSheet_loads : (Encode.sheet mapSheet).depth ≤ Json.depthLimit ∧
    Sheet.load (Encode.sheet mapSheet).print = .ok mapSheet := by
  have number : (Json.Number.real 1.5).ReadsBack := by
    unfold Json.Number.ReadsBack
    decide +kernel
  have finite : (1.5 : Float).isFinite := by decide +kernel
  have fits : EveryIn Node.Fits mapSheet.statements := by
    simp only [mapSheet, everyIn_cons, everyIn_nil, and_true, Node.every_iff_everyIn, Node.parts, List.map_cons,
      List.map_nil, Option.toList_some]
    refine ⟨⟨by decide, ?_, ?_⟩, ⟨by decide, ?_, ?_⟩, ⟨by decide, ?_, ?_⟩, by decide, ?_, ?_⟩
    all_goals rintro _ _ ⟨⟩
    · decide
    · exact ⟨finite, number⟩
  have room : (Encode.sheet mapSheet).depth ≤ Json.depthLimit := by decide
  exact ⟨room, (Sheet.load_print_encode fits room).1⟩

end Stylesheet
