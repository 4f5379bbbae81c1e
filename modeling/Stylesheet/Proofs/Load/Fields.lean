import Stylesheet.Proofs.Load.Streaming

/-!
# Fields by their keys

The fields of a record are read in order, but what is found under a key depends on the values of that key
alone. The same holds of the tag, so a statement may be decoded without regard to where its tag stands. In a list
the tag and the fields have their places.
-/

namespace Stylesheet

open Json

def valuesAt (key : String) (es : List (String × Json)) : List Json :=
  es.filterMap fun e => if e.1 = key then some e.2 else none

theorem exists_of_bind {ε α β : Type} {x : Except ε α} {f : α → Except ε β} {b : β} (h : x >>= f = .ok b) :
    ∃ a, x = .ok a ∧ f a = .ok b := by
  cases x with
  | error _ => cases h
  | ok a => exact ⟨a, rfl, h⟩

variable {key : String} {j : Json} {es es' : List (String × Json)}

@[simp] theorem valuesAt_nil : valuesAt key [] = [] := rfl

@[simp] theorem valuesAt_cons_self : valuesAt key ((key, j) :: es) = j :: valuesAt key es := by simp [valuesAt]

theorem valuesAt_cons_of_ne {k : String} (h : k ≠ key) : valuesAt key ((k, j) :: es) = valuesAt key es := by
  simp [valuesAt, h]

@[simp] theorem valuesAt_append : valuesAt key (es ++ es') = valuesAt key es ++ valuesAt key es' := by
  simp [valuesAt]

theorem valuesAt_eq_nil (h : key ∉ es.map Prod.fst) : valuesAt key es = [] := by
  simp only [List.mem_map, not_exists, not_and] at h
  simpa [valuesAt, List.filterMap_eq_nil_iff] using fun k j hj hk => h (k, j) hj hk

theorem valuesAt_perm (h : es.Perm es') : (valuesAt key es).Perm (valuesAt key es') := h.filterMap _

namespace Decode

/-- What the values of one key give: nothing, or the part that the only value is read as. -/
def partAt (key : String) (type : FieldType) : List Json → Except LoadFault (Option Part)
  | [] => .ok none
  | [j] => (part type j).map some
  | _ => .error (.duplicate key)

variable {schema : Schema} {type : FieldType}

private theorem partAt_cons {js : List Json} {p : Option Part} (h : partAt key type (j :: js) = .ok p) :
    js = [] ∧ ∃ q, part type j = .ok q ∧ p = some q := by
  cases js with
  | nil =>
    cases hq : part type j with
    | error fault => simp [partAt, hq, Except.map] at h
    | ok q => exact ⟨rfl, q, rfl, by simpa [partAt, hq, Except.map] using h.symm⟩
  | cons _ _ => cases h

theorem part_record_eq {name : String} (known : type.record? = some (name, schema)) :
    (∀ es, part type (.record es) = fields schema [] es >>= Assemble.part type) ∧
      ∀ js, part type (.list js) = row name 0 schema js >>= Assemble.part type := by
  cases type <;> cases known <;> exact ⟨fun _ => rfl, fun _ => rfl⟩

/-- Where a node belongs, what has brackets is read as one. -/
theorem part_node_eq (isNode : type = .node ∨ type = .optionalNode) :
    (∀ es, part type (.record es) = node (.record es) >>= fun n => .ok (.node n)) ∧
      ∀ js, part type (.list js) = node (.list js) >>= fun n => .ok (.node n) := by
  have made {k : Kind} (ps : Except LoadFault Parts) :
      (ps >>= fun ps => Assemble.node k ps >>= fun n => .ok (.node n)) =
        ((ps >>= Assemble.node k) >>= fun n => .ok (.node n) : Except LoadFault Part) := by
    cases ps <;> rfl
  constructor
  · intro es
    cases kinds : kind none es with
    | error fault => rcases isNode with rfl | rfl <;> simp [part, node, kinds, bind, Except.bind]
    | ok k =>
      rcases isNode with rfl | rfl
      all_goals
        simp only [part, node, kinds]
        exact made _
  · intro js
    cases js with
    | nil => rcases isNode with rfl | rfl <;> rfl
    | cons j js =>
      cases kinds : tag j with
      | error fault => rcases isNode with rfl | rfl <;> simp [part, node, kinds, bind, Except.bind]
      | ok k =>
        rcases isNode with rfl | rfl
        all_goals
          simp only [part, node, kinds]
          exact made _

theorem fields_gives : ∀ {es : List (String × Json)} {seen : List String} {ps : Parts},
    fields schema seen es = .ok ps → schema.lookup key = some type →
      partAt key type (valuesAt key es) = .ok (ps.lookup key) ∧ (key ∈ seen → valuesAt key es = [])
  | [], seen, ps, h, known => by
    cases h
    exact ⟨rfl, fun _ => rfl⟩
  | (k, j) :: es, seen, ps, h, known => by
    simp only [fields] at h
    split at h
    · next unknown =>
      have other : k ≠ key := by
        rintro rfl
        cases unknown.symm.trans known
      rw [valuesAt_cons_of_ne other]
      exact fields_gives h known
    · next type' known' =>
      split at h
      · cases h
      · next new =>
        obtain ⟨p, hp, h⟩ := exists_of_bind h
        obtain ⟨ps, hps, h⟩ := exists_of_bind h
        cases h
        have others := fields_gives hps known
        by_cases same : k = key
        · subst same
          cases known.symm.trans known'
          simp [others.2 (by simp), partAt, hp, new, Except.map]
        · have apart : (key == k) = false := by simpa using Ne.symm same
          simp only [valuesAt_cons_of_ne same, List.lookup_cons, apart]
          exact ⟨others.1, fun met => others.2 (List.mem_cons_of_mem _ met)⟩

/-- Fields can be read if each of them can on its own. -/
theorem exists_fields : ∀ {es : List (String × Json)} {seen : List String},
    (∀ key type, schema.lookup key = some type →
      (∃ p, partAt key type (valuesAt key es) = .ok p) ∧ (key ∈ seen → valuesAt key es = [])) →
    ∃ ps, fields schema seen es = .ok ps
  | [], _, _ => ⟨[], rfl⟩
  | (k, j) :: es, seen, h => by
    simp only [fields]
    split
    · next unknown =>
      refine exists_fields fun key type known => ?_
      have other : k ≠ key := by
        rintro rfl
        cases unknown.symm.trans known
      simpa [valuesAt_cons_of_ne other] using h key type known
    · next type known =>
      obtain ⟨⟨p, found⟩, met⟩ := h k type known
      rw [valuesAt_cons_self] at found met
      obtain ⟨once, q, read, -⟩ := partAt_cons found
      have new : k ∉ seen := fun mem => List.cons_ne_nil _ _ (met mem)
      obtain ⟨ps, others⟩ : ∃ ps, fields schema (k :: seen) es = .ok ps := exists_fields fun key type' known' => by
        by_cases same : k = key
        · subst same
          simp [once, partAt]
        · have below := h key type' known'
          rw [valuesAt_cons_of_ne same] at below
          exact ⟨below.1, fun met => below.2 ((List.mem_cons.1 met).resolve_left (Ne.symm same))⟩
      exact ⟨(k, q) :: ps, by simp [new, read, others, bind, Except.bind, pure, Except.pure]⟩

private theorem kind_of_none {es : List (String × Json)} (none : valuesAt "__type" es = []) (k : Kind) :
    kind (some k) es = .ok k := by
  induction es with
  | nil => rfl
  | cons e es ih =>
    obtain ⟨key, j⟩ := e
    by_cases tagged : key = "__type"
    · subst tagged
      simp at none
    · rw [valuesAt_cons_of_ne tagged] at none
      simp [kind, tagged, ih none]

private theorem kind_some_gives : ∀ {es : List (String × Json)} {seen k : Kind}, kind (some seen) es = .ok k →
    valuesAt "__type" es = [] ∧ seen = k
  | [], seen, k, h => by
    cases h
    exact ⟨rfl, rfl⟩
  | (key, j) :: es, seen, k, h => by
    simp only [kind] at h
    split at h
    · cases h
    · next other =>
      rw [valuesAt_cons_of_ne other]
      exact kind_some_gives h

/-- The kind is that of the only tag. -/
theorem kind_eq_ok_iff {k : Kind} : ∀ {es : List (String × Json)},
    kind none es = .ok k ↔ ∃ j, valuesAt "__type" es = [j] ∧ tag j = .ok k
  | [] => by simp [kind]
  | (key, j) :: es => by
    by_cases tagged : key = "__type"
    · subst tagged
      simp only [kind, if_true, valuesAt_cons_self, List.cons.injEq]
      constructor
      · intro h
        obtain ⟨k', htag, h⟩ := exists_of_bind h
        obtain ⟨none, rfl⟩ := kind_some_gives h
        exact ⟨j, ⟨rfl, none⟩, htag⟩
      · rintro ⟨_, ⟨rfl, none⟩, htag⟩
        simp [htag, bind, Except.bind, kind_of_none none]
    · simp only [kind, if_neg tagged, valuesAt_cons_of_ne tagged]
      exact kind_eq_ok_iff

/-- The kind of a node, by its only tag or by the first item. -/
def kindOf : Json → Except LoadFault Kind
  | .record es => kind none es
  | .list (j :: _) => tag j
  | .list [] => .error (.missing "__type")
  | j => .error (.wrongType j.found .node)

theorem lookup_tag (k : Kind) : (Schema.ofKind k).lookup "__type" = none := by cases k <;> rfl

private theorem fields_filter {unknown : String} (h : schema.lookup unknown = none) (seen : List String) :
    ∀ es : List (String × Json), fields schema seen (es.filter (·.1 != unknown)) = fields schema seen es
  | [] => rfl
  | (key, j) :: es => by
    by_cases same : key = unknown
    · subst same
      simp [fields, h, fields_filter h seen es]
    · simp only [List.filter, bne_iff_ne.2 same, fields, fields_filter h]

end Decode

namespace Load

open Decode

/-- What a field that may stand once holds after these values. -/
def onceAfter {α : Type} (field : String) (decode : Json → Except LoadFault α) :
    Option α → List Json → Except LoadFault (Option α)
  | seen, [] => .ok seen
  | none, j :: js => do onceAfter field decode (some (← decode j)) js
  | some _, _ :: _ => .error (.duplicate field)

private theorem onceAfter_eq_ok_iff {α : Type} {field : String} {decode : Json → Except LoadFault α} {js : List Json}
    {x : Option α} : onceAfter field decode none js = .ok x ↔
      js = [] ∧ x = none ∨ ∃ j a, js = [j] ∧ decode j = .ok a ∧ x = some a := by
  constructor
  · intro h
    match js, h with
    | [], h => exact .inl ⟨rfl, (Except.ok.inj h).symm⟩
    | [j], h =>
      obtain ⟨a, found, h⟩ := exists_of_bind h
      exact .inr ⟨j, a, rfl, found, (Except.ok.inj h).symm⟩
    | _ :: _ :: _, h =>
      obtain ⟨_, _, h⟩ := exists_of_bind h
      cases h
  · rintro (⟨rfl, rfl⟩ | ⟨j, a, rfl, found, rfl⟩)
    · rfl
    · simp [onceAfter, found, bind, Except.bind]

private theorem foldlM_takeEntry : ∀ (es : List (String × Json)) (seen : NodeEntries),
    es.foldlM (fun state e => takeEntry state e.1 e.2) seen =
      (onceAfter "__type" textTag seen.1 (valuesAt "__type" es)).map fun k =>
        (k, (es.filter (·.1 != "__type")).reverse ++ seen.2)
  | [], seen => rfl
  | (key, j) :: es, (seen, met) => by
    rw [List.foldlM_cons, takeEntry]
    by_cases tagged : key = "__type"
    · subst tagged
      cases seen with
      | some k => rfl
      | none =>
        simp only [if_true, Reading.onceOf, valuesAt_cons_self, onceAfter]
        cases textTag j with
        | error fault => rfl
        | ok k => exact foldlM_takeEntry es (some k, met)
    · simp only [if_neg tagged, bind, Except.bind, foldlM_takeEntry es, valuesAt_cons_of_ne tagged]
      simp [tagged]

private theorem statement_record (es : List (String × Json)) : statement (.record es) =
    (onceAfter "__type" textTag none (valuesAt "__type" es) >>= fun
      | none => .error (.missing "__type")
      | some k => fields (Schema.ofKind k) [] es >>= Assemble.node k) := by
  simp only [statement, Reading.ofEntries, foldlM_takeEntry, List.append_nil]
  cases onceAfter "__type" textTag none (valuesAt "__type" es) with
  | error fault => rfl
  | ok seen =>
    cases seen with
    | none => rfl
    | some k => simp [Except.map, bind, Except.bind, finish, fields_filter (lookup_tag k)]

/-- A text for the only tag. -/
inductive HasTextTag : Json → Prop
  | record {es : List (String × Json)} {t : String} (only : valuesAt "__type" es = [.text t]) :
      HasTextTag (.record es)
  | list (t : String) (js : List Json) : HasTextTag (.list (.text t :: js))

/-- A statement is a node with a text for its tag. -/
theorem statement_eq_ok_iff {n : Node} : statement j = .ok n ↔ HasTextTag j ∧ Decode.node j = .ok n := by
  cases j with
  | record es =>
    rw [statement_record]
    constructor
    · intro h
      obtain ⟨seen, htag, h⟩ := exists_of_bind h
      obtain ⟨-, rfl⟩ | ⟨j, k, only, read, rfl⟩ := onceAfter_eq_ok_iff.1 htag
      · cases h
      · cases j with
        | text t =>
          refine ⟨.record only, ?_⟩
          rw [Decode.node, kind_eq_ok_iff.2 ⟨_, only, read⟩]
          exact h
        | _ => cases read
    · rintro ⟨@⟨_, t, only⟩, h⟩
      obtain ⟨k, hkind, h⟩ := exists_of_bind h
      obtain ⟨_, hvalues, read⟩ := kind_eq_ok_iff.1 hkind
      cases only.symm.trans hvalues
      have textual : textTag (.text t) = .ok k := read
      rw [onceAfter_eq_ok_iff.2 (.inr ⟨_, k, only, textual, rfl⟩)]
      exact h
  | list js =>
    cases js with
    | nil => exact ⟨fun h => (nomatch h), fun h => nomatch h.2⟩
    | cons j js =>
      cases j with
      | text t => exact ⟨fun h => ⟨.list t js, h⟩, fun h => h.2⟩
      | _ => exact ⟨fun h => (nomatch h), fun h => nomatch h.1⟩
  | _ => exact ⟨fun h => (nomatch h), fun h => nomatch h.2⟩

private theorem statements_eq_ok_iff : ∀ {js : List Json} {ns : List Node},
    js.mapM statement = .ok ns ↔ (∀ j ∈ js, HasTextTag j) ∧ Decode.nodes js = .ok ns
  | [], ns => by simp [Decode.nodes, pure, Except.pure]
  | j :: js, ns => by
    rw [List.mapM_cons, Decode.nodes, List.forall_mem_cons]
    constructor
    · intro h
      obtain ⟨n, first, h⟩ := exists_of_bind h
      obtain ⟨ns, others, h⟩ := exists_of_bind h
      have first := statement_eq_ok_iff.1 first
      have others := statements_eq_ok_iff.1 others
      rw [first.2, others.2]
      exact ⟨⟨first.1, others.1⟩, h⟩
    · rintro ⟨⟨tagged, others⟩, h⟩
      obtain ⟨n, first, h⟩ := exists_of_bind h
      obtain ⟨ns, read, h⟩ := exists_of_bind h
      rw [statement_eq_ok_iff.2 ⟨tagged, first⟩, statements_eq_ok_iff.2 ⟨others, read⟩]
      exact h

private theorem foldlM_takeField : ∀ (es : List (String × Json)) (seen : ListFields),
    es.foldlM (fun state e => takeField state e.1 e.2) seen =
      (onceAfter "nodes" (Reading.ofItems statement) seen.items (valuesAt "nodes" es)).map fun items =>
        { seen with items }
  | [], seen => rfl
  | (key, j) :: es, seen => by
    rw [List.foldlM_cons, takeField]
    by_cases found : key = "nodes"
    · subst found
      obtain ⟨items, line⟩ := seen
      cases items with
      | some _ => rfl
      | none =>
        simp only [if_true, Reading.onceOf, valuesAt_cons_self, onceAfter]
        cases Reading.ofItems statement j with
        | error fault => rfl
        | ok ns => exact foldlM_takeField es ⟨some ns, line⟩
    · simp only [if_neg found, bind, Except.bind, foldlM_takeField es, valuesAt_cons_of_ne found]

theorem part_nodes_eq_ok_iff {p : Part} :
    part .nodes j = .ok p ↔ ∃ js ns, j = .list js ∧ Decode.nodes js = .ok ns ∧ p = .nodes ns := by
  cases j with
  | list js =>
    constructor
    · intro h
      obtain ⟨ns, read, h⟩ := exists_of_bind h
      exact ⟨js, ns, rfl, read, (Except.ok.inj h).symm⟩
    · rintro ⟨_, ns, ⟨rfl⟩, read, rfl⟩
      simp [part, read, bind, Except.bind, pure, Except.pure]
  | _ =>
    refine ⟨fun h => (nomatch h), ?_⟩
    rintro ⟨_, _, h, _⟩
    cases h

private theorem onceAfter_statements_eq_ok_iff {values : List Json} {s : Sheet} :
    ((onceAfter "nodes" (Reading.ofItems statement) none values).map fun items => (⟨items.getD []⟩ : Sheet)) = .ok s ↔
      (∀ js, .list js ∈ values → ∀ j ∈ js, HasTextTag j) ∧
        ∃ p, partAt "nodes" .nodes values = .ok p ∧ s = ⟨(p.bind Part.nodes?).getD []⟩ := by
  constructor
  · intro h
    cases read : onceAfter "nodes" (Reading.ofItems statement) none values with
    | error fault => simp [read, Except.map] at h
    | ok items =>
      simp only [read, Except.map, Except.ok.injEq] at h
      subst h
      obtain ⟨rfl, rfl⟩ | ⟨j, ns, rfl, items, rfl⟩ := onceAfter_eq_ok_iff.1 read
      · simp [partAt]
      · cases j with
        | list js =>
          obtain ⟨tagged, nodes⟩ := statements_eq_ok_iff.1 items
          refine ⟨by simpa using tagged, some (.nodes ns), ?_, rfl⟩
          rw [partAt, part_nodes_eq_ok_iff.2 ⟨js, ns, rfl, nodes, rfl⟩]
          rfl
        | _ => cases items
  · rintro ⟨tagged, p, found, rfl⟩
    cases values with
    | nil =>
      cases found
      rfl
    | cons j js =>
      obtain ⟨rfl, q, read, rfl⟩ := partAt_cons found
      obtain ⟨js, ns, rfl, nodes, rfl⟩ := part_nodes_eq_ok_iff.1 read
      have items : Reading.ofItems statement (.list js) = .ok ns :=
        statements_eq_ok_iff.2 ⟨tagged js List.mem_cons_self, nodes⟩
      rw [onceAfter_eq_ok_iff.2 (.inr ⟨_, ns, rfl, items, rfl⟩)]
      rfl

/-- The lists of statements that a sheet gives, of which it may have one. -/
def listsOf : Json → Option (List Json)
  | .record es => some (valuesAt "nodes" es)
  | .list js => some js
  | _ => none

/-- A sheet has one list of statements or none; they are nodes with texts for their tags. -/
theorem sheetOf_eq_ok_iff {s : Sheet} : sheetOf j = .ok s ↔ ∃ values, listsOf j = some values ∧
    (∀ js, .list js ∈ values → ∀ j ∈ js, HasTextTag j) ∧
      ∃ p, partAt "nodes" .nodes values = .ok p ∧ s = ⟨(p.bind Part.nodes?).getD []⟩ := by
  have same {values : List Json} (lists : listsOf j = some values)
      (h : sheetOf j = .ok s ↔
        ((onceAfter "nodes" (Reading.ofItems statement) none values).map fun items => ⟨items.getD []⟩) = .ok s) :
      sheetOf j = .ok s ↔ ∃ values, listsOf j = some values ∧
        (∀ js, .list js ∈ values → ∀ j ∈ js, HasTextTag j) ∧
          ∃ p, partAt "nodes" .nodes values = .ok p ∧ s = ⟨(p.bind Part.nodes?).getD []⟩ := by
    simp only [h, onceAfter_statements_eq_ok_iff, lists, Option.some.injEq, exists_eq_left']
  cases j with
  | record es =>
    refine same rfl ?_
    simp only [sheetOf, Reading.ofFields, Reading.ofEntries, foldlM_takeField]
    cases onceAfter "nodes" (Reading.ofItems statement) none (valuesAt "nodes" es) <;> rfl
  | list js =>
    refine same rfl ?_
    cases js with
    | nil => rfl
    | cons j js =>
      simp only [sheetOf, Reading.ofFields, Reading.rowOf, takeField, if_true, Reading.onceOf, onceAfter]
      cases js with
      | nil => cases Reading.ofItems statement j <;> rfl
      | cons _ _ =>
        cases Reading.ofItems statement j
        all_goals constructor <;> intro h <;> cases h
  | _ =>
    constructor
    · intro h
      cases h
    · rintro ⟨_, h, _⟩
      cases h

end Load

end Stylesheet
