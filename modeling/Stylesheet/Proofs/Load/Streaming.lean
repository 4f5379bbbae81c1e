import Stylesheet.Load.Tree
import Stylesheet.Proofs.Json.Grammar

/-!
# Loading as decoding

A sheet is loaded while its text is read. Where the text holds a value within the limits, the result is that of
decoding the value: what is skipped or read ahead makes no difference.
-/

namespace Stylesheet

open Json.Reader

namespace Reading

variable {α : Type}

/-- In front of a value the reader gives what `decode` makes of it, and stops right behind it. -/
def Follows (depth : Nat) (reader : Reading α) (decode : Json → Except LoadFault α) : Prop :=
  ∀ {cs left : List Char} {j : Json}, Reads depth cs j left → reader cs = (decode j).map fun a => (a, left)

private theorem follows_value (depth : Nat) : Follows depth (value depth) .ok := by
  intro cs left j h
  simp [value, ofReader, h.value?_eq, Except.map]

theorem follows_skip (depth : Nat) : Follows depth skip fun _ => .ok () := by
  intro cs left j h
  simp [skip, ofReader, h.skip?_eq, Except.map]

/-- What opens a bracket is refused, whatever is inside. -/
structure RefusesBrackets (decode : Json → Except LoadFault α) : Prop where
  list : ∃ fault, ∀ js, decode (.list js) = .error fault
  record : ∃ fault, ∀ es, decode (.record es) = .error fault

private theorem follows_scalar (depth : Nat) {decode : Json → Except LoadFault α} (h : RefusesBrackets decode) :
    Follows depth (scalar decode) decode := by
  obtain ⟨⟨list, hlist⟩, ⟨record, hrecord⟩⟩ := h
  intro cs left j found
  cases found with
  | scalar found =>
    unfold scalar
    split
    · cases (scalar?_of_sign (by simp) _).symm.trans found
    · cases (scalar?_of_sign (by simp) _).symm.trans found
    · simp only [ofReader, found, bind, Except.bind]
      cases decode j <;> rfl
  | emptyList | list => simp [scalar, hlist, bind, Except.bind, pure, Except.pure, Except.map]
  | emptyRecord | record => simp [scalar, hrecord, bind, Except.bind, pure, Except.pure, Except.map]

private theorem follows_unexpected (depth : Nat) (expected : Expected) :
    Follows depth (unexpected expected : Reading α) fun j => .error (.wrongType j.found expected) :=
  follows_scalar depth ⟨⟨.wrongType .list expected, fun _ => rfl⟩, ⟨.wrongType .record expected, fun _ => rfl⟩⟩

private theorem items_eq {depth : Nat} {item : Reading α} {decode : Json → Except LoadFault α}
    (follows : Follows depth item decode) {cs left : List Char} {js : List Json} (h : ReadsItems depth cs js left)
    (fuel : Nat) (room : cs.length ≤ fuel) : items item fuel cs = (js.mapM decode).map fun as => (as, left) := by
  induction fuel generalizing cs js with
  | zero => exact absurd h.shorter (by omega)
  | succ fuel ih =>
    cases h with
    | @last _ _ rest _ j first closed =>
      simp only [items, follows first, List.mapM_cons, List.mapM_nil]
      cases decode j <;> simp [Except.map, bind, Except.bind, closed, pure, Except.pure]
    | @more _ _ rest rest' _ j js first comma others =>
      have shorter := first.shorter
      have sign := length_of_skipSpace comma
      have space := length_skipSpace_le rest'
      have below := ih others (by omega)
      simp only [items, follows first, List.mapM_cons]
      cases decode j with
      | error fault => rfl
      | ok a =>
        simp only [Except.map, bind, Except.bind, comma, below]
        cases js.mapM decode <;> rfl

def ofItems (decode : Json → Except LoadFault α) : Json → Except LoadFault (List α)
  | .list js => js.mapM decode
  | j => .error (.wrongType j.found .list)

private theorem follows_list {depth : Nat} {item : Reading α} {decode : Json → Except LoadFault α}
    (follows : Follows depth item decode) : Follows (depth + 1) (list item) (ofItems decode) := by
  intro cs left j found
  have refused := @follows_unexpected (List α) (depth + 1) .list _ _ _ found
  cases found with
  | scalar found =>
    have plain := not_sign_of_scalar? found (c := '[') (by simp)
    rw [list.eq_2 _ _ plain, refused, ofItems.eq_2 _ _ (scalar?_gives found).1]
  | emptyList closed => simp [list, ofItems, closed, Except.map, pure, Except.pure]
  | list inside =>
    simp only [list]
    split
    · next closed => exact absurd closed (inside.ne_bracket _)
    · exact items_eq follows inside _ (Nat.le_refl _)
  | emptyRecord closed => exact refused
  | record inside => exact refused

def ofEntries {σ : Type} (expected : Expected) (take : σ → String → Json → Except LoadFault σ) (start : σ) :
    Json → Except LoadFault σ
  | .record es => es.foldlM (fun state e => take state e.1 e.2) start
  | j => .error (.wrongType j.found expected)

private theorem entries_eq {σ : Type} {depth : Nat} {step : σ → String → Reading σ}
    {take : σ → String → Json → Except LoadFault σ}
    (follows : ∀ state key, Follows depth (step state key) (take state key)) {cs left : List Char}
    {es : List (String × Json)} (h : ReadsEntries depth cs es left) (fuel : Nat) (state : σ)
    (room : cs.length ≤ fuel) : entries step fuel state cs =
      (es.foldlM (fun state e => take state e.1 e.2) state).map fun state => (state, left) := by
  induction fuel generalizing cs es state with
  | zero => exact absurd h.shorter (by omega)
  | succ fuel ih =>
    cases h with
    | @last _ _ _ rest _ k j key first closed =>
      simp only [entries, ofReader, key, bind, Except.bind, follows state k first, List.foldlM_cons, List.foldlM_nil]
      cases take state k j <;> simp [Except.map, closed, pure, Except.pure]
    | @more _ _ _ rest rest' _ k j es key first comma others =>
      have shorter := first.shorter
      have sign := length_of_skipSpace comma
      have space := length_skipSpace_le rest'
      obtain ⟨_, _, _, _, _, _, _, taken⟩ := key?_gives key
      have below := fun state => ih others state (by omega)
      simp only [entries, ofReader, key, bind, Except.bind, follows state k first, List.foldlM_cons]
      cases take state k j with
      | error fault => rfl
      | ok state => simp [Except.map, comma, below]

private theorem follows_record {σ : Type} {depth : Nat} {step : σ → String → Reading σ}
    {take : σ → String → Json → Except LoadFault σ}
    (follows : ∀ state key, Follows depth (step state key) (take state key)) (expected : Expected) (start : σ) :
    Follows (depth + 1) (record expected step start) (ofEntries expected take start) := by
  intro cs left j found
  have refused := @follows_unexpected σ (depth + 1) expected _ _ _ found
  cases found with
  | scalar found =>
    have plain := not_sign_of_scalar? found (c := '\x7b') (by simp)
    rw [record.eq_2 _ _ _ _ plain, refused, ofEntries.eq_2 _ _ _ _ (scalar?_gives found).2]
  | emptyList closed => exact refused
  | list inside => exact refused
  | emptyRecord closed => simp [record, ofEntries, closed, Except.map, pure, Except.pure]
  | record inside =>
    obtain ⟨rest, quote⟩ := inside.eq_quote
    have found := entries_eq follows inside _ start (Nat.le_refl _)
    rw [quote] at found
    simpa [record, ofEntries, quote] using found

/-- What follows an item of a list: the closing bracket, or a comma and the other items. -/
inductive FollowedBy (depth : Nat) (rest : List Char) : List Json → List Char → Prop
  | closed {left : List Char} (closed : skipSpace rest = ']' :: left) : FollowedBy depth rest [] left
  | more {rest' left : List Char} {j : Json} {js : List Json} (comma : skipSpace rest = ',' :: rest')
      (others : ReadsItems depth (skipSpace rest') (j :: js) left) : FollowedBy depth rest (j :: js) left

private theorem exists_first {depth : Nat} {cs left : List Char} {j : Json} {js : List Json}
    (h : ReadsItems depth cs (j :: js) left) : ∃ rest, Reads depth cs j rest ∧ FollowedBy depth rest js left := by
  cases h with
  | last first closed => exact ⟨_, first, .closed closed⟩
  | more first comma others =>
    cases others with
    | last item closed => exact ⟨_, first, .more comma (.last item closed)⟩
    | more item comma' others => exact ⟨_, first, .more comma (.more item comma' others)⟩

/-- The items of a list are taken up one after another, under the keys of their places. -/
def rowOf {σ : Type} (name : String) (take : σ → String → Json → Except LoadFault σ) :
    (place : Nat) → (ahead : List (String × Bool)) → σ → List Json → Except LoadFault σ
  | place, ahead, state, [] => do
    LoadFault.atEnd name place (ahead.map Prod.snd)
    return state
  | _, [], _, _ :: _ => .error .malformed
  | place, (key, _) :: ahead, state, j :: js => do rowOf name take (place + 1) ahead (← take state key j) js

private theorem row_eq {σ : Type} {depth : Nat} {step : σ → String → Reading σ}
    {take : σ → String → Json → Except LoadFault σ}
    (follows : ∀ state key, Follows depth (step state key) (take state key)) (name : String)
    (ahead : List (String × Bool)) {place : Nat} {state : σ} {rest left : List Char} {js : List Json}
    (h : FollowedBy depth rest js left) : row name step (place + 1) ahead state rest =
      (rowOf name take (place + 1) ahead state js).map fun state => (state, left) := by
  induction ahead generalizing place state rest js with
  | nil =>
    cases h with
    | closed closed => simp [row, rowOf, closed, LoadFault.atEnd, bind, Except.bind, pure, Except.pure, Except.map]
    | more comma others => simp [row, rowOf, comma, Except.map]
  | cons field ahead ih =>
    obtain ⟨key, mayMiss⟩ := field
    cases h with
    | closed closed =>
      simp only [row, rowOf, closed, List.map_cons]
      cases LoadFault.atEnd name (place + 1) (mayMiss :: ahead.map Prod.snd) <;> rfl
    | more comma others =>
      obtain ⟨rest, first, after⟩ := exists_first others
      simp only [row, comma, follows state key first, rowOf]
      cases take state key _ with
      | error fault => rfl
      | ok state => exact ih after

/-- A record is taken up by its keys, a list by its places. -/
def ofFields {σ : Type} (name : String) (known : List (String × Bool))
    (take : σ → String → Json → Except LoadFault σ) (start : σ) : Json → Except LoadFault σ
  | .list js => rowOf name take 0 known start js
  | j => ofEntries (.fields name) take start j

private theorem follows_fields {σ : Type} {depth : Nat} {step : σ → String → Reading σ}
    {take : σ → String → Json → Except LoadFault σ}
    (follows : ∀ state key, Follows depth (step state key) (take state key)) (name : String)
    {field : String × Bool} {known : List (String × Bool)} (start : σ) :
    Follows (depth + 1) (fields name (field :: known) step start) (ofFields name (field :: known) take start) := by
  intro cs left j found
  have keyed := @follows_record σ depth step take follows (.fields name) start _ _ _ found
  obtain ⟨key, mayMiss⟩ := field
  cases found with
  | scalar found =>
    have plain := not_sign_of_scalar? found (c := '[') (by simp)
    rw [fields.eq_2 _ _ _ _ _ plain, keyed, ofFields.eq_2 _ _ _ _ _ (scalar?_gives found).1]
  | emptyRecord | record => exact keyed
  | emptyList closed =>
    simp only [fields, row, ofFields, rowOf, closed, List.map_cons]
    cases LoadFault.atEnd name 0 (mayMiss :: known.map Prod.snd) <;> rfl
  | @list _ rest _ js inside =>
    cases js with
    | nil => cases inside
    | cons j js =>
      obtain ⟨rest', first, after⟩ := exists_first inside
      simp only [fields, ofFields, rowOf, row]
      split
      · next closed => exact absurd closed (inside.ne_bracket _)
      · rw [follows start key first]
        cases take start key j with
        | error fault => rfl
        | ok state => exact row_eq follows name known after
      · next impossible _ => cases impossible
      · next first _ _ => exact (first rfl).elim

/-- Decodes a field unless it was already met. -/
def onceOf (field : String) (seen : Option α) (decode : Json → Except LoadFault α) (j : Json) :
    Except LoadFault (Option α) :=
  match seen with
  | some _ => .error (.duplicate field)
  | none => (decode j).map some

private theorem follows_once {depth : Nat} {reader : Reading α} {decode : Json → Except LoadFault α}
    (follows : Follows depth reader decode) (field : String) (seen : Option α) :
    Follows depth (once field seen reader) (onceOf field seen decode) := by
  intro cs left j found
  cases seen with
  | some _ => rfl
  | none =>
    simp only [once, onceOf, follows found]
    cases decode j <;> rfl

end Reading

namespace Load

open Reading

private theorem refusesBrackets_textTag : RefusesBrackets textTag :=
  ⟨⟨.wrongType .list .tag, fun _ => rfl⟩, ⟨.wrongType .record .tag, fun _ => rfl⟩⟩

def takeEntry (seen : NodeEntries) (key : String) (j : Json) : Except LoadFault NodeEntries :=
  if key = "__type" then (onceOf key seen.1 textTag j).map fun kind => (kind, seen.2)
  else .ok (seen.1, (key, j) :: seen.2)

private theorem follows_nodeEntry (depth : Nat) (seen : NodeEntries) (key : String) :
    Follows depth (nodeEntry depth seen key) (takeEntry seen key) := by
  intro cs left j found
  unfold nodeEntry takeEntry
  split
  · rw [follows_once (follows_scalar depth refusesBrackets_textTag) key seen.1 found]
    cases onceOf key seen.1 textTag j <;> rfl
  · rw [follows_value depth found]
    rfl

/-- The node that the entries give, once all of them are taken up. -/
def finish : NodeEntries → Except LoadFault Node
  | (none, _) => .error (.missing "__type")
  | (some k, entries) => do Assemble.node k (← Decode.fields (Schema.ofKind k) [] entries.reverse)

/-- A statement of a sheet; its tag is a text. -/
def statement : Json → Except LoadFault Node
  | .list [] => .error (.missing "__type")
  | .list (j :: js) => do
    let k ← textTag j
    Assemble.node k (← Decode.row k.recordName 0 (Schema.ofKind k) js)
  | j => do finish (← ofEntries .node takeEntry (none, []) j)

private theorem tagged_eq {depth : Nat} {cs left : List Char} {j : Json} {js : List Json}
    (h : ReadsItems depth cs (j :: js) left) : tagged depth cs = (textTag j).map fun k => ((k, js), left) := by
  obtain ⟨rest, first, after⟩ := exists_first h
  rw [tagged.eq_2 _ _ h.ne_bracket, follows_scalar depth refusesBrackets_textTag first]
  cases textTag j with
  | error fault => rfl
  | ok k =>
    cases after with
    | closed closed => simp [Except.map, bind, Except.bind, closed, pure, Except.pure]
    | @more rest' _ j js comma others =>
      have items := items_eq (follows_value depth) others rest'.length (length_skipSpace_le rest')
      have all : (j :: js).mapM (.ok : Json → Except LoadFault Json) = .ok (j :: js) :=
        List.mapM_pure.trans (congrArg Except.ok (List.map_id _))
      simp [Except.map, bind, Except.bind, comma, items, all, pure, Except.pure]

private theorem follows_node (depth : Nat) : Follows (depth + 1) (node (depth + 1)) statement := by
  intro cs left j found
  have keyed := follows_record (follows_nodeEntry depth) .node (none, []) found
  have whole (plain : ∀ rest, cs = '[' :: rest → False) : node (depth + 1) cs =
      (ofEntries .node takeEntry (none, []) j >>= finish).map fun n => (n, left) := by
    rw [node.eq_3 _ _ plain, keyed]
    cases ofEntries .node takeEntry (none, []) j with
    | error fault => rfl
    | ok seen =>
      obtain ⟨_ | k, entries⟩ := seen
      · rfl
      · simp only [Except.map, bind, Except.bind, finish]
        cases Decode.fields (Schema.ofKind k) [] entries.reverse with
        | error fault => rfl
        | ok ps => cases Assemble.node k ps <;> rfl
  cases found with
  | scalar found =>
    have plain := not_sign_of_scalar? found (c := '[') (by simp)
    have noList := (scalar?_gives found).1
    rw [whole plain, statement.eq_3 _ (noList []) fun j js => noList (j :: js)]
  | emptyRecord | record => exact whole (by simp)
  | emptyList closed => simp [node, tagged, closed, statement, bind, Except.bind, Except.map]
  | @list _ rest _ js inside =>
    cases js with
    | nil => cases inside
    | cons j js =>
      rw [node, tagged_eq inside, statement]
      cases textTag j with
      | error fault => rfl
      | ok k =>
        simp only [Except.map, bind, Except.bind]
        cases Decode.row k.recordName 0 (Schema.ofKind k) js with
        | error fault => rfl
        | ok ps => cases Assemble.node k ps <;> rfl

private theorem follows_nodes (depth : Nat) : Follows (depth + 2) (nodes (depth + 2)) (ofItems statement) :=
  follows_list (follows_node depth)

def takeField (seen : ListFields) (key : String) (j : Json) : Except LoadFault ListFields :=
  if key = "nodes" then (onceOf key seen.items (ofItems statement) j).map fun items => { seen with items }
  else .ok seen

private theorem follows_listField (seen : ListFields) (key : String) :
    Follows (Json.depthLimit - 1) (listField false seen key) (takeField seen key) := by
  intro cs left j found
  unfold listField takeField
  split
  · have items : once key seen.items (nodes (Json.depthLimit - 1)) cs = _ :=
      follows_once (follows_nodes (Json.depthLimit - 3)) key seen.items found
    rw [items]
    cases onceOf key seen.items (ofItems statement) j <;> rfl
  · simp only [Bool.false_eq_true, false_and, if_false, follows_skip _ found]
    rfl

def sheetOf (j : Json) : Except LoadFault Sheet :=
  (ofFields "Root" [("nodes", true)] takeField {} j).map fun found => ⟨found.items.getD []⟩

private theorem follows_sheet : Follows Json.depthLimit sheet sheetOf := by
  intro cs left j found
  rw [sheet, sheetOf, follows_fields follows_listField "Root" {} found]
  cases ofFields "Root" [("nodes", true)] takeField {} j <;> rfl

end Load

/-- Loading a text is decoding the value that it holds. -/
theorem Sheet.load_of_read? {text : String} {j : Json} (h : Json.read? text = some j) :
    Sheet.load text = Load.sheetOf j := by
  obtain ⟨rest, found, blank⟩ := Json.read?_eq_some_iff.1 h
  rw [Sheet.load, Reading.run, Load.follows_sheet found]
  cases Load.sheetOf j with
  | error fault => rfl
  | ok s => simp [Except.map, bind, Except.bind, blank, pure, Except.pure]

end Stylesheet
