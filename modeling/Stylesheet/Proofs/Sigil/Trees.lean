import Stylesheet.Convert
import Stylesheet.Proofs.Parts
import Stylesheet.Proofs.Sigil.Constructs

/-!
# Sheets in two dialects

A sheet without definitions, animations, imports, placeholders and calls that are statements is the same text in both
dialects, but for the sigil.
-/

namespace Stylesheet

open Rendering

namespace Node

def isPlaceholder : Node → Bool
  | identifier id => id.placeholder
  | _ => false

/-- Nothing that the dialects have words of their own for, and no sigil in the texts. -/
structure IsShared (n : Node) : Prop where
  callable : n.isCallable = false
  keyframes : n.isKeyframes = false
  importSheet : n.isImportSheet = false
  placeholder : n.isPlaceholder = false
  texts : ∀ t ∈ n.texts, Unsigned t

private theorem isShared_iff (n : Node) : n.IsShared ↔ n.isCallable = false ∧ n.isKeyframes = false ∧
    n.isImportSheet = false ∧ n.isPlaceholder = false ∧ ∀ t ∈ n.texts, Unsigned t := by
  constructor
  · intro h
    exact ⟨h.callable, h.keyframes, h.importSheet, h.placeholder, h.texts⟩
  · intro h
    exact ⟨h.1, h.2.1, h.2.2.1, h.2.2.2.1, h.2.2.2.2⟩

instance (n : Node) : Decidable n.IsShared := decidable_of_iff _ (isShared_iff n).symm

/-- The parts of a node in which a call is rendered as a statement if the node is one. The other parts are values. Heads
are none, and a call in a selector or in a query is a statement too. -/
def exposed : Node → List Node
  | identifier _ | arguments _ | property .. | call .. | xmlNamespace .. | mapLiteral .. => []
  | conditional _ b alternatives _ _ => statementsOf b ++ alternatives
  | loop _ _ _ b _ => statementsOf b
  | n => n.parts

/-- A node is in the position of a statement in itself and in whatever exposes it. -/
inductive Exposed : Node → Node → Prop
  | here (n : Node) : Exposed n n
  | within {m c n : Node} (inside : Exposed m c) (held : c ∈ n.exposed) : Exposed m n

def CallFree (n : Node) : Prop := ∀ m : Node, m.Exposed n → m.isCall = false

private theorem callFree_iff (n : Node) : n.CallFree ↔ n.isCall = false ∧ ∀ c ∈ n.exposed, c.CallFree := by
  constructor
  · intro h
    exact ⟨h n (.here n), fun c hc m hm => h m (.within hm hc)⟩
  · rintro ⟨hn, hparts⟩ m hm
    cases hm with
    | here => exact hn
    | within inside held => exact hparts _ held m inside

theorem IsShared.bareName {n : Node} (h : n.IsShared) {name : String} (hn : n.bareName? = some name) :
    Unsigned name := by
  cases n with
  | identifier id =>
    simp only [bareName?] at hn
    split at hn
    · cases hn
    · cases hn
      exact h.texts id.name (by simp)
  | _ => cases hn

end Node

def CallFreeIn (ns : List Node) : Prop := ∀ n ∈ ns, n.CallFree

@[simp] theorem callFreeIn_nil : CallFreeIn [] := by simp [CallFreeIn]

@[simp] theorem callFreeIn_cons (n : Node) (ns : List Node) :
    CallFreeIn (n :: ns) ↔ n.CallFree ∧ CallFreeIn ns := by simp [CallFreeIn]

private theorem Node.callFree_iff_exposed (n : Node) : n.CallFree ↔ n.isCall = false ∧ CallFreeIn n.exposed :=
  Node.callFree_iff n

namespace Render

variable {σ : Style} {inValue : Prop}

private theorem callFree_parts {n : Node} {parts : List Node} (h : inValue ∨ n.CallFree)
    (exposed : ∀ c ∈ parts, c ∈ n.exposed) : inValue ∨ CallFreeIn parts :=
  h.imp_right fun h c hc => ((Node.callFree_iff n).1 h).2 c (exposed c hc)

private theorem callFree_part {n c : Node} (h : inValue ∨ n.CallFree) (exposed : c ∈ n.exposed) :
    inValue ∨ c.CallFree :=
  h.imp_right fun h => ((Node.callFree_iff n).1 h).2 c exposed

private theorem callFree_head {n : Node} {ns : List Node} (h : inValue ∨ CallFreeIn (n :: ns)) : inValue ∨ n.CallFree :=
  h.imp_right fun h => h n List.mem_cons_self

private theorem callFree_tail {n : Node} {ns : List Node} (h : inValue ∨ CallFreeIn (n :: ns)) :
    inValue ∨ CallFreeIn ns :=
  h.imp_right fun h m hm => h m (List.mem_cons_of_mem n hm)

private theorem inValue_of_call {n : Node} (h : inValue ∨ n.CallFree) (call : n.isCall = true) : inValue := by
  rcases h with h | h
  · exact h
  · rw [h n (.here n)] at call
    cases call

private theorem unsigned_inlineName {value : Expression Node} (h : EveryIn Node.IsShared value.operands) {name : String}
    (hi : value.inlineName? = some name) : Unsigned name := by
  obtain ⟨id, held, rfl, -⟩ := Expression.identifier_of_inlineName? hi
  exact (h _ held).self.texts id.name (by simp)

mutual

private theorem node_mirror (quote : Unsigned σ.quote.toString) {inValue : Prop} (n : Node) (h : n.Every Node.IsShared)
    (hc : inValue ∨ n.CallFree) : Mirror σ inValue (node n) (node n) resigned := by
  obtain ⟨own, hp⟩ := (Node.every_iff_everyIn n).1 h
  have texts := own.texts
  match n with
  | .null => exact mirror_pure (by decide)
  | .literal text _ => exact mirror_pure (resigned_of_unsigned (texts text (by simp)))
  | .identifier ⟨name, value, placeholder, rest, line⟩ =>
    have named : Unsigned name := texts name (by simp)
    match value with
    | none => exact mirror_reference named own.placeholder
    | some v =>
      have hv := node_mirror quote v (hp v (by simp)) (.inl trivial : True ∨ v.CallFree)
      cases v with
      | null => exact mirror_reference named own.placeholder
      | expression e =>
        have he : (Node.expression e).Every Node.IsShared := hp _ (by simp)
        exact mirror_assignment named e
          (each_mirror quote e.operands ((Node.every_iff_everyIn _).1 he).2 (.inl trivial))
      | callable definedName ps b l =>
        have defined : (Node.callable definedName ps b l).Every Node.IsShared := hp _ (by simp)
        cases defined.self.callable
      | _ => exact mirror_boundValue named hv
  | .number value suffix =>
    refine mirror_pure ?_
    rw [resigned_append, resigned_number]
    cases suffix with
    | none => rfl
    | some unit => rw [Option.getD_some, resigned_of_unsigned (texts unit (by simp))]
  | .quoted q => exact mirror_pure (resigned_quoted (texts _ (by simp)) (texts _ (by simp)))
  | .boolean value => exact mirror_pure (by cases value <;> decide)
  | .color text => exact mirror_pure (resigned_of_unsigned (texts text (by simp)))
  | .expression e => exact mirror_expression e (each_mirror quote e.operands hp (callFree_parts hc fun _ => id))
  | .arguments args => exact mirror_arguments (each_mirror quote args hp (.inl trivial))
  | .block b => exact body_mirror quote b hp (callFree_parts hc fun _ => id)
  | .selector segments _ =>
    exact mirror_selector segments (each_mirror quote segments hp (callFree_parts hc fun _ => id))
  | .ruleSet _ none _ => exact mirror_missing _ _
  | .ruleSet selectors (some b) _ =>
    obtain ⟨hs, hb⟩ := (everyIn_append _ _).1 hp
    exact mirror_ruleSet (each_mirror quote selectors hs (callFree_parts hc fun _ => List.mem_append_left _))
      (body_mirror quote b hb (callFree_parts hc fun _ => List.mem_append_right _))
  | .property segments value _ =>
    obtain ⟨hs, hv⟩ := (everyIn_append _ _).1 hp
    exact mirror_property value (fun _ => unsigned_inlineName hv)
      (mirror_named segments (each_mirror quote segments hs (.inl trivial)))
      (mirror_expression value (each_mirror quote value.operands hv (.inl trivial)))
  | .call name args none _ =>
    obtain ⟨ha, -⟩ := (everyIn_append _ _).1 hp
    have value := inValue_of_call hc rfl
    rw [eq_true value]
    exact mirror_call (texts name (by simp)) (each_mirror quote args ha (.inl trivial))
  | .call name args (some b) _ =>
    obtain ⟨ha, hb⟩ := (everyIn_append _ _).1 hp
    have value := inValue_of_call hc rfl
    rw [eq_true value]
    exact mirror_call_block (texts name (by simp)) (each_mirror quote args ha (.inl trivial))
      (body_mirror quote b hb (.inl trivial))
  | .callable .. => cases own.callable
  | .returned value _ =>
    have operands := each_mirror quote value.operands hp (callFree_parts hc fun _ => id)
    exact mirror_returned (mirror_expression value operands)
  | .conditional _ none _ _ _ => exact mirror_missing _ _
  | .conditional condition (some b) alts negated line =>
    obtain ⟨hcb, ha⟩ := (everyIn_append _ _).1 hp
    obtain ⟨hq, hb⟩ := (everyIn_cons _ _).1 hcb
    exact mirror_conditional _ negated (node_mirror quote condition hq (.inl trivial))
      (body_mirror quote b hb (callFree_parts hc fun _ => List.mem_append_left _))
      (alternatives_mirror quote alts ha (callFree_parts hc fun _ => List.mem_append_right _))
  | .loop _ _ none _ _ => exact mirror_missing _ _
  | .loop _ _ (some _) none _ => exact mirror_missing _ _
  | .loop item key (some e) (some b) _ =>
    obtain ⟨he, hb⟩ := (everyIn_append _ _).1 hp
    have names (name : String) (hn : name ∈ key) : Unsigned name :=
      texts name (List.mem_cons_of_mem item (Option.mem_toList.2 hn))
    exact mirror_loop e (texts item (by simp)) names (fun n hn _ => ((he n hn).self).bareName)
      (ranges_mirror quote e.operands he (.inl trivial))
      (each_mirror quote e.operands he (.inl trivial)) (body_mirror quote b hb (callFree_parts hc fun _ => id))
  | .binary operator left right =>
    have hl := node_mirror quote left (hp left (by simp)) (callFree_part hc (by simp [Node.exposed]))
    have hr := node_mirror quote right (hp right (by simp)) (callFree_part hc (by simp [Node.exposed]))
    exact hl.bind fun leftText => hr.bind fun rightText =>
      mirror_pure (resigned_binary (texts operator (by simp)) right leftText rightText)
  | .unary operator operand =>
    have ho := node_mirror quote operand (hp operand (by simp)) (callFree_part hc (by simp [Node.exposed]))
    exact ho.bind fun text => mirror_pure (resigned_unary (texts operator (by simp)) text)
  | .keyframes .. => cases own.keyframes
  | .media _ none _ => exact mirror_missing _ _
  | .media q (some b) _ =>
    obtain ⟨hq, hb⟩ := (everyIn_cons _ _).1 hp
    exact mirror_conditionRule (by decide) (node_mirror quote q hq (callFree_part hc List.mem_cons_self))
      (body_mirror quote b hb (callFree_parts hc fun _ => List.mem_cons_of_mem _))
  | .queryList queries =>
    exact (each_mirror quote queries hp (callFree_parts hc fun _ => id)).bind fun texts =>
      mirror_pure (resigned_intercalate (by decide) texts)
  | .query features medium predicate =>
    obtain ⟨hf, hm⟩ := (everyIn_append _ _).1 hp
    have first := optional_mirror quote medium hm (callFree_parts hc fun _ => List.mem_append_right _)
    have rest := each_mirror quote features hf (callFree_parts hc fun _ => List.mem_append_left _)
    exact first.bind fun mediumText => rest.bind fun featureTexts =>
      mirror_pure (resigned_query (fun t ht => texts t (Option.mem_toList.2 ht)) mediumText featureTexts)
  | .feature segments none =>
    obtain ⟨hs, -⟩ := (everyIn_append _ _).1 hp
    refine (mirror_named segments
      (each_mirror quote segments hs (callFree_parts hc fun _ => List.mem_append_left _))).bind fun name => ?_
    exact mirror_pure (resigned_feature name none)
  | .feature segments (some value) =>
    obtain ⟨hs, hv⟩ := (everyIn_append _ _).1 hp
    refine (mirror_named segments
      (each_mirror quote segments hs (callFree_parts hc fun _ => List.mem_append_left _))).bind fun name => ?_
    refine (mirror_expression value
      (each_mirror quote value.operands hv (callFree_parts hc fun _ => List.mem_append_right _))).bind fun text => ?_
    exact mirror_pure (resigned_feature name (some text))
  | .supports _ none _ => exact mirror_missing _ _
  | .supports condition (some b) _ =>
    obtain ⟨hq, hb⟩ := (everyIn_cons _ _).1 hp
    exact mirror_conditionRule (by decide) (node_mirror quote condition hq (callFree_part hc List.mem_cons_self))
      (body_mirror quote b hb (callFree_parts hc fun _ => List.mem_cons_of_mem _))
  | .xmlNamespace value shortName _ =>
    exact mirror_xmlNamespace (fun name hn => texts name (Option.mem_toList.2 hn))
      (node_mirror quote value (hp value (by simp)) (.inl trivial))
  | .charset encoding _ => exact mirror_charset (texts _ (by simp)) (texts _ (by simp))
  | .importSheet .. => cases own.importSheet
  | .extend selectors _ =>
    exact mirror_extend selectors (each_mirror quote selectors hp (callFree_parts hc fun _ => id))
  | .atRule name segments none _ =>
    obtain ⟨hs, -⟩ := (everyIn_append _ _).1 hp
    exact mirror_atRule (texts name (by simp)) segments
      (each_mirror quote segments hs (callFree_parts hc fun _ => List.mem_append_left _))
  | .atRule name segments (some b) _ =>
    obtain ⟨hs, hb⟩ := (everyIn_append _ _).1 hp
    exact mirror_atRule_block (texts name (by simp)) segments
      (each_mirror quote segments hs (callFree_parts hc fun _ => List.mem_append_left _))
      (body_mirror quote b hb (callFree_parts hc fun _ => List.mem_append_right _))
  | .comment c => exact mirror_comment (texts _ (by simp)) false
  | .member left right =>
    have hl := hp left (by simp)
    have hr := hp right (by simp)
    refine mirror_member left right (fun n hn _ => ?_) quote
      (node_mirror quote left hl (callFree_part hc (by simp [Node.exposed])))
      (node_mirror quote right hr (callFree_part hc (by simp [Node.exposed])))
    exact (hp n hn).self.bareName
  | .mapLiteral es _ => exact mirror_mapLiteral quote (entries_mirror quote es hp fun key hk => texts key hk)
termination_by structural n

private theorem each_mirror (quote : Unsigned σ.quote.toString) {inValue : Prop} (ns : List Node)
    (h : EveryIn Node.IsShared ns) (hc : inValue ∨ CallFreeIn ns) :
    Mirror σ inValue (each ns) (each ns) (List.map resigned) := by
  match ns with
  | [] => exact mirror_pure rfl
  | n :: ns =>
    rw [everyIn_cons] at h
    exact (node_mirror quote n h.1 (callFree_head hc)).bind fun _ =>
      (each_mirror quote ns h.2 (callFree_tail hc)).bind fun _ => mirror_pure rfl
termination_by structural ns

private theorem body_mirror (quote : Unsigned σ.quote.toString) {inValue : Prop} (b : Body Node)
    (h : EveryIn Node.IsShared b.statements) (hc : inValue ∨ CallFreeIn b.statements) :
    Mirror σ inValue (Render.body b) (Render.body b) resigned := by
  match b with
  | ⟨ss, _⟩ => exact mirror_block (statements_mirror quote none ss h hc)
termination_by structural b

private theorem optional_mirror (quote : Unsigned σ.quote.toString) {inValue : Prop} (n : Option Node)
    (h : EveryIn Node.IsShared n.toList) (hc : inValue ∨ CallFreeIn n.toList) :
    Mirror σ inValue (optional n) (optional n) resigned := by
  match n with
  | none => exact mirror_pure (by decide)
  | some n => exact node_mirror quote n (h n (by simp)) (callFree_head hc)
termination_by structural n

private theorem statements_mirror (quote : Unsigned σ.quote.toString) {inValue : Prop} (previous : Option Nat)
    (ns : List Node) (h : EveryIn Node.IsShared ns) (hc : inValue ∨ CallFreeIn ns) :
    Mirror σ inValue (statements previous ns) (statements previous ns) resigned := by
  match ns with
  | [] => exact mirror_pure (by decide)
  | n :: ns =>
    rw [everyIn_cons] at h
    have hn := node_mirror quote n h.1 (callFree_head hc)
    have rest := statements_mirror quote n.line ns h.2 (callFree_tail hc)
    cases n with
    | comment c =>
      exact (mirror_comment (h.1.self.texts _ (by simp)) _).bind fun _ => rest.bind fun _ =>
        mirror_pure (resigned_append _ _)
    | _ => exact hn.bind fun _ => rest.bind fun _ => mirror_pure (resigned_append _ _)
termination_by structural ns

private theorem alternatives_mirror (quote : Unsigned σ.quote.toString) {inValue : Prop} (ns : List Node)
    (h : EveryIn Node.IsShared ns) (hc : inValue ∨ CallFreeIn ns) :
    Mirror σ inValue (alternatives ns) (alternatives ns) (List.map resigned) := by
  match ns with
  | [] => exact mirror_pure rfl
  | n :: ns =>
    rw [everyIn_cons] at h
    obtain ⟨-, hp⟩ := (Node.every_iff_everyIn _).1 h.1
    have first := callFree_head hc
    have rest := alternatives_mirror quote ns h.2 (callFree_tail hc)
    cases n with
    | conditional condition b alts negated line =>
      match b with
      | none => exact mirror_missing _ _
      | some b =>
        obtain ⟨hcb, ha⟩ := (everyIn_append _ _).1 hp
        obtain ⟨hq, hb⟩ := (everyIn_cons _ _).1 hcb
        exact (mirror_chained (mirror_conditional _ negated (node_mirror quote condition hq (.inl trivial))
          (body_mirror quote b hb (callFree_parts first fun _ => List.mem_append_left _))
          (alternatives_mirror quote alts ha (callFree_parts first fun _ => List.mem_append_right _)))).bind fun _ =>
            rest.bind fun _ => mirror_pure rfl
    | block b =>
      have hb := body_mirror quote b hp (callFree_parts first fun _ => id)
      exact (mirror_chained (mirror_otherwise hb)).bind fun _ => rest.bind fun _ => mirror_pure rfl
    | _ => exact mirror_missing _ _
termination_by structural ns

private theorem ranges_mirror (quote : Unsigned σ.quote.toString) {inValue : Prop} (ns : List Node)
    (h : EveryIn Node.IsShared ns) (hc : inValue ∨ CallFreeIn ns) :
    Mirror σ inValue (ranges ns) (ranges ns) (List.map resigned) := by
  match ns with
  | [] => exact mirror_pure rfl
  | n :: ns =>
    rw [everyIn_cons] at h
    obtain ⟨-, hp⟩ := (Node.every_iff_everyIn _).1 h.1
    have first := callFree_head hc
    have hn := node_mirror quote n h.1 first
    have rest := ranges_mirror quote ns h.2 (callFree_tail hc)
    cases n with
    | binary operator left right =>
      simp only [rangesWith]
      split
      · exact (node_mirror quote left (hp left (by simp)) (callFree_part first (by simp [Node.exposed]))).bind fun _ =>
          (node_mirror quote right (hp right (by simp)) (callFree_part first (by simp [Node.exposed]))).bind fun _ =>
            (mirror_pure (resigned_bounds operator _ _)).bind fun _ => rest.bind fun _ => mirror_pure rfl
      · exact hn.bind fun _ => rest.bind fun _ => mirror_pure rfl
    | expression e =>
      refine (ranges_mirror quote e.operands hp (callFree_parts first fun _ => id)).bind fun texts =>
        rest.bind fun _ => mirror_pure ?_
      rw [List.map_cons, resigned_intercalate (by decide)]
    | _ => exact hn.bind fun _ => rest.bind fun _ => mirror_pure rfl
termination_by structural ns

private theorem entries_mirror (quote : Unsigned σ.quote.toString) (es : List (String × Node))
    (h : EveryIn Node.IsShared (es.map (·.2))) (keys : ∀ key ∈ es.map (·.1), Unsigned key) :
    Mirror σ True (entries es) (entries es) (List.map (Prod.map resigned resigned)) := by
  match es with
  | [] => exact mirror_pure rfl
  | (key, n) :: es =>
    rw [List.map_cons, everyIn_cons] at h
    refine (node_mirror quote n h.1 (.inl trivial)).bind fun text =>
      (entries_mirror quote es h.2 fun key hk => keys key (List.mem_cons_of_mem _ hk)).bind fun _ => mirror_pure ?_
    rw [List.map_cons, Prod.map_apply, resigned_of_unsigned (keys key List.mem_cons_self)]
termination_by structural es

end

end Render

/-- In the second dialect a sheet is what it is in the first one, with the sigils replaced; both fail alike. Calls may
stand in values of declarations and assignments, in arguments and in conditions. -/
theorem Sheet.convert_less (s : Sheet) (settings : Settings) (quote : IsPlain settings.quote)
    (shared : EveryIn Node.IsShared s.statements) (calls : CallFreeIn s.statements) :
    s.convert { settings with dialect := .less } = (s.convert { settings with dialect := .scss }).map resigned := by
  have plain : Unsigned settings.toStyle.quote.toString := by
    intro c hc
    rw [Char.toString_eq_singleton, String.toList_singleton, List.mem_singleton] at hc
    rw [hc]
    exact quote
  have free : False ∨ CallFreeIn s.statements := .inr calls
  obtain ⟨same, -⟩ := Render.statements_mirror plain none s.statements shared free Pass.stands_start
  have run : s.render { settings.toStyle with dialect := .less } =
      (s.render { settings.toStyle with dialect := .scss }).map fun x => (resigned x.1, x.2.inLess) := same
  show (s.render { settings.toStyle with dialect := .less } >>= _) =
    (s.render { settings.toStyle with dialect := .scss } >>= _).map resigned
  rw [run]
  cases s.render { settings.toStyle with dialect := .scss } with
  | error e => rfl
  | ok x =>
    refine congrArg Except.ok ?_
    rw [toList_resigned, indentLines_map_resign, resigned, String.toList_ofList, List.map_append]
    rfl

/-- A variable, a rule with a call in a declaration, and a loop over names. -/
theorem Sheet.convert_less_width :
    let width : Node := .identifier { name := "w", value := some (.expression ⟨[.literal "1px" none], none⟩) }
    let call : Node := .call "calc" [.literal "1em" none] none none
    let rule : Node := .ruleSet [.selector [.literal ".a" none] none]
      (some ⟨[.property [.literal "top" none] ⟨[call, .identifier { name := "w" }], none⟩ none], none⟩) none
    let loop : Node := .loop "i" none (some ⟨[.identifier { name := "w" }], none⟩) (some ⟨[rule], none⟩) none
    let sheet : Sheet := ⟨[width, loop]⟩
    sheet.convert { dialect := .scss } =
        .ok "$w: 1px;@each $i in $w \x7b\n  .a \x7b\n    top: calc(1em) $w;\n  \x7d\n\x7d\n" ∧
      EveryIn Node.IsShared sheet.statements ∧ CallFreeIn sheet.statements ∧
      sheet.convert { dialect := .less } = (sheet.convert { dialect := .scss }).map resigned := by
  intro width call rule loop sheet
  have shared : EveryIn Node.IsShared sheet.statements := by
    simp only [sheet, width, loop, rule, call, Node.every_iff_everyIn, everyIn_cons, everyIn_nil, everyIn_append,
      Node.parts, statementsOf, operandsOf, Option.toList_some, Option.toList_none, List.append_nil]
    decide
  have calls : CallFreeIn sheet.statements := by
    simp [sheet, width, loop, rule, Node.callFree_iff_exposed, Node.exposed, Node.isCall]
  exact ⟨eq_ok_of_toOption (by decide +kernel), shared, calls, sheet.convert_less {} (by decide) shared calls⟩

end Stylesheet
