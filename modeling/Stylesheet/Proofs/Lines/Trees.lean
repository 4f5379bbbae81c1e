import Stylesheet.Proofs.Lines.Constructs

/-!
# Lines are white space

Two trees that are the same but for their lines are converted to texts that are the same but for white space. Each of
them is in step with the tree without lines, by one recursion over the tree.
-/

namespace Stylesheet

open Text Rendering

namespace Node

/-- The parts that are no heads: selectors stand in rule sets, before the body, and in extensions. -/
def inner : Node → List Node
  | ruleSet _ b _ => statementsOf b
  | extend .. => []
  | n => n.parts

/-- What a name is put together from: literals, and interpolated lists of leaves, bare names and operations. -/
def isSegment : Node → Bool
  | literal .. => true
  | expression e => allSimple e.operands
  | _ => false

def isPathPiece : Node → Bool
  | literal .. | quoted _ => true
  | _ => false

structure Plain (n : Node) : Prop where
  texts : ∀ t ∈ n.texts, '@' ∉ t.toList
  name : ∀ id, n = identifier id → '#' ∉ id.name.toList
  inner : ∀ c ∈ n.inner, c.isSelector = false
  segments : ∀ c ∈ n.segments, c.isSegment
  path : ∀ path line, n = importSheet path line → ∀ c ∈ path.operands, c.isPathPiece

/-- If the node is a rule set, it has selectors only for heads. -/
def ListsSelectors : Node → Prop
  | ruleSet selectors _ _ => ∀ n ∈ selectors, n.isSelector
  | _ => True

/-- No comment is empty, and the rule sets of keyframes have selectors for heads. -/
def Regular : Node → Prop
  | keyframes segments b line => (keyframes segments b line).Every ListsSelectors
  | comment c => ∃ a ∈ c.text.toList, a ≠ ';'
  | _ => True

/-- The node can stand on any line as long as the keyword is not looked for. -/
structure Steady (n : Node) : Prop where
  plain : n.Plain
  regular : n.Regular

/-- What the node writes behind an at-sign could not begin the keyword there. -/
def Spelled (d : Dialect) : Node → Prop
  | identifier id => id.isBound = false → d.Spells id.name
  | property _ value _ => ∀ name, value.inlineName? = some name → d.Spells name
  | atRule name _ _ _ => startsReturn name = false
  | _ => True

/-- In a function, where the keyword is looked for, and in the value of a declaration, which can be looked up there,
nothing could begin the keyword. -/
def Guarded (d : Dialect) : Node → Prop
  | property segments value line => (property segments value line).Spelled d ∧ EveryIn (Spelled d) value.operands
  | n => n.isFunction → EveryIn (Spelled d) n.parts

theorem plain_iff (n : Node) : n.Plain ↔ (∀ t ∈ n.texts, '@' ∉ t.toList) ∧
    (∀ id, n = identifier id → '#' ∉ id.name.toList) ∧ (∀ c ∈ n.inner, c.isSelector = false) ∧
    (∀ c ∈ n.segments, c.isSegment) ∧
    (∀ path line, n = importSheet path line → ∀ c ∈ path.operands, c.isPathPiece) :=
  ⟨fun ⟨ht, hn, hi, hs, hp⟩ => ⟨ht, hn, hi, hs, hp⟩, fun ⟨ht, hn, hi, hs, hp⟩ => ⟨ht, hn, hi, hs, hp⟩⟩

theorem steady_iff (n : Node) : n.Steady ↔ n.Plain ∧ n.Regular := ⟨fun ⟨hp, hr⟩ => ⟨hp, hr⟩, fun ⟨hp, hr⟩ => ⟨hp, hr⟩⟩

/-- All that the scene asks of a node in it. -/
structure Ready (d : Dialect) (κ : Scene) (n : Node) : Prop where
  steady : n.Steady
  heads : κ.steps → n.ListsSelectors
  spelled : κ.search = .everywhere → n.Spelled d
  guarded : κ.search ≠ .nowhere → n.Guarded d
  function : n.isFunction → κ.search ≠ .nowhere

end Node

namespace Render

variable {σ : Style} {κ : Scene}

private theorem isSegment_cases {n : Node} (h : n.isSegment) : n.isLiteral || n.isExpression := by
  cases n <;> first | rfl | cases h

private theorem isPathPiece_cases {n : Node} (h : n.isPathPiece) : n.isLiteral || n.quotedText?.isSome := by
  cases n <;> first | rfl | cases h

private theorem itemized_of_ready {n : Node} (h : n.Every (Node.Ready σ.dialect κ)) : Itemized κ σ.dialect n := by
  intro name hn
  cases n with
  | identifier id =>
    have hself := h.self
    have hbound : id.isBound = false := by
      by_cases hb : id.isBound
      · simp [Node.bareName?, hb] at hn
      · simpa using hb
    have hname : id.name = name := by simpa [Node.bareName?, hbound] using hn
    rw [← hname]
    exact ⟨hself.steady.plain.texts id.name (by simp), fun hk => hself.spelled hk hbound⟩
  | _ => cases hn

private theorem twin_of_inlineName {segments : List Node} {value : Expression Node} {line : Option Nat}
    (h : (Node.property segments value line).Every (Node.Ready σ.dialect κ)) {name : String}
    (hn : value.inlineName? = some name) :
    Twin κ.inValue (σ.dialect.variableRef name) (σ.dialect.variableRef name) := by
  have spells (hk : κ.inValue.search = .everywhere) : σ.dialect.Spells name :=
    (h.self.guarded (Scene.search_ne_of_inValue hk)).1 name hn
  refine σ.dialect.twin_variableRef ?_ spells
  obtain ⟨id, held, rfl, -⟩ := Expression.identifier_of_inlineName? hn
  exact (h.part (List.mem_append_right _ held)).self.steady.plain.texts id.name (by simp)

private theorem every_ready_of_keyframes {n : Node} (h : n.Every (Node.Ready σ.dialect κ))
    (hs : n.Every Node.ListsSelectors) : n.Every (Node.Ready σ.dialect κ.inKeyframes) := by
  intro m hm
  exact { h m hm with heads := fun _ => hs m hm }

/-- What is asked of nodes when the keyword is looked for in more of what they are written as. -/
private theorem everyIn_ready_of_spelled {κ' : Scene} {ns : List Node} (h : EveryIn (Node.Ready σ.dialect κ) ns)
    (steps : κ'.steps → κ.steps) (same : κ'.search ≠ .nowhere ↔ κ.search ≠ .nowhere)
    (spelled : κ'.search = .everywhere → EveryIn (Node.Spelled σ.dialect) ns) :
    EveryIn (Node.Ready σ.dialect κ') ns := by
  intro n hn m hm
  have ready := h n hn m hm
  exact {
    steady := ready.steady
    heads := fun hs => ready.heads (steps hs)
    spelled := fun hk => spelled hk n hn m hm
    guarded := fun hk => ready.guarded (same.1 hk)
    function := fun hf => same.2 (ready.function hf) }

private theorem everyIn_ready_inValue {segments : List Node} {value : Expression Node} {line : Option Nat}
    (h : (Node.property segments value line).Every (Node.Ready σ.dialect κ)) :
    EveryIn (Node.Ready σ.dialect κ.inValue) value.operands := by
  have parts := ((everyIn_append _ _).1 h.parts).2
  exact everyIn_ready_of_spelled parts id Scene.search_inValue_ne fun hk =>
    (h.self.guarded (Scene.search_ne_of_inValue hk)).2

private theorem function_of_callable {name : String} {ps : List (Identifier Node)} {b : Body Node} {line : Option Nat}
    (h : (Node.callable name ps (some b) line).Every (Node.Ready σ.dialect κ))
    (hk : DefinitionKind.ofBody b.statements = .function) : κ.search ≠ .nowhere :=
  h.self.function (by simp [Node.isFunction, hk])

private theorem everyIn_ready_inCallable {name : String} {ps : List (Identifier Node)} {b : Body Node}
    {line : Option Nat} (h : (Node.callable name ps (some b) line).Every (Node.Ready σ.dialect κ)) :
    EveryIn (Node.Ready σ.dialect (κ.inCallable (.ofBody b.statements)))
      (ps.flatMap (·.value.toList) ++ b.statements) := by
  cases hk : DefinitionKind.ofBody b.statements with
  | mixin => exact h.parts
  | function =>
    have allowed := function_of_callable h hk
    refine everyIn_ready_of_spelled h.parts Scene.steps_inCallable.1 ?_ fun _ => ?_
    · exact iff_of_true (fun hn => by cases hn) allowed
    · exact h.self.guarded allowed (by simp [Node.isFunction, hk])

mutual

private theorem node_inStep (quote : σ.quote ≠ '@') (κ : Scene) (n : Node)
    (h : n.Every (Node.Ready σ.dialect κ)) :
    InStep σ κ (node n) (node n.unlined) (Reads κ n) := by
  have ⟨⟨plain, hash, inner, segmented, pieces⟩, regular⟩ := h.self.steady
  have spelled := h.self.spelled
  have hp : EveryIn (Node.Ready σ.dialect κ) n.parts := ((Node.every_iff_everyIn n).1 h).2
  match n with
  | .null => exact (inStep_pure tight_empty).reads rfl rfl
  | .literal text line =>
    have twin : Twin κ text text := twin_of_plain (plain text (by simp))
    refine inStep_pure ⟨twin.trimStart, fun _ => twin, fun t l he => ?_, fun hs => ?_⟩
    · cases he
      exact ⟨rfl, rfl⟩
    · cases hs
  | .quoted q =>
    exact (inStep_pure (twin_quoted (plain q.text (by simp)) (plain q.quote (by simp)))).reads rfl rfl
  | .boolean value =>
    have word : Twin κ (if value then "true" else "false") (if value then "true" else "false") := by
      split <;> exact twin_refl (by decide)
    exact (inStep_pure word).reads rfl rfl
  | .color text => exact (inStep_pure (twin_of_plain (plain text (by simp)))).reads rfl rfl
  | .number value suffix =>
    have ending : Twin κ (suffix.getD "") (suffix.getD "") := by
      cases suffix with
      | none => exact tight_empty
      | some s => exact twin_of_plain (plain s (by simp))
    exact (inStep_pure ((twin_number value).append ending)).reads rfl rfl
  | .identifier ⟨name, value, placeholder, rest, line⟩ =>
    have hname : '@' ∉ name.toList := plain name (by simp)
    match value with
    | none =>
      have bare : InStep σ κ (reference ⟨name, none, placeholder, rest, line⟩)
        (reference ⟨name, none, placeholder, rest, none⟩) (Twin κ) :=
          inStep_reference hname (hash _ rfl) fun hk => spelled hk rfl
      exact bare.reads rfl rfl
    | some v =>
      have hv : v.Every (Node.Ready σ.dialect κ) := hp v (by simp)
      have value := (node_inStep quote κ v hv).read (inner v (by simp [Node.inner]))
      cases v with
      | null =>
        have bare : InStep σ κ (reference ⟨name, some .null, placeholder, rest, line⟩)
          (reference ⟨name, some .null, placeholder, rest, none⟩) (Twin κ) :=
            inStep_reference hname (hash _ rfl) fun hk => spelled hk rfl
        exact bare.reads rfl rfl
      | expression e =>
        have operands := (each_inStep quote κ e.operands ((Node.every_iff_everyIn _).1 hv).2).twins
          hv.self.steady.plain.inner
        exact (inStep_assignment operands).reads rfl rfl
      | callable => exact value.reads rfl rfl
      | _ => exact (inStep_boundValue value).reads rfl rfl
  | .expression e => exact (inStep_expression ((each_inStep quote κ e.operands hp).twins inner)).reads rfl rfl
  | .arguments args => exact (inStep_arguments ((each_inStep quote κ args hp).twins inner)).reads rfl rfl
  | .block b => exact (body_inStep quote κ b hp inner).twin.reads rfl rfl
  | .selector segments l =>
    exact inStep_selector (each_inStep quote κ segments hp) inner fun n hn => isSegment_cases (segmented n hn)
  | .ruleSet _ none _ => exact inStep_missing
  | .ruleSet selectors (some b) _ =>
    obtain ⟨hs, hb⟩ := (everyIn_append _ _).1 hp
    exact (inStep_ruleSet (each_inStep quote κ selectors hs) h.self.heads
      (body_inStep quote κ b hb inner)).reads rfl rfl
  | .property segments value line =>
    obtain ⟨hs, -⟩ := (everyIn_append _ _).1 hp
    obtain ⟨is, iv⟩ := List.forall_mem_append.1 inner
    have name : InStep σ κ (named segments (each segments)) (named (unlinedAll segments) (each (unlinedAll segments)))
        fun s t => Twin κ s t ∧ NameAlike s t := by
      refine inStep_named (each_inStep quote κ segments hs) fun ts ts' hts => ?_
      rw [unlinedAll_eq]
      exact ⟨twin_joinSegments (hts.twins is), nameAlike_joinSegments hts fun n hn => isSegment_cases (segmented n hn)⟩
    have value := inStep_expression (e := value)
      ((each_inStep quote κ.inValue value.operands (everyIn_ready_inValue h)).twins iv)
    exact (inStep_property name (fun _ hn => twin_of_inlineName h hn) value).reads rfl rfl
  | .call name args none _ =>
    obtain ⟨ha, -⟩ := (everyIn_append _ _).1 hp
    obtain ⟨ia, -⟩ := List.forall_mem_append.1 inner
    exact (inStep_call (plain name (by simp)) ((each_inStep quote κ args ha).twins ia) .none).reads rfl rfl
  | .call name args (some b) _ =>
    obtain ⟨ha, hb⟩ := (everyIn_append _ _).1 hp
    obtain ⟨ia, ib⟩ := List.forall_mem_append.1 inner
    exact (inStep_call (plain name (by simp)) ((each_inStep quote κ args ha).twins ia)
      (.some (body_inStep quote κ b hb ib).twin)).reads rfl rfl
  | .callable _ _ none _ => exact inStep_missing
  | .callable name ps (some b) line =>
    obtain ⟨hps, hb⟩ := (everyIn_append _ _).1 (everyIn_ready_inCallable h)
    obtain ⟨ips, ib⟩ := List.forall_mem_append.1 inner
    have both : InStep σ κ
        (callable name line (.ofBody b.statements) (ps.map (·.name)) (params ps) (Render.body b))
        (callable name none (.ofBody (unlinedAll b.statements)) ((unlinedParams ps).map (·.name))
          (params (unlinedParams ps)) (Render.body b.unlined)) (Twin κ) := by
      rw [unlinedAll_eq, ofBody_unlined, names_unlinedParams]
      exact inStep_callable (function_of_callable h) (params_inStep quote _ ps hps ips)
        (body_inStep quote _ b hb ib).twin
    exact both.reads rfl rfl
  | .returned value line =>
    exact (inStep_returned (inStep_expression (e := value)
      ((each_inStep quote κ value.operands hp).twins inner))).reads rfl rfl
  | .conditional _ none _ _ _ => exact inStep_missing
  | .conditional condition (some b) alts negated line =>
    obtain ⟨hcb, ha⟩ := (everyIn_append _ _).1 hp
    obtain ⟨hc, hb⟩ := (everyIn_cons _ _).1 hcb
    obtain ⟨icb, ia⟩ := List.forall_mem_append.1 inner
    obtain ⟨ic, ib⟩ := List.forall_mem_cons.1 icb
    exact (inStep_conditional (.leading line none) ((node_inStep quote κ condition hc).read ic)
      (body_inStep quote κ b hb ib).twin (alternatives_inStep quote κ alts ha)).reads rfl rfl
  | .loop _ _ none _ _ => exact inStep_missing
  | .loop _ _ (some _) none _ => exact inStep_missing
  | .loop item key (some e) (some b) _ =>
    obtain ⟨he, hb⟩ := (everyIn_append _ _).1 hp
    obtain ⟨ie, ib⟩ := List.forall_mem_append.1 inner
    exact (inStep_loop e (fun n hn => itemized_of_ready (he n hn)) (ranges_inStep quote κ e.operands he ie)
      ((each_inStep quote κ e.operands he).twins ie) (body_inStep quote κ b hb ib).twin).reads rfl rfl
  | .binary operator left right =>
    have hl := (node_inStep quote κ left (hp left (by simp))).read (inner left (by simp [Node.inner]))
    have hr := (node_inStep quote κ right (hp right (by simp))).read (inner right (by simp [Node.inner]))
    have both : InStep σ κ (node (.binary operator left right)) (node (.binary operator left.unlined right.unlined))
        (Twin κ) := hl.bind fun _ _ hst => hr.bind fun _ _ huv =>
      inStep_pure (twin_binary right (plain operator (by simp)) hst huv)
    exact both.reads rfl rfl
  | .unary operator operand =>
    have ho := (node_inStep quote κ operand (hp operand (by simp))).read (inner operand (by simp [Node.inner]))
    have one : InStep σ κ (node (.unary operator operand)) (node (.unary operator operand.unlined)) (Twin κ) :=
      ho.bind fun _ _ hst => inStep_pure (twin_unary (plain operator (by simp)) hst)
    exact one.reads rfl rfl
  | .keyframes _ none _ => exact inStep_missing
  | .keyframes segments (some b) _ =>
    obtain ⟨is, ib⟩ := List.forall_mem_append.1 inner
    have inside := ((Node.every_iff_everyIn _).1 (every_ready_of_keyframes h regular)).2
    obtain ⟨hs, hb⟩ := (everyIn_append _ _).1 inside
    exact (inStep_keyframes (each_inStep quote _ segments hs) is (body_inStep quote _ b hb ib).twin).reads rfl rfl
  | .media _ none _ => exact inStep_missing
  | .media q (some b) _ =>
    obtain ⟨hq, hb⟩ := (everyIn_cons _ _).1 hp
    obtain ⟨iq, ib⟩ := List.forall_mem_cons.1 inner
    exact (inStep_conditionRule (twin_refl (by decide)) (by decide) ((node_inStep quote κ q hq).read iq)
      (body_inStep quote κ b hb ib).twin).reads rfl rfl
  | .queryList queries =>
    have all : InStep σ κ (node (.queryList queries)) (node (.queryList (unlinedAll queries))) (Twin κ) :=
      ((each_inStep quote κ queries hp).twins inner).bind fun _ _ hts =>
        inStep_pure (tight_intercalate (twin_refl (by decide)) hts)
    exact all.reads rfl rfl
  | .query features medium predicate =>
    obtain ⟨hf, hm⟩ := (everyIn_append _ _).1 hp
    obtain ⟨jf, jm⟩ := List.forall_mem_append.1 inner
    have words : ∀ w ∈ predicate, '@' ∉ w.toList := fun w hw => plain w (by simpa using hw)
    have all : InStep σ κ (node (.query features medium predicate))
        (node (.query (unlinedAll features) (unlinedValue medium) predicate)) (Twin κ) :=
      (optional_inStep quote κ medium hm jm).bind fun _ _ hmedium =>
        ((each_inStep quote κ features hf).twins jf).bind fun _ _ hfeatures =>
          inStep_pure (twin_query words hmedium hfeatures)
    exact all.reads rfl rfl
  | .feature segments none =>
    obtain ⟨hs, -⟩ := (everyIn_append _ _).1 hp
    obtain ⟨is, -⟩ := List.forall_mem_append.1 inner
    have all : InStep σ κ (node (.feature segments none)) (node (.feature (unlinedAll segments) none)) (Twin κ) :=
      (inStep_name is (each_inStep quote κ segments hs)).bind fun _ _ hn => inStep_pure (twin_feature hn .none)
    exact all.reads rfl rfl
  | .feature segments (some value) =>
    obtain ⟨hs, hv⟩ := (everyIn_append _ _).1 hp
    obtain ⟨is, iv⟩ := List.forall_mem_append.1 inner
    have all : InStep σ κ (node (.feature segments (some value)))
        (node (.feature (unlinedAll segments) (some value.unlined))) (Twin κ) :=
      (inStep_name is (each_inStep quote κ segments hs)).bind fun _ _ hn =>
        (inStep_expression (e := value) ((each_inStep quote κ value.operands hv).twins iv)).bind fun _ _ hv =>
          inStep_pure (twin_feature hn (.some hv))
    exact all.reads rfl rfl
  | .supports _ none _ => exact inStep_missing
  | .supports condition (some b) _ =>
    obtain ⟨hc, hb⟩ := (everyIn_cons _ _).1 hp
    obtain ⟨ic, ib⟩ := List.forall_mem_cons.1 inner
    exact (inStep_conditionRule (twin_refl (by decide)) (by decide) ((node_inStep quote κ condition hc).read ic)
      (body_inStep quote κ b hb ib).twin).reads rfl rfl
  | .xmlNamespace value shortName _ =>
    have hv := (node_inStep quote κ value (hp value (by simp))).read (inner value (by simp [Node.inner]))
    have names : ∀ w ∈ shortName, '@' ∉ w.toList := fun w hw => plain w (by simpa using hw)
    exact (inStep_xmlNamespace names hv).reads rfl rfl
  | .charset encoding _ =>
    exact (inStep_charset (plain encoding.text (by simp)) (plain encoding.quote (by simp))).reads rfl rfl
  | .importSheet path _ =>
    exact (inStep_importSheet (fun n hn => isPathPiece_cases (pieces _ _ rfl n hn))
      (fun n hn => (hp n hn).self.steady.plain.texts)
      (each_inStep quote κ path.operands hp)).reads rfl rfl
  | .extend selectors _ => exact (inStep_extend (each_inStep quote κ selectors hp)).reads rfl rfl
  | .atRule name segments none _ =>
    obtain ⟨hs, -⟩ := (everyIn_append _ _).1 hp
    obtain ⟨is, -⟩ := List.forall_mem_append.1 inner
    exact (inStep_atRule (plain name (by simp)) spelled ((each_inStep quote κ segments hs).twins is)
      .none).reads rfl rfl
  | .atRule name segments (some b) _ =>
    obtain ⟨hs, hb⟩ := (everyIn_append _ _).1 hp
    obtain ⟨is, ib⟩ := List.forall_mem_append.1 inner
    exact (inStep_atRule (plain name (by simp)) spelled ((each_inStep quote κ segments hs).twins is)
      (.some (body_inStep quote κ b hb ib).twin)).reads rfl rfl
  | .comment c =>
    exact (inStep_comment c { c with line := none } false false rfl rfl (plain c.text (by simp)) regular).reads rfl rfl
  | .member left right =>
    have hl := hp left (by simp)
    have hr := hp right (by simp)
    exact (inStep_member quote (itemized_of_ready hl) (itemized_of_ready hr)
      ((node_inStep quote κ left hl).read (inner left (by simp [Node.inner])))
      ((node_inStep quote κ right hr).read (inner right (by simp [Node.inner])))).reads rfl rfl
  | .mapLiteral es _ =>
    exact (inStep_mapLiteral quote (entries_inStep quote κ es (fun e he => plain e.1 (List.mem_map_of_mem he)) hp
      inner)).reads rfl rfl
termination_by structural n

private theorem each_inStep (quote : σ.quote ≠ '@') (κ : Scene) (ns : List Node)
    (h : EveryIn (Node.Ready σ.dialect κ) ns) :
    InStep σ κ (each ns) (each (unlinedAll ns)) (AllRead κ ns) := by
  match ns with
  | [] => exact inStep_pure .nil
  | n :: ns =>
    rw [everyIn_cons] at h
    exact (node_inStep quote κ n h.1).bind fun t t' ht => (each_inStep quote κ ns h.2).bind fun ts ts' hts =>
      inStep_pure (.cons ht hts)
termination_by structural ns

private theorem body_inStep (quote : σ.quote ≠ '@') (κ : Scene) (b : Body Node)
    (h : EveryIn (Node.Ready σ.dialect κ) b.statements) (hs : ∀ n ∈ b.statements, n.isSelector = false) :
    InStep σ κ (Render.body b) (Render.body b.unlined) (Braced κ) := by
  match b with
  | ⟨ss, _⟩ => exact inStep_block (statements_inStep quote κ none none ss h hs)
termination_by structural b

theorem statements_inStep (quote : σ.quote ≠ '@') (κ : Scene) (previous previous' : Option Nat) (ns : List Node)
    (h : EveryIn (Node.Ready σ.dialect κ) ns) (hs : ∀ n ∈ ns, n.isSelector = false) :
    InStep σ κ (statements previous ns) (statements previous' (unlinedAll ns)) (Twin κ) := by
  match ns with
  | [] => exact inStep_pure tight_empty
  | n :: ns =>
    rw [everyIn_cons] at h
    obtain ⟨hn, hns⟩ := List.forall_mem_cons.1 hs
    have hnode := (node_inStep quote κ n h.1).read hn
    have first : InStep σ κ (statement previous n) (statement previous' n.unlined) (Twin κ) := by
      cases n with
      | comment c =>
        have steady := h.1.self.steady
        exact inStep_comment c { c with line := none } (c.line.isSome && previous == c.line) false rfl rfl
          (steady.plain.texts c.text (by simp)) steady.regular
      | _ => exact hnode
    show InStep σ κ (statements previous (n :: ns)) (statements previous' (n.unlined :: unlinedAll ns)) (Twin κ)
    rw [statements_cons, statements_cons]
    exact first.bind fun _ _ ht => (statements_inStep quote κ n.line n.unlined.line ns h.2 hns).bind
      fun _ _ hts => inStep_pure (ht.append hts)
termination_by structural ns

private theorem optional_inStep (quote : σ.quote ≠ '@') (κ : Scene) (n : Option Node)
    (h : EveryIn (Node.Ready σ.dialect κ) n.toList) (hs : ∀ c ∈ n.toList, c.isSelector = false) :
    InStep σ κ (optional n) (optional (unlinedValue n)) (Twin κ) := by
  match n with
  | none => exact inStep_pure tight_empty
  | some n => exact (node_inStep quote κ n (h n (by simp))).read (hs n (by simp))
termination_by structural n

private theorem alternatives_inStep (quote : σ.quote ≠ '@') (κ : Scene) (ns : List Node)
    (h : EveryIn (Node.Ready σ.dialect κ) ns) :
    InStep σ κ (alternatives ns) (alternatives (unlinedAll ns)) (Twins κ) := by
  match ns with
  | [] => exact inStep_pure .nil
  | n :: ns =>
    rw [everyIn_cons] at h
    have first : InStep σ κ (alternative n) (alternative n.unlined) (Twin κ) := by
      have inner := h.1.self.steady.plain.inner
      have hp := ((Node.every_iff_everyIn _).1 h.1).2
      cases n with
      | conditional condition b alts negated line =>
        match b with
        | none => exact inStep_missing
        | some b =>
          obtain ⟨hcb, ha⟩ := (everyIn_append _ _).1 hp
          obtain ⟨hc, hb⟩ := (everyIn_cons _ _).1 hcb
          obtain ⟨icb, ia⟩ := List.forall_mem_append.1 inner
          obtain ⟨ic, ib⟩ := List.forall_mem_cons.1 icb
          exact inStep_chained (inStep_conditional .chained ((node_inStep quote κ condition hc).read ic)
            (body_inStep quote κ b hb ib).twin (alternatives_inStep quote κ alts ha))
      | block b => exact inStep_chained (inStep_otherwise (body_inStep quote κ b hp inner).twin)
      | _ => exact inStep_missing
    show InStep σ κ (alternatives (n :: ns)) (alternatives (n.unlined :: unlinedAll ns)) (Twins κ)
    rw [alternatives_cons, alternatives_cons]
    exact first.bind fun _ _ ht => (alternatives_inStep quote κ ns h.2).bind fun _ _ hts =>
      inStep_pure (.cons ht hts)
termination_by structural ns

private theorem ranges_inStep (quote : σ.quote ≠ '@') (κ : Scene) (ns : List Node)
    (h : EveryIn (Node.Ready σ.dialect κ) ns) (hs : ∀ n ∈ ns, n.isSelector = false) :
    InStep σ κ (ranges ns) (ranges (unlinedAll ns)) (Twins κ) := by
  match ns with
  | [] => exact inStep_pure .nil
  | n :: ns =>
    rw [everyIn_cons] at h
    obtain ⟨hn, hns⟩ := List.forall_mem_cons.1 hs
    have hnode := (node_inStep quote κ n h.1).read hn
    have first : InStep σ κ (range n) (range n.unlined) (Twin κ) := by
      have inner := h.1.self.steady.plain.inner
      have hp := ((Node.every_iff_everyIn _).1 h.1).2
      cases n with
      | binary operator left right =>
        have hl := (node_inStep quote κ left (hp left (by simp))).read (inner left (by simp [Node.inner]))
        have hr := (node_inStep quote κ right (hp right (by simp))).read (inner right (by simp [Node.inner]))
        refine InStep.ite Iff.rfl (fun _ => ?_) fun _ => hnode
        exact hl.bind fun _ _ hst => hr.bind fun _ _ huv => inStep_pure (twin_bounds operator hst huv)
      | expression e =>
        exact (ranges_inStep quote κ e.operands hp inner).bind fun _ _ hts =>
          inStep_pure (tight_intercalate (twin_refl (by decide)) hts)
      | _ => exact hnode
    show InStep σ κ (ranges (n :: ns)) (ranges (n.unlined :: unlinedAll ns)) (Twins κ)
    rw [ranges_cons, ranges_cons]
    exact first.bind fun _ _ ht => (ranges_inStep quote κ ns h.2 hns).bind fun _ _ hts =>
      inStep_pure (.cons ht hts)
termination_by structural ns

private theorem params_inStep (quote : σ.quote ≠ '@') (κ : Scene) (ids : List (Identifier Node))
    (h : EveryIn (Node.Ready σ.dialect κ) (ids.flatMap (·.value.toList)))
    (hs : ∀ c ∈ ids.flatMap (·.value.toList), c.isSelector = false) :
    InStep σ κ (params ids) (params (unlinedParams ids)) (List.Forall₂ (Sealed κ)) := by
  match ids with
  | [] => exact inStep_pure .nil
  | id :: ids =>
    rw [List.flatMap_cons] at h hs
    obtain ⟨hid, hids⟩ := (everyIn_append _ _).1 h
    obtain ⟨sid, sids⟩ := List.forall_mem_append.1 hs
    have value := optional_inStep quote κ id.value hid sid
    have first := inStep_param id fun _ => value
    exact first.bind fun _ _ ht => (params_inStep quote κ ids hids sids).bind fun _ _ hts =>
      inStep_pure (.cons ht hts)
termination_by structural ids

private theorem entries_inStep (quote : σ.quote ≠ '@') (κ : Scene) (es : List (String × Node))
    (keys : ∀ e ∈ es, '@' ∉ e.1.toList) (h : EveryIn (Node.Ready σ.dialect κ) (es.map (·.2)))
    (hs : ∀ c ∈ es.map (·.2), c.isSelector = false) :
    InStep σ κ (entries es) (entries (unlinedEntries es)) (List.Forall₂ (EntryAlike κ)) := by
  match es with
  | [] => exact inStep_pure .nil
  | (key, n) :: es =>
    rw [List.map_cons] at h hs
    obtain ⟨hn, hes⟩ := (everyIn_cons _ _).1 h
    obtain ⟨sn, ses⟩ := List.forall_mem_cons.1 hs
    obtain ⟨hk, hks⟩ := List.forall_mem_cons.1 keys
    exact ((node_inStep quote κ n hn).read sn).bind fun _ _ ht =>
      (entries_inStep quote κ es hks hes ses).bind fun _ _ hts => inStep_pure (.cons ⟨rfl, hk, ht⟩ hts)
termination_by structural es

end

end Render

end Stylesheet
