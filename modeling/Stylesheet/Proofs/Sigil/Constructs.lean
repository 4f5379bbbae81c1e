import Stylesheet.Proofs.Forms
import Stylesheet.Proofs.Sigil.Mirror

/-!
# Constructs in two dialects

Each construct goes the same way in both dialects if its parts do. A call does so as part of a value, since the word in
front of a call that is a statement is not the same in both.
-/

namespace Stylesheet

open Rendering

namespace Render

variable {σ : Style} {inValue : Prop} {line : Option Nat} {text text' body body' : Rendering String}
  {texts texts' items items' : Rendering (List String)}

private theorem resigned_referenceText (p : Pass) {id : Identifier Node} (named : Unsigned id.name)
    (own : id.placeholder = false) :
    referenceText .less p.inLess id = resigned (referenceText .scss p id) := by
  have variableText := resigned_variableRef named
  have plainText := resigned_of_unsigned named
  have dots : resigned "..." = "..." := by decide
  have known (b : Bool) : (if b then Dialect.less.variableRef id.name else id.name) =
      resigned (if b then Dialect.scss.variableRef id.name else id.name) := by
    cases b
    · exact plainText.symm
    · exact variableText.symm
  have sameVariables : p.inLess.registry.knowsVariable id.name = p.registry.knowsVariable id.name := rfl
  have sameParams : p.inLess.registry.knowsParam id.name = p.registry.knowsParam id.name := rfl
  have samePlaces : ∀ places, p.inLess.inAny places = p.inAny places := fun _ => rfl
  have value : p.inLess.registry.valueOf? id.name = (p.registry.valueOf? id.name).map resigned :=
    Registry.valueOf?_inLess p.registry named
  unfold referenceText
  simp only [sameVariables, sameParams, samePlaces, value, own, known]
  cases p.inAny [.expression] with
  | false => cases id.rest <;> simp [dots]
  | true =>
    cases p.inAny [.call] with
    | true => cases p.registry.knowsParam id.name <;> simp [variableText, plainText]
    | false =>
      cases p.registry.valueOf? id.name with
      | some value => rfl
      | none => cases id.rest <;> simp [dots]

theorem mirror_reference {id : Identifier Node} (named : Unsigned id.name) (own : id.placeholder = false) :
    Mirror σ inValue (reference id) (reference id) resigned :=
  .spoken (mirror_observe fun p _ => resigned_referenceText p named own)

private theorem mirror_addVariable (name : String) :
    Mirror σ inValue (register (·.addVariable name)) (register (·.addVariable name)) id := mirror_register fun _ => rfl

private theorem mirror_assigned {name : String} (named : Unsigned name) {before value : String} :
    Mirror σ inValue (do return before ++ (← variableRef name) ++ ": " ++ Text.dropTrailing ';' value ++ ";")
      (do return resigned before ++ (← variableRef name) ++ ": " ++ Text.dropTrailing ';' (resigned value) ++ ";")
      resigned :=
  (mirror_variableRef named).bind fun _ => mirror_pure <| by
    simp (disch := decide) [resigned_of_not_mem, resigned_dropTrailing]

theorem mirror_assignment {name : String} (named : Unsigned name) (value : Expression Node)
    (h : Mirror σ True texts texts' (List.map resigned)) :
    Mirror σ inValue (assignment name value texts) (assignment name value texts') resigned := by
  have rest : Mirror σ inValue
      (do
        let inCall ← observe (·.inAny [.call])
        let before ← if inCall then pure "" else lineStart value.line
        let texts ← within [.declarationValue] texts
        register (·.addVariable name)
        return before ++ (← variableRef name) ++ ": " ++ Text.dropTrailing ';' (" ".intercalate texts) ++ ";")
      (do
        let inCall ← observe (·.inAny [.call])
        let before ← if inCall then pure "" else lineStart value.line
        let texts ← within [.declarationValue] texts'
        register (·.addVariable name)
        return before ++ (← variableRef name) ++ ": " ++ Text.dropTrailing ';' (" ".intercalate texts) ++ ";")
      resigned := by
    refine .viewed (fun _ => rfl) fun inCall => ?_
    refine .either (mirror_pure rfl) (mirror_lineStart _) fun before => ?_
    refine Mirror.bind (h.inside (by decide)) fun texts => (mirror_addVariable name).bind fun _ => ?_
    rw [← resigned_intercalate (by decide)]
    exact mirror_assigned named
  unfold assignment
  split
  · exact .bind (mirror_register fun _ => rfl) fun _ => rest
  · exact rest

theorem mirror_boundValue {name : String} (named : Unsigned name) (h : Mirror σ True text text' resigned) :
    Mirror σ inValue (boundValue name line text) (boundValue name line text') resigned :=
  (mirror_lineStart _).bind fun _ => Mirror.bind (h.inside (by decide)) fun _ =>
    (mirror_addVariable name).bind fun _ => mirror_assigned named

theorem mirror_property (value : Expression Node) (inline : ∀ name, value.inlineName? = some name → Unsigned name)
    (hn : Mirror σ True text text' resigned) (hv : Mirror σ True body body' resigned) :
    Mirror σ inValue (property line text value body) (property line text' value body') resigned := by
  refine (mirror_lineStart _).bind fun before => Mirror.inside ?_ (by decide)
  refine hn.bind fun name => Mirror.viewed (fun p => p.registry.nextSlot_inLess) fun slot => ?_
  refine Mirror.bind (mirror_register fun r => (r.openDeclaration_inLess name).symm) fun _ => hv.bind fun text => ?_
  cases hi : value.inlineName? with
  | some inner =>
    refine (mirror_variableRef (inline inner hi)).bind fun reference => ?_
    have closes (r : Registry) := ((r.addVariable inner).closeDeclaration_inLess reference slot).symm
    refine Mirror.bind (mirror_register closes) fun _ => ?_
    refine mirror_indent.bind fun pad => mirror_pure ?_
    simp (disch := decide) [resigned_of_not_mem]
  | none =>
    refine Mirror.bind (mirror_register fun r => (r.closeDeclaration_inLess text slot).symm) fun _ => mirror_pure ?_
    have terminator : resigned (if Text.endsWith ';' text || value.handsBlock then "" else ";") =
        if Text.endsWith ';' (resigned text) || value.handsBlock then "" else ";" := by
      rw [endsWith_resigned (by decide)]
      split <;> decide
    simp (disch := decide) only [resigned_append, resigned_of_not_mem, terminator]

theorem mirror_named (segments : List Node) (h : Mirror σ inValue texts texts' (List.map resigned)) :
    Mirror σ inValue (named segments texts) (named segments texts') resigned :=
  h.bind fun texts => mirror_pure (resigned_joinSegments segments texts)

private theorem mirror_withReturn (content : String) :
    Mirror σ inValue (withReturn content) (withReturn (resigned content)) resigned := by
  refine .viewed (fun _ => rfl) fun inCallable => .observed (fun p hp => ⟨hp.returning, hp.returning⟩) ?_
  cases inCallable <;> exact mirror_pure rfl

theorem mirror_block (h : Mirror σ inValue text text' resigned) :
    Mirror σ inValue (block text) (block text') resigned := by
  refine Mirror.bind (f := resigned) (Mirror.deeper ?_) fun content => mirror_indent.bind fun pad => mirror_pure ?_
  · refine h.bind fun content => (mirror_withReturn content).bind fun content => ?_
    rw [startsWith_resigned (by decide)]
    split
    · exact mirror_pure rfl
    · refine mirror_indent.bind fun pad => mirror_pure ?_
      simp (disch := decide) [resigned_of_not_mem]
  · simp (disch := decide) [resigned_of_not_mem]

theorem mirror_selector (segments : List Node) (h : Mirror σ inValue texts texts' (List.map resigned)) :
    Mirror σ inValue (selector segments texts) (selector segments texts') resigned :=
  (mirror_lineStart _).bind fun _ => (mirror_named segments h).bind fun _ => mirror_pure (resigned_append _ _)

theorem mirror_ruleSet (hs : Mirror σ inValue texts texts' (List.map resigned))
    (hb : Mirror σ inValue body body' resigned) :
    Mirror σ inValue (ruleSet line texts body) (ruleSet line texts' body') resigned := by
  refine (mirror_lineStart _).bind fun before => hs.bind fun texts => hb.bind fun body => ?_
  refine .observed (fun p hp => ⟨hp.inKeyframes, hp.inKeyframes⟩) (mirror_pure ?_)
  simp [resigned_joinSelectors]

private theorem mirror_returnStart (line : Option Nat) :
    Mirror σ inValue (returnStart line) (returnStart line) resigned :=
  (mirror_lineStart line).bind fun before => .spoken (mirror_pure (resigned_append before _))

theorem mirror_expression (e : Expression Node) (h : Mirror σ inValue texts texts' (List.map resigned)) :
    Mirror σ inValue (expression e texts) (expression e texts') resigned := by
  refine .viewed (fun _ => rfl) fun inside => .viewed (fun _ => rfl) fun inList => ?_
  refine .viewed (fun _ => rfl) fun returned => ?_
  refine .either (mirror_returnStart _) (mirror_pure rfl) fun before => .bind (h.around (by decide)) fun texts => ?_
  refine .viewed (fun _ => rfl) fun isAddress => mirror_pure ?_
  cases isAddress <;> simp [resigned_joinOperands]

theorem mirror_arguments (h : Mirror σ True texts texts' (List.map resigned)) :
    Mirror σ inValue (arguments texts) (arguments texts') resigned := by
  refine Mirror.inside (h.bind fun texts => mirror_pure ?_) (by decide)
  have dropped : resigned ∘ Text.dropTrailing ';' = Text.dropTrailing ';' ∘ resigned :=
    funext fun t => resigned_dropTrailing (by decide) t
  rw [resigned_intercalate (by decide), List.map_map, List.map_map, dropped]

private theorem resigned_called {name : String} (named : Unsigned name) (before args : String) :
    resigned (before ++ name ++ "(" ++ args ++ ")") = resigned before ++ name ++ "(" ++ resigned args ++ ")" := by
  simp (disch := decide) [resigned_of_not_mem, resigned_of_unsigned named]

/-- As part of a value a call has no word in front of it. -/
theorem mirror_call {name : String} (named : Unsigned name) (h : Mirror σ True texts texts' (List.map resigned)) :
    Mirror σ True (call name line texts none) (call name line texts' none) resigned := by
  refine (mirror_lineBreaks line).bind fun owed => .observed (fun _ hp => ⟨hp.inValuePlace, hp.inValuePlace⟩) ?_
  refine .observed (fun _ _ => ⟨Bool.and_false _, Bool.and_false _⟩) ?_
  simp only [Bool.false_eq_true, if_false, pure_bind]
  refine (mirror_arguments h).calling.bind fun args => mirror_pure ?_
  rw [resigned_append, resigned_called named]
  rfl

theorem mirror_call_block {name : String} (named : Unsigned name) (h : Mirror σ True texts texts' (List.map resigned))
    (hb : Mirror σ True body body' resigned) :
    Mirror σ True (call name line texts (some body)) (call name line texts' (some body')) resigned := by
  refine (mirror_lineBreaks line).bind fun owed => .observed (fun _ hp => ⟨hp.inValuePlace, hp.inValuePlace⟩) ?_
  refine .observed (fun _ _ => ⟨Bool.and_false _, Bool.and_false _⟩) ?_
  simp only [Bool.false_eq_true, if_false, pure_bind]
  refine (mirror_arguments h).calling.bind fun args => hb.bind fun block => mirror_pure ?_
  rw [resigned_append, resigned_called named]

theorem mirror_member (left right : Node) (names : ∀ n ∈ [left, right], ∀ name, n.bareName? = some name → Unsigned name)
    (quote : Unsigned σ.quote.toString) (hl : Mirror σ inValue text text' resigned)
    (hr : Mirror σ inValue body body' resigned) :
    Mirror σ inValue (member left right text body) (member left right text' body') resigned := by
  have owner : Mirror σ inValue (left.bareName?.elim text variableRef) (left.bareName?.elim text' variableRef)
      resigned := by
    cases hn : left.bareName? with
    | none => exact hl
    | some name => exact mirror_variableRef (names left (by simp) name hn)
  have key : Mirror σ inValue (right.bareName?.elim body pure) (right.bareName?.elim body' pure) resigned := by
    cases hn : right.bareName? with
    | none => exact hr
    | some name => exact mirror_pure (resigned_of_unsigned (names right (by simp) name hn))
  rw [member_eq, member_eq]
  refine .viewed (fun _ => rfl) fun ofMap => .ite ?_ ?_
  · refine owner.bind fun owner => key.bind fun key => .styled (mirror_pure ?_)
    simp (disch := decide) only [resigned_append, resigned_of_not_mem, resigned_of_unsigned quote, Style.within]
  · refine hl.bind fun owner => hr.bind fun key => mirror_pure ?_
    simp (disch := decide) [resigned_of_not_mem]

theorem mirror_mapLiteral {entries entries' : Rendering (List (String × String))} (quote : Unsigned σ.quote.toString)
    (h : Mirror σ True entries entries' (List.map (Prod.map resigned resigned))) :
    Mirror σ inValue (mapLiteral line entries) (mapLiteral line entries') resigned := by
  have lines : Mirror σ inValue
      (deeper do
        let pad ← indent
        let entries ← within [.mapLiteral] entries
        return entries.map fun e => "
" ++ pad ++ σ.quote.toString ++ e.1 ++ σ.quote.toString ++ ": " ++
          Text.eraseFirst ';' e.2)
      (deeper do
        let pad ← indent
        let entries ← within [.mapLiteral] entries'
        return entries.map fun e => "
" ++ pad ++ σ.quote.toString ++ e.1 ++ σ.quote.toString ++ ": " ++
          Text.eraseFirst ';' e.2)
      (List.map resigned) := by
    refine .deeper (mirror_indent.bind fun pad => .bind (h.inside (by decide)) fun entries => mirror_pure ?_)
    simp (disch := decide) only [List.map_map, Function.comp_def, resigned_append, resigned_of_not_mem,
      resigned_of_unsigned quote, resigned_eraseFirst, Prod.map_fst, Prod.map_snd]
  have closed (lines : List String) : Mirror σ inValue
      (do return "(" ++ ",".intercalate lines ++ "
" ++ (← indent) ++ ")")
      (do return "(" ++ ",".intercalate (lines.map resigned) ++ "
" ++ (← indent) ++ ")") resigned := by
    refine mirror_indent.bind fun pad => mirror_pure ?_
    simp (disch := decide) [resigned_of_not_mem, resigned_intercalate]
  refine .styled (lines.bind fun lines => ?_)
  cases line with
  | none => exact closed lines
  | some line =>
    refine .bind (mirror_modify (fun p => ?_) fun p hp => ⟨hp.returning, hp.keyframes, hp.value⟩) fun _ => closed lines
    rw [List.length_map]
    rfl

/-- The word in front of a returned value is the same. -/
theorem mirror_returned (h : Mirror σ inValue text text' resigned) :
    Mirror σ inValue (returned line text) (returned line text') resigned := by
  refine (mirror_lineStart line).bind fun before => .bind (h.around (by decide)) fun value => .spoken (mirror_pure ?_)
  have word : resigned Dialect.scss.returnWord = Dialect.less.returnWord := by decide
  rw [resigned_append, resigned_append, resigned_append, resigned_dropTrailing (by decide), word]
  rfl

private theorem mirror_nextLine : Mirror σ inValue (modify Pass.nextLine) (modify Pass.nextLine) id :=
  mirror_modify (fun _ => rfl) fun _ hp => ⟨hp.returning, hp.keyframes, hp.value⟩

theorem mirror_conditional (start : BranchStart) (negated : Bool) (hc : Mirror σ True text text' resigned)
    (hb : Mirror σ inValue body body' resigned) (ha : Mirror σ inValue texts texts' (List.map resigned)) :
    Mirror σ inValue (conditional start negated text body texts) (conditional start negated text' body' texts')
      resigned := by
  have first : Mirror σ inValue start.text start.text resigned := by
    cases start with
    | leading line =>
      refine (mirror_lineStart line).bind fun before => mirror_pure ?_
      simp (disch := decide) [resigned_of_not_mem]
    | chained => exact mirror_pure (by decide)
  refine first.bind fun before => .bind (hc.inside (by decide)) fun condition => hb.bind fun body =>
    ha.bind fun alternatives => mirror_pure ?_
  rw [resigned_append, resigned_append, resigned_append, resigned_join]
  exact congrArg (_ ++ · ++ _ ++ _) (resigned_negate negated condition)

theorem mirror_chained (h : Mirror σ inValue text text' resigned) :
    Mirror σ inValue (chained text) (chained text') resigned := mirror_nextLine.bind fun _ => h

theorem mirror_otherwise (h : Mirror σ inValue body body' resigned) :
    Mirror σ inValue (otherwise body) (otherwise body') resigned :=
  h.bind fun _ => mirror_pure <| by simp (disch := decide) [resigned_of_not_mem]

private theorem mirror_forHead {item : String} (named : Unsigned item)
    (h : Mirror σ inValue texts texts' (List.map resigned)) :
    Mirror σ inValue (forHead item texts) (forHead item texts') resigned := by
  refine h.bind fun ranges => (mirror_variableRef named).bind fun reference => mirror_pure ?_
  simp (disch := decide) [resigned_of_not_mem, resigned_intercalate]

private theorem mirror_eachHead {item : String} {key : Option String} (iterable : List Node) (named : Unsigned item)
    (keyed : ∀ name ∈ key, Unsigned name) (names : ∀ n ∈ iterable, ∀ name, n.bareName? = some name → Unsigned name)
    (h : Mirror σ inValue items items' (List.map resigned)) :
    Mirror σ inValue (eachHead item key iterable items) (eachHead item key iterable items') resigned := by
  refine .spoken (h.bind fun items => mirror_pure ?_)
  have each : (item :: key.toList).map Dialect.less.variableRef =
      ((item :: key.toList).map Dialect.scss.variableRef).map resigned := by
    cases key with
    | none => simp [resigned_variableRef named]
    | some key => simp [resigned_variableRef named, resigned_variableRef (keyed key rfl)]
  rw [each, ← resigned_intercalate (by decide), ← resigned_joinItems names]
  simp (disch := decide) only [resigned_append, resigned_of_not_mem]

theorem mirror_loop {item : String} {key : Option String} (iterable : Expression Node) (named : Unsigned item)
    (keyed : ∀ name ∈ key, Unsigned name)
    (names : ∀ n ∈ iterable.operands, ∀ name, n.bareName? = some name → Unsigned name)
    (hr : Mirror σ True texts texts' (List.map resigned)) (hi : Mirror σ True items items' (List.map resigned))
    (hb : Mirror σ inValue body body' resigned) :
    Mirror σ inValue (loop item key line iterable texts items body) (loop item key line iterable texts' items' body')
      resigned := by
  have head : Mirror σ True
      (if (firstRange? iterable.operands).isSome then forHead item texts
        else eachHead item key iterable.operands items)
      (if (firstRange? iterable.operands).isSome then forHead item texts'
        else eachHead item key iterable.operands items') resigned :=
    .ite (mirror_forHead named hr) (mirror_eachHead _ named keyed names hi)
  have rest (before : String) : Mirror σ inValue
      (do
        let head ← within [.condition] <|
          if (firstRange? iterable.operands).isSome then forHead item texts
          else eachHead item key iterable.operands items
        return before ++ head ++ (← body))
      (do
        let head ← within [.condition] <|
          if (firstRange? iterable.operands).isSome then forHead item texts'
          else eachHead item key iterable.operands items'
        return resigned before ++ head ++ (← body')) resigned := by
    refine .bind (head.inside (by decide)) fun head => hb.bind fun body => mirror_pure ?_
    rw [resigned_append, resigned_append]
  refine (mirror_lineStart line).bind fun before => (mirror_addVariable item).bind fun _ => ?_
  cases key with
  | none => exact rest before
  | some key => exact (mirror_addVariable key).bind fun _ => rest before

theorem mirror_conditionRule {keyword : String} (word : resigned keyword = keyword)
    (hc : Mirror σ inValue text text' resigned) (hb : Mirror σ inValue body body' resigned) :
    Mirror σ inValue (conditionRule keyword line text body) (conditionRule keyword line text' body') resigned :=
  (mirror_lineStart _).bind fun _ => hc.bind fun _ => hb.bind fun _ => mirror_pure <| by
    rw [resigned_append, resigned_append, resigned_append, word]

theorem mirror_xmlNamespace {shortName : Option String} (named : ∀ name ∈ shortName, Unsigned name)
    (h : Mirror σ True text text' resigned) :
    Mirror σ inValue (xmlNamespace line shortName text) (xmlNamespace line shortName text') resigned := by
  refine (mirror_lineStart _).bind fun before => .bind (h.inside (by decide)) fun value => mirror_pure ?_
  have name : resigned ((shortName.map (· ++ " ")).getD "") = (shortName.map (· ++ " ")).getD "" := by
    cases shortName with
    | none => rfl
    | some name => exact resigned_of_unsigned (unsigned_append (named name rfl) (by decide))
  simp (disch := decide) only [resigned_append, resigned_of_not_mem, name, resigned_dropTrailing]

theorem mirror_charset {encoding : QuotedText} (ht : Unsigned encoding.text) (hq : Unsigned encoding.quote) :
    Mirror σ inValue (charset line encoding) (charset line encoding) resigned := by
  refine (mirror_lineStart line).bind fun before => mirror_pure ?_
  simp (disch := decide) only [resigned_append, resigned_of_not_mem, resigned_quoted ht hq]

theorem mirror_extend (selectors : List Node) (h : Mirror σ inValue texts texts' (List.map resigned)) :
    Mirror σ inValue (extend line selectors texts) (extend line selectors texts') resigned := by
  have rest : Mirror σ inValue
      (do
        let before ← lineStart line
        return before ++ "@extend " ++ ", ".intercalate ((← texts).map Text.trimStart) ++ ";")
      (do
        let before ← lineStart line
        return before ++ "@extend " ++ ", ".intercalate ((← texts').map Text.trimStart) ++ ";") resigned := by
    refine (mirror_lineStart line).bind fun before => h.bind fun texts => mirror_pure ?_
    simp (disch := decide) [resigned_of_not_mem, resigned_intercalate, Function.comp_def]
  unfold extend
  split
  · exact Mirror.bind (f := id) (mirror_missing _ _) fun _ => rest
  · exact rest

private theorem resigned_atRuleHead {name : String} (named : Unsigned name) (segments : List Node)
    (texts : List String) :
    resigned ("@" ++ name ++ if segments.isEmpty then "" else " " ++ joinSegments segments texts) =
      "@" ++ name ++ if segments.isEmpty then "" else " " ++ joinSegments segments (texts.map resigned) := by
  cases segments.isEmpty <;>
    simp (disch := decide) [resigned_of_not_mem, resigned_of_unsigned named, resigned_joinSegments]

theorem mirror_atRule {name : String} (named : Unsigned name) (segments : List Node)
    (h : Mirror σ inValue texts texts' (List.map resigned)) :
    Mirror σ inValue (atRule name line segments texts none) (atRule name line segments texts' none) resigned := by
  refine (mirror_lineStart line).bind fun before => h.bind fun texts => mirror_pure ?_
  simp (disch := decide) only [resigned_append before, resigned_append _ ";", resigned_of_not_mem,
    resigned_atRuleHead named]

theorem mirror_atRule_block {name : String} (named : Unsigned name) (segments : List Node)
    (h : Mirror σ inValue texts texts' (List.map resigned)) (hb : Mirror σ inValue body body' resigned) :
    Mirror σ inValue (atRule name line segments texts (some body)) (atRule name line segments texts' (some body'))
      resigned := by
  refine (mirror_lineStart line).bind fun before => h.bind fun texts => hb.bind fun body => mirror_pure ?_
  rw [resigned_append, resigned_append, resigned_atRuleHead named]

theorem mirror_comment {c : Comment} (plain : Unsigned c.text) (sameLine : Bool) :
    Mirror σ inValue (comment c sameLine) (comment c sameLine) resigned := by
  have kept (before : String) : resigned (before ++ keptText c) = resigned before ++ keptText c := by
    rw [resigned_append, resigned_of_unsigned (unsigned_keptText plain)]
  unfold comment
  refine .either (mirror_pure (by decide)) (mirror_lineStart _) fun before => ?_
  cases c.line with
  | none => exact mirror_pure (kept before)
  | some line =>
    exact .bind (mirror_modify (fun _ => rfl) fun _ hp => ⟨hp.returning, hp.keyframes, hp.value⟩) fun _ =>
      mirror_pure (kept before)

end Render

end Stylesheet
