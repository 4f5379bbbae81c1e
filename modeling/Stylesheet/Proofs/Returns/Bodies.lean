import Stylesheet.Proofs.Returns.Speech

/-!
# Texts in the body of a function

What every construct writes in the body of a function speaks if the construct does. The trees are those that bring no
keyword by their texts, define no callable and declare no value with a keyword; they may bind names.
-/

namespace Stylesheet

open Text Rendering

namespace Node

/-- The operands that a declaration gives to later look-ups of its name. -/
def declared : Node → List Node
  | property _ value _ => value.operands
  | _ => []

/-- Neither a text of the node nor a name that it writes behind an at-sign could be read as the keyword, it is no
definition, and it declares no value that has the keyword. -/
structure Discreet (d : Dialect) (n : Node) : Prop where
  texts : ∀ t ∈ n.texts, '@' ∉ t.toList
  names : ∀ name ∈ n.variableNames, d.Avoids name
  rules : ∀ name ∈ n.ruleNames, Differs name
  plain : n.isCallable = false
  declared : speaksIn true n.declared = false

instance (d : Dialect) (n : Node) : Decidable (Discreet d n) :=
  decidable_of_iff ((∀ t ∈ n.texts, '@' ∉ t.toList) ∧ (∀ name ∈ n.variableNames, d.Avoids name) ∧
      (∀ name ∈ n.ruleNames, Differs name) ∧ n.isCallable = false ∧ speaksIn true n.declared = false)
    ⟨fun ⟨ht, hn, hr, hp, hd⟩ => ⟨ht, hn, hr, hp, hd⟩, fun ⟨ht, hn, hr, hp, hd⟩ => ⟨ht, hn, hr, hp, hd⟩⟩

end Node

private theorem discreet_bareName {d : Dialect} {n : Node} (h : n.Every (Node.Discreet d)) {name : String}
    (hn : n.bareName? = some name) : (∀ among, n.speaks among = false) ∧ '@' ∉ name.toList ∧ d.Avoids name := by
  cases n with
  | identifier id =>
    obtain ⟨idName, value, placeholder, rest, line⟩ := id
    have known : '@' ∉ idName.toList ∧ d.Avoids idName :=
      ⟨h.self.texts idName (by simp), h.self.names idName (by simp [Node.variableNames])⟩
    cases value with
    | none =>
      cases hn
      exact ⟨fun _ => rfl, known⟩
    | some v =>
      cases v with
      | null =>
        cases hn
        exact ⟨fun _ => rfl, known⟩
      | _ => cases hn
  | _ => cases hn

namespace Render

variable {σ : Style} {p q : Pass} {t : String} {line : Option Nat} {text body : Rendering String}
  {texts : Rendering (List String)} {ns : List Node} {Q : Bool → String → Prop}

private theorem reference_tells {id : Identifier Node} (plain : '@' ∉ id.name.toList)
    (avoids : σ.dialect.Avoids id.name) :
    (reference id).Tells σ fun _ t => Speaks false t := by
  intro p t q hp hg
  obtain ⟨rfl, rfl⟩ := reference_gives hg
  exact ⟨.refl q, silent_referenceText hp.values plain avoids⟩

theorem named_tells (h : texts.Tells σ fun among ts => AllSpeak among ns ts) :
    (named ns texts).Tells σ fun among t => Speaks (speaksIn among ns) t :=
  h.bind fun _ => tells_pure fun _ => AllSpeak.joinSegments

/-- A list that is a statement has the word that returns it. -/
theorem expression_tells {e : Expression Node} (h : texts.Tells σ fun among ts => AllSpeak among e.operands ts) :
    (expression e texts).Tells σ fun among t => Speaks (!among || speaksIn true e.operands) t := by
  intro p t q hp hg
  obtain ⟨before, start, ts, r, hstart, hts, rfl, rfl⟩ := expression_gives hg
  obtain ⟨moved, front⟩ : p.Onward start ∧ Speaks (!p.stand.amongValues) before := by
    rw [← hp.returnsList_eq]
    rcases hstart with ⟨returns, rfl, rfl⟩ | ⟨returns, rfl, rfl⟩
    · rw [returns]
      exact ⟨p.onward_reach e.line, hasReturn_append (.inr (by cases σ.dialect <;> decide))⟩
    · rw [returns]
      exact ⟨.refl _, silent_of_plain (by simp)⟩
  obtain ⟨onward, all⟩ := h.inside (moved.inBody hp) (by simp) hts
  refine ⟨moved.trans onward, front.append ?_⟩
  have operands := all.joinOperands (p.inAny [.declarationValue])
  split
  · exact operands.removeBlanks
  · exact operands

private theorem arguments_tells (h : texts.Tells σ fun among ts => AllSpeak among ns ts) :
    (arguments texts).Tells σ fun _ t => Speaks (speaksIn true ns) t := by
  intro p t q hp hg
  obtain ⟨ts, r, hts, rfl, rfl⟩ := arguments_gives hg
  obtain ⟨onward, all⟩ := h.inside hp (by simp) hts
  exact ⟨onward, (all.edit Speaks.dropTrailing).intercalate (by decide)⟩

private theorem call_args_tells {name : String} (h : texts.Tells σ fun among ts => AllSpeak among ns ts) (hp : p.InBody)
    {args : String} (hg : (arguments texts).Gives σ ((p.reach line).call name) args q) :
    p.Onward (q.hangUp (p.reach line)) ∧ Speaks (speaksIn true ns) args := by
  have start := (p.onward_reach line).inBody hp
  have named : { p.reach line with callName := some name }.InBody := ⟨start.values, start.function⟩
  have inside : ((p.reach line).call name).InBody := named.enter [.call]
  obtain ⟨onward, told⟩ := arguments_tells h inside hg
  exact ⟨(p.onward_reach line).trans onward.hangUp, told⟩

private theorem call_tells {name : String} (plain : '@' ∉ name.toList)
    (h : texts.Tells σ fun among ts => AllSpeak among ns ts) :
    (call name line texts none).Tells σ fun _ t => Speaks (speaksIn true ns) t := by
  intro p t q hp hg
  obtain ⟨args, r, ha, ⟨-, rfl, rfl⟩ | ⟨b, _, hb, -⟩⟩ := call_gives hg
  · obtain ⟨onward, told⟩ := call_args_tells h hp ha
    refine ⟨onward, ?_⟩
    have ending : Silent (if (p.reach line).includes then ";" else "") := by split <;> decide
    have opening : Silent "(" := by decide
    have closing : Silent ")" := by decide
    have front := ((silent_callLead (σ := σ) p line).append (silent_of_plain plain)).append opening
    exact ((front.then_speaks told).then_silent closing).then_silent ending
  · cases hb

private theorem selector_tells (h : texts.Tells σ fun among ts => AllSpeak among ns ts) :
    (selector ns texts).Tells σ fun among t => Speaks (speaksIn among ns) t := by
  intro p t q hp hg
  obtain ⟨ts, hts, rfl⟩ := selector_gives hg
  obtain ⟨onward, all⟩ := h.reached hp hts
  exact ⟨onward, (silent_lead p _).then_speaks all.joinSegments⟩

private theorem speaks_binary {operator s t : String} {a b : Bool} (n : Node) (ho : '@' ∉ operator.toList)
    (hs : Speaks a s)
    (ht : Speaks b t) : Speaks (a || b) (binary operator n s t) := by
  have space : Silent " " := by decide
  have grouped : Speaks b (if n.isExpression then "(" ++ t ++ ")" else t) := by
    split
    · have opening : Silent "(" := by decide
      exact (opening.then_speaks ht).then_silent (by decide)
    · exact ht
  have sign : Silent (Operator.spelling operator) := silent_of_plain (plain_spelling ho)
  exact (((hs.then_silent space).then_silent sign).then_silent space).append grouped

private theorem speaks_query {predicate : Option String} {among a : Bool} {medium : String} {ts : List String}
    (hp : ∀ w ∈ predicate, '@' ∉ w.toList) (hm : Speaks a medium) (hf : AllSpeak among ns ts) :
    Speaks (a || speaksIn among ns) (query predicate medium ts) := by
  have joint : Silent " and " := by decide
  have joined : Speaks (speaksIn among ns) (" and ".intercalate ts) := hf.intercalate joint
  have conditions : Speaks (a || speaksIn among ns)
      (" and ".intercalate (if medium.isEmpty then ts else medium :: ts)) := by
    split
    · next he =>
      rw [String.isEmpty_iff.1 he] at hm
      have none : a = false := Bool.eq_false_iff.2 fun ha => absurd (hm.hasReturn_iff.2 ha) (by decide)
      rwa [none, Bool.false_or]
    · cases hf with
      | nil =>
        rw [String.intercalate_singleton]
        simpa [speaksIn] using hm
      | cons head rest =>
        rw [String.intercalate_cons_cons]
        exact (hm.then_silent joint).append joined
  cases predicate with
  | none => exact conditions
  | some w =>
    have word : Silent (w ++ " ") := (silent_of_plain (hp w rfl)).append (by decide)
    exact word.then_speaks conditions

private theorem member_tells (quote : σ.quote ≠ '@') {left right : Node} {leftText rightText : Rendering String}
    (hl : leftText.Tells σ fun among t => Speaks (left.speaks among) t)
    (hr : rightText.Tells σ fun among t => Speaks (right.speaks among) t) (dl : left.Every (Node.Discreet σ.dialect))
    (dr : right.Every (Node.Discreet σ.dialect)) :
    (member left right leftText rightText).Tells σ fun among t =>
      Speaks (left.speaks among || right.speaks among) t := by
  intro p t q hp hg
  obtain ⟨owner, r, key, ⟨ho, hk, rfl⟩ | ⟨ho, hk, rfl⟩⟩ := member_gives hg
  · obtain ⟨onward, owned, keyed⟩ := hl.both hr hp ho hk
    exact ⟨onward, (owned.then_silent (by decide)).append keyed⟩
  · obtain ⟨first, owned⟩ : p.Onward r ∧ Speaks (left.speaks p.stand.amongValues) owner := by
      rcases ho with ⟨-, ho⟩ | ⟨⟨name, hn, rfl⟩, rfl⟩
      · exact hl hp ho
      · obtain ⟨bare, plain, avoids⟩ := discreet_bareName dl hn
        rw [bare]
        exact ⟨.refl _, σ.dialect.silent_variableRef plain avoids⟩
    obtain ⟨onward, keyed⟩ : p.Onward q ∧ Speaks (right.speaks p.stand.amongValues) key := by
      rcases hk with ⟨-, hk⟩ | ⟨hn, rfl⟩
      · exact hr.after hp first hk
      · obtain ⟨bare, plain, -⟩ := discreet_bareName dr hn
        rw [bare]
        exact ⟨first, silent_of_plain plain⟩
    have word : Silent "map-get(" := by decide
    have comma : Silent ", " := by decide
    have mark := silent_quote quote
    exact ⟨onward, (((((word.then_speaks owned).then_silent comma).then_silent mark).append keyed).then_silent
      mark).then_silent (by decide)⟩

/-- The values of a map speak as those of its entries do. -/
private def EntriesSpeak (es : List (String × Node)) (ts : List (String × String)) : Prop :=
  List.Forall₂ (fun e t => '@' ∉ t.1.toList ∧ Speaks (e.2.speaks true) t.2) es ts

private theorem entryLines_speak (quote : σ.quote ≠ '@') (p : Pass) {es : List (String × Node)}
    {ts : List (String × String)}
    (h : EntriesSpeak es ts) : AllSpeak true (es.map (·.2)) (entryLines σ p ts) := by
  have mark := silent_quote quote
  have pad : Silent p.down.indent := silent_of_blank (blank_indent _)
  induction h with
  | nil => exact .nil
  | @cons e t es ts head _ ih =>
    obtain ⟨plain, value⟩ := head
    have feed : Silent "\n" := by decide
    have colon : Silent ": " := by decide
    have front := ((((feed.append pad).append mark).append (silent_of_plain plain)).append mark).append colon
    exact .cons (front.then_speaks value.eraseFirst) ih

private theorem mapLiteral_tells (quote : σ.quote ≠ '@') {es : List (String × Node)}
    {entries : Rendering (List (String × String))}
    (h : entries.Tells σ fun among ts => among → EntriesSpeak es ts) :
    (mapLiteral line entries).Tells σ fun _ t => Speaks (speaksInEntries es) t := by
  intro p t q hp hg
  obtain ⟨ts, r, he, rfl, rfl⟩ := mapLiteral_gives hg
  have deeper := (p.onward_down).inBody hp
  obtain ⟨onward, all⟩ := h.inside deeper (by simp) he
  refine ⟨((p.onward_down.trans onward).trans (Pass.onward_up _)).trans (Pass.along_afterMap _ line _).onward, ?_⟩
  have opening : Silent "(" := by decide
  have feed : Silent "\n" := by decide
  have closing : Silent (r.leave p.down).up.indent := silent_of_blank (blank_indent _)
  rw [speaksInEntries_eq]
  have written := (entryLines_speak quote p (all rfl)).intercalate (s := ",") (by decide)
  exact (((opening.then_speaks written).then_silent feed).then_silent closing).then_silent
    (by decide)

theorem comment_tells {c : Comment} {sameLine : Bool} (plain : '@' ∉ c.text.toList) :
    (comment c sameLine).Tells σ fun _ t => Speaks false t := by
  intro p t q hp hg
  obtain ⟨rfl, rfl⟩ := comment_gives hg
  exact ⟨p.onward_reach (lastLine c), silent_comment plain sameLine p⟩

private theorem hasReturn_returnWord (d : Dialect) : HasReturn d.returnWord := by cases d <;> decide

private theorem block_tells (h : text.Tells σ Q) : (block text).Tells σ fun _ t => HasReturn t := by
  intro p t q hp hg
  obtain ⟨content, r, content', r', hc, hw, rfl, rfl⟩ := block_gives hg
  have inside := (p.onward_down).inBody hp
  obtain ⟨onward, -⟩ := h inside hc
  obtain ⟨further, found⟩ : r.Onward r' ∧ HasReturn content' := by
    have ended {s : String} (hs : HasReturn s) : HasReturn (terminated s) := by
      unfold terminated
      split
      · exact hs
      · exact hasReturn_append (.inl hs)
    rcases withReturn_inserts hw (onward.inBody inside).function with ⟨found, rfl, rfl⟩ | ⟨-, s, hs, rfl⟩
    · exact ⟨.refl _, ended found⟩
    · obtain ⟨margin, rfl, hm⟩ := insertReturn_gives hs
      refine ⟨?_, ended (hasReturn_append (.inl (hasReturn_append (.inr (hasReturn_returnWord _)))))⟩
      rcases hm with ⟨-, rfl⟩ | ⟨-, rfl⟩
      · exact .refl _
      · exact r.onward_nextLine
  refine ⟨((p.onward_down.trans onward).trans further).trans r'.onward_up, ?_⟩
  have lines : HasReturn (r'.ownLines content') := by
    have loud : Speaks true content' := found
    unfold Pass.ownLines
    split
    · exact found
    · exact hasReturn_append (.inr loud.trimStart)
  exact hasReturn_append (.inl (hasReturn_append (.inl (hasReturn_append (.inl (hasReturn_append (.inr lines)))))))

section bodies

variable {T : Bool → List String → Prop} (hs : texts.Tells σ T) (hb : body.Tells σ fun _ t => HasReturn t)

include hb

private theorem otherwise_tells : (otherwise body).Tells σ fun _ t => HasReturn t := by
  intro p t q hp hg
  obtain ⟨content, hc, rfl⟩ := otherwise_gives hg
  obtain ⟨onward, found⟩ := hb hp hc
  exact ⟨onward, hasReturn_append (.inr found)⟩

private theorem conditionRule_tells {keyword : String} (ht : text.Tells σ Q) :
    (conditionRule keyword line text body).Tells σ fun _ t => HasReturn t := by
  intro p t q hp hg
  obtain ⟨condition, r, content, hcondition, hc, rfl⟩ := conditionRule_gives hg
  obtain ⟨head, -⟩ := ht.reached hp hcondition
  obtain ⟨onward, found⟩ := hb.after hp head hc
  exact ⟨onward, hasReturn_append (.inr found)⟩

include hs

private theorem ruleSet_tells : (ruleSet line texts body).Tells σ fun _ t => HasReturn t := by
  intro p t q hp hg
  obtain ⟨heads, r, content, hh, hc, rfl⟩ := ruleSet_gives hg
  obtain ⟨head, -⟩ := hs.reached hp hh
  obtain ⟨onward, found⟩ := hb.after hp head hc
  exact ⟨onward, hasReturn_append (.inr found)⟩

private theorem keyframes_tells {statements : List Node} :
    (keyframes line ns statements texts body).Tells σ fun _ t => HasReturn t := by
  intro p t q hp hg
  obtain ⟨ts, r, content, last, hts, hc, rfl, rfl⟩ := keyframes_gives hg
  obtain ⟨head, -⟩ := hs.reached (hp.enter _) hts
  obtain ⟨onward, found⟩ := hb.after (hp.enter _) head hc
  refine ⟨onward.leave, ?_⟩
  have rule : HasReturn (joinSegments ns ts ++ content) := hasReturn_append (.inr found)
  dsimp only [withEngines]
  exact hasReturn_append (.inr (hasReturn_append (.inr rule)))

private theorem conditional_tells {start : BranchStart} {negated : Bool} (ht : text.Tells σ Q) :
    (conditional start negated text body texts).Tells σ fun _ t => HasReturn t := by
  intro p t q hp hg
  obtain ⟨condition, r, content, s, others, hcondition, hcontent, hothers, rfl⟩ := conditional_gives hg
  have started : p.Onward (branchPass p start) := by
    cases start with
    | leading line => exact p.onward_reach line
    | chained => exact .refl p
  obtain ⟨head, -⟩ := ht.inside (started.inBody hp) (by simp) hcondition
  obtain ⟨branch, found⟩ := hb.after hp (started.trans head) hcontent
  obtain ⟨onward, -⟩ := hs.after hp branch hothers
  exact ⟨onward, hasReturn_append (.inl (hasReturn_append (.inr found)))⟩

private theorem loop_tells {item : String} {key : Option String} {iterable : Expression Node}
    {ranges : Rendering (List String)}
    (hr : ranges.Tells σ T) : (loop item key line iterable ranges texts body).Tells σ fun _ t => HasReturn t := by
  intro p t q hp hg
  obtain ⟨ts, r, content, hts, hc, rfl⟩ := loop_gives hg
  have known : p.Onward (knowingItems (p.reach line) item key) := by
    have named (name : String) {q : Pass} (h : p.Onward q) : p.Onward (q.learn (·.addVariable name)) := h.learn id
    cases key with
    | none => exact named item (p.onward_reach line)
    | some key => exact named key (named item (p.onward_reach line))
  have left : r.leave (knowingItems (p.reach line) item key) = r.leave (p.reach line) := by
    rw [Pass.leave, Pass.leave, known.places, p.reach_places]
  obtain ⟨head, -⟩ : (knowingItems (p.reach line) item key).Onward (r.leave (knowingItems (p.reach line) item key)) ∧
      T true ts := by
    split at hts
    · exact hr.inside (known.inBody hp) (by simp) hts
    · exact hs.inside (known.inBody hp) (by simp) hts
  rw [left] at head
  obtain ⟨onward, found⟩ := hb.after hp (known.trans head) hc
  exact ⟨onward, hasReturn_append (.inr found)⟩

private theorem atRule_block_tells {name : String} :
    (atRule name line ns texts (some body)).Tells σ fun _ t => HasReturn t := by
  intro p t q hp hg
  obtain ⟨ts, r, hts, ⟨hn, -⟩ | ⟨b, content, hbody, hc, rfl⟩⟩ := atRule_gives hg
  · cases hn
  · cases hbody
    obtain ⟨head, -⟩ := hs.reached hp hts
    obtain ⟨onward, found⟩ := hb.after hp head hc
    exact ⟨onward, hasReturn_append (.inr found)⟩

end bodies

private theorem call_block_tells {name : String} (h : texts.Tells σ fun among ts => AllSpeak among ns ts)
    (hb : body.Tells σ fun _ t => HasReturn t) :
    (call name line texts (some body)).Tells σ fun _ t => HasReturn t := by
  intro p t q hp hg
  obtain ⟨args, r, ha, ⟨hn, -⟩ | ⟨b, content, hbody, hc, rfl⟩⟩ := call_gives hg
  · cases hn
  · cases hbody
    obtain ⟨head, -⟩ := call_args_tells h hp ha
    obtain ⟨onward, found⟩ := hb.after hp head hc
    exact ⟨onward, hasReturn_append (.inr found)⟩

private theorem chained_tells (h : text.Tells σ Q) : (chained text).Tells σ Q :=
  fun p _ _ hp hg => h.after hp p.onward_nextLine (chained_gives hg)

private theorem returned_tells (h : text.Tells σ Q) : (returned line text).Tells σ fun _ t => HasReturn t := by
  intro p t q hp hg
  obtain ⟨value, r, hv, rfl, rfl⟩ := returned_gives hg
  have start := p.onward_reach line
  obtain ⟨onward, -⟩ := h.inside (start.inBody hp) (by simp) hv
  refine ⟨start.trans onward, ?_⟩
  exact hasReturn_append (.inl (hasReturn_append (.inl (hasReturn_append (.inr (hasReturn_returnWord _))))))

private theorem assignment_tells {name : String} {e : Expression Node} (plain : '@' ∉ name.toList)
    (avoids : σ.dialect.Avoids name) (h : texts.Tells σ fun among ts => AllSpeak among e.operands ts) :
    (assignment name e texts).Tells σ fun _ t => Speaks (speaksIn true e.operands) t := by
  intro p t q hp hg
  obtain ⟨before, start, ts, r, hstart, hts, rfl, rfl⟩ := assignment_gives hg
  have known : p.Onward (knowingMap p name e) := by
    unfold knowingMap
    split
    · exact (Pass.Onward.refl p).learn id
    · exact .refl p
  obtain ⟨moved, front⟩ : p.Onward start ∧ Silent before := by
    rcases hstart with ⟨-, rfl, rfl⟩ | ⟨-, rfl, rfl⟩
    · exact ⟨known, silent_of_plain (by simp)⟩
    · exact ⟨known.trans (Pass.onward_reach _ _), silent_lead p e.line⟩
  obtain ⟨onward, all⟩ := h.inside (moved.inBody hp) (by simp) hts
  refine ⟨(moved.trans onward).learn id, ?_⟩
  have colon : Silent ": " := by decide
  have written := (front.append (σ.dialect.silent_variableRef plain avoids)).append colon
  exact (written.then_speaks (all.intercalate (by decide)).dropTrailing).then_silent (by decide)

private theorem boundValue_tells {name : String} {f : Bool → Bool} (plain : '@' ∉ name.toList)
    (avoids : σ.dialect.Avoids name)
    (h : text.Tells σ fun among t => Speaks (f among) t) :
    (boundValue name line text).Tells σ fun _ t => Speaks (f true) t := by
  intro p t q hp hg
  obtain ⟨value, r, hv, rfl, rfl⟩ := boundValue_gives hg
  have start := p.onward_reach line
  obtain ⟨onward, told⟩ := h.inside (start.inBody hp) (by simp) hv
  refine ⟨(start.trans onward).learn id, ?_⟩
  have colon : Silent ": " := by decide
  have written := ((silent_lead p line).append (σ.dialect.silent_variableRef plain avoids)).append colon
  exact (written.then_speaks told.dropTrailing).then_silent (by decide)

private theorem property_tells {value : Expression Node} {a : Bool}
    (known : ∀ inner, value.inlineName? = some inner → '@' ∉ inner.toList ∧ σ.dialect.Avoids inner)
    (hn : text.Tells σ fun among t => among → Speaks a t) (hv : body.Tells σ fun among t => among → Silent t) :
    (property line text value body).Tells σ fun _ t => Speaks a t := by
  intro p t q hp hg
  obtain ⟨name, r, content, s, hname, hcontent, closed⟩ := property_gives hg
  have start := p.onward_reach line
  have among := (p.reach line).amongValues_enter .declarationValue (by simp)
  have within_value := (start.inBody hp).enter [.declarationValue]
  obtain ⟨first, named⟩ := hn within_value hname
  have opened : ((p.reach line).enter [.declarationValue]).Onward (r.learn (·.openDeclaration name)) :=
    first.learn Registry.Holds.openDeclaration
  obtain ⟨rest, silent⟩ := hv.after within_value opened hcontent
  have loud := named among
  have quiet : Silent content := silent among
  have colon : Silent ": " := by decide
  rcases closed with ⟨inner, hi, rfl, rfl⟩ | ⟨-, rfl, rfl⟩
  · have reference := σ.dialect.silent_variableRef (known inner hi).1 (known inner hi).2
    refine ⟨start.trans (rest.learn fun held => ?_).leave, ?_⟩
    · have added : Registry.Holds Silent (Registry.addVariable _ inner) := held.addVariable
      exact added.closeDeclaration reference _
    · have feed : Silent "\n" := by decide
      have before :=
        (((silent_lead p line).append quiet.trimStart).append feed).append (silent_of_blank (blank_indent s))
      exact (((before.then_speaks loud).then_silent colon).then_silent reference).then_silent (by decide)
  · refine ⟨start.trans (rest.learn fun held => held.closeDeclaration quiet _).leave, ?_⟩
    have ending : Silent (if Text.endsWith ';' content || value.handsBlock then "" else ";") := by split <;> decide
    exact (silent_lead p line).then_speaks (((loud.then_silent colon).then_silent quiet).then_silent ending)

private theorem charset_tells {encoding : QuotedText} (text : '@' ∉ encoding.text.toList)
    (quote : '@' ∉ encoding.quote.toList) : (charset line encoding).Tells σ fun _ t => Speaks false t := by
  intro p t q hp hg
  obtain ⟨rfl, rfl⟩ := charset_gives hg
  have word : Silent "@charset " := by decide
  have ending : Silent ";" := by decide
  exact ⟨p.onward_reach line, (((silent_lead p line).append word).append (silent_quoted text quote)).append ending⟩

private theorem xmlNamespace_tells {shortName : Option String} {f : Bool → Bool}
    (plain : ∀ n ∈ shortName, '@' ∉ n.toList)
    (h : text.Tells σ fun among t => Speaks (f among) t) :
    (xmlNamespace line shortName text).Tells σ fun among t => Speaks (f among) t := by
  intro p t q hp hg
  obtain ⟨value, r, hv, rfl, rfl⟩ := xmlNamespace_gives hg
  have start := p.onward_reach line
  obtain ⟨onward, told⟩ := h ((start.inBody hp).enter [.xmlNamespace]) hv
  have stand : ((p.reach line).enter [.xmlNamespace]).stand.amongValues = p.stand.amongValues := by
    simp [Pass.stand, Pass.inAny, Pass.enter]
  rw [stand] at told
  refine ⟨start.trans onward.leave, ?_⟩
  have word : Silent "@namespace " := by decide
  have short : Silent ((shortName.map (· ++ " ")).getD "") :=
    silent_rowwise.optional_append (fun n hn => silent_of_plain (plain n hn)) (by decide)
  have front := ((silent_lead p line).append word).append short
  exact (front.then_speaks told.dropTrailing).then_silent (by decide)

private theorem importSheet_tells
    (plain : ∀ n ∈ ns, ∀ q, n.quotedText? = some q → '@' ∉ q.text.toList ∧ '@' ∉ q.quote.toList)
    (h : texts.Tells σ fun among ts => AllSpeak among ns ts) :
    (importSheet line ns texts).Tells σ fun among t => Speaks (speaksIn among ns) t := by
  intro p t q hp hg
  obtain ⟨ts, hts, rfl⟩ := importSheet_gives hg
  obtain ⟨onward, all⟩ := h.reached hp hts
  refine ⟨onward, ?_⟩
  have mark : Silent (pathQuote ns) := silent_of_plain (plain_pathQuote fun n hn q hq => (plain n hn q hq).2)
  have word : Silent "@import " := by decide
  have front := ((silent_lead p line).append word).append mark
  have path := (all.joinPath fun n hn q hq => (plain n hn q hq).1).outputPath σ.dialect
  exact ((front.then_speaks path).then_silent mark).then_silent (by decide)

private theorem extend_tells (h : texts.Tells σ fun among ts => AllSpeak among ns ts) :
    (extend line ns texts).Tells σ fun among t => Speaks (speaksIn among ns) t := by
  intro p t q hp hg
  obtain ⟨-, ts, hts, rfl⟩ := extend_gives hg
  obtain ⟨onward, all⟩ := h.reached hp hts
  have word : Silent "@extend " := by decide
  have listed := (all.edit Speaks.trimStart).intercalate (s := ", ") (by decide)
  exact ⟨onward, (((silent_lead p line).append word).then_speaks listed).then_silent (by decide)⟩

private theorem atRule_tells {name : String} (plain : '@' ∉ name.toList) (other : Differs name)
    (h : texts.Tells σ fun among ts => AllSpeak among ns ts) :
    (atRule name line ns texts none).Tells σ fun among t => Speaks (speaksIn among ns) t := by
  intro p t q hp hg
  obtain ⟨ts, r, hts, ⟨-, rfl, rfl⟩ | ⟨b, inner, hb, -⟩⟩ := atRule_gives hg
  · obtain ⟨onward, all⟩ := h.reached hp hts
    have head : Speaks (speaksIn p.stand.amongValues ns) (if ns.isEmpty then "" else " " ++ joinSegments ns ts) := by
      split
      · next he =>
        rw [List.isEmpty_iff.1 he]
        exact silent_of_plain (by simp)
      · exact (by decide : Silent " ").then_speaks all.joinSegments
    refine ⟨onward, ?_⟩
    have front := (silent_lead p line).then_speaks ((silent_at plain other).then_speaks head)
    exact front.then_silent (by decide)
  · cases hb

end Render

/-- The name that a declaration assigns inside of its value. -/
theorem discreet_inlineName {d : Dialect} {value : Expression Node} (h : EveryIn (Node.Discreet d) value.operands)
    {inner : String} (hi : value.inlineName? = some inner) : '@' ∉ inner.toList ∧ d.Avoids inner := by
  obtain ⟨id, hid, rfl, -⟩ := Expression.identifier_of_inlineName? hi
  exact ⟨(h _ hid).self.texts id.name (by simp), (h _ hid).self.names id.name (by simp [Node.variableNames])⟩

namespace Render

variable {σ : Style}

private theorem tells_missing {α : Type} {kind : Kind} {part : NeededPart} {Q : Bool → α → Prop} :
    (missing kind part : Rendering α).Tells σ Q := by
  intro p a q _ hg
  exact absurd hg gives_missing

mutual

theorem node_tells (quote : σ.quote ≠ '@') (n : Node) (h : n.Every (Node.Discreet σ.dialect)) :
    (node n).Tells σ fun among t => Speaks (n.speaks among) t := by
  have texts := h.self.texts
  have held := h.parts
  match n with
  | .null => exact tells_pure fun _ => silent_of_plain (by simp)
  | .literal text _ => exact tells_pure fun _ => silent_of_plain (texts text (by simp))
  | .color text => exact tells_pure fun _ => silent_of_plain (texts text (by simp))
  | .quoted q => exact tells_pure fun _ => silent_quoted (texts q.text (by simp)) (texts q.quote (by simp))
  | .boolean value =>
    have word : Silent (if value then "true" else "false") := by cases value <;> decide
    exact tells_pure fun _ => word
  | .number value suffix =>
    have ending : Silent (suffix.getD "") :=
      silent_rowwise.optional fun s hs => silent_of_plain (texts s (by simp [Option.mem_def.1 hs]))
    exact tells_pure fun _ => (silent_number value).append ending
  | .identifier ⟨name, value, placeholder, rest, line⟩ =>
    have plain : '@' ∉ name.toList := texts name (by simp)
    have avoids : σ.dialect.Avoids name := h.self.names name (by simp [Node.variableNames])
    match value with
    | none => exact @reference_tells σ ⟨name, none, placeholder, rest, line⟩ plain avoids
    | some v =>
      have bound : v.Every (Node.Discreet σ.dialect) := held v (by simp)
      have told := node_tells quote v bound
      cases v with
      | null => exact @reference_tells σ ⟨name, some .null, placeholder, rest, line⟩ plain avoids
      | expression e => exact (assignment_tells plain avoids (each_tells quote e.operands bound.parts))
      | callable => exact absurd bound.self.plain (by simp [Node.isCallable])
      | _ => exact boundValue_tells plain avoids told
  | .expression e => exact expression_tells (each_tells quote e.operands held)
  | .arguments args => exact arguments_tells (each_tells quote args held)
  | .block b => exact body_tells quote b held
  | .selector segments _ => exact selector_tells (each_tells quote segments held)
  | .ruleSet _ none _ => exact tells_missing
  | .ruleSet selectors (some b) _ =>
    obtain ⟨head, inner⟩ := (everyIn_append _ _).1 held
    exact ruleSet_tells (each_tells quote selectors head) (body_tells quote b inner)
  | .property segments value line =>
    obtain ⟨name, content⟩ := (everyIn_append _ _).1 held
    have quiet : speaksIn true value.operands = false := h.self.declared
    simp only [Node.speaks, quiet, Bool.or_false]
    exact property_tells (fun _ => discreet_inlineName content)
      ((named_tells (each_tells quote segments name)).mono fun _ _ told ha => ha ▸ told)
      ((expression_tells (each_tells quote value.operands content)).mono fun among t told ha => by
        simpa [ha, quiet, Speaks] using told)
  | .call name args none _ => exact call_tells (texts name (by simp)) (each_tells quote args (by simpa using held))
  | .call name args (some b) _ =>
    obtain ⟨head, inner⟩ := (everyIn_append _ _).1 held
    exact call_block_tells (each_tells quote args head) (body_tells quote b inner)
  | .callable .. => exact absurd h.self.plain (by simp [Node.isCallable])
  | .returned value _ => exact returned_tells (expression_tells (each_tells quote value.operands held))
  | .conditional _ none _ _ _ => exact tells_missing
  | .conditional condition (some b) alternatives _ _ =>
    obtain ⟨first, others⟩ := (everyIn_append _ _).1 held
    obtain ⟨hc, inner⟩ := (everyIn_cons _ _).1 first
    exact conditional_tells (alternatives_tells quote alternatives others) (body_tells quote b inner)
      (node_tells quote condition hc)
  | .loop _ _ none _ _ => exact tells_missing
  | .loop _ _ (some _) none _ => exact tells_missing
  | .loop _ _ (some e) (some b) _ =>
    obtain ⟨head, inner⟩ := (everyIn_append _ _).1 held
    exact loop_tells ((each_tells quote e.operands head).mono fun _ _ _ => trivial) (body_tells quote b inner)
      (ranges_tells quote e.operands head)
  | .binary operator left right =>
    obtain ⟨hl, hr⟩ := (everyIn_cons _ _).1 held
    refine (node_tells quote left hl).bind fun s => ?_
    refine ((node_tells quote right ((everyIn_cons _ _).1 hr).1).bind fun t => tells_pure fun _ ht hs => ?_)
    exact speaks_binary _ (texts operator (by simp)) hs ht
  | .unary operator operand =>
    have sign : Silent (Operator.spelling operator) := silent_of_plain (plain_spelling (texts operator (by simp)))
    have opening : Silent "(" := by decide
    refine (node_tells quote operand ((everyIn_cons _ _).1 held).1).bind fun t => tells_pure fun _ ht => ?_
    exact ((sign.append opening).then_speaks ht).then_silent (by decide)
  | .keyframes _ none _ => exact tells_missing
  | .keyframes segments (some b) _ =>
    obtain ⟨head, inner⟩ := (everyIn_append _ _).1 held
    exact keyframes_tells (each_tells quote segments head) (body_tells quote b inner)
  | .media _ none _ => exact tells_missing
  | .media condition (some b) _ =>
    obtain ⟨head, inner⟩ := (everyIn_cons _ _).1 held
    exact conditionRule_tells (body_tells quote b inner) (node_tells quote condition head)
  | .supports _ none _ => exact tells_missing
  | .supports condition (some b) _ =>
    obtain ⟨head, inner⟩ := (everyIn_cons _ _).1 held
    exact conditionRule_tells (body_tells quote b inner) (node_tells quote condition head)
  | .queryList queries =>
    exact (each_tells quote queries held).bind fun ts => tells_pure fun _ all => all.intercalate (by decide)
  | .query features none predicate =>
    have predicates : ∀ w ∈ predicate, '@' ∉ w.toList := fun w hw => texts w (by simpa using hw)
    have nothing : Silent "" := silent_of_plain (by simp)
    refine (each_tells quote features (by simpa using held)).bind fun ts => tells_pure fun _ all => ?_
    simpa [Node.speaks] using speaks_query predicates nothing.speaks all
  | .query features (some medium) predicate =>
    obtain ⟨hf, hm⟩ := (everyIn_append _ _).1 held
    have predicates : ∀ w ∈ predicate, '@' ∉ w.toList := fun w hw => texts w (by simpa using hw)
    refine (node_tells quote medium ((everyIn_cons _ _).1 hm).1).bind fun s => ?_
    exact (each_tells quote features hf).bind fun ts => tells_pure fun _ all hs => speaks_query predicates hs all
  | .feature segments none =>
    have opening : Silent "(" := by decide
    refine (named_tells (each_tells quote segments (by simpa using held))).bind fun t => tells_pure fun _ told => ?_
    exact (opening.then_speaks told).then_silent (by decide)
  | .feature segments (some value) =>
    obtain ⟨hs, hv⟩ := (everyIn_append _ _).1 held
    have opening : Silent "(" := by decide
    have colon : Silent ": " := by decide
    refine (named_tells (each_tells quote segments hs)).bind fun s => ?_
    refine (expression_tells (each_tells quote value.operands hv)).bind fun t => tells_pure fun _ ht hs => ?_
    exact (((opening.then_speaks hs).then_silent colon).append ht).then_silent (by decide)
  | .xmlNamespace value shortName _ =>
    exact xmlNamespace_tells (fun n hn => texts n (by simpa using hn))
      (node_tells quote value ((everyIn_cons _ _).1 held).1)
  | .charset encoding _ => exact charset_tells (texts encoding.text (by simp)) (texts encoding.quote (by simp))
  | .importSheet path _ =>
    refine importSheet_tells (fun n hn q hq => ?_) (each_tells quote path.operands held)
    have own := (held n hn).self.texts
    cases n with
    | quoted _ =>
      cases hq
      exact ⟨own q.text (by simp), own q.quote (by simp)⟩
    | _ => cases hq
  | .extend selectors _ => exact extend_tells (each_tells quote selectors held)
  | .atRule name segments none _ =>
    exact atRule_tells (texts name (by simp)) (h.self.rules name (by simp [Node.ruleNames]))
      (each_tells quote segments (by simpa using held))
  | .atRule _ segments (some b) _ =>
    obtain ⟨head, inner⟩ := (everyIn_append _ _).1 held
    exact atRule_block_tells (each_tells quote segments head) (body_tells quote b inner)
  | .comment c => exact comment_tells (texts c.text (by simp))
  | .member left right =>
    obtain ⟨hl, hr⟩ := (everyIn_cons _ _).1 held
    have hr := ((everyIn_cons _ _).1 hr).1
    exact member_tells quote (node_tells quote left hl) (node_tells quote right hr) hl hr
  | .mapLiteral es _ => exact mapLiteral_tells quote (entries_tells quote es held texts)
termination_by structural n

theorem each_tells (quote : σ.quote ≠ '@') (ns : List Node) (h : EveryIn (Node.Discreet σ.dialect) ns) :
    (each ns).Tells σ fun among ts => AllSpeak among ns ts := by
  match ns with
  | [] => exact tells_pure fun _ => .nil
  | n :: ns =>
    obtain ⟨hn, hns⟩ := (everyIn_cons _ _).1 h
    refine (node_tells quote n hn).bind fun t => ?_
    exact (each_tells quote ns hns).bind fun ts => tells_pure fun _ tail head => .cons head tail
termination_by structural ns

theorem body_tells (quote : σ.quote ≠ '@') (b : Body Node) (h : EveryIn (Node.Discreet σ.dialect) b.statements) :
    (body b).Tells σ fun _ t => HasReturn t := by
  match b with
  | ⟨ss, _⟩ => exact block_tells (statements_tells quote none ss h)
termination_by structural b

theorem statements_tells (quote : σ.quote ≠ '@') (previous : Option Nat) (ns : List Node)
    (h : EveryIn (Node.Discreet σ.dialect) ns) :
    (statements previous ns).Tells σ fun among t => Speaks (speaksIn among ns) t := by
  match ns with
  | [] => exact tells_pure fun _ => silent_of_plain (by simp)
  | n :: ns =>
    obtain ⟨hn, hns⟩ := (everyIn_cons _ _).1 h
    rw [statements_cons]
    have first : (statement previous n).Tells σ fun among t => Speaks (n.speaks among) t := by
      have alone := node_tells quote n hn
      cases n with
      | comment c => exact comment_tells (hn.self.texts c.text (by simp))
      | _ => exact alone
    refine first.bind fun t => ?_
    exact (statements_tells quote n.line ns hns).bind fun ts => tells_pure fun _ rest head => head.append rest
termination_by structural ns

/-- The first branch has the keyword already. -/
theorem alternatives_tells (quote : σ.quote ≠ '@') (ns : List Node) (h : EveryIn (Node.Discreet σ.dialect) ns) :
    (alternatives ns).Tells σ fun _ _ => True := by
  match ns with
  | [] => exact tells_pure fun _ => trivial
  | n :: ns =>
    obtain ⟨hn, hns⟩ := (everyIn_cons _ _).1 h
    rw [alternatives_cons]
    have first : (alternative n).Tells σ fun _ _ => True := by
      cases n with
      | conditional condition b others negated line =>
        match b with
        | none => exact tells_missing
        | some b =>
          obtain ⟨first, more⟩ := (everyIn_append _ _).1 hn.parts
          obtain ⟨hc, inner⟩ := (everyIn_cons _ _).1 first
          exact chained_tells ((conditional_tells (alternatives_tells quote others more) (body_tells quote b inner)
            (node_tells quote condition hc)).mono fun _ _ _ => trivial)
      | block b => exact chained_tells ((otherwise_tells (body_tells quote b hn.parts)).mono fun _ _ _ => trivial)
      | _ => exact tells_missing
    exact first.bind fun t => (alternatives_tells quote ns hns).bind fun ts => tells_pure fun _ _ _ => trivial
termination_by structural ns

theorem ranges_tells (quote : σ.quote ≠ '@') (ns : List Node) (h : EveryIn (Node.Discreet σ.dialect) ns) :
    (ranges ns).Tells σ fun _ _ => True := by
  match ns with
  | [] => exact tells_pure fun _ => trivial
  | n :: ns =>
    obtain ⟨hn, hns⟩ := (everyIn_cons _ _).1 h
    rw [ranges_cons]
    have first : (range n).Tells σ fun _ _ => True := by
      have alone : (node n).Tells σ fun _ _ => True := (node_tells quote n hn).mono fun _ _ _ => trivial
      cases n with
      | binary operator left right =>
        obtain ⟨hl, hr⟩ := (everyIn_cons _ _).1 hn.parts
        simp only [range]
        split
        · refine (node_tells quote left hl).bind fun _ => ?_
          exact (node_tells quote right ((everyIn_cons _ _).1 hr).1).bind fun _ => tells_pure fun _ _ _ => trivial
        · exact alone
      | expression e => exact (ranges_tells quote e.operands hn.parts).bind fun _ => tells_pure fun _ _ => trivial
      | _ => exact alone
    exact first.bind fun t => (ranges_tells quote ns hns).bind fun ts => tells_pure fun _ _ _ => trivial
termination_by structural ns

private theorem entries_tells (quote : σ.quote ≠ '@') (es : List (String × Node))
    (h : EveryIn (Node.Discreet σ.dialect) (es.map (·.2))) (keys : ∀ key ∈ es.map (·.1), '@' ∉ key.toList) :
    (entries es).Tells σ fun among ts => among → EntriesSpeak es ts := by
  match es with
  | [] => exact tells_pure fun _ _ => .nil
  | (key, n) :: es =>
    obtain ⟨hn, hes⟩ := (everyIn_cons _ _).1 h
    obtain ⟨plain, others⟩ := List.forall_mem_cons.1 keys
    refine (node_tells quote n hn).bind fun t => ?_
    refine (entries_tells quote es hes others).bind fun ts => tells_pure fun among tail head ha => ?_
    exact .cons ⟨plain, ha ▸ head⟩ (tail ha)
termination_by structural es

end

end Render

end Stylesheet
