import Stylesheet.Proofs.Closed

/-!
# Nesting of brackets

If every text in a sheet is bracketed, so is what it is converted to. The values of declarations come back where
their names are used, so the invariant of the pass is that all values in its registry are nested.
-/

namespace Stylesheet

open Text Rendering

private theorem closed_nested : Closed Nested where
  inert := by
    intro s h
    apply nested_of_plain
    intro c hc
    have hi := List.all_eq_true.1 h c hc
    simp only [isInert, Bool.and_eq_true, Bool.not_eq_true'] at hi
    exact hi.1
  append := Nested.append
  parenthesized h := (opens_parenthesis.append h).closing closes_parenthesis
  braced h := (Opens.append (s := "\x7b") (fun _ => rfl) h).closing closes_brace
  shortened _ same h := nested_of_filter same h

namespace Rendering

/-- In the style, from a pass with nested values, the rendering gives something with the property and keeps the
values nested. -/
def Nests {α : Type} (σ : Style) (m : Rendering α) (Q : α → Prop) : Prop :=
  ∀ ⦃p a q⦄, p.registry.Holds Nested → m.Gives σ p a q → Q a ∧ q.registry.Holds Nested

private def AllNested (ts : List String) : Prop := ∀ t ∈ ts, Nested t

variable {α β : Type} {σ : Style} {m : Rendering α} {f : α → Rendering β} {Q : α → Prop} {R : β → Prop}

theorem Nests.bind (hm : m.Nests σ Q) (hf : ∀ a, Q a → (f a).Nests σ R) : (m >>= f).Nests σ R := by
  intro p b r hp h
  obtain ⟨a, q, ha, hb⟩ := gives_bind.1 h
  obtain ⟨hQ, hq⟩ := hm hp ha
  exact hf a hQ hq hb

private theorem nests_pure {a : α} (h : Q a) : (pure a : Rendering α).Nests σ Q := by
  intro p b q hp hb
  obtain ⟨rfl, rfl⟩ := gives_pure.1 hb
  exact ⟨h, hp⟩

private theorem nests_missing {kind : Kind} {part : NeededPart} : (missing kind part : Rendering α).Nests σ Q :=
  fun _ _ _ _ h => absurd h gives_missing

end Rendering

namespace Render

variable {σ : Style}

private theorem nested_empty : Nested "" := fun _ => rfl

private theorem nested_breaksTo (p : Pass) (line : Option Nat) : Nested (p.breaksTo line) := by
  cases line with
  | none => exact nested_empty
  | some line => exact nested_repeated _ (by decide)

private theorem nested_indent (p : Pass) : Nested p.indent := nested_repeated _ (by decide)

private theorem nested_lead (p : Pass) (line : Option Nat) : Nested (p.lead line) :=
  (nested_breaksTo p line).append (nested_indent p)

private theorem nested_newline_indent (p : Pass) : Nested ("\n" ++ p.indent) :=
  (Bracketed.nested (by decide)).append (nested_indent p)

private theorem nested_ownLines (p : Pass) {content : String} (h : Nested content) : Nested (p.ownLines content) := by
  unfold Pass.ownLines
  split
  · exact h
  · exact (nested_newline_indent p).append (closed_nested.trimStart h)

private theorem nested_terminated {t : String} (h : Nested t) : Nested (terminated t) := by
  unfold terminated
  split
  · exact h
  · exact h.append (Bracketed.nested (by decide))

private theorem nested_callLead (p : Pass) (line : Option Nat) : Nested (callLead σ p line) := by
  unfold callLead
  split
  · have owed : Nested (if (p.breaksTo line).isEmpty then "\n" else p.breaksTo line) := by
      split
      · exact Bracketed.nested (by decide)
      · exact nested_breaksTo p line
    exact (owed.append (nested_indent p)).append (closed_nested.inclusion σ.dialect)
  · exact nested_breaksTo p line

private theorem nested_branchLead (p : Pass) (start : BranchStart) : Nested (branchLead p start) := by
  cases start with
  | leading line => exact (nested_lead p line).append (Bracketed.nested (by decide))
  | chained => exact (Bracketed.nested (by decide) : Nested " @else if ")

private theorem nested_withEngines (vendorCopies : Bool) (p : Pass) {rule : String} (h : Nested rule) :
    Nested (withEngines vendorCopies p.indent rule) := by
  have all : ∀ engine ∈ engines, Bracketed engine := by decide
  have copies : AllNested (engines.map fun engine => "@" ++ engine ++ "keyframes " ++ rule ++ "\n" ++ p.indent) := by
    intro u hu
    obtain ⟨engine, he, rfl⟩ := List.mem_map.1 hu
    have at_ : Nested "@" := Bracketed.nested (by decide)
    have word : Nested "keyframes " := Bracketed.nested (by decide)
    have newline : Nested "\n" := Bracketed.nested (by decide)
    exact ((((at_.append (all engine he).nested).append word).append h).append newline).append (nested_indent p)
  have standard : Nested "@keyframes " := Bracketed.nested (by decide)
  refine ((closed_nested.join ?_).append standard).append h
  split
  · exact copies
  · simp

variable {text body : Rendering String} {texts : Rendering (List String)} {line : Option Nat}

private theorem withReturn_nests {content : String} (h : Nested content) : (withReturn content).Nests σ Nested := by
  intro p t q hp hg
  rcases withReturn_gives hg with ⟨-, rfl, rfl⟩ | ⟨-, rfl, rfl⟩ | ⟨-, r, hr, rfl⟩
  · exact ⟨h, hp⟩
  · exact ⟨nested_terminated h, hp⟩
  · obtain ⟨margin, rfl, hm⟩ := insertReturn_gives hr
    have inserted : ∀ {m : String}, Nested m →
        Nested (terminated (m ++ σ.dialect.returnWord ++ trimStart content)) := fun hm =>
      nested_terminated ((hm.append (closed_nested.returnWord σ.dialect)).append (closed_nested.trimStart h))
    rcases hm with ⟨rfl, rfl⟩ | ⟨rfl, rfl⟩
    · exact ⟨inserted (nested_margin content), hp⟩
    · exact ⟨inserted (nested_newline_indent p), hp⟩

private theorem block_nests (h : text.Nests σ Nested) : (block text).Nests σ Nested := by
  intro p t q hp hg
  obtain ⟨content, r, content', r', hc, hw, rfl, rfl⟩ := block_gives hg
  obtain ⟨hcontent, hr⟩ := h (p := p.down) hp hc
  obtain ⟨hcontent', hr'⟩ := withReturn_nests hcontent hr hw
  have newline : Nested "\n" := Bracketed.nested (by decide)
  exact ⟨(((opens_brace.append (nested_ownLines r' hcontent')).append newline).append
    (nested_indent r'.up)).closing closes_brace, hr'⟩

private theorem named_nests {segments : List Node} (h : texts.Nests σ AllNested) :
    (named segments texts).Nests σ Nested := by
  intro p t q hp hg
  obtain ⟨ts, hts, rfl⟩ := named_gives hg
  obtain ⟨hall, hq⟩ := h hp hts
  exact ⟨closed_nested.joinSegments hall, hq⟩

private theorem selector_nests {segments : List Node} (h : texts.Nests σ AllNested) :
    (selector segments texts).Nests σ Nested := by
  intro p t q hp hg
  obtain ⟨ts, hts, rfl⟩ := selector_gives hg
  obtain ⟨hall, hq⟩ := h (by simpa using hp) hts
  exact ⟨(nested_lead p _).append (closed_nested.joinSegments hall), hq⟩

private theorem ruleSet_nests (hs : texts.Nests σ AllNested) (hb : body.Nests σ Nested) :
    (ruleSet line texts body).Nests σ Nested := by
  intro p t q hp hg
  obtain ⟨heads, r, content, hheads, hcontent, rfl⟩ := ruleSet_gives hg
  obtain ⟨hall, hr⟩ := hs (by simpa using hp) hheads
  obtain ⟨hc, hq⟩ := hb hr hcontent
  exact ⟨((nested_lead p line).append (closed_nested.ruleHead q hall)).append hc, hq⟩

private theorem reference_nests {id : Identifier Node} (h : Nested id.name) : (reference id).Nests σ Nested := by
  intro p t q hp hg
  obtain ⟨rfl, rfl⟩ := reference_gives hg
  exact ⟨closed_nested.referenceText σ.dialect hp h, hp⟩

private theorem nested_knowingMap {p : Pass} (hp : p.registry.Holds Nested) (name : String) (value : Expression Node) :
    (knowingMap p name value).registry.Holds Nested := by
  unfold knowingMap
  split
  · exact hp.addMap
  · exact hp

private theorem nested_assigned {before name value : String} (hb : Nested before) (hn : Nested name)
    (hv : Nested value) :
    Nested (before ++ σ.dialect.variableRef name ++ ": " ++ dropTrailing ';' value ++ ";") := by
  have colon : Nested ": " := Bracketed.nested (by decide)
  have semicolon : Nested ";" := Bracketed.nested (by decide)
  exact (((hb.append (closed_nested.variableRef σ.dialect hn)).append colon).append
    (closed_nested.dropTrailing (by decide) hv)).append semicolon

private theorem assignment_nests {name : String} {value : Expression Node} (hn : Nested name)
    (h : texts.Nests σ AllNested) : (assignment name value texts).Nests σ Nested := by
  intro p t q hp hg
  obtain ⟨before, start, ts, r, hstart, hts, rfl, rfl⟩ := assignment_gives hg
  have hb : Nested before ∧ start.registry.Holds Nested := by
    rcases hstart with ⟨-, rfl, rfl⟩ | ⟨-, rfl, rfl⟩
    · exact ⟨nested_empty, nested_knowingMap hp name value⟩
    · exact ⟨nested_lead p _, by simpa using nested_knowingMap hp name value⟩
  obtain ⟨hall, hr⟩ := h (by simpa using hb.2) hts
  have space : Nested " " := Bracketed.nested (by decide)
  exact ⟨nested_assigned hb.1 hn (closed_nested.intercalate space hall), hr.addVariable⟩

private theorem boundValue_nests {name : String} (hn : Nested name) (h : text.Nests σ Nested) :
    (boundValue name line text).Nests σ Nested := by
  intro p t q hp hg
  obtain ⟨value, r, hvalue, rfl, rfl⟩ := boundValue_gives hg
  obtain ⟨hv, hr⟩ := h (by simpa using hp) hvalue
  exact ⟨nested_assigned (nested_lead p line) hn hv, hr.addVariable⟩

private theorem property_nests {value : Expression Node} (inner : ∀ name, value.inlineName? = some name → Nested name)
    (hn : text.Nests σ Nested) (hv : body.Nests σ Nested) : (property line text value body).Nests σ Nested := by
  intro p t q hp hg
  obtain ⟨name, r, content, s, hname, hcontent, hends⟩ := property_gives hg
  obtain ⟨hn, hr⟩ := hn (by simpa using hp) hname
  obtain ⟨hc, hs⟩ := hv (p := r.learn (·.openDeclaration name)) hr.openDeclaration hcontent
  have colon : Nested ": " := Bracketed.nested (by decide)
  have semicolon : Nested ";" := Bracketed.nested (by decide)
  have newline : Nested "\n" := Bracketed.nested (by decide)
  rcases hends with ⟨i, hi, rfl, rfl⟩ | ⟨-, rfl, rfl⟩
  · have reference : Nested (σ.dialect.variableRef i) := closed_nested.variableRef σ.dialect (inner i hi)
    refine ⟨?_, hs.addVariable.closeDeclaration reference _⟩
    exact (((((((nested_lead p line).append (closed_nested.trimStart hc)).append newline).append
      (nested_indent s)).append hn).append colon).append reference).append semicolon
  · have terminator : Nested (if Text.endsWith ';' content || value.handsBlock then "" else ";") := by
      split
      · exact nested_empty
      · exact semicolon
    exact ⟨(nested_lead p line).append (((hn.append colon).append hc).append terminator),
      hs.closeDeclaration hc _⟩

private theorem expression_nests {e : Expression Node} (h : texts.Nests σ AllNested) :
    (expression e texts).Nests σ Nested := by
  intro p t q hp hg
  obtain ⟨before, start, ts, r, hstart, hts, rfl, rfl⟩ := expression_gives hg
  have hb : Nested before ∧ start.registry.Holds Nested := by
    rcases hstart with ⟨-, rfl, rfl⟩ | ⟨-, rfl, rfl⟩
    · exact ⟨(nested_lead p _).append (closed_nested.returnWord σ.dialect), by simpa using hp⟩
    · exact ⟨nested_empty, hp⟩
  obtain ⟨hall, hr⟩ := h (by simpa using hb.2) hts
  refine ⟨hb.1.append ?_, hr⟩
  split
  · exact closed_nested.removeBlanks (closed_nested.joinOperands _ _ hall)
  · exact closed_nested.joinOperands _ _ hall

private theorem arguments_nests (h : texts.Nests σ AllNested) : (arguments texts).Nests σ Nested := by
  intro p t q hp hg
  obtain ⟨ts, r, hts, rfl, rfl⟩ := arguments_gives hg
  obtain ⟨hall, hr⟩ := h (p := p.enter [.arguments]) hp hts
  refine ⟨closed_nested.intercalate (Bracketed.nested (by decide)) fun u hu => ?_, hr⟩
  obtain ⟨t, ht, rfl⟩ := List.mem_map.1 hu
  exact closed_nested.dropTrailing (by decide) (hall t ht)

private theorem call_nests {name : String} {handed : Option (Rendering String)} (hn : Nested name)
    (h : texts.Nests σ AllNested) (hb : ∀ b ∈ handed, b.Nests σ Nested) :
    (call name line texts handed).Nests σ Nested := by
  intro p t q hp hg
  obtain ⟨args, r, hargs, hends⟩ := call_gives hg
  obtain ⟨ha, hr⟩ := arguments_nests h (by simpa using hp) hargs
  have called : Nested (callLead σ p line ++ name ++ "(" ++ args ++ ")") :=
    ((((nested_callLead p line).append hn).opening opens_parenthesis).append ha).closing closes_parenthesis
  rcases hends with ⟨-, rfl, rfl⟩ | ⟨b, content, rfl, hcontent, rfl⟩
  · refine ⟨called.append ?_, hr⟩
    split
    · exact Bracketed.nested (by decide)
    · exact nested_empty
  · obtain ⟨hc, hq⟩ := hb b rfl (by simpa using hr) hcontent
    exact ⟨called.append hc, hq⟩

private theorem member_nests {left right : Node} (hσ : Nested σ.quote.toString)
    (names : ∀ n ∈ [left, right], ∀ name, n.bareName? = some name → Nested name)
    (hl : text.Nests σ Nested) (hr : body.Nests σ Nested) : (member left right text body).Nests σ Nested := by
  intro p t q hp hg
  have dot : Nested "." := Bracketed.nested (by decide)
  have comma : Nested ", " := Bracketed.nested (by decide)
  obtain ⟨owner, r, key, ⟨ho, hk, rfl⟩ | ⟨ho, hk, rfl⟩⟩ := member_gives hg
  · obtain ⟨howner, hr'⟩ := hl hp ho
    obtain ⟨hkey, hq⟩ := hr hr' hk
    exact ⟨(howner.append dot).append hkey, hq⟩
  · have howner : Nested owner ∧ r.registry.Holds Nested := by
      rcases ho with ⟨-, ho⟩ | ⟨⟨name, hname, rfl⟩, rfl⟩
      · exact hl hp ho
      · exact ⟨closed_nested.variableRef σ.dialect (names left (by simp) name hname), hp⟩
    have hkey : Nested key ∧ q.registry.Holds Nested := by
      rcases hk with ⟨-, hk⟩ | ⟨hname, rfl⟩
      · exact hr howner.2 hk
      · exact ⟨names right (by simp) key hname, howner.2⟩
    have opens : Opens ')' "map-get(" := fun _ => rfl
    exact ⟨(((((opens.append howner.1).append comma).append hσ).append hkey.1).append hσ).closing
      closes_parenthesis, hkey.2⟩

private theorem mapLiteral_nests {entries : Rendering (List (String × String))} (hσ : Nested σ.quote.toString)
    (h : entries.Nests σ fun es => ∀ e ∈ es, Nested e.1 ∧ Nested e.2) : (mapLiteral line entries).Nests σ Nested := by
  intro p t q hp hg
  obtain ⟨es, r, hes, rfl, rfl⟩ := mapLiteral_gives hg
  obtain ⟨hall, hr⟩ := h (p := p.down.enter [.mapLiteral]) hp hes
  have newline : Nested "\n" := Bracketed.nested (by decide)
  have colon : Nested ": " := Bracketed.nested (by decide)
  have lines : AllNested (entryLines σ p es) := by
    intro u hu
    obtain ⟨⟨key, value⟩, he, rfl⟩ := List.mem_map.1 hu
    obtain ⟨hk, hv⟩ := hall _ he
    exact (((((newline.append (nested_indent p.down)).append hσ).append hk).append hσ).append colon).append
      (closed_nested.eraseFirst (by decide) hv)
  refine ⟨(((opens_parenthesis.append (closed_nested.intercalate (Bracketed.nested (by decide)) lines)).append
    newline).append (nested_indent _)).closing closes_parenthesis, ?_⟩
  cases line <;> exact hr

private theorem callable_nests {name : String} {kind : DefinitionKind} {names : List String} (hn : Nested name)
    (hparams : texts.Nests σ AllNested) (hb : body.Nests σ Nested) :
    (callable name line kind names texts body).Nests σ Nested := by
  intro p t q hp hg
  obtain ⟨params, r, content, s, hps, hcontent, rfl, rfl⟩ := callable_gives hg
  have start : (intoCallable (p.reach line) kind names).registry.Holds Nested := by
    cases line <;> exact hp.setParams
  obtain ⟨hall, hr⟩ := hparams start hps
  obtain ⟨hc, hs⟩ := hb hr hcontent
  have comma : Nested ", " := Bracketed.nested (by decide)
  have head : Nested (callableHead σ.dialect kind name (", ".intercalate params)) :=
    closed_nested.callableHead σ.dialect hn (closed_nested.intercalate comma hall)
  exact ⟨((nested_lead p line).append head).append hc,
    hs.clearParams⟩

private theorem param_nests {id : Identifier Node} (hn : Nested id.name) (h : text.Nests σ Nested) :
    (param id text).Nests σ Nested := by
  intro p t q hp hg
  obtain ⟨value, r, hvalue, rfl, rfl⟩ := param_gives hg
  have hv : Nested value ∧ r.registry.Holds Nested := by
    rcases hvalue with ⟨-, rfl, rfl⟩ | ⟨-, content, s, hcontent, rfl, rfl⟩
    · exact ⟨nested_empty, hp⟩
    · obtain ⟨hc, hs⟩ := h (p := p.enter [.declarationValue]) hp hcontent
      have colon : Nested ": " := Bracketed.nested (by decide)
      exact ⟨colon.append (closed_nested.dropTrailing (by decide) hc), hs⟩
  have dots : Nested (if id.rest then "..." else "") := by
    split
    · exact Bracketed.nested (by decide)
    · exact nested_empty
  exact ⟨((closed_nested.variableRef σ.dialect hn).append hv.1).append dots, hv.2.addVariable⟩

private theorem returned_nests (h : text.Nests σ Nested) : (returned line text).Nests σ Nested := by
  intro p t q hp hg
  obtain ⟨value, r, hvalue, rfl, rfl⟩ := returned_gives hg
  obtain ⟨hv, hr⟩ := h (by simpa using hp) hvalue
  have semicolon : Nested ";" := Bracketed.nested (by decide)
  exact ⟨(((nested_lead p line).append (closed_nested.returnWord σ.dialect)).append
    (closed_nested.dropTrailing (by decide) hv)).append semicolon, hr⟩

private theorem conditional_nests {start : BranchStart} {negated : Bool} (hc : text.Nests σ Nested)
    (hb : body.Nests σ Nested) (ha : texts.Nests σ AllNested) :
    (conditional start negated text body texts).Nests σ Nested := by
  intro p t q hp hg
  obtain ⟨condition, r, content, s, others, hcondition, hcontent, hothers, rfl⟩ := conditional_gives hg
  have hstart : (branchPass p start).registry.Holds Nested := by
    cases start with
    | leading line => simpa [branchPass] using hp
    | chained => exact hp
  obtain ⟨hcond, hr⟩ := hc (p := (branchPass p start).enter [.condition]) hstart hcondition
  obtain ⟨hcont, hs⟩ := hb (p := r.leave (branchPass p start)) hr hcontent
  obtain ⟨hall, hq⟩ := ha hs hothers
  exact ⟨(((nested_branchLead p start).append (closed_nested.negate negated hcond)).append hcont).append
    (closed_nested.join hall), hq⟩

private theorem chained_nests (h : text.Nests σ Nested) : (chained text).Nests σ Nested := by
  intro p t q hp hg
  exact h (p := p.nextLine) hp (chained_gives hg)

private theorem otherwise_nests (h : body.Nests σ Nested) : (otherwise body).Nests σ Nested := by
  intro p t q hp hg
  obtain ⟨content, hcontent, rfl⟩ := otherwise_gives hg
  obtain ⟨hc, hq⟩ := h hp hcontent
  have word : Nested " @else" := Bracketed.nested (by decide)
  exact ⟨word.append hc, hq⟩

private theorem loop_nests {item : String} {key : Option String} {iterable : Expression Node}
    {items : Rendering (List String)} (hi : Nested item) (hk : ∀ k ∈ key, Nested k)
    (names : ∀ n ∈ iterable.operands, ∀ name, n.bareName? = some name → Nested name)
    (hranges : texts.Nests σ AllNested) (hitems : items.Nests σ AllNested) (hb : body.Nests σ Nested) :
    (loop item key line iterable texts items body).Nests σ Nested := by
  intro p t q hp hg
  obtain ⟨ts, r, content, hts, hcontent, rfl⟩ := loop_gives hg
  have start : ((knowingItems (p.reach line) item key).enter [.condition]).registry.Holds Nested := by
    cases line <;> cases key <;> exact hp
  have hall : AllNested ts ∧ r.registry.Holds Nested := by
    split at hts
    · exact hranges start hts
    · exact hitems start hts
  obtain ⟨hc, hq⟩ := hb (p := r.leave (p.reach line)) hall.2 hcontent
  exact ⟨((nested_lead p line).append (closed_nested.loopHead σ.dialect hi hk hall.1 names)).append hc, hq⟩

private theorem keyframes_nests {segments statements : List Node} (hs : texts.Nests σ AllNested)
    (hb : body.Nests σ Nested) : (keyframes line segments statements texts body).Nests σ Nested := by
  intro p t q hp hg
  obtain ⟨ts, r, content, s, hts, hcontent, rfl, rfl⟩ := keyframes_gives hg
  obtain ⟨hall, hr⟩ := hs (by simpa using hp) hts
  obtain ⟨hc, hq⟩ := hb hr hcontent
  exact ⟨(nested_lead _ line).append (nested_withEngines _ s ((closed_nested.joinSegments hall).append hc)), hq⟩

private theorem conditionRule_nests {keyword : String} (hk : Nested keyword) (hc : text.Nests σ Nested)
    (hb : body.Nests σ Nested) : (conditionRule keyword line text body).Nests σ Nested := by
  intro p t q hp hg
  obtain ⟨condition, r, content, hcondition, hcontent, rfl⟩ := conditionRule_gives hg
  obtain ⟨hcond, hr⟩ := hc (by simpa using hp) hcondition
  obtain ⟨hcont, hq⟩ := hb hr hcontent
  exact ⟨(((nested_lead p line).append hk).append hcond).append hcont, hq⟩

private theorem xmlNamespace_nests {shortName : Option String} (hs : ∀ t ∈ shortName, Nested t)
    (h : text.Nests σ Nested) : (xmlNamespace line shortName text).Nests σ Nested := by
  intro p t q hp hg
  obtain ⟨value, r, hvalue, rfl, rfl⟩ := xmlNamespace_gives hg
  obtain ⟨hv, hr⟩ := h (by simpa using hp) hvalue
  have word : Nested "@namespace " := Bracketed.nested (by decide)
  have semicolon : Nested ";" := Bracketed.nested (by decide)
  have short : Nested ((shortName.map (· ++ " ")).getD "") :=
    closed_nested.rowwise.optional_append hs (Bracketed.nested (by decide))
  exact ⟨((((nested_lead p line).append word).append short).append
    (closed_nested.dropTrailing (by decide) hv)).append semicolon, hr⟩

private theorem charset_nests {encoding : QuotedText} (ht : Nested encoding.text) (hq : Nested encoding.quote) :
    (charset line encoding).Nests σ Nested := by
  intro p t q hp hg
  obtain ⟨rfl, rfl⟩ := charset_gives hg
  have word : Nested "@charset " := Bracketed.nested (by decide)
  have semicolon : Nested ";" := Bracketed.nested (by decide)
  exact ⟨(((nested_lead p line).append word).append (closed_nested.quoted ht hq)).append semicolon, by simpa using hp⟩

private theorem importSheet_nests {pieces : List Node}
    (texts_ : ∀ n ∈ pieces, ∀ q, n.quotedText? = some q → Nested q.text ∧ Nested q.quote)
    (h : texts.Nests σ AllNested) : (importSheet line pieces texts).Nests σ Nested := by
  intro p t q hp hg
  obtain ⟨ts, hts, rfl⟩ := importSheet_gives hg
  obtain ⟨hall, hq⟩ := h (by simpa using hp) hts
  have word : Nested "@import " := Bracketed.nested (by decide)
  have semicolon : Nested ";" := Bracketed.nested (by decide)
  have quote : Nested (pathQuote pieces) := closed_nested.pathQuote fun n hn q hq => (texts_ n hn q hq).2
  have path : Nested (outputPath σ.dialect (joinPath pieces ts)) :=
    closed_nested.outputPath σ.dialect (closed_nested.joinPath hall fun n hn q hq => (texts_ n hn q hq).1)
  exact ⟨(((((nested_lead p line).append word).append quote).append path).append quote).append semicolon, hq⟩

private theorem extend_nests {selectors : List Node} (h : texts.Nests σ AllNested) :
    (extend line selectors texts).Nests σ Nested := by
  intro p t q hp hg
  obtain ⟨-, ts, hts, rfl⟩ := extend_gives hg
  obtain ⟨hall, hq⟩ := h (by simpa using hp) hts
  have word : Nested "@extend " := Bracketed.nested (by decide)
  have comma : Nested ", " := Bracketed.nested (by decide)
  have semicolon : Nested ";" := Bracketed.nested (by decide)
  have trimmed : AllNested (ts.map trimStart) := by
    intro u hu
    obtain ⟨t, ht, rfl⟩ := List.mem_map.1 hu
    exact closed_nested.trimStart (hall t ht)
  exact ⟨(((nested_lead p line).append word).append (closed_nested.intercalate comma trimmed)).append semicolon, hq⟩

private theorem atRule_nests {name : String} {segments : List Node} {content : Option (Rendering String)}
    (hn : Nested name) (h : texts.Nests σ AllNested) (hb : ∀ b ∈ content, b.Nests σ Nested) :
    (atRule name line segments texts content).Nests σ Nested := by
  intro p t q hp hg
  obtain ⟨ts, r, hts, hends⟩ := atRule_gives hg
  obtain ⟨hall, hr⟩ := h (by simpa using hp) hts
  have head : Nested (p.lead line ++ atHead name segments ts) :=
    (nested_lead p line).append (closed_nested.atHead hn hall)
  rcases hends with ⟨-, rfl, rfl⟩ | ⟨b, inner, rfl, hinner, rfl⟩
  · exact ⟨head.append (Bracketed.nested (by decide)), hr⟩
  · obtain ⟨hi, hq⟩ := hb b rfl hr hinner
    exact ⟨head.append hi, hq⟩

private theorem comment_nests {c : Comment} {sameLine : Bool} (h : Nested c.text) :
    (comment c sameLine).Nests σ Nested := by
  intro p t q hp hg
  obtain ⟨rfl, rfl⟩ := comment_gives hg
  have before : Nested (if sameLine then " " else p.lead c.line) := by
    split
    · exact Bracketed.nested (by decide)
    · exact nested_lead p c.line
  exact ⟨before.append (closed_nested.keptText h), by simpa using hp⟩

end Render

namespace Render

private theorem nested_of_inlineName {e : Expression Node} {name : String}
    (h : EveryIn (Node.TextsHold Nested) e.operands)
    (hn : e.inlineName? = some name) : Nested name := by
  obtain ⟨id, held, rfl, -⟩ := Expression.identifier_of_inlineName? hn
  exact (h _ held).self id.name (by simp)

mutual

private theorem node_nests (hσ : Nested σ.quote.toString) (n : Node) :
    n.Every (Node.TextsHold Nested) → (node n).Nests σ Nested := by
  rw [Node.every_iff_everyIn]
  match n with
  | .null => exact fun _ => nests_pure nested_empty
  | .literal text _ => exact fun h => nests_pure (h.1 text (by simp))
  | .color text => exact fun h => nests_pure (h.1 text (by simp))
  | .quoted q => exact fun h => nests_pure (closed_nested.quoted (h.1 q.text (by simp)) (h.1 q.quote (by simp)))
  | .boolean value =>
    refine fun _ => nests_pure ?_
    cases value <;> exact Bracketed.nested (by decide)
  | .number value suffix =>
    rintro ⟨ht, -⟩
    have ending : Nested (suffix.getD "") :=
      closed_nested.rowwise.optional fun s hs => ht s (by simp [Option.mem_def.1 hs])
    exact nests_pure ((closed_nested.number value).append ending)
  | .identifier ⟨name, value, placeholder, rest, line⟩ =>
    rintro ⟨ht, hp⟩
    have hname : Nested name := ht name (by simp)
    match value with
    | none => exact @reference_nests σ ⟨name, none, placeholder, rest, line⟩ hname
    | some v =>
      have hv : (node v).Nests σ Nested := node_nests hσ v (by simpa using hp)
      cases v with
      | null => exact @reference_nests σ ⟨name, some .null, placeholder, rest, line⟩ hname
      | expression e =>
        have he : (Node.expression e).Every (Node.TextsHold Nested) := hp _ (by simp)
        exact assignment_nests hname (each_nests hσ e.operands ((Node.every_iff_everyIn _).1 he).2)
      | callable => exact hv
      | _ => exact boundValue_nests hname hv
  | .expression e => exact fun h => expression_nests (each_nests hσ e.operands h.2)
  | .arguments args => exact fun h => arguments_nests (each_nests hσ args h.2)
  | .block b => exact fun h => body_nests hσ b h.2
  | .selector segments _ => exact fun h => selector_nests (each_nests hσ segments h.2)
  | .ruleSet _ none _ => exact fun _ => nests_missing
  | .ruleSet selectors (some b) _ =>
    rintro ⟨-, hp⟩
    obtain ⟨hs, hb⟩ := (everyIn_append _ _).1 hp
    exact ruleSet_nests (each_nests hσ selectors hs) (body_nests hσ b hb)
  | .property segments value _ =>
    rintro ⟨-, hp⟩
    obtain ⟨hs, hv⟩ := (everyIn_append _ _).1 hp
    exact property_nests (fun _ => nested_of_inlineName hv) (named_nests (each_nests hσ segments hs))
      (expression_nests (each_nests hσ value.operands hv))
  | .call name args none _ =>
    rintro ⟨ht, hp⟩
    obtain ⟨ha, -⟩ := (everyIn_append _ _).1 hp
    exact call_nests (ht name (by simp)) (each_nests hσ args ha) (by simp)
  | .call name args (some b) _ =>
    rintro ⟨ht, hp⟩
    obtain ⟨ha, hb⟩ := (everyIn_append _ _).1 hp
    refine call_nests (ht name (by simp)) (each_nests hσ args ha) fun c hc => ?_
    rw [← Option.some.inj hc]
    exact body_nests hσ b hb
  | .callable _ _ none _ => exact fun _ => nests_missing
  | .callable name ps (some b) _ =>
    rintro ⟨ht, hp⟩
    obtain ⟨hps, hb⟩ := (everyIn_append _ _).1 hp
    have names : ∀ id ∈ ps, Nested id.name := fun id hid =>
      ht id.name (List.mem_cons_of_mem _ (List.mem_map_of_mem hid))
    exact callable_nests (ht name (by simp)) (params_nests hσ ps names hps) (body_nests hσ b hb)
  | .returned value _ =>
    exact fun h => returned_nests (expression_nests (each_nests hσ value.operands h.2))
  | .conditional _ none _ _ _ => exact fun _ => nests_missing
  | .conditional condition (some b) alts negated line =>
    rintro ⟨-, hp⟩
    obtain ⟨hcb, ha⟩ := (everyIn_append _ _).1 hp
    obtain ⟨hc, hb⟩ := (everyIn_cons _ _).1 hcb
    exact conditional_nests (node_nests hσ condition hc) (body_nests hσ b hb) (alternatives_nests hσ alts ha)
  | .loop _ _ none _ _ => exact fun _ => nests_missing
  | .loop _ _ (some _) none _ => exact fun _ => nests_missing
  | .loop item key (some e) (some b) _ =>
    rintro ⟨ht, hp⟩
    obtain ⟨he, hb⟩ := (everyIn_append _ _).1 hp
    have keys : ∀ k ∈ key, Nested k := fun k hk => ht k (by simp_all)
    exact loop_nests (ht item (by simp)) keys (fun n hn _ => holds_of_bareName (he n hn))
      (ranges_nests hσ e.operands he) (each_nests hσ e.operands he) (body_nests hσ b hb)
  | .binary operator left right =>
    rintro ⟨ht, hp⟩
    exact (node_nests hσ left (hp left (by simp))).bind fun l hl =>
      (node_nests hσ right (hp right (by simp))).bind fun r hr =>
        nests_pure (closed_nested.binary right (ht operator (by simp)) hl hr)
  | .unary operator operand =>
    rintro ⟨ht, hp⟩
    exact (node_nests hσ operand (hp operand (by simp))).bind fun t hu =>
      nests_pure (closed_nested.unary (ht operator (by simp)) hu)
  | .keyframes _ none _ => exact fun _ => nests_missing
  | .keyframes segments (some b) _ =>
    rintro ⟨-, hp⟩
    obtain ⟨hs, hb⟩ := (everyIn_append _ _).1 hp
    exact keyframes_nests (each_nests hσ segments hs) (body_nests hσ b hb)
  | .media _ none _ => exact fun _ => nests_missing
  | .media q (some b) _ =>
    rintro ⟨-, hp⟩
    obtain ⟨hq, hb⟩ := (everyIn_cons _ _).1 hp
    exact conditionRule_nests (Bracketed.nested (by decide)) (node_nests hσ q hq) (body_nests hσ b hb)
  | .queryList queries =>
    exact fun h => (each_nests hσ queries h.2).bind fun ts hts =>
      nests_pure (closed_nested.intercalate (Bracketed.nested (by decide)) hts)
  | .query features medium predicate =>
    rintro ⟨ht, hp⟩
    obtain ⟨hf, hm⟩ := (everyIn_append _ _).1 hp
    have predicates : ∀ t ∈ predicate, Nested t := fun t h => ht t (by simp_all)
    exact (optional_nests hσ medium hm).bind fun m hm => (each_nests hσ features hf).bind fun fs hfs =>
      nests_pure (closed_nested.query predicates hm hfs)
  | .feature segments none =>
    rintro ⟨-, hp⟩
    obtain ⟨hs, -⟩ := (everyIn_append _ _).1 hp
    exact (named_nests (each_nests hσ segments hs)).bind fun name hn => nests_pure (closed_nested.feature hn (by simp))
  | .feature segments (some value) =>
    rintro ⟨-, hp⟩
    obtain ⟨hs, hv⟩ := (everyIn_append _ _).1 hp
    exact (named_nests (each_nests hσ segments hs)).bind fun name hn =>
      (expression_nests (each_nests hσ value.operands hv)).bind fun v hv =>
        nests_pure (closed_nested.feature hn (by simpa using hv))
  | .supports _ none _ => exact fun _ => nests_missing
  | .supports condition (some b) _ =>
    rintro ⟨-, hp⟩
    obtain ⟨hc, hb⟩ := (everyIn_cons _ _).1 hp
    exact conditionRule_nests (Bracketed.nested (by decide)) (node_nests hσ condition hc) (body_nests hσ b hb)
  | .xmlNamespace value shortName _ =>
    rintro ⟨ht, hp⟩
    have shorts : ∀ t ∈ shortName, Nested t := fun t h => ht t (by simp_all)
    exact xmlNamespace_nests shorts (node_nests hσ value (hp value (by simp)))
  | .charset encoding _ =>
    exact fun h => charset_nests (h.1 encoding.text (by simp)) (h.1 encoding.quote (by simp))
  | .importSheet path _ =>
    rintro ⟨-, hp⟩
    exact importSheet_nests (fun n hn _ => holds_of_quotedText (hp n hn)) (each_nests hσ path.operands hp)
  | .extend selectors _ => exact fun h => extend_nests (each_nests hσ selectors h.2)
  | .atRule name segments none _ =>
    rintro ⟨ht, hp⟩
    obtain ⟨hs, -⟩ := (everyIn_append _ _).1 hp
    exact atRule_nests (ht name (by simp)) (each_nests hσ segments hs) (by simp)
  | .atRule name segments (some b) _ =>
    rintro ⟨ht, hp⟩
    obtain ⟨hs, hb⟩ := (everyIn_append _ _).1 hp
    refine atRule_nests (ht name (by simp)) (each_nests hσ segments hs) fun c hc => ?_
    rw [← Option.some.inj hc]
    exact body_nests hσ b hb
  | .comment c => exact fun h => comment_nests (h.1 c.text (by simp))
  | .member left right =>
    rintro ⟨-, hp⟩
    exact member_nests hσ (fun n hn _ => holds_of_bareName (hp n hn)) (node_nests hσ left (hp left (by simp)))
      (node_nests hσ right (hp right (by simp)))
  | .mapLiteral es _ =>
    rintro ⟨ht, hp⟩
    exact mapLiteral_nests hσ (entries_nests hσ es (fun e he => ht e.1 (List.mem_map_of_mem he)) hp)
termination_by structural n

private theorem each_nests (hσ : Nested σ.quote.toString) (ns : List Node) :
    EveryIn (Node.TextsHold Nested) ns → (each ns).Nests σ AllNested := by
  match ns with
  | [] => exact fun _ => nests_pure (by simp [AllNested])
  | n :: ns =>
    intro h
    rw [everyIn_cons] at h
    exact (node_nests hσ n h.1).bind fun t ht => (each_nests hσ ns h.2).bind fun ts hts =>
      nests_pure (List.forall_mem_cons.2 ⟨ht, hts⟩)
termination_by structural ns

private theorem body_nests (hσ : Nested σ.quote.toString) (b : Body Node) :
    EveryIn (Node.TextsHold Nested) b.statements → (Render.body b).Nests σ Nested := by
  match b with
  | ⟨ss, _⟩ => exact fun h => block_nests (statements_nests hσ none ss h)
termination_by structural b

private theorem statements_nests (hσ : Nested σ.quote.toString) (previous : Option Nat) (ns : List Node) :
    EveryIn (Node.TextsHold Nested) ns → (statements previous ns).Nests σ Nested := by
  match ns with
  | [] => exact fun _ => nests_pure nested_empty
  | n :: ns =>
    intro h
    rw [everyIn_cons] at h
    have hn := node_nests hσ n h.1
    have hs : (statement previous n).Nests σ Nested := by
      cases n with
      | comment c => exact comment_nests (h.1.self c.text (by simp))
      | _ => exact hn
    rw [statements_cons]
    exact hs.bind fun t ht => (statements_nests hσ n.line ns h.2).bind fun u hu => nests_pure (ht.append hu)
termination_by structural ns

private theorem optional_nests (hσ : Nested σ.quote.toString) (n : Option Node) :
    EveryIn (Node.TextsHold Nested) n.toList → (optional n).Nests σ Nested := by
  match n with
  | none => exact fun _ => nests_pure nested_empty
  | some n => exact fun h => node_nests hσ n (h n (by simp))
termination_by structural n

private theorem alternatives_nests (hσ : Nested σ.quote.toString) (ns : List Node) :
    EveryIn (Node.TextsHold Nested) ns → (alternatives ns).Nests σ AllNested := by
  match ns with
  | [] => exact fun _ => nests_pure (by simp [AllNested])
  | n :: ns =>
    intro h
    rw [everyIn_cons] at h
    have hn : (alternative n).Nests σ Nested := by
      obtain ⟨-, hp⟩ := (Node.every_iff_everyIn _).1 h.1
      cases n with
      | conditional condition b alts negated line =>
        match b with
        | none => exact nests_missing
        | some b =>
          obtain ⟨hcb, ha⟩ := (everyIn_append _ _).1 hp
          obtain ⟨hc, hb⟩ := (everyIn_cons _ _).1 hcb
          exact chained_nests (conditional_nests (node_nests hσ condition hc) (body_nests hσ b hb)
            (alternatives_nests hσ alts ha))
      | block b => exact chained_nests (otherwise_nests (body_nests hσ b hp))
      | _ => exact nests_missing
    rw [alternatives_cons]
    exact hn.bind fun t ht => (alternatives_nests hσ ns h.2).bind fun ts hts =>
      nests_pure (List.forall_mem_cons.2 ⟨ht, hts⟩)
termination_by structural ns

private theorem ranges_nests (hσ : Nested σ.quote.toString) (ns : List Node) :
    EveryIn (Node.TextsHold Nested) ns → (ranges ns).Nests σ AllNested := by
  match ns with
  | [] => exact fun _ => nests_pure (by simp [AllNested])
  | n :: ns =>
    intro h
    rw [everyIn_cons] at h
    have hn := node_nests hσ n h.1
    have hr : (range n).Nests σ Nested := by
      obtain ⟨-, hp⟩ := (Node.every_iff_everyIn _).1 h.1
      cases n with
      | binary operator left right =>
        simp only [range]
        split
        · exact (node_nests hσ left (hp left (by simp))).bind fun l hl =>
            (node_nests hσ right (hp right (by simp))).bind fun r hr => nests_pure (closed_nested.bounds hl hr)
        · exact hn
      | expression e =>
        exact (ranges_nests hσ e.operands hp).bind fun ts hts =>
          nests_pure (closed_nested.intercalate (Bracketed.nested (by decide)) hts)
      | _ => exact hn
    rw [ranges_cons]
    exact hr.bind fun t ht => (ranges_nests hσ ns h.2).bind fun ts hts =>
      nests_pure (List.forall_mem_cons.2 ⟨ht, hts⟩)
termination_by structural ns

private theorem params_nests (hσ : Nested σ.quote.toString) (ids : List (Identifier Node)) :
    (∀ id ∈ ids, Nested id.name) → EveryIn (Node.TextsHold Nested) (ids.flatMap (·.value.toList)) →
      (params ids).Nests σ AllNested := by
  match ids with
  | [] => exact fun _ _ => nests_pure (by simp [AllNested])
  | id :: ids =>
    intro names h
    rw [List.flatMap_cons, everyIn_append] at h
    obtain ⟨hid, hids⟩ := List.forall_mem_cons.1 names
    exact (param_nests hid (optional_nests hσ id.value h.1)).bind fun t ht =>
      (params_nests hσ ids hids h.2).bind fun ts hts => nests_pure (List.forall_mem_cons.2 ⟨ht, hts⟩)
termination_by structural ids

private theorem entries_nests (hσ : Nested σ.quote.toString) (es : List (String × Node)) :
    (∀ e ∈ es, Nested e.1) → EveryIn (Node.TextsHold Nested) (es.map (·.2)) →
      (entries es).Nests σ fun es => ∀ e ∈ es, Nested e.1 ∧ Nested e.2 := by
  match es with
  | [] => exact fun _ _ => nests_pure (by simp)
  | (key, n) :: es =>
    intro keys h
    rw [List.map_cons, everyIn_cons] at h
    obtain ⟨hk, hks⟩ := List.forall_mem_cons.1 keys
    exact (node_nests hσ n h.1).bind fun t ht => (entries_nests hσ es hks h.2).bind fun ts hts =>
      nests_pure (List.forall_mem_cons.2 ⟨⟨hk, ht⟩, hts⟩)
termination_by structural es

end

end Render

/-- Under a quote that is no bracket, a sheet of bracketed texts is converted to a bracketed text, whenever it is
converted at all. -/
theorem Sheet.convert_bracketed (s : Sheet) (settings : Settings) (quote : isBracket settings.quote = false)
    (texts : ∀ n ∈ s.statements, ∀ m : Node, m.Occurs n → ∀ t ∈ m.texts, Bracketed t) (output : String)
    (h : s.convert settings = .ok output) : Bracketed output := by
  have hσ : Nested settings.toStyle.quote.toString := by
    apply nested_of_plain
    intro c hc
    have hq : c = settings.quote := by simpa using hc
    rw [hq, quote]
  have hs : EveryIn (Node.TextsHold Nested) s.statements := fun n hn m hm t ht => (texts n hn m hm t ht).nested
  cases hr : s.render settings.toStyle with
  | error e => simp [Sheet.convert, hr, bind, Except.bind] at h
  | ok r =>
    obtain ⟨text, q⟩ := r
    have ho : output = .ofList (indentLines settings.hostIndent text.toList ++ ['\n']) := by
      simpa [Sheet.convert, hr, bind, Except.bind, pure, Except.pure, eq_comm] using h
    have empty : ({} : Pass).registry.Holds Nested := by simp [Registry.Holds]
    have nested : Nested text := (Render.statements_nests hσ none s.statements hs empty hr).1
    rw [bracketed_iff_nested, ho]
    refine nested_of_filter (t := text) ?_ nested
    rw [String.toList_ofList, List.filter_append, filter_indentLines (by decide) (by decide)]
    simp [show isBracket '\n' = false by decide]

/-- A value in brackets comes back where its name is used, here in a step that is interpolated. -/
theorem Sheet.convert_bracketed_keyframes :
    let width : Node := .property [.literal "w" none] ⟨[.literal "min(1%, calc(2px))" none], none⟩ none
    let operands : List Node := [.identifier { name := "w" }, .literal "-[x]" none]
    let step : Node := .ruleSet [.selector [.expression ⟨operands, none⟩] none] (some ⟨[width], none⟩) none
    let sheet : Sheet := { statements := [width, .keyframes [.literal "k" none] (some ⟨[step], none⟩) none] }
    let settings : Settings := { vendorCopies := false, hostIndent := 1 }
    let output := " w: min(1%, calc(2px));@keyframes k \x7b\n" ++
      "   #\x7bmin(1%, calc(2px)) -[x]\x7d \x7b\n     w: min(1%, calc(2px));\n   \x7d\n \x7d\n"
    settings.quote = '\'' ∧ sheet.convert settings = .ok output ∧ Bracketed output := by
  intro width operands step sheet settings output
  have texts : EveryIn (fun m => ∀ t ∈ m.texts, Bracketed t) sheet.statements := by
    simp [sheet, step, operands, width, Node.every_iff_everyIn]
    decide
  have converted : sheet.convert settings = .ok output := eq_ok_of_toOption (by decide +kernel)
  exact ⟨rfl, converted, sheet.convert_bracketed settings (by decide) texts output converted⟩

end Stylesheet
