import Stylesheet.Proofs.Forms
import Stylesheet.Proofs.Run

/-!
# What constructs give

For each construct, the runs of its parts that a run of it consists of, where each of them starts, and the text
and the pass that come out.
-/

namespace Stylesheet

namespace Pass

def inFunction (p : Pass) : Bool := p.inAny [.callableBody] && p.returning

/-- Whether a list of operands is a statement whose value is returned. -/
def returnsList (p : Pass) : Bool :=
  p.returning && !p.inAny [.expression, .arguments, .declarationValue, .mapLiteral, .condition]

def includes (p : Pass) : Bool := !p.returning &&
  !p.inAny [.declarationValue, .mapLiteral, .xmlNamespace, .keyframes, .arguments, .condition]

def inAddress (p : Pass) : Bool := p.inAny [.call] && p.callName == some "url"

/-- The content of a block, on lines of its own. -/
def ownLines (p : Pass) (content : String) : String :=
  if Text.startsWith '\n' content then content else "\n" ++ p.indent ++ Text.trimStart content

end Pass

namespace Render

open Rendering

variable {σ : Style} {p q : Pass} {t : String} {line : Option Nat} {text body : Rendering String}
  {texts : Rendering (List String)}

theorem named_gives {segments : List Node} (h : (named segments texts).Gives σ p t q) :
    ∃ ts, texts.Gives σ p ts q ∧ t = joinSegments segments ts := by
  simp only [named, gives_bind, gives_pure] at h
  obtain ⟨ts, _, hts, rfl, rfl⟩ := h
  exact ⟨ts, hts, rfl⟩

theorem insertReturn_gives {keyword content : String} (h : (insertReturn keyword content).Gives σ p t q) :
    ∃ margin, t = margin ++ keyword ++ Text.trimStart content ∧
      (margin = Text.margin content ∧ q = p ∨ margin = "\n" ++ p.indent ∧ q = p.nextLine) := by
  simp only [insertReturn, gives_ite, gives_bind, gives_pure, gives_modify, gives_indent] at h
  split at h
  · exact ⟨_, h.1, .inl ⟨rfl, h.2⟩⟩
  · obtain ⟨_, _, rfl, _, _, ⟨rfl, rfl⟩, rfl, rfl⟩ := h
    exact ⟨_, rfl, .inr ⟨rfl, rfl⟩⟩

/-- Outside of functions the body of a block stays as it is. -/
theorem withReturn_gives {content : String} (h : (withReturn content).Gives σ p t q) :
    (p.inFunction = false ∧ t = content ∧ q = p) ∨
    (p.inFunction ∧ t = terminated content ∧ q = p) ∨
    (p.inFunction ∧ ∃ r, (insertReturn σ.dialect.returnWord content).Gives σ p r q ∧ t = terminated r) := by
  simp only [withReturn, gives_ite, gives_bind, gives_pure, gives_observe, gives_dialect] at h
  obtain ⟨_, _, ⟨rfl, rfl⟩, _, _, ⟨rfl, rfl⟩, h⟩ := h
  split at h
  · next hp =>
    obtain ⟨_, _, ⟨rfl, rfl⟩, h⟩ := h
    split at h
    · obtain ⟨_, _, ⟨rfl, rfl⟩, rfl, rfl⟩ := h
      exact .inr (.inl ⟨hp, rfl, rfl⟩)
    · obtain ⟨r, _, hr, rfl, rfl⟩ := h
      exact .inr (.inr ⟨hp, r, hr, rfl⟩)
  · next hp => exact .inl ⟨by simpa [Pass.inFunction] using hp, h⟩

theorem block_gives (h : (block text).Gives σ p t q) : ∃ content r content' r',
    text.Gives σ p.down content r ∧ (withReturn content).Gives σ r content' r' ∧ q = r'.up ∧
      t = " \x7b" ++ r'.ownLines content' ++ "\n" ++ r'.up.indent ++ "\x7d" := by
  simp only [block, gives_bind, gives_deeper, gives_ite, gives_pure, gives_indent] at h
  obtain ⟨_, _, ⟨_, ⟨content, r, hc, content', r', hw, h⟩, rfl⟩, _, _, ⟨rfl, rfl⟩, rfl, rfl⟩ := h
  refine ⟨content, r, content', r', hc, hw, ?_⟩
  split at h
  · next hs =>
    obtain ⟨rfl, rfl⟩ := h
    exact ⟨rfl, by rw [Pass.ownLines, if_pos hs]⟩
  · next hs =>
    obtain ⟨_, _, ⟨rfl, rfl⟩, rfl, rfl⟩ := h
    exact ⟨rfl, by rw [Pass.ownLines, if_neg hs]⟩

theorem selector_gives {segments : List Node} (h : (selector segments texts).Gives σ p t q) :
    ∃ ts, texts.Gives σ (p.reach (segments.getLast?.bind Node.line)) ts q ∧
      t = p.lead (segments.getLast?.bind Node.line) ++ joinSegments segments ts := by
  simp only [selector, gives_bind, gives_lineStart, gives_pure] at h
  obtain ⟨_, _, ⟨rfl, rfl⟩, _, _, hn, rfl, rfl⟩ := h
  obtain ⟨ts, hts, rfl⟩ := named_gives hn
  exact ⟨ts, hts, rfl⟩

/-- The head of a rule set as it is written, which in keyframes can be computed. -/
def ruleHead (p : Pass) (selectors : List String) : String :=
  if p.inAny [.keyframes] && isComputedStep (joinSelectors selectors) then
    "#\x7b" ++ joinSelectors selectors ++ "\x7d"
  else joinSelectors selectors

theorem ruleSet_gives (h : (ruleSet line texts body).Gives σ p t q) : ∃ heads r content,
    texts.Gives σ (p.reach line) heads r ∧ body.Gives σ r content q ∧
      t = p.lead line ++ ruleHead q heads ++ content := by
  simp only [ruleSet, gives_bind, gives_lineStart, gives_observe, gives_pure] at h
  obtain ⟨_, _, ⟨rfl, rfl⟩, heads, r, hs, content, _, hb, _, _, ⟨rfl, rfl⟩, rfl, rfl⟩ := h
  exact ⟨heads, r, content, hs, hb, rfl⟩

theorem reference_gives {id : Identifier Node} (h : (reference id).Gives σ p t q) :
    t = referenceText σ.dialect p id ∧ q = p := by
  simp only [reference, gives_bind, gives_dialect, gives_observe] at h
  obtain ⟨_, _, ⟨rfl, rfl⟩, rfl, rfl⟩ := h
  exact ⟨rfl, rfl⟩

def knowingMap (p : Pass) (name : String) (value : Expression Node) : Pass :=
  if value.holdsMap then p.learn (·.addMap name) else p

private theorem knowingMap_frame (p : Pass) (name : String) (value : Expression Node) :
    (∀ line, (knowingMap p name value).lead line = p.lead line) ∧
      ∀ among, (knowingMap p name value).inAny among = p.inAny among := by
  unfold knowingMap
  split
  · exact ⟨fun line => by cases line <;> rfl, fun among => rfl⟩
  · exact ⟨fun line => rfl, fun among => rfl⟩

theorem assignment_gives {name : String} {value : Expression Node}
    (h : (assignment name value texts).Gives σ p t q) : ∃ before start ts r,
    (p.inAny [.call] ∧ before = "" ∧ start = knowingMap p name value ∨
      p.inAny [.call] = false ∧ before = p.lead value.line ∧ start = (knowingMap p name value).reach value.line) ∧
    texts.Gives σ (start.enter [.declarationValue]) ts r ∧
    q = (r.leave start).learn (·.addVariable name) ∧
    t = before ++ σ.dialect.variableRef name ++ ": " ++ Text.dropTrailing ';' (" ".intercalate ts) ++ ";" := by
  obtain ⟨lead_eq, inAny_eq⟩ := knowingMap_frame p name value
  simp only [assignment, gives_perhaps, gives_either, gives_bind, gives_observe, gives_within, gives_register,
    gives_variableRef, gives_pure] at h
  obtain ⟨_, hk, _, k, ⟨rfl, rfl⟩, before, start, hb, ts, _, ⟨r, hr, rfl⟩, _, _, rfl, _, _, ⟨rfl, rfl⟩, rfl, rfl⟩ := h
  have hk : k = knowingMap p name value := by
    by_cases hm : value.holdsMap <;> simpa [knowingMap, hm] using hk
  subst hk
  refine ⟨before, start, ts, r, ?_, hr, rfl, rfl⟩
  rw [inAny_eq] at hb
  split at hb
  · next hc => exact .inl ⟨hc, gives_pure.1 hb⟩
  · next hc =>
    rw [gives_lineStart, lead_eq] at hb
    exact .inr ⟨by simpa using hc, hb⟩

theorem boundValue_gives {name : String} (h : (boundValue name line text).Gives σ p t q) : ∃ value r,
    text.Gives σ ((p.reach line).enter [.declarationValue]) value r ∧
    q = (r.leave (p.reach line)).learn (·.addVariable name) ∧
    t = p.lead line ++ σ.dialect.variableRef name ++ ": " ++ Text.dropTrailing ';' value ++ ";" := by
  simp only [boundValue, gives_bind, gives_lineStart, gives_within, gives_register, gives_variableRef,
    gives_pure] at h
  obtain ⟨_, _, ⟨rfl, rfl⟩, value, _, ⟨r, hr, rfl⟩, _, _, rfl, _, _, ⟨rfl, rfl⟩, rfl, rfl⟩ := h
  exact ⟨value, r, hr, rfl, rfl⟩

/-- A declaration is open in the registry while its value is rendered, and is closed with that value or with the
variable that the value assigns. -/
theorem property_gives {value : Expression Node} (h : (property line text value body).Gives σ p t q) :
    ∃ name r content s,
      text.Gives σ ((p.reach line).enter [.declarationValue]) name r ∧
      body.Gives σ (r.learn (·.openDeclaration name)) content s ∧
      ((∃ inner, value.inlineName? = some inner ∧
        q = (s.learn fun k => (k.addVariable inner).closeDeclaration r.registry.nextSlot
          (σ.dialect.variableRef inner)).leave (p.reach line) ∧
        t = p.lead line ++ Text.trimStart content ++ "\n" ++ s.indent ++ name ++ ": " ++
          σ.dialect.variableRef inner ++ ";") ∨
      (value.inlineName? = none ∧
        q = (s.learn (·.closeDeclaration r.registry.nextSlot content)).leave (p.reach line) ∧
        t = p.lead line ++ (name ++ ": " ++ content ++
          if Text.endsWith ';' content || value.handsBlock then "" else ";"))) := by
  simp only [property, gives_bind, gives_lineStart, gives_within, gives_observe, gives_register] at h
  obtain ⟨_, _, ⟨rfl, rfl⟩, _, ⟨name, _, hn, _, r, ⟨rfl, rfl⟩, _, _, rfl, content, s, hc, h⟩, rfl⟩ := h
  refine ⟨name, r, content, s, hn, hc, ?_⟩
  cases hi : value.inlineName? with
  | some inner =>
    simp only [hi, gives_bind, gives_variableRef, gives_register, gives_indent, gives_pure] at h
    obtain ⟨_, _, ⟨rfl, rfl⟩, _, _, rfl, _, _, ⟨rfl, rfl⟩, rfl, rfl⟩ := h
    exact .inl ⟨inner, rfl, rfl, rfl⟩
  | none =>
    simp only [hi, gives_bind, gives_register, gives_pure] at h
    obtain ⟨_, _, rfl, rfl, rfl⟩ := h
    exact .inr ⟨rfl, rfl, by simp only [String.append_assoc]⟩

theorem expression_gives {e : Expression Node} (h : (expression e texts).Gives σ p t q) : ∃ before start ts r,
    (p.returnsList ∧ before = p.lead e.line ++ σ.dialect.returnWord ∧ start = p.reach e.line ∨
      p.returnsList = false ∧ before = "" ∧ start = p) ∧
    texts.Gives σ (start.enter [.expression]) ts r ∧ q = r.leave start ∧
    t = before ++ if q.inAddress then Text.removeBlanks (joinOperands (p.inAny [.declarationValue]) e.operands ts)
      else joinOperands (p.inAny [.declarationValue]) e.operands ts := by
  simp only [expression, gives_either, gives_bind, gives_observe, gives_within, gives_pure] at h
  obtain ⟨_, _, ⟨rfl, rfl⟩, _, _, ⟨rfl, rfl⟩, _, _, ⟨rfl, rfl⟩, before, start, hb, ts, _, ⟨r, hr, rfl⟩, _, _,
    ⟨rfl, rfl⟩, rfl, rfl⟩ := h
  refine ⟨before, start, ts, r, ?_, hr, rfl, rfl⟩
  split at hb
  · next hp =>
    simp only [returnStart, gives_bind, gives_lineStart, gives_dialect, gives_pure] at hb
    obtain ⟨_, _, ⟨rfl, rfl⟩, _, _, ⟨rfl, rfl⟩, rfl, rfl⟩ := hb
    exact .inl ⟨hp, rfl, rfl⟩
  · next hp => exact .inr ⟨by simpa [Pass.returnsList] using hp, gives_pure.1 hb⟩

/-- Where lists are not returned, a list is its operands. -/
theorem expression_gives_operands (inside : p.returnsList = false) {e : Expression Node}
    (h : (expression e texts).Gives σ p t q) : ∃ ts r, texts.Gives σ (p.enter [.expression]) ts r ∧ q = r.leave p ∧
      t = if q.inAddress then Text.removeBlanks (joinOperands (p.inAny [.declarationValue]) e.operands ts)
        else joinOperands (p.inAny [.declarationValue]) e.operands ts := by
  obtain ⟨before, start, ts, r, ⟨returns, -⟩ | ⟨-, rfl, rfl⟩, hts, rfl, rfl⟩ := expression_gives h
  · rw [inside] at returns
    cases returns
  · exact ⟨ts, r, hts, rfl, String.empty_append⟩

theorem arguments_gives (h : (arguments texts).Gives σ p t q) : ∃ ts r,
    texts.Gives σ (p.enter [.arguments]) ts r ∧ q = r.leave p ∧
    t = ", ".intercalate (ts.map (Text.dropTrailing ';')) := by
  simp only [arguments, gives_within, gives_bind, gives_pure] at h
  obtain ⟨r, ⟨ts, _, hts, rfl, rfl⟩, rfl⟩ := h
  exact ⟨ts, _, hts, rfl, rfl⟩

def callLead (σ : Style) (p : Pass) (line : Option Nat) : String :=
  if (p.reach line).includes then
    (if (p.breaksTo line).isEmpty then "\n" else p.breaksTo line) ++ p.indent ++ σ.dialect.inclusion
  else p.breaksTo line

/-- The block handed to the mixin comes after the arguments, and what ends a statement comes in its place. -/
theorem call_gives {name : String} {handed : Option (Rendering String)}
    (h : (call name line texts handed).Gives σ p t q) : ∃ args r,
    (arguments texts).Gives σ ((p.reach line).call name) args r ∧
    ((handed = none ∧ q = r.hangUp (p.reach line) ∧ t = callLead σ p line ++ name ++ "(" ++ args ++ ")" ++
        if (p.reach line).includes then ";" else "") ∨
      ∃ b content, handed = some b ∧ b.Gives σ (r.hangUp (p.reach line)) content q ∧
        t = callLead σ p line ++ name ++ "(" ++ args ++ ")" ++ content) := by
  simp only [call, gives_either, gives_bind, gives_lineBreaks, gives_observe, gives_calling] at h
  obtain ⟨_, _, ⟨rfl, rfl⟩, _, _, ⟨rfl, rfl⟩, _, _, ⟨rfl, rfl⟩, before, start, hb, args, _, ⟨r, hr, rfl⟩, h⟩ := h
  have hb : before = callLead σ p line ∧ start = p.reach line := by
    unfold callLead
    change (if (p.reach line).includes then _ else _ : Rendering String).Gives _ _ _ _ at hb
    split at hb
    · next hi =>
      simp only [inclusionStart, gives_bind, gives_indent, gives_dialect, gives_pure] at hb
      obtain ⟨_, _, ⟨rfl, rfl⟩, _, _, ⟨rfl, rfl⟩, rfl, rfl⟩ := hb
      exact ⟨by rw [if_pos hi, Pass.reach_indent], rfl⟩
    · next hi =>
      rw [if_neg hi]
      exact gives_pure.1 hb
  obtain ⟨rfl, rfl⟩ := hb
  refine ⟨args, r, hr, ?_⟩
  cases handed with
  | none => exact .inl ⟨rfl, (gives_pure.1 h).2, (gives_pure.1 h).1⟩
  | some b =>
    simp only [gives_bind, gives_pure] at h
    obtain ⟨content, _, hc, rfl, rfl⟩ := h
    exact .inr ⟨b, content, rfl, hc, rfl⟩

theorem member_gives {left right : Node} {leftText rightText : Rendering String}
    (h : (member left right leftText rightText).Gives σ p t q) : ∃ owner r key,
    (leftText.Gives σ p owner r ∧ rightText.Gives σ r key q ∧ t = owner ++ "." ++ key) ∨
    ((left.bareName? = none ∧ leftText.Gives σ p owner r ∨
        (∃ name, left.bareName? = some name ∧ owner = σ.dialect.variableRef name) ∧ r = p) ∧
      (right.bareName? = none ∧ rightText.Gives σ r key q ∨ right.bareName? = some key ∧ q = r) ∧
      t = "map-get(" ++ owner ++ ", " ++ σ.quote.toString ++ key ++ σ.quote.toString ++ ")") := by
  rw [member_eq] at h
  simp only [gives_bind, gives_observe] at h
  obtain ⟨_, _, ⟨rfl, rfl⟩, h⟩ := h
  split at h
  · simp only [gives_bind, gives_read, gives_pure] at h
    obtain ⟨owner, r, ho, key, _, hk, _, _, ⟨rfl, rfl⟩, rfl, rfl⟩ := h
    refine ⟨owner, r, key, .inr ⟨?_, ?_, rfl⟩⟩
    · cases hl : left.bareName? with
      | none => exact .inl ⟨rfl, by simpa [hl] using ho⟩
      | some name => exact .inr (by simpa [hl] using ho)
    · cases hr : right.bareName? with
      | none => exact .inl ⟨rfl, by simpa [hr] using hk⟩
      | some name =>
        simp only [hr, Option.elim, gives_pure] at hk
        exact .inr ⟨by rw [hk.1], hk.2⟩
  · simp only [gives_bind, gives_pure] at h
    obtain ⟨owner, r, ho, key, _, hk, rfl, rfl⟩ := h
    exact ⟨owner, r, key, .inl ⟨ho, hk, rfl⟩⟩

/-- The entries of a map as they are written, one level deeper. -/
def entryLines (σ : Style) (p : Pass) (es : List (String × String)) : List String :=
  es.map fun (key, value) => "\n" ++ p.down.indent ++ σ.quote.toString ++ key ++ σ.quote.toString ++ ": " ++
    Text.eraseFirst ';' value

/-- The pass after a map literal, which moves on past the lines that the literal takes. -/
def afterMap (p : Pass) (line : Option Nat) (entries : Nat) : Pass :=
  match line with
  | none => p
  | some line => p.skipTo (line + entries + 2)

theorem mapLiteral_gives {entries : Rendering (List (String × String))}
    (h : (mapLiteral line entries).Gives σ p t q) : ∃ es r,
    entries.Gives σ (p.down.enter [.mapLiteral]) es r ∧ q = afterMap (r.leave p.down).up line es.length ∧
    t = "(" ++ ",".intercalate (entryLines σ p es) ++ "\n" ++ (r.leave p.down).up.indent ++ ")" := by
  simp only [mapLiteral, gives_bind, gives_read, gives_deeper, gives_indent, gives_within, gives_pure] at h
  obtain ⟨_, _, ⟨rfl, rfl⟩, _, _, ⟨_, ⟨_, _, ⟨rfl, rfl⟩, es, _, ⟨r, hr, rfl⟩, rfl, rfl⟩, rfl⟩, h⟩ := h
  refine ⟨es, r, hr, ?_⟩
  cases line with
  | none =>
    simp only [gives_bind, gives_indent, gives_pure] at h
    obtain ⟨_, _, ⟨rfl, rfl⟩, rfl, rfl⟩ := h
    exact ⟨rfl, rfl⟩
  | some line =>
    simp only [gives_bind, gives_modify, gives_indent, gives_pure] at h
    obtain ⟨_, _, rfl, _, _, ⟨rfl, rfl⟩, rfl, rfl⟩ := h
    exact ⟨by simp [afterMap], rfl⟩

/-- The pass in which the parameters and the body of a callable are rendered. -/
def intoCallable (p : Pass) (kind : DefinitionKind) (names : List String) : Pass :=
  { p.learn (·.setParams names) with returning := kind == DefinitionKind.function }.enter [.callableBody]

theorem callable_gives {name : String} {kind : DefinitionKind} {names : List String}
    (h : (callable name line kind names texts body).Gives σ p t q) : ∃ params r content s,
    texts.Gives σ (intoCallable (p.reach line) kind names) params r ∧ body.Gives σ r content s ∧
    q = { s.leave (p.reach line) with returning := false }.learn (·.clearParams) ∧
    t = p.lead line ++ callableHead σ.dialect kind name (", ".intercalate params) ++ content := by
  simp only [callable, gives_bind, gives_lineStart, gives_register, gives_modify, gives_within, gives_dialect,
    gives_pure] at h
  obtain ⟨_, _, ⟨rfl, rfl⟩, _, _, rfl, _, _, rfl, _, _, ⟨s, ⟨params, r, hp, content, _, hb, rfl, rfl⟩, rfl⟩, _, _,
    rfl, _, _, rfl, _, _, ⟨rfl, rfl⟩, rfl, rfl⟩ := h
  exact ⟨params, r, content, _, hp, hb, rfl, rfl⟩

theorem param_gives {id : Identifier Node} (h : (param id text).Gives σ p t q) : ∃ value r,
    (id.isBound = false ∧ value = "" ∧ r = p ∨ id.isBound ∧ ∃ content s,
      text.Gives σ (p.enter [.declarationValue]) content s ∧
      r = s.leave p ∧ value = ": " ++ Text.dropTrailing ';' content) ∧
    q = r.learn (·.addVariable id.name) ∧
    t = σ.dialect.variableRef id.name ++ value ++ if id.rest then "..." else "" := by
  simp only [param, gives_either, gives_bind, gives_variableRef, gives_register, gives_pure] at h
  obtain ⟨_, _, ⟨rfl, rfl⟩, value, r, hv, _, _, rfl, rfl, rfl⟩ := h
  refine ⟨value, r, ?_, rfl, rfl⟩
  split at hv
  · next hb =>
    simp only [defaultValue, gives_bind, gives_within, gives_pure] at hv
    obtain ⟨content, _, ⟨s, hs, rfl⟩, rfl, rfl⟩ := hv
    exact .inr ⟨hb, content, s, hs, rfl, rfl⟩
  · next hb => exact .inl ⟨by simpa using hb, gives_pure.1 hv⟩

theorem returned_gives (h : (returned line text).Gives σ p t q) : ∃ value r,
    text.Gives σ ((p.reach line).enter [.expression]) value r ∧ q = r.leave (p.reach line) ∧
    t = p.lead line ++ σ.dialect.returnWord ++ Text.dropTrailing ';' value ++ ";" := by
  simp only [returned, gives_bind, gives_lineStart, gives_within, gives_dialect, gives_pure] at h
  obtain ⟨_, _, ⟨rfl, rfl⟩, value, _, ⟨r, hr, rfl⟩, _, _, ⟨rfl, rfl⟩, rfl, rfl⟩ := h
  exact ⟨value, r, hr, rfl, rfl⟩

/-- The first word of a branch, behind the breaks that it owes. -/
def branchLead (p : Pass) : BranchStart → String
  | .leading line => p.lead line ++ "@if "
  | .chained => " @else if "

def branchPass (p : Pass) : BranchStart → Pass
  | .leading line => p.reach line
  | .chained => p

private theorem branchStart_gives {start : BranchStart} (h : start.text.Gives σ p t q) :
    t = branchLead p start ∧ q = branchPass p start := by
  cases start with
  | leading line =>
    simp only [BranchStart.text, gives_bind, gives_lineStart, gives_pure] at h
    obtain ⟨_, _, ⟨rfl, rfl⟩, rfl, rfl⟩ := h
    exact ⟨rfl, rfl⟩
  | chained => exact gives_pure.1 h

def negate (negated : Bool) (condition : String) : String :=
  if negated then "not (" ++ condition ++ ")" else condition

theorem conditional_gives {start : BranchStart} {negated : Bool}
    (h : (conditional start negated text body texts).Gives σ p t q) : ∃ condition r content s others,
    text.Gives σ ((branchPass p start).enter [.condition]) condition r ∧
    body.Gives σ (r.leave (branchPass p start)) content s ∧ texts.Gives σ s others q ∧
    t = branchLead p start ++ negate negated condition ++ content ++ String.join others := by
  simp only [conditional, gives_bind, gives_within, gives_pure] at h
  obtain ⟨before, _, hs, condition, _, ⟨r, hc, rfl⟩, content, s, hb, others, _, ho, rfl, rfl⟩ := h
  obtain ⟨rfl, rfl⟩ := branchStart_gives hs
  exact ⟨condition, r, content, s, others, hc, hb, ho, rfl⟩

theorem chained_gives (h : (chained text).Gives σ p t q) : text.Gives σ p.nextLine t q := by
  simp only [chained, gives_bind, gives_modify] at h
  obtain ⟨_, _, rfl, h⟩ := h
  exact h

theorem otherwise_gives (h : (otherwise body).Gives σ p t q) :
    ∃ content, body.Gives σ p content q ∧ t = " @else" ++ content := by
  simp only [otherwise, gives_bind, gives_pure] at h
  obtain ⟨content, _, hb, rfl, rfl⟩ := h
  exact ⟨content, hb, rfl⟩

def knowingItems (p : Pass) (item : String) (key : Option String) : Pass :=
  match key with
  | none => p.learn (·.addVariable item)
  | some key => (p.learn (·.addVariable item)).learn (·.addVariable key)

def loopHead (d : Dialect) (item : String) (key : Option String) (items : List Node) (texts : List String) :
    String :=
  if (firstRange? items).isSome then
    "@for " ++ d.variableRef item ++ " from " ++ ", ".intercalate texts
  else
    "@each " ++ ", ".intercalate ((item :: key.toList).map d.variableRef) ++ " in " ++ joinItems d items texts

private theorem loopHead_gives {item : String} {key : Option String} {items : List Node}
    {ranges each : Rendering (List String)} (h : (if (firstRange? items).isSome then forHead item ranges
      else eachHead item key items each).Gives σ p t q) :
    ∃ ts, (if (firstRange? items).isSome then ranges else each).Gives σ p ts q ∧
      t = loopHead σ.dialect item key items ts := by
  by_cases hr : (firstRange? items).isSome
  · simp only [hr, if_true, forHead, gives_bind, gives_variableRef, gives_pure] at h
    obtain ⟨ts, _, hts, _, _, ⟨rfl, rfl⟩, rfl, rfl⟩ := h
    exact ⟨ts, by rwa [if_pos hr], by rw [loopHead, if_pos hr]⟩
  · rw [if_neg hr] at h
    simp only [eachHead, gives_bind, gives_dialect, gives_pure] at h
    obtain ⟨_, _, ⟨rfl, rfl⟩, ts, _, hts, rfl, rfl⟩ := h
    exact ⟨ts, by rwa [if_neg hr], by rw [loopHead, if_neg hr]⟩

theorem loop_gives {item : String} {key : Option String} {iterable : Expression Node}
    {ranges each : Rendering (List String)} (h : (loop item key line iterable ranges each body).Gives σ p t q) :
    ∃ ts r content,
    (if (firstRange? iterable.operands).isSome then ranges else each).Gives σ
      ((knowingItems (p.reach line) item key).enter [.condition]) ts r ∧
    body.Gives σ (r.leave (p.reach line)) content q ∧
    t = p.lead line ++ loopHead σ.dialect item key iterable.operands ts ++ content := by
  simp only [loop, gives_bind, gives_lineStart, gives_register] at h
  obtain ⟨_, _, ⟨rfl, rfl⟩, _, _, rfl, h⟩ := h
  cases key with
  | none =>
    simp only [gives_bind, gives_within, gives_pure] at h
    obtain ⟨head, _, ⟨r, hh, rfl⟩, content, _, hb, rfl, rfl⟩ := h
    obtain ⟨ts, hts, rfl⟩ := loopHead_gives hh
    exact ⟨ts, r, content, hts, hb, rfl⟩
  | some key =>
    simp only [gives_bind, gives_register, gives_within, gives_pure] at h
    obtain ⟨_, _, rfl, head, _, ⟨r, hh, rfl⟩, content, _, hb, rfl, rfl⟩ := h
    obtain ⟨ts, hts, rfl⟩ := loopHead_gives hh
    exact ⟨ts, r, content, hts, hb, rfl⟩

/-- Keyframes are rendered only if they start with a step. -/
theorem keyframes_gives {segments statements : List Node}
    (h : (keyframes line segments statements texts body).Gives σ p t q) : ∃ ts r content s,
    texts.Gives σ ((p.enter [.keyframes]).reach line) ts r ∧ body.Gives σ r content s ∧ q = s.leave p ∧
    t = (p.enter [.keyframes]).lead line ++
      withEngines σ.vendorCopies s.indent (joinSegments segments ts ++ content) := by
  simp only [keyframes, gives_within, gives_perhaps, gives_bind, gives_lineStart, gives_read, gives_indent,
    gives_pure] at h
  obtain ⟨_, ⟨_, _, ⟨rfl, rfl⟩, name, _, hn, r, hf, content, s, hb, _, _, ⟨rfl, rfl⟩, _, _, ⟨rfl, rfl⟩, rfl, rfl⟩,
    rfl⟩ := h
  obtain ⟨ts, hts, rfl⟩ := named_gives hn
  split at hf
  · exact absurd hf gives_throw
  · obtain ⟨-, rfl⟩ := gives_pure.1 hf
    exact ⟨ts, _, content, _, hts, hb, rfl, rfl⟩

theorem conditionRule_gives {keyword : String} (h : (conditionRule keyword line text body).Gives σ p t q) :
    ∃ condition r content, text.Gives σ (p.reach line) condition r ∧ body.Gives σ r content q ∧
      t = p.lead line ++ keyword ++ condition ++ content := by
  simp only [conditionRule, gives_bind, gives_lineStart, gives_pure] at h
  obtain ⟨_, _, ⟨rfl, rfl⟩, condition, r, hc, content, _, hb, rfl, rfl⟩ := h
  exact ⟨condition, r, content, hc, hb, rfl⟩

theorem xmlNamespace_gives {shortName : Option String} (h : (xmlNamespace line shortName text).Gives σ p t q) :
    ∃ value r, text.Gives σ ((p.reach line).enter [.xmlNamespace]) value r ∧ q = r.leave (p.reach line) ∧
      t = p.lead line ++ "@namespace " ++ (shortName.map (· ++ " ")).getD "" ++
        Text.dropTrailing ';' value ++ ";" := by
  simp only [xmlNamespace, gives_bind, gives_lineStart, gives_within, gives_pure] at h
  obtain ⟨_, _, ⟨rfl, rfl⟩, value, _, ⟨r, hr, rfl⟩, rfl, rfl⟩ := h
  exact ⟨value, r, hr, rfl, rfl⟩

theorem charset_gives {encoding : QuotedText} (h : (charset line encoding).Gives σ p t q) :
    q = p.reach line ∧ t = p.lead line ++ "@charset " ++ quoted encoding ++ ";" := by
  simp only [charset, gives_bind, gives_lineStart, gives_pure] at h
  obtain ⟨_, _, ⟨rfl, rfl⟩, rfl, rfl⟩ := h
  exact ⟨rfl, rfl⟩

theorem importSheet_gives {pieces : List Node} (h : (importSheet line pieces texts).Gives σ p t q) :
    ∃ ts, texts.Gives σ (p.reach line) ts q ∧
      t = p.lead line ++ "@import " ++ pathQuote pieces ++ outputPath σ.dialect (joinPath pieces ts) ++
        pathQuote pieces ++ ";" := by
  simp only [importSheet, gives_bind, gives_lineStart, gives_dialect, gives_pure] at h
  obtain ⟨_, _, ⟨rfl, rfl⟩, _, _, ⟨rfl, rfl⟩, ts, _, hts, rfl, rfl⟩ := h
  exact ⟨ts, hts, rfl⟩

theorem extend_gives {selectors : List Node} (h : (extend line selectors texts).Gives σ p t q) :
    selectors ≠ [] ∧ ∃ ts, texts.Gives σ (p.reach line) ts q ∧
      t = p.lead line ++ "@extend " ++ ", ".intercalate (ts.map Text.trimStart) ++ ";" := by
  simp only [extend, gives_perhaps, gives_bind, gives_lineStart, gives_pure] at h
  obtain ⟨r, hf, _, _, ⟨rfl, rfl⟩, ts, _, hts, rfl, rfl⟩ := h
  split at hf
  · exact absurd hf gives_missing
  · next hs =>
    obtain ⟨-, rfl⟩ := gives_pure.1 hf
    exact ⟨by simpa using hs, ts, hts, rfl⟩

def atHead (name : String) (segments : List Node) (texts : List String) : String :=
  "@" ++ name ++ if segments.isEmpty then "" else " " ++ joinSegments segments texts

theorem atRule_gives {name : String} {segments : List Node} {content : Option (Rendering String)}
    (h : (atRule name line segments texts content).Gives σ p t q) : ∃ ts r,
    texts.Gives σ (p.reach line) ts r ∧
    ((content = none ∧ q = r ∧ t = p.lead line ++ atHead name segments ts ++ ";") ∨
      ∃ b inner, content = some b ∧ b.Gives σ r inner q ∧
        t = p.lead line ++ atHead name segments ts ++ inner) := by
  simp only [atRule, gives_bind, gives_lineStart] at h
  obtain ⟨_, _, ⟨rfl, rfl⟩, ts, r, hts, h⟩ := h
  refine ⟨ts, r, hts, ?_⟩
  cases content with
  | none => exact .inl ⟨rfl, (gives_pure.1 h).2, (gives_pure.1 h).1⟩
  | some b =>
    simp only [gives_bind, gives_pure] at h
    obtain ⟨inner, _, hb, rfl, rfl⟩ := h
    exact .inr ⟨b, inner, rfl, hb, rfl⟩

def lastLine (c : Comment) : Option Nat := c.line.map (· + c.text.toList.count '\n')

theorem comment_gives {c : Comment} {sameLine : Bool} (h : (comment c sameLine).Gives σ p t q) :
    q = p.reach (lastLine c) ∧ t = (if sameLine then " " else p.lead c.line) ++ keptText c := by
  simp only [comment, gives_either] at h
  obtain ⟨before, r, hb, h⟩ := h
  have hb : before = (if sameLine then " " else p.lead c.line) ∧ r = if sameLine then p else p.reach c.line := by
    cases sameLine with
    | true => exact gives_pure.1 hb
    | false => exact gives_lineStart.1 hb
  obtain ⟨rfl, rfl⟩ := hb
  cases hl : c.line with
  | none =>
    simp only [hl, gives_pure] at h
    obtain ⟨rfl, rfl⟩ := h
    cases sameLine <;> exact ⟨by rw [lastLine, hl]; rfl, rfl⟩
  | some l =>
    simp only [hl, gives_bind, gives_modify, gives_pure] at h
    obtain ⟨_, _, rfl, rfl, rfl⟩ := h
    cases sameLine <;> exact ⟨by rw [lastLine, hl]; rfl, rfl⟩

end Render

end Stylesheet
