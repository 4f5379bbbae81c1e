import Stylesheet.Proofs.Frame
import Stylesheet.Proofs.Lines.Values
import Stylesheet.Proofs.Parts
import Stylesheet.Proofs.Returns.Texts

/-!
# The keyword in values and heads

From a pass that returns lists, what stands inside of statements has the keyword once for every list that nothing
encloses, and from any other pass not at all.
-/

namespace Stylesheet

open Text Rendering

namespace Node

/-- What stands inside of statements: leaves, comments, names, and what lists, operations, calls, maps, selectors and
queries make of them. -/
def isPiece : Node → Bool
  | null | literal .. | identifier _ | number .. | quoted _ | boolean _ | color _ | expression _ | arguments _ |
    selector .. | call _ _ none _ | binary .. | unary .. | queryList _ | query .. | feature .. | member .. |
    mapLiteral .. | comment _ => true
  | _ => false

def values : Node → List Node
  | block _ => []
  | ruleSet selectors _ _ => selectors
  | call _ args _ _ => args
  | callable _ params _ _ => params.flatMap (·.value.toList)
  | conditional condition _ _ _ _ => [condition]
  | loop _ _ iterable _ _ => operandsOf iterable
  | keyframes segments _ _ => segments
  | media q _ _ => [q]
  | supports condition _ _ => [condition]
  | atRule _ segments _ _ => segments
  | n => n.parts

/-- The names that a node writes as variables. -/
def variableNames : Node → List String
  | identifier id => [id.name]
  | callable _ params _ _ => params.map (·.name)
  | loop item key _ _ _ => item :: key.toList
  | _ => []

/-- The names that a node writes behind an at-sign. -/
def ruleNames : Node → List String
  | atRule name _ _ _ => [name]
  | _ => []

def bindsName : Node → Bool
  | identifier id => id.isBound
  | _ => false

/-- The node brings no keyword of its own: its texts have no at-sign, no name that is written behind one could be
read as the keyword, it binds no name, and what stands inside of it are pieces. -/
structure Mute (d : Dialect) (n : Node) : Prop where
  texts : ∀ t ∈ n.texts, '@' ∉ t.toList
  names : ∀ name ∈ n.variableNames, d.Avoids name
  rules : ∀ name ∈ n.ruleNames, ¬"return".toList <+: name.toList
  bare : n.bindsName = false
  values : ∀ c ∈ n.values, c.isPiece

instance (d : Dialect) (n : Node) : Decidable (Mute d n) :=
  decidable_of_iff ((∀ t ∈ n.texts, '@' ∉ t.toList) ∧ (∀ name ∈ n.variableNames, d.Avoids name) ∧
      (∀ name ∈ n.ruleNames, ¬"return".toList <+: name.toList) ∧ n.bindsName = false ∧ ∀ c ∈ n.values, c.isPiece)
    ⟨fun ⟨ht, hn, hr, hb, hv⟩ => ⟨ht, hn, hr, hb, hv⟩, fun ⟨ht, hn, hr, hb, hv⟩ => ⟨ht, hn, hr, hb, hv⟩⟩

end Node

mutual

/-- The number of loose lists in a piece, which neither a list nor arguments nor a map enclose. -/
def Node.looseLists : Node → Nat
  | .expression _ => 1
  | .binary _ left right => left.looseLists + right.looseLists
  | .unary _ operand => operand.looseLists
  | .member left right => left.looseLists + right.looseLists
  | .selector segments _ => looseListsIn segments
  | .queryList queries => looseListsIn queries
  | .query features none _ => looseListsIn features
  | .query features (some medium) _ => medium.looseLists + looseListsIn features
  | .feature segments none => looseListsIn segments
  | .feature segments (some _) => looseListsIn segments + 1
  | _ => 0
termination_by structural n => n

def looseListsIn : List Node → Nat
  | [] => 0
  | n :: ns => n.looseLists + looseListsIn ns
termination_by structural ns => ns

end

def AllShow (returns : Bool) (ns : List Node) (ts : List String) : Prop :=
  List.Forall₂ (fun n t => Shows returns n.looseLists t) ns ts

theorem AllShow.silent {ns : List Node} {ts : List String} (h : AllShow false ns ts) : ∀ t ∈ ts, Silent t := by
  induction h with
  | nil => simp
  | cons head _ ih => exact List.forall_mem_cons.2 ⟨head.silent rfl, ih⟩

theorem AllShow.trimStart {returns : Bool} {ns : List Node} {ts : List String} (h : AllShow returns ns ts) :
    AllShow returns ns (ts.map Text.trimStart) := by
  induction h with
  | nil => exact .nil
  | cons head _ ih => exact .cons head.trimStart ih

namespace Pass

/-- `q` is `p` on another line. -/
def Along (p q : Pass) : Prop := ∃ line, q = { p with line }

namespace Along

variable {p q r : Pass}

theorem refl (p : Pass) : p.Along p := ⟨p.line, rfl⟩

theorem trans (h : p.Along q) (h' : q.Along r) : p.Along r := by
  obtain ⟨_, rfl⟩ := h
  obtain ⟨line, rfl⟩ := h'
  exact ⟨line, rfl⟩

theorem registry (h : p.Along q) : q.registry = p.registry := by
  obtain ⟨_, rfl⟩ := h
  rfl

theorem returnsList (h : p.Along q) : q.returnsList = p.returnsList := by
  obtain ⟨_, rfl⟩ := h
  rfl

theorem holds {P : String → Prop} (h : p.Along q) (hp : p.registry.Holds P) : q.registry.Holds P := by
  rw [h.registry]
  exact hp

theorem leave {places : List Place} (h : (p.enter places).Along r) : p.Along (r.leave p) := by
  obtain ⟨line, rfl⟩ := h
  exact ⟨line, rfl⟩

theorem hangUp {name : String} (h : (p.call name).Along r) : p.Along (r.hangUp p) := by
  obtain ⟨line, rfl⟩ := h
  exact ⟨line, rfl⟩

theorem up (h : p.down.Along r) : p.Along r.up := by
  obtain ⟨line, rfl⟩ := h
  exact ⟨line, rfl⟩

end Along

theorem along_reach (p : Pass) (line : Option Nat) : p.Along (p.reach line) := by
  cases line with
  | none => exact .refl p
  | some line => exact ⟨line, rfl⟩

theorem along_afterMap (p : Pass) (line : Option Nat) (entries : Nat) : p.Along (Render.afterMap p line entries) := by
  cases line with
  | none => exact .refl p
  | some line => exact ⟨_, rfl⟩

/-- Among values no list is a statement. -/
theorem returnsList_enter (p : Pass) {place : Place}
    (h : place ∈ [.expression, .arguments, .declarationValue, .mapLiteral, .condition]) :
    (p.enter [place]).returnsList = false := by
  have inside : (p.enter [place]).inAny [.expression, .arguments, .declarationValue, .mapLiteral, .condition] :=
    List.any_eq_true.2 ⟨place, h, by simp [Pass.enter]⟩
  simp [Pass.returnsList, inside]

end Pass

namespace Rendering

variable {α β : Type} {σ : Style} {m : Rendering α} {f : α → Rendering β} {Q : Bool → α → Prop}
  {R : Bool → β → Prop}

/-- From a pass whose declarations have silent values the rendering gives something with a property that depends on
whether lists are returned, and moves on by lines only. -/
def Exposes (σ : Style) (m : Rendering α) (Q : Bool → α → Prop) : Prop :=
  ∀ ⦃p a q⦄, p.registry.Holds Silent → m.Gives σ p a q → p.Along q ∧ Q p.returnsList a

theorem Exposes.bind (hm : m.Exposes σ Q) (hf : ∀ a, (f a).Exposes σ fun returns b => Q returns a → R returns b) :
    (m >>= f).Exposes σ R := by
  intro p b r hp h
  obtain ⟨a, q, ha, hb⟩ := gives_bind.1 h
  obtain ⟨first, hQ⟩ := hm hp ha
  obtain ⟨rest, hR⟩ := hf a (first.holds hp) hb
  rw [first.returnsList] at hR
  exact ⟨first.trans rest, hR hQ⟩

theorem Exposes.mono (hm : m.Exposes σ Q) {Q' : Bool → α → Prop} (h : ∀ returns a, Q returns a → Q' returns a) :
    m.Exposes σ Q' := by
  intro p a q hp ha
  obtain ⟨along, hQ⟩ := hm hp ha
  exact ⟨along, h _ a hQ⟩

private theorem exposes_pure {a : α} (h : ∀ returns, Q returns a) : (pure a : Rendering α).Exposes σ Q := by
  intro p b q _ hb
  obtain ⟨rfl, rfl⟩ := gives_pure.1 hb
  exact ⟨.refl q, h _⟩

/-- Two runs in a row are from passes that return lists alike. -/
theorem Exposes.both {m' : Rendering β} {p q r : Pass} {a : α} {b : β} (hm : m.Exposes σ Q) (hm' : m'.Exposes σ R)
    (hp : p.registry.Holds Silent) (ha : m.Gives σ p a q) (hb : m'.Gives σ q b r) :
    p.Along r ∧ Q p.returnsList a ∧ R p.returnsList b := by
  obtain ⟨first, hQ⟩ := hm hp ha
  obtain ⟨rest, hR⟩ := hm' (first.holds hp) hb
  rw [first.returnsList] at hR
  exact ⟨first.trans rest, hQ, hR⟩

/-- A run behind the breaks that are owed before a line. -/
theorem Exposes.reached {p q : Pass} {a : α} (hm : m.Exposes σ Q) (hp : p.registry.Holds Silent) {line : Option Nat}
    (h : m.Gives σ (p.reach line) a q) : p.Along q ∧ Q p.returnsList a := by
  have start := p.along_reach line
  obtain ⟨rest, hQ⟩ := hm (start.holds hp) h
  rw [start.returnsList] at hQ
  exact ⟨start.trans rest, hQ⟩

/-- Among values nothing is returned. -/
theorem Exposes.inside {p r : Pass} {a : α} (hm : m.Exposes σ Q) (hp : p.registry.Holds Silent) {place : Place}
    (values : place ∈ [.expression, .arguments, .declarationValue, .mapLiteral, .condition])
    (h : m.Gives σ (p.enter [place]) a r) : p.Along (r.leave p) ∧ Q false a := by
  have held : (p.enter [place]).registry.Holds Silent := hp
  obtain ⟨along, hQ⟩ := hm held h
  rw [p.returnsList_enter values] at hQ
  exact ⟨along.leave, hQ⟩

end Rendering

namespace Render

variable {σ : Style} {p q : Pass} {returns : Bool} {j : Nat} {s t : String} {ts : List String}
  {texts : Rendering (List String)}

theorem silent_lead (p : Pass) (line : Option Nat) : Silent (p.lead line) := silent_of_blank (blank_lead p line)

theorem silent_callLead (p : Pass) (line : Option Nat) : Silent (callLead σ p line) := by
  have breaks : Silent (p.breaksTo line) := silent_of_blank (blank_breaksTo p line)
  unfold callLead
  split
  · have own : Silent (if (p.breaksTo line).isEmpty then "\n" else p.breaksTo line) := by
      split
      · decide
      · exact breaks
    exact (own.append (silent_of_blank (blank_indent p))).append σ.dialect.silent_inclusion
  · exact breaks

theorem silent_quoted {q : QuotedText} (ht : '@' ∉ q.text.toList) (hq : '@' ∉ q.quote.toList) : Silent (quoted q) :=
  silent_of_plain (by simp [quoted, ht, hq])

theorem silent_number (x : Float) : Silent (number x) := by
  apply silent_of_plain
  intro h
  exact absurd (isNumeral_number h) (by decide)

theorem silent_referenceText {d : Dialect} (hp : p.registry.Holds Silent) {id : Identifier Node}
    (plain : '@' ∉ id.name.toList) (avoids : d.Avoids id.name) : Silent (referenceText d p id) := by
  have dots : Silent "..." := by decide
  exact hp.referenceText (silent_of_plain plain) (d.silent_variableRef plain avoids) d.silent_content
    (d.silent_interpolation plain) fun ht => ht.append dots

private theorem silent_joinOperands (inValue : Bool) (operands : List Node) (h : ∀ t ∈ ts, Silent t) :
    Silent (joinOperands inValue operands ts) :=
  silent_rowwise.joinOperands (by decide) (by decide) inValue operands h

theorem shows_joinSegments {segments : List Node} (h : AllShow returns segments ts) :
    Shows returns (looseListsIn segments) (joinSegments segments ts) := by
  induction h with
  | nil => exact (silent_of_plain (by simp [joinSegments, String.join])).shows
  | @cons n t ns ts head _ ih =>
    rw [joinSegments_cons, looseListsIn]
    refine Shows.append ?_ ih
    split
    · have opening : Silent "#\x7b" := by decide
      exact (opening.then_shows head).then_silent (by decide)
    · exact head

theorem shows_intercalate {ns : List Node} (hs : Silent s) (h : AllShow returns ns ts) :
    Shows returns (looseListsIn ns) (s.intercalate ts) := by
  induction h with
  | nil => exact (silent_of_plain (by simp)).shows
  | @cons n t ns ts head rest ih =>
    rw [looseListsIn]
    cases rest with
    | nil =>
      rw [String.intercalate_singleton]
      exact head
    | cons next others =>
      rw [String.intercalate_cons_cons]
      exact (head.then_silent hs).append ih

/-- Selectors are aligned by white space before them. -/
theorem shows_joinSelectors {selectors : List Node} (h : AllShow returns selectors ts) :
    Shows returns (looseListsIn selectors) (joinSelectors ts) := by
  have aligned : ∀ {k : Nat} {t : String}, Shows returns k t → Shows returns k (alignSelector t) := by
    intro k t ht
    unfold alignSelector
    split
    · exact ht
    · exact ht.trimStart
  have more : ∀ {ns : List Node} {ts : List String}, AllShow returns ns ts →
      Shows returns (looseListsIn ns) (moreSelectors ts) := by
    intro ns ts hts
    induction hts with
    | nil => exact (silent_of_plain (by simp [moreSelectors, String.join])).shows
    | @cons n t ns ts head _ ih =>
      have comma : Silent (if startsWith '\n' (alignSelector t) then "," else ", ") := by split <;> decide
      rw [moreSelectors_cons, looseListsIn]
      exact (comma.then_shows (aligned head)).append ih
  cases h with
  | nil => exact (silent_of_plain (by simp [joinSelectors])).shows
  | cons head rest =>
    rw [joinSelectors_cons, looseListsIn]
    exact (aligned head).append (more rest)

private theorem shows_binary {operator : String} {j k : Nat} (n : Node) (ho : '@' ∉ operator.toList)
    (hs : Shows returns j s) (ht : Shows returns k t) : Shows returns (j + k) (binary operator n s t) := by
  have space : Silent " " := by decide
  have grouped : Shows returns k (if n.isExpression then "(" ++ t ++ ")" else t) := by
    split
    · have opening : Silent "(" := by decide
      exact (opening.then_shows ht).then_silent (by decide)
    · exact ht
  have sign : Silent (Operator.spelling operator) := silent_of_plain (plain_spelling ho)
  exact (((hs.then_silent space).then_silent sign).then_silent space).append grouped

private theorem shows_query {predicate : Option String} {k : Nat} {medium : String} {features : List Node}
    (hp : ∀ w ∈ predicate, '@' ∉ w.toList) (hm : Shows returns k medium) (hf : AllShow returns features ts) :
    Shows returns (k + looseListsIn features) (query predicate medium ts) := by
  have joint : Silent " and " := by decide
  have joined : Shows returns (looseListsIn features) (" and ".intercalate ts) := shows_intercalate joint hf
  have conditions : Shows returns (k + looseListsIn features)
      (" and ".intercalate (if medium.isEmpty then ts else medium :: ts)) := by
    by_cases he : medium.isEmpty
    · rw [if_pos he]
      rw [String.isEmpty_iff.1 he] at hm
      refine ⟨fun hr => ?_, joined.silent⟩
      have none : k = 0 := (hm.marked hr).count.symm
      rw [none, Nat.zero_add]
      exact joined.marked hr
    · rw [if_neg he]
      cases hf with
      | nil =>
        rw [String.intercalate_singleton]
        exact hm
      | cons head rest =>
        rw [String.intercalate_cons_cons]
        exact (hm.then_silent joint).append joined
  cases predicate with
  | none => exact conditions
  | some w =>
    have word : Silent (w ++ " ") := (silent_of_plain (hp w rfl)).append (by decide)
    exact word.then_shows conditions

private theorem shows_feature {k : Nat} {name value : String} (hn : Shows returns j name) (hv : Shows returns k value) :
    Shows returns (j + k) (feature name (some value)) := by
  have opening : Silent "(" := by decide
  have colon : Silent ": " := by decide
  exact (((opening.then_shows hn).then_silent colon).append hv).then_silent (by decide)

theorem named_exposes {segments : List Node} (h : texts.Exposes σ fun returns ts => AllShow returns segments ts) :
    (named segments texts).Exposes σ fun returns t => Shows returns (looseListsIn segments) t :=
  h.bind fun _ => exposes_pure fun _ => shows_joinSegments

private theorem reference_exposes {id : Identifier Node} (plain : '@' ∉ id.name.toList)
    (avoids : σ.dialect.Avoids id.name) :
    (reference id).Exposes σ fun returns t => Shows returns 0 t := by
  intro p t q hp hg
  obtain ⟨rfl, rfl⟩ := reference_gives hg
  exact ⟨.refl q, (silent_referenceText hp plain avoids).shows⟩

/-- A list that is a statement starts with the word that returns it. -/
theorem expression_front {e : Expression Node} (h : texts.Exposes σ fun returns ts => AllShow returns e.operands ts)
    (hp : p.registry.Holds Silent) (hg : (expression e texts).Gives σ p t q) :
    p.Along q ∧ ∃ rest, Silent rest ∧
      t = (if p.returnsList then p.lead e.line ++ σ.dialect.returnWord else "") ++ rest := by
  obtain ⟨before, start, ts, r, hstart, hts, rfl, rfl⟩ := expression_gives hg
  obtain ⟨moved, front⟩ : p.Along start ∧
      before = if p.returnsList then p.lead e.line ++ σ.dialect.returnWord else "" := by
    rcases hstart with ⟨returns, rfl, rfl⟩ | ⟨returns, rfl, rfl⟩
    · exact ⟨p.along_reach e.line, (if_pos returns).symm⟩
    · exact ⟨.refl _, by simp [returns]⟩
  obtain ⟨along, all⟩ := h.inside (moved.holds hp) (by simp) hts
  refine ⟨moved.trans along, _, ?_, by rw [front]⟩
  have operands := silent_joinOperands (p.inAny [.declarationValue]) e.operands all.silent
  split
  · exact operands.removeBlanks
  · exact operands

theorem expression_exposes {e : Expression Node}
    (h : texts.Exposes σ fun returns ts => AllShow returns e.operands ts) :
    (expression e texts).Exposes σ fun returns t => Shows returns 1 t := by
  intro p t q hp hg
  obtain ⟨along, rest, silent, rfl⟩ := expression_front h hp hg
  refine ⟨along, fun returns => ?_, fun returns => ?_⟩
  · rw [if_pos returns]
    exact ((silent_lead p e.line).marked.append σ.dialect.marked_returnWord).append silent.marked
  · rw [returns, if_neg Bool.false_ne_true, String.empty_append]
    exact silent

theorem arguments_exposes {args : List Node} (h : texts.Exposes σ fun returns ts => AllShow returns args ts) :
    (arguments texts).Exposes σ fun _ t => Silent t := by
  intro p t q hp hg
  obtain ⟨ts, r, hts, rfl, rfl⟩ := arguments_gives hg
  obtain ⟨along, all⟩ := h.inside hp (by simp) hts
  refine ⟨along, silent_intercalate (by decide) fun t ht => ?_⟩
  obtain ⟨u, hu, rfl⟩ := List.mem_map.1 ht
  exact (all.silent u hu).dropTrailing

private theorem call_exposes {name : String} {line : Option Nat} {args : List Node} (plain : '@' ∉ name.toList)
    (h : texts.Exposes σ fun returns ts => AllShow returns args ts) :
    (call name line texts none).Exposes σ fun _ t => Silent t := by
  intro p t q hp hg
  obtain ⟨args, r, ha, ⟨-, rfl, rfl⟩ | ⟨b, _, hb, -⟩⟩ := call_gives hg
  · have moved := p.along_reach line
    have held : ((p.reach line).call name).registry.Holds Silent := moved.holds hp
    obtain ⟨along, inner⟩ := arguments_exposes h held ha
    refine ⟨moved.trans along.hangUp, ?_⟩
    have ending : Silent (if (p.reach line).includes then ";" else "") := by split <;> decide
    have opening : Silent "(" := by decide
    have closing : Silent ")" := by decide
    exact (((((silent_callLead p line).append (silent_of_plain plain)).append opening).append inner).append
      closing).append ending
  · cases hb

private theorem selector_exposes {segments : List Node}
    (h : texts.Exposes σ fun returns ts => AllShow returns segments ts) :
    (selector segments texts).Exposes σ fun returns t => Shows returns (looseListsIn segments) t := by
  intro p t q hp hg
  obtain ⟨ts, hts, rfl⟩ := selector_gives hg
  obtain ⟨along, all⟩ := h.reached hp hts
  exact ⟨along, (silent_lead p _).then_shows (shows_joinSegments all)⟩

theorem silent_quote (quote : σ.quote ≠ '@') : Silent σ.quote.toString := by
  apply silent_of_plain
  rw [Char.toString, String.toList_singleton, List.mem_singleton]
  exact quote.symm

private theorem member_exposes (quote : σ.quote ≠ '@') {left right : Node} {leftText rightText : Rendering String}
    (hl : leftText.Exposes σ fun returns t => Shows returns left.looseLists t)
    (hr : rightText.Exposes σ fun returns t => Shows returns right.looseLists t)
    (leftName : ∀ name, left.bareName? = some name → '@' ∉ name.toList ∧ σ.dialect.Avoids name)
    (rightName : ∀ name, right.bareName? = some name → '@' ∉ name.toList) :
    (member left right leftText rightText).Exposes σ fun returns t =>
      Shows returns (left.looseLists + right.looseLists) t := by
  have none : ∀ {n : Node} {name : String}, n.bareName? = some name → n.looseLists = 0 := by
    intro n name hn
    cases n with
    | identifier id => rfl
    | _ => cases hn
  intro p t q hp hg
  obtain ⟨owner, r, key, ⟨ho, hk, rfl⟩ | ⟨ho, hk, rfl⟩⟩ := member_gives hg
  · obtain ⟨along, owned, keyed⟩ := hl.both hr hp ho hk
    exact ⟨along, (owned.then_silent (by decide)).append keyed⟩
  · obtain ⟨first, owned⟩ : p.Along r ∧ Shows p.returnsList left.looseLists owner := by
      rcases ho with ⟨-, ho⟩ | ⟨⟨name, hn, rfl⟩, rfl⟩
      · exact hl hp ho
      · rw [none hn]
        exact ⟨.refl _, (σ.dialect.silent_variableRef (leftName name hn).1 (leftName name hn).2).shows⟩
    obtain ⟨rest, keyed⟩ : r.Along q ∧ Shows p.returnsList right.looseLists key := by
      rcases hk with ⟨-, hk⟩ | ⟨hn, rfl⟩
      · rw [← first.returnsList]
        exact hr (first.holds hp) hk
      · rw [none hn]
        exact ⟨.refl _, (silent_of_plain (rightName key hn)).shows⟩
    have word : Silent "map-get(" := by decide
    have comma : Silent ", " := by decide
    have mark := silent_quote quote
    exact ⟨first.trans rest, (((((word.then_shows owned).then_silent comma).then_silent mark).append
      keyed).then_silent mark).then_silent (by decide)⟩

private theorem mapLiteral_exposes (quote : σ.quote ≠ '@') {line : Option Nat}
    {entries : Rendering (List (String × String))}
    (h : entries.Exposes σ fun returns es => ∀ e ∈ es, '@' ∉ e.1.toList ∧ (returns = false → Silent e.2)) :
    (mapLiteral line entries).Exposes σ fun _ t => Silent t := by
  intro p t q hp hg
  obtain ⟨es, r, he, rfl, rfl⟩ := mapLiteral_gives hg
  have held : p.down.registry.Holds Silent := hp
  obtain ⟨along, all⟩ := h.inside held (by simp) he
  refine ⟨along.up.trans (Pass.along_afterMap _ line _), ?_⟩
  have written : ∀ t ∈ entryLines σ p es, Silent t := by
    intro t ht
    obtain ⟨⟨key, value⟩, hm, rfl⟩ := List.mem_map.1 ht
    obtain ⟨plain, silent⟩ := all _ hm
    have feed : Silent "\n" := by decide
    have mark := silent_quote quote
    have colon : Silent ": " := by decide
    have pad : Silent p.down.indent := silent_of_blank (blank_indent _)
    exact (((((feed.append pad).append mark).append (silent_of_plain plain)).append mark).append colon).append
      (silent rfl).eraseFirst
  have opening : Silent "(" := by decide
  have feed : Silent "\n" := by decide
  have pad : Silent (r.leave p.down).up.indent := silent_of_blank (blank_indent _)
  exact (((opening.append (silent_intercalate (by decide) written)).append feed).append pad).append (by decide)

theorem silent_comment {c : Comment} (plain : '@' ∉ c.text.toList) (sameLine : Bool) (p : Pass) :
    Silent ((if sameLine then " " else p.lead c.line) ++ keptText c) := by
  have before : Silent (if sameLine then " " else p.lead c.line) := by
    split
    · decide
    · exact silent_lead p c.line
  exact before.append (silent_of_plain (plain_keptText plain))

theorem comment_exposes {c : Comment} {sameLine : Bool} (plain : '@' ∉ c.text.toList) :
    (comment c sameLine).Exposes σ fun returns t => Shows returns 0 t := by
  intro p t q hp hg
  obtain ⟨rfl, rfl⟩ := comment_gives hg
  exact ⟨p.along_reach (lastLine c), (silent_comment plain sameLine p).shows⟩

end Render

def Pieces (d : Dialect) (ns : List Node) : Prop := ∀ n ∈ ns, n.Every (Node.Mute d) ∧ n.isPiece

variable {d : Dialect}

theorem pieces_cons (n : Node) (ns : List Node) :
    Pieces d (n :: ns) ↔ (n.Every (Node.Mute d) ∧ n.isPiece) ∧ Pieces d ns := List.forall_mem_cons

theorem pieces_append (ns ms : List Node) : Pieces d (ns ++ ms) ↔ Pieces d ns ∧ Pieces d ms :=
  List.forall_mem_append

private theorem Node.mem_parts_of_values {c n : Node} (h : c ∈ n.values) : c ∈ n.parts := by
  cases n with
  | block => cases h
  | conditional | media | supports => exact List.mem_cons.2 (.inl (List.mem_singleton.1 h))
  | ruleSet | call | callable | loop | keyframes | atRule => exact List.mem_append_left _ h
  | _ => exact h

theorem Node.Every.pieces {n : Node} (h : n.Every (Node.Mute d)) : Pieces d n.values :=
  fun c hc => ⟨h.part (Node.mem_parts_of_values hc), h.self.values c hc⟩

theorem plain_of_bareName {n : Node} (h : n.Every (Node.Mute d)) {name : String} (hn : n.bareName? = some name) :
    '@' ∉ name.toList ∧ d.Avoids name := by
  cases n with
  | identifier id =>
    have unbound : id.isBound = false := h.self.bare
    have bare : id.name = name := by simpa [Node.bareName?, unbound] using hn
    rw [← bare]
    exact ⟨h.self.texts id.name (by simp), h.self.names id.name (by simp [Node.variableNames])⟩
  | _ => cases hn

namespace Render

variable {σ : Style}

mutual

theorem node_exposes (quote : σ.quote ≠ '@') (n : Node) (h : n.Every (Node.Mute σ.dialect)) (piece : n.isPiece) :
    (node n).Exposes σ fun returns t => Shows returns n.looseLists t := by
  have texts := h.self.texts
  have inside := h.pieces
  match n with
  | .null => exact exposes_pure fun _ => (silent_of_plain (by simp)).shows
  | .literal text _ => exact exposes_pure fun _ => (silent_of_plain (texts text (by simp))).shows
  | .color text => exact exposes_pure fun _ => (silent_of_plain (texts text (by simp))).shows
  | .quoted q =>
    exact exposes_pure fun _ => (silent_quoted (texts q.text (by simp)) (texts q.quote (by simp))).shows
  | .boolean value =>
    have word : Silent (if value then "true" else "false") := by cases value <;> decide
    exact exposes_pure fun _ => word.shows
  | .number value suffix =>
    have ending : Silent (suffix.getD "") :=
      silent_rowwise.optional fun s hs => silent_of_plain (texts s (by simp [Option.mem_def.1 hs]))
    exact exposes_pure fun _ => ((silent_number value).append ending).shows
  | .identifier ⟨name, value, placeholder, rest, line⟩ =>
    have plain : '@' ∉ name.toList := texts name (by simp)
    have avoids : σ.dialect.Avoids name := h.self.names name (by simp [Node.variableNames])
    have bare := h.self.bare
    match value with
    | none => exact @reference_exposes σ ⟨name, none, placeholder, rest, line⟩ plain avoids
    | some .null => exact @reference_exposes σ ⟨name, some .null, placeholder, rest, line⟩ plain avoids
    | some v =>
      cases v with
      | null => exact @reference_exposes σ ⟨name, some .null, placeholder, rest, line⟩ plain avoids
      | _ => cases bare
  | .expression e => exact expression_exposes (each_exposes quote e.operands inside)
  | .arguments args =>
    intro p t q hp hg
    obtain ⟨along, silent⟩ := arguments_exposes (each_exposes quote args inside) hp hg
    exact ⟨along, silent.shows⟩
  | .selector segments _ => exact selector_exposes (each_exposes quote segments inside)
  | .call name args none _ =>
    intro p t q hp hg
    obtain ⟨along, silent⟩ := call_exposes (texts name (by simp)) (each_exposes quote args inside) hp hg
    exact ⟨along, silent.shows⟩
  | .call _ _ (some _) _ => cases piece
  | .binary operator left right =>
    obtain ⟨⟨hl, pl⟩, hr⟩ := (pieces_cons _ _).1 inside
    obtain ⟨⟨hr, pr⟩, -⟩ := (pieces_cons _ _).1 hr
    intro p t q hp hg
    simp only [nodeWith, gives_bind, gives_pure] at hg
    obtain ⟨l, _, hgl, r, _, hgr, rfl, rfl⟩ := hg
    obtain ⟨along, shownLeft, shownRight⟩ :=
      (node_exposes quote left hl pl).both (node_exposes quote right hr pr) hp hgl hgr
    exact ⟨along, shows_binary _ (texts operator (by simp)) shownLeft shownRight⟩
  | .unary operator operand =>
    obtain ⟨⟨ho, po⟩, -⟩ := (pieces_cons _ _).1 inside
    have sign : Silent (Operator.spelling operator) := silent_of_plain (plain_spelling (texts operator (by simp)))
    have opening : Silent "(" := by decide
    refine (node_exposes quote operand ho po).bind fun t => exposes_pure fun _ ht => ?_
    exact ((sign.append opening).then_shows ht).then_silent (by decide)
  | .queryList queries =>
    exact (each_exposes quote queries inside).bind fun ts => exposes_pure fun _ => shows_intercalate (by decide)
  | .query features none predicate =>
    obtain ⟨hf, -⟩ := (pieces_append _ _).1 inside
    intro p t q hp hg
    simp only [nodeWith, optionalWith, gives_bind, gives_pure] at hg
    obtain ⟨_, _, ⟨rfl, rfl⟩, ts, _, hts, rfl, rfl⟩ := hg
    obtain ⟨along, shown⟩ := each_exposes quote features hf hp hts
    have predicates : ∀ w ∈ predicate, '@' ∉ w.toList := fun w hw => texts w (by simpa using hw)
    have nothing : Silent "" := silent_of_plain (by simp)
    have joined := shows_query predicates nothing.shows shown
    rw [Nat.zero_add] at joined
    exact ⟨along, joined⟩
  | .query features (some medium) predicate =>
    obtain ⟨hf, hm⟩ := (pieces_append _ _).1 inside
    obtain ⟨⟨hm, pm⟩, -⟩ := (pieces_cons _ _).1 hm
    intro p t q hp hg
    simp only [nodeWith, optionalWith, gives_bind, gives_pure] at hg
    obtain ⟨m, _, hgm, ts, _, hts, rfl, rfl⟩ := hg
    obtain ⟨along, shownMedium, shown⟩ :=
      (node_exposes quote medium hm pm).both (each_exposes quote features hf) hp hgm hts
    have predicates : ∀ w ∈ predicate, '@' ∉ w.toList := fun w hw => texts w (by simpa using hw)
    exact ⟨along, shows_query predicates shownMedium shown⟩
  | .feature segments none =>
    obtain ⟨hs, -⟩ := (pieces_append _ _).1 inside
    have opening : Silent "(" := by decide
    refine (named_exposes (each_exposes quote segments hs)).bind fun t => exposes_pure fun _ ht => ?_
    exact (opening.then_shows ht).then_silent (by decide)
  | .feature segments (some value) =>
    obtain ⟨hs, hv⟩ := (pieces_append _ _).1 inside
    intro p t q hp hg
    simp only [nodeWith, gives_bind, gives_pure] at hg
    obtain ⟨name, _, hn, content, _, hc, rfl, rfl⟩ := hg
    obtain ⟨along, shownName, shown⟩ := (named_exposes (each_exposes quote segments hs)).both
      (expression_exposes (each_exposes quote value.operands hv)) hp hn hc
    exact ⟨along, shows_feature shownName shown⟩
  | .member left right =>
    obtain ⟨⟨hl, pl⟩, hr⟩ := (pieces_cons _ _).1 inside
    obtain ⟨⟨hr, pr⟩, -⟩ := (pieces_cons _ _).1 hr
    exact member_exposes quote (node_exposes quote left hl pl) (node_exposes quote right hr pr)
      (fun _ hn => plain_of_bareName hl hn) fun _ hn => (plain_of_bareName hr hn).1
  | .mapLiteral es _ =>
    intro p t q hp hg
    obtain ⟨along, silent⟩ := mapLiteral_exposes quote (entries_exposes quote es inside texts) hp hg
    exact ⟨along, silent.shows⟩
  | .comment c => exact comment_exposes (texts c.text (by simp))
  | .block _ | .ruleSet .. | .property .. | .callable .. | .returned .. | .conditional .. | .loop .. | .keyframes ..
  | .media .. | .supports .. | .xmlNamespace .. | .charset .. | .importSheet .. | .extend .. | .atRule .. => cases piece
termination_by structural n

theorem each_exposes (quote : σ.quote ≠ '@') (ns : List Node) (h : Pieces σ.dialect ns) :
    (each ns).Exposes σ fun returns ts => AllShow returns ns ts := by
  match ns with
  | [] => exact exposes_pure fun _ => .nil
  | n :: ns =>
    obtain ⟨⟨hn, piece⟩, hns⟩ := (pieces_cons _ _).1 h
    intro p ts q hp hg
    simp only [eachWith, gives_bind, gives_pure] at hg
    obtain ⟨t, _, ht, ts, _, hts, rfl, rfl⟩ := hg
    obtain ⟨along, head, tail⟩ := (node_exposes quote n hn piece).both (each_exposes quote ns hns) hp ht hts
    exact ⟨along, .cons head tail⟩
termination_by structural ns

private theorem entries_exposes (quote : σ.quote ≠ '@') (es : List (String × Node))
    (h : Pieces σ.dialect (es.map (·.2))) (keys : ∀ key ∈ es.map (·.1), '@' ∉ key.toList) :
    (entries es).Exposes σ fun returns ts => ∀ e ∈ ts, '@' ∉ e.1.toList ∧ (returns = false → Silent e.2) := by
  match es with
  | [] => exact exposes_pure (by simp)
  | (key, n) :: es =>
    obtain ⟨⟨hn, piece⟩, hes⟩ := (pieces_cons _ _).1 h
    obtain ⟨plain, others⟩ := List.forall_mem_cons.1 keys
    intro p ts q hp hg
    simp only [entriesWith, gives_bind, gives_pure] at hg
    obtain ⟨t, _, ht, ts, _, hts, rfl, rfl⟩ := hg
    obtain ⟨along, head, tail⟩ :=
      (node_exposes quote n hn piece).both (entries_exposes quote es hes others) hp ht hts
    exact ⟨along, List.forall_mem_cons.2 ⟨⟨plain, head.silent⟩, tail⟩⟩
termination_by structural es

end

private theorem node_silent (quote : σ.quote ≠ '@') (n : Node) (h : n.Every (Node.Mute σ.dialect)) (piece : n.isPiece) :
    (node n).Exposes σ fun returns t => returns = false → Silent t :=
  (node_exposes quote n h piece).mono fun _ _ shown => shown.silent

theorem optional_silent (quote : σ.quote ≠ '@') (n : Option Node) (h : Pieces σ.dialect n.toList) :
    (optional n).Exposes σ fun returns t => returns = false → Silent t := by
  match n with
  | none => exact exposes_pure fun _ _ => silent_of_plain (by simp)
  | some n =>
    obtain ⟨hn, piece⟩ := h n (by simp)
    exact node_silent quote n hn piece

private theorem silent_bounds {operator left right : String} (hl : Silent left) (hr : Silent right) :
    Silent (bounds operator left right) := by
  have word : Silent (if operator = "..." then " to " else " through ") := by split <;> decide
  exact (hl.append word).append hr

mutual

private theorem range_silent (quote : σ.quote ≠ '@') (n : Node) (h : n.Every (Node.Mute σ.dialect))
    (piece : n.isPiece) :
    (range n).Exposes σ fun returns t => returns = false → Silent t := by
  have inside := h.pieces
  have alone := node_silent quote n h piece
  cases n with
  | binary operator left right =>
    obtain ⟨⟨hl, pl⟩, hr⟩ := (pieces_cons _ _).1 inside
    obtain ⟨⟨hr, pr⟩, -⟩ := (pieces_cons _ _).1 hr
    simp only [range]
    split
    · intro p t q hp hg
      simp only [gives_bind, gives_pure] at hg
      obtain ⟨l, _, hgl, r, _, hgr, rfl, rfl⟩ := hg
      obtain ⟨along, silentLeft, silentRight⟩ :=
        (node_silent quote left hl pl).both (node_silent quote right hr pr) hp hgl hgr
      exact ⟨along, fun hf => silent_bounds (silentLeft hf) (silentRight hf)⟩
    · exact alone
  | expression e =>
    exact (ranges_silent quote e.operands inside).bind fun ts => exposes_pure fun _ silent hf =>
      silent_intercalate (by decide) (silent hf)
  | _ => exact alone
termination_by structural n

theorem ranges_silent (quote : σ.quote ≠ '@') (ns : List Node) (h : Pieces σ.dialect ns) :
    (ranges ns).Exposes σ fun returns ts => returns = false → ∀ t ∈ ts, Silent t := by
  match ns with
  | [] => exact exposes_pure (by simp)
  | n :: ns =>
    obtain ⟨⟨hn, piece⟩, hns⟩ := (pieces_cons _ _).1 h
    rw [ranges_cons]
    intro p ts q hp hg
    simp only [gives_bind, gives_pure] at hg
    obtain ⟨t, _, ht, ts, _, hts, rfl, rfl⟩ := hg
    obtain ⟨along, head, tail⟩ := (range_silent quote n hn piece).both (ranges_silent quote ns hns) hp ht hts
    exact ⟨along, fun hf => List.forall_mem_cons.2 ⟨head hf, tail hf⟩⟩
termination_by structural ns

end

end Render

end Stylesheet
