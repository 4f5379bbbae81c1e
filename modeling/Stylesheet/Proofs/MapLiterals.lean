import Mathlib.Data.List.DropRight
import Stylesheet.Proofs.Frame
import Stylesheet.Proofs.Moments.Runs
import Stylesheet.Proofs.Separators
import Stylesheet.Proofs.Success

/-!
# Values of map literals

The entries of a map literal stand one on a line, each with the text of its value. What ends a statement is taken out of
that text by its first semicolon, wherever that stands. So a value is kept up to its end if and only if it has no
semicolon in front of its end, and all values of a map are kept as they are, at any depth, if no text in them has one.
-/

namespace Stylesheet

open Rendering

namespace Text

variable {c : Char} {s : String}

private theorem erase_atEnd_iff (c : Char) (l : List Char) :
    l.erase c = l ∨ l.erase c ++ [c] = l ↔ c ∉ l.rdropWhile (· == c) := by
  induction l using List.reverseRecOn with
  | nil => simp
  | append_singleton l a ih =>
    by_cases held : c ∈ l
    -- what is taken out of `l` is not the last one, so nothing but more of the same may follow it
    · have taken : l.erase c ≠ l := mt List.erase_eq_self_iff.1 (not_not_intro held)
      rw [List.erase_append_left _ held]
      by_cases same : a = c
      · subst same
        rw [List.rdropWhile_concat_pos (· == a) l a (beq_self_eq_true a), ← ih, List.append_cancel_right_eq,
          List.append_cancel_right_eq]
      · have kept : c ∈ (l ++ [a]).rdropWhile (· == c) := by
          rw [List.rdropWhile_concat_neg (· == c) l a (by simpa using same)]
          exact List.mem_append_left _ held
        refine iff_of_false ?_ (not_not_intro kept)
        rintro (h | h)
        · exact taken (List.append_cancel_right h)
        · have last : [c] = [a] := List.append_inj_right' h rfl
          exact same (List.singleton_inj.1 last).symm
    · rw [List.erase_append_right _ held]
      by_cases same : a = c
      · subst same
        rw [List.rdropWhile_concat_pos (· == a) l a (beq_self_eq_true a)]
        exact iff_of_true (.inr (by simp)) fun h => held ((List.rdropWhile_prefix _ l).subset h)
      · have single : [a].erase c = [a] := List.erase_of_not_mem (by simpa using Ne.symm same)
        rw [single, List.rdropWhile_concat_neg (· == c) l a (by simpa using same)]
        exact iff_of_true (.inl rfl) (by simpa [held] using Ne.symm same)

private theorem eraseFirst_atEnd_iff (s : String) :
    eraseFirst ';' s = s ∨ eraseFirst ';' s ++ ";" = s ↔ Unended (dropTrailing ';' s) := by
  have semicolon : ";".toList = [';'] := by decide
  rw [← String.toList_inj, ← String.toList_inj, String.toList_append, semicolon, Unended, eraseFirst, dropTrailing,
    String.toList_ofList, String.toList_ofList]
  exact erase_atEnd_iff ';' s.toList

end Text

namespace Unended

variable {s t : String}

private theorem of_subset (h : Unended s) (inside : t.toList ⊆ s.toList) : Unended t := fun hc => h (inside hc)

theorem eraseFirst (h : Unended s) : Text.eraseFirst ';' s = s := by
  rw [Text.eraseFirst, List.erase_of_not_mem h, String.ofList_toList]

theorem removeBlanks (h : Unended s) : Unended (Text.removeBlanks s) := by
  refine h.of_subset ?_
  rw [Text.removeBlanks, String.toList_ofList]
  exact List.filter_sublist.subset

theorem spaced (n : Nat) {c : Char} (other : c ≠ ';') : Unended (Text.repeated n c) :=
  fun hc => other (Text.eq_of_mem_repeated hc).symm

theorem indent (p : Pass) : Unended p.indent := spaced _ (by decide)

theorem breaksTo (p : Pass) (line : Option Nat) : Unended (p.breaksTo line) := by
  cases line with
  | none => exact (by decide : Unended "")
  | some n => exact spaced _ (by decide)

/-- A reference is made from its name, or stands for a declared value. -/
theorem referenceText {p : Pass} (values : p.registry.Holds Unended) {id : Identifier Node} (h : Unended id.name)
    (d : Dialect) : Unended (Render.referenceText d p id) := by
  have content : Unended d.content := by cases d <;> decide
  have dots : Unended "..." := by decide
  exact values.referenceText h (h.variableRef d) content (h.interpolation d) fun ht => ht.append dots

end Unended

namespace Pass

/-- The pass is in a map literal, and no declared value has a semicolon if names are read. -/
structure Storing (named : Bool) (p : Pass) : Prop where
  place : p.inAny [.mapLiteral]
  values : named → p.registry.Holds Unended

namespace Storing

variable {named : Bool} {p : Pass}

theorem enter (h : p.Storing named) (places : List Place) : (p.enter places).Storing named where
  place := by
    have := h.place
    simp_all [Pass.inAny, Pass.enter]
  values := h.values

theorem returnsList (h : p.Storing named) : p.returnsList = false := by
  have := h.place
  simp_all [Pass.returnsList, Pass.inAny]

theorem includes (h : p.Storing named) : p.includes = false := by
  have := h.place
  simp_all [Pass.includes, Pass.inAny]

theorem reach (h : p.Storing named) (line : Option Nat) : (p.reach line).Storing named where
  place := by rw [Pass.reach_inAny]; exact h.place
  values := by rw [Pass.reach_registry]; exact h.values

theorem call (h : p.Storing named) (name : String) : (p.call name).Storing named := ⟨(h.enter [.call]).place, h.values⟩

private theorem inMap (p : Pass) (values : named → p.registry.Holds Unended) :
    (p.down.enter [.mapLiteral]).Storing named :=
  ⟨by simp [Pass.inAny, Pass.enter], values⟩

end Storing

end Pass

namespace Node

/-- Leaves, and what lists, operators, calls without blocks, members and maps make of them. Bare names are among them if
names are read. -/
def isStorable (named : Bool) : Node → Bool
  | null | literal .. | number .. | quoted _ | boolean _ | color _ | expression _ | arguments _ | binary .. | unary .. |
    member .. | mapLiteral .. => true
  | identifier id => named && !id.isBound
  | call _ _ b _ => b.isNone
  | _ => false

/-- A piece of a value in a map, whose texts have no semicolon. -/
structure Storable (named : Bool) (n : Node) : Prop where
  kind : n.isStorable named
  texts : n.TextsHold Unended

variable {named : Bool}

private theorem storable_iff (n : Node) : n.Storable named ↔ n.isStorable named ∧ ∀ t ∈ n.texts, Unended t :=
  ⟨fun h => ⟨h.kind, h.texts⟩, fun h => ⟨h.1, h.2⟩⟩

theorem Storable.identifier {id : Identifier Node} (h : (identifier id).Storable named) :
    named ∧ id.isBound = false := by
  simpa [isStorable] using h.kind

theorem Storable.bareName {n : Node} {name : String} (h : n.Storable named) (bare : n.bareName? = some name) :
    Unended name := by
  cases n with
  | identifier id =>
    rw [Identifier.bareName?_of_unbound h.identifier.2] at bare
    cases bare
    exact h.texts id.name (by simp)
  | _ => cases bare

end Node

namespace Rendering

variable {α β : Type} {named : Bool} {σ : Style} {m : Rendering α} {f : α → Rendering β} {Q : α → Prop} {R : β → Prop}

/-- Inside of a map the rendering gives something with a property and teaches the pass no value with a semicolon. -/
def Stores (named : Bool) (σ : Style) (m : Rendering α) (Q : α → Prop) : Prop :=
  ∀ ⦃p a q⦄, p.Storing named → m.Gives σ p a q → Q a ∧ q.Storing named

private theorem stores_pure {a : α} (h : Q a) : (pure a : Rendering α).Stores named σ Q := by
  intro p b q hp hb
  obtain ⟨rfl, rfl⟩ := gives_pure.1 hb
  exact ⟨h, hp⟩

theorem Stores.bind (hm : m.Stores named σ Q) (hf : ∀ a, Q a → (f a).Stores named σ R) :
    (m >>= f).Stores named σ R := by
  intro p b r hp h
  obtain ⟨a, q, ha, hb⟩ := gives_bind.1 h
  obtain ⟨hQ, hq⟩ := hm hp ha
  exact hf a hQ hq hb

/-- Back from more places, the pass is where it was. -/
theorem Stores.leave {p r : Pass} {a : α} (hm : m.Stores named σ Q) (hp : p.Storing named) {places : List Place}
    (h : m.Gives σ (p.enter places) a r) : Q a ∧ (r.leave p).Storing named := by
  obtain ⟨hQ, hr⟩ := hm (hp.enter places) h
  exact ⟨hQ, hp.place, hr.values⟩

end Rendering

namespace Render

variable {named : Bool} {σ : Style} {texts : Rendering (List String)}

private theorem reference_stores {id : Identifier Node} (read : named) (h : Unended id.name) :
    (reference id).Stores named σ Unended := by
  intro p t q hp hg
  obtain ⟨rfl, rfl⟩ := reference_gives hg
  exact ⟨.referenceText (hp.values read) h σ.dialect, hp⟩

private theorem expression_stores {e : Expression Node} (h : texts.Stores named σ fun ts => ∀ t ∈ ts, Unended t) :
    (expression e texts).Stores named σ Unended := by
  intro p t q hp hg
  obtain ⟨ts, r, hts, rfl, rfl⟩ := expression_gives_operands hp.returnsList hg
  obtain ⟨all, hr⟩ := h.leave hp hts
  have operands : Unended (joinOperands (p.inAny [.declarationValue]) e.operands ts) := .joinOperands all _ e.operands
  refine ⟨?_, hr⟩
  split
  · exact operands.removeBlanks
  · exact operands

private theorem arguments_stores (h : texts.Stores named σ fun ts => ∀ t ∈ ts, Unended t) :
    (arguments texts).Stores named σ Unended := by
  intro p t q hp hg
  obtain ⟨ts, r, hts, rfl, rfl⟩ := arguments_gives hg
  obtain ⟨all, hr⟩ := h.leave hp hts
  refine ⟨.intercalate (by decide) fun t ht => ?_, hr⟩
  obtain ⟨u, hu, rfl⟩ := List.mem_map.1 ht
  rw [(all u hu).dropTrailing]
  exact all u hu

private theorem call_stores {name : String} (hn : Unended name) (line : Option Nat)
    (h : texts.Stores named σ fun ts => ∀ t ∈ ts, Unended t) : (call name line texts none).Stores named σ Unended := by
  intro p t q hp hg
  obtain ⟨args, r, hargs, ⟨-, rfl, rfl⟩ | ⟨_, _, handed, -⟩⟩ := call_gives hg
  · obtain ⟨hargs, hr⟩ := arguments_stores h ((hp.reach line).call name) hargs
    have plain := (hp.reach line).includes
    have front : Unended (callLead σ p line) := by
      rw [callLead, if_neg (by simp [plain])]
      exact .breaksTo p line
    rw [plain]
    have text := (((front.append hn).append (t := "(") (by decide)).append hargs).append (t := ")") (by decide)
    exact ⟨text.append (t := "") (by decide), (hp.reach line).place, hr.values⟩
  · cases handed

private theorem member_stores (free : Unended σ.quote.toString) {left right : Node} (hl : left.Storable named)
    (hr : right.Storable named) (stores : (node left).Stores named σ Unended)
    (stores' : (node right).Stores named σ Unended) :
    (member left right (node left) (node right)).Stores named σ Unended := by
  intro p t q hp hg
  obtain ⟨owner, r, key, ⟨ho, hk, rfl⟩ | ⟨ho, hk, rfl⟩⟩ := member_gives hg
  · obtain ⟨uo, hp⟩ := stores hp ho
    obtain ⟨uk, hp⟩ := stores' hp hk
    exact ⟨(uo.append (t := ".") (by decide)).append uk, hp⟩
  · have owner : Unended owner ∧ r.Storing named := by
      rcases ho with ⟨-, ho⟩ | ⟨⟨name, bare, rfl⟩, rfl⟩
      · exact stores hp ho
      · exact ⟨(hl.bareName bare).variableRef _, hp⟩
    have key : Unended key ∧ q.Storing named := by
      rcases hk with ⟨-, hk⟩ | ⟨bare, rfl⟩
      · exact stores' owner.2 hk
      · exact ⟨hr.bareName bare, owner.2⟩
    have front : Unended ("map-get(" ++ _ ++ ", ") := .append (.append (by decide) owner.1) (by decide)
    exact ⟨.append (((front.append free).append key.1).append free) (by decide), key.2⟩

private theorem mapLiteral_stores (free : Unended σ.quote.toString) {es : Rendering (List (String × String))}
    (line : Option Nat) (h : es.Stores named σ fun ts => ∀ e ∈ ts, Unended e.1 ∧ Unended e.2) :
    (mapLiteral line es).Stores named σ Unended := by
  intro p t q hp hg
  obtain ⟨ts, r, hts, rfl, rfl⟩ := mapLiteral_gives hg
  obtain ⟨all, hr⟩ := h (.inMap p hp.values) hts
  have lines : ∀ s ∈ entryLines σ p ts, Unended s := by
    intro s hs
    obtain ⟨⟨key, value⟩, he, rfl⟩ := List.mem_map.1 hs
    obtain ⟨hkey, hvalue⟩ := all _ he
    have front : Unended ("\n" ++ p.down.indent ++ σ.quote.toString) := .append (.append (by decide) (.indent _)) free
    refine (((front.append hkey).append free).append (by decide)).append ?_
    rw [hvalue.eraseFirst]
    exact hvalue
  have rows : Unended (",".intercalate (entryLines σ p ts)) := .intercalate (by decide) lines
  refine ⟨.append (.append (.append (.append (by decide) rows) (by decide)) (.indent _)) (by decide), ?_⟩
  have back : ((r.leave p.down).up).Storing named := ⟨hp.place, hr.values⟩
  cases line with
  | none => exact back
  | some line => exact ⟨back.place, back.values⟩

mutual

private theorem node_stores (free : Unended σ.quote.toString) (n : Node) (h : n.Every (Node.Storable named)) :
    (node n).Stores named σ Unended := by
  have ⟨kind, texts⟩ := h.self
  have parts : EveryIn (Node.Storable named) n.parts := h.parts
  match n with
  | .null => exact stores_pure (by decide)
  | .literal text _ => exact stores_pure (texts text (by simp))
  | .color text => exact stores_pure (texts text (by simp))
  | .quoted q =>
    exact stores_pure (((texts q.quote (by simp)).append (texts q.text (by simp))).append (texts q.quote (by simp)))
  | .boolean value =>
    refine stores_pure ?_
    cases value <;> decide
  | .number value suffix =>
    have ending : Unended (suffix.getD "") :=
      Unended.rowwise.optional fun s hs => texts s (by simp [Option.mem_def.1 hs])
    exact stores_pure ((Unended.number value).append ending)
  | .identifier id =>
    obtain ⟨read, bare⟩ := h.self.identifier
    rw [node_of_bare bare]
    exact reference_stores read (texts id.name (by simp))
  | .expression e => exact expression_stores (each_stores free e.operands parts)
  | .arguments args => exact arguments_stores (each_stores free args parts)
  | .binary operator left right =>
    exact (node_stores free left (parts left (by simp))).bind fun l hl =>
      (node_stores free right (parts right (by simp))).bind fun r hr =>
        stores_pure (.binary right (texts operator (by simp)) hl hr)
  | .unary operator operand =>
    exact (node_stores free operand (parts operand (by simp))).bind fun t ht =>
      stores_pure (.unary (texts operator (by simp)) ht)
  | .call name args none line =>
    rw [Node.parts, everyIn_append] at parts
    exact call_stores (texts name (by simp)) line (each_stores free args parts.1)
  | .member left right =>
    have hl := parts left (by simp)
    have hr := parts right (by simp)
    exact member_stores free hl.self hr.self (node_stores free left hl) (node_stores free right hr)
  | .mapLiteral es line =>
    have keys : ∀ e ∈ es, Unended e.1 := fun e he => texts e.1 (List.mem_map_of_mem he)
    exact mapLiteral_stores free line (entries_stores free es keys parts)
  | .call _ _ (some _) _ | .block _ | .selector .. | .ruleSet .. | .property .. | .callable .. | .returned ..
  | .conditional .. | .loop .. | .keyframes .. | .media .. | .queryList _ | .query .. | .feature .. | .supports ..
  | .xmlNamespace .. | .charset .. | .importSheet .. | .extend .. | .atRule .. | .comment _ => cases kind
termination_by structural n

private theorem each_stores (free : Unended σ.quote.toString) (ns : List Node) (h : EveryIn (Node.Storable named) ns) :
    (each ns).Stores named σ fun ts => ∀ t ∈ ts, Unended t := by
  match ns with
  | [] => exact stores_pure (by simp)
  | n :: ns =>
    rw [everyIn_cons] at h
    exact (node_stores free n h.1).bind fun t ht => (each_stores free ns h.2).bind fun ts hts =>
      stores_pure (List.forall_mem_cons.2 ⟨ht, hts⟩)
termination_by structural ns

private theorem entries_stores (free : Unended σ.quote.toString) (es : List (String × Node))
    (keys : ∀ e ∈ es, Unended e.1)
    (h : EveryIn (Node.Storable named) (es.map (·.2))) :
    (entries es).Stores named σ fun ts => ∀ e ∈ ts, Unended e.1 ∧ Unended e.2 := by
  match es with
  | [] => exact stores_pure (by simp)
  | (key, n) :: es =>
    rw [List.map_cons, everyIn_cons] at h
    obtain ⟨hkey, hkeys⟩ := List.forall_mem_cons.1 keys
    exact (node_stores free n h.1).bind fun t ht => (entries_stores free es hkeys h.2).bind fun ts hts =>
      stores_pure (List.forall_mem_cons.2 ⟨⟨hkey, ht⟩, hts⟩)
termination_by structural es

end

private theorem keys_of_entries {p q : Pass} {es : List (String × Node)} {ts : List (String × String)}
    (h : (entries es).Gives σ p ts q) : ts.map (·.1) = es.map (·.1) := by
  induction es generalizing p ts with
  | nil =>
    obtain ⟨rfl, rfl⟩ := gives_pure.1 h
    rfl
  | cons e es ih =>
    obtain ⟨key, n⟩ := e
    simp only [entriesWith, gives_bind, gives_pure] at h
    obtain ⟨text, r, -, ts, _, rest, rfl, rfl⟩ := h
    rw [List.map_cons, List.map_cons, ih rest]

/-- A map literal is rendered unless a node in it lacks a part, one entry on a line, in order, each with the text of its
value without its first semicolon. At most one is taken from the end of that text, and nothing else, if and only if
there is none in front of its end. All texts stay as they are if those that the values are made of have no semicolon,
and neither have the declared values where names are among them. -/
theorem entries_of_run (σ : Style) (p : Pass) (es : List (String × Node)) (line : Option Nat) :
    let map : Node := .mapLiteral es line
    let quote := σ.quote.toString
    ((∃ t q, (node map).Gives σ p t q) ↔ map.Every Node.Sufficient) ∧
    ∀ t q, (node map).Gives σ p t q → ∃ (ts : List (String × String)) (r : Pass),
      ts.map (·.1) = es.map (·.1) ∧
      (each (es.map (·.2))).Gives σ (p.down.enter [.mapLiteral]) (ts.map (·.2)) r ∧
      t = "(" ++ ",".intercalate (ts.map fun (key, value) =>
        "\n" ++ p.down.indent ++ quote ++ key ++ quote ++ ": " ++ Text.eraseFirst ';' value) ++
        "\n" ++ p.indent ++ ")" ∧
      (∀ e ∈ ts, Text.eraseFirst ';' e.2 = e.2 ∨ Text.eraseFirst ';' e.2 ++ ";" = e.2 ↔
        Unended (Text.dropTrailing ';' e.2)) ∧
      ∀ named : Bool, EveryIn (Node.Storable named) (es.map (·.2)) → (named → p.registry.Holds Unended) →
        σ.quote ≠ ';' → ∀ e ∈ ts, Text.eraseFirst ';' e.2 = e.2 := by
  intro map quote
  refine ⟨node_succeedsIff map σ p, fun t q h => ?_⟩
  obtain ⟨ts, r, hts, -, rfl⟩ := mapLiteral_gives h
  obtain ⟨values, -⟩ := Plan.each_of_entries hts
  refine ⟨ts, r, keys_of_entries hts, values, ?_, fun e _ => Text.eraseFirst_atEnd_iff e.2,
    fun named storable free plain => ?_⟩
  · have back : (r.leave p.down).up.indent = p.indent := by
      have depth := (each_stays _ values).depth
      simp only [Pass.indent, Pass.up, Pass.leave, depth, Pass.enter, Pass.down, Nat.add_sub_cancel]
    rw [back]
    rfl
  · have unquoted : Unended σ.quote.toString := by simpa [Unended] using plain.symm
    have unended := (each_stores unquoted _ storable (.inMap p free) values).1
    exact fun e he => (unended e.2 (List.mem_map_of_mem he)).eraseFirst

/-- A map of shades in a map, with an operation and a call among them, and an address in quotes. -/
theorem entries_of_run_shades :
    let dark : Node := .binary "*" (.literal "red" none) (.literal "0.8" none)
    let pure : Node := .call "rgb" [.literal "255" none, .literal "0" none, .literal "0" none] none none
    let shades : Node := .mapLiteral [("dark", dark), ("pure", pure)] none
    let es : List (String × Node) := [("shades", .expression ⟨[shades], none⟩), ("dot", .quoted ⟨"data:,x", "'"⟩)]
    let p : Pass := { depth := 1, registry := { declarations := [("content", some "';'")] } }
    let t :=
      "(\n    'shades': (\n      'dark': red * 0.8,\n      'pure': rgb(255, 0, 0)\n    ),\n    'dot': 'data:,x'\n  )"
    let line (key value : String) := "\n" ++ p.down.indent ++ "'" ++ key ++ "'" ++ ": " ++ value
    (∃ q, (node (.mapLiteral es none)).Gives {} p t q) ∧ ∃ (ts : List (String × String)) (r : Pass),
      ts.map (·.1) = ["shades", "dot"] ∧ (each (es.map (·.2))).Gives {} (p.down.enter [.mapLiteral]) (ts.map (·.2)) r ∧
      t = "(" ++ ",".intercalate (ts.map fun e => line e.1 e.2) ++ "\n" ++ p.indent ++ ")" := by
  intro dark pure shades es p t line
  have run : (node (.mapLiteral es none)).Gives {} p t p := eq_ok_of_toOption (by decide +kernel)
  have storable : EveryIn (Node.Storable false) (es.map (·.2)) := by
    simp [es, shades, dark, pure, Node.every_iff_everyIn, Node.storable_iff, Node.isStorable, Unended]
  obtain ⟨ts, r, keys, values, text, -, whole⟩ := (entries_of_run {} p es none).2 t p run
  refine ⟨⟨p, run⟩, ts, r, keys, values, text.trans ?_⟩
  have lines : (ts.map fun e => line e.1 (Text.eraseFirst ';' e.2)) = ts.map fun e => line e.1 e.2 :=
    List.map_congr_left fun e he => by
      have kept := whole false storable (by intro read; cases read) (by decide) e he
      simp only [kept]
  rw [← lines]
  rfl

/-- The semicolon inside of a quoted address is taken out, so what is written for the key is neither the text of its
value nor that text with a semicolon less at its end. -/
theorem semicolon_lost_in_quotes :
    let dot : Node := .quoted ⟨"data:image/svg+xml;base64,PHN2Zz4=", "'"⟩
    let value := "'data:image/svg+xml;base64,PHN2Zz4='"
    let t := "(\n  'dot': 'data:image/svg+xmlbase64,PHN2Zz4='\n)"
    (∃ q, (node dot).Gives {} (({} : Pass).down.enter [.mapLiteral]) value q) ∧
    (∃ q, (node (.mapLiteral [("dot", dot)] none)).Gives {} {} t q) ∧
    ¬∃ kept, (kept = value ∨ kept ++ ";" = value) ∧ t = "(\n  'dot': " ++ kept ++ "\n)" := by
  intro dot value t
  refine ⟨⟨_, gives_pure.2 ⟨rfl, rfl⟩⟩, ⟨{}, eq_ok_of_toOption (by decide +kernel)⟩, ?_⟩
  rintro ⟨kept, atEnd, text⟩
  have written : t = "(\n  'dot': " ++ "'data:image/svg+xmlbase64,PHN2Zz4='" ++ "\n)" := by decide +kernel
  have cut : "'data:image/svg+xmlbase64,PHN2Zz4='" = kept := by
    have same := congrArg String.toList (written.symm.trans text)
    rw [String.toList_append, String.toList_append, String.toList_append, String.toList_append] at same
    exact String.toList_inj.1 (List.append_cancel_left (List.append_cancel_right same))
  subst cut
  revert atEnd
  decide +kernel

end Render

end Stylesheet
