import Stylesheet.Proofs.Brackets
import Stylesheet.Proofs.Constructs
import Stylesheet.Proofs.Numerals
import Stylesheet.Proofs.Parts
import Stylesheet.Proofs.Rowwise

/-!
# Properties that the making of texts keeps

Constructs put texts in a row or in brackets, and take white space and semicolons out. A property that both keep and
that texts without brackets and line feeds have is one of all that is made on a single line.
-/

namespace Stylesheet

open Text

/-- Neither a bracket nor a line feed. -/
def isInert (c : Char) : Bool := !isBracket c && c != '\n'

structure Closed (P : String → Prop) : Prop where
  inert : ∀ {s : String}, s.toList.all isInert → P s
  append : ∀ {s t : String}, P s → P t → P (s ++ t)
  parenthesized : ∀ {s : String}, P s → P ("(" ++ s ++ ")")
  braced : ∀ {s : String}, P s → P ("\x7b" ++ s ++ "\x7d")
  shortened : ∀ {s t : String}, t.toList.Sublist s.toList →
    t.toList.filter isBracket = s.toList.filter isBracket → P s → P t

private theorem isInert_of_isNumeral {c : Char} (h : isNumeral c) : isInert c := by
  have bracket : isBracket c = false := isBracket_eq_false (by decide) h
  have feed : c ≠ '\n' := by
    rintro rfl
    cases h
  simp [isInert, bracket, feed]

namespace Registry

/-- Every value that a declaration was closed with has the property. -/
def Holds (P : String → Prop) (r : Registry) : Prop := ∀ d ∈ r.declarations, ∀ v, d.2 = some v → P v

variable {P : String → Prop} {r : Registry} {name value : String}

theorem Holds.addVariable (h : r.Holds P) : (r.addVariable name).Holds P := h

theorem Holds.addMap (h : r.Holds P) : (r.addMap name).Holds P := h

theorem Holds.setParams {names : List String} (h : r.Holds P) : (r.setParams names).Holds P := h

theorem Holds.clearParams (h : r.Holds P) : r.clearParams.Holds P := h

theorem Holds.openDeclaration (h : r.Holds P) : (r.openDeclaration name).Holds P := by
  intro d hd v hv
  rcases List.mem_append.1 hd with hd | hd
  · exact h d hd v hv
  · rw [List.mem_singleton.1 hd] at hv
    cases hv

theorem Holds.closeDeclaration (h : r.Holds P) (hv : P value) (slot : Nat) :
    (r.closeDeclaration slot value).Holds P := by
  intro d hd v hdv
  obtain ⟨i, hi, rfl⟩ := List.mem_iff_getElem.1 hd
  simp only [Registry.closeDeclaration, List.getElem_modify] at hdv
  split at hdv
  · cases hdv
    exact hv
  · exact h _ (List.getElem_mem _) v hdv

theorem Holds.valueOf? (h : r.Holds P) (hv : r.valueOf? name = some value) : P value := by
  obtain ⟨d, hd, hdv⟩ := List.exists_of_findSome?_eq_some hv
  split at hdv
  · exact h d (List.mem_reverse.1 hd) value hdv
  · cases hdv

/-- A reference is its name, bare or as the dialect writes it, what is passed to a mixin, or a declared value. -/
theorem Holds.referenceText {p : Pass} (values : p.registry.Holds P) {id : Identifier Node} {d : Dialect}
    (bare : P id.name) (variableText : P (d.variableRef id.name)) (content : P d.content)
    (interpolation : P (d.interpolation id.name)) (dotted : ∀ {t}, P t → P (t ++ "...")) :
    P (Render.referenceText d p id) := by
  have known : P (if p.registry.knowsVariable id.name || p.registry.knowsParam id.name
      then d.variableRef id.name else id.name) := by
    split
    · exact variableText
    · exact bare
  have outside : P (if id.placeholder then if id.name = "block" then d.content else d.interpolation id.name
      else if id.rest then (if p.registry.knowsVariable id.name || p.registry.knowsParam id.name
        then d.variableRef id.name else id.name) ++ "..."
      else (if p.registry.knowsVariable id.name || p.registry.knowsParam id.name
        then d.variableRef id.name else id.name)) := by
    split
    · split
      · exact content
      · exact interpolation
    · split
      · exact dotted known
      · exact known
  dsimp only [Render.referenceText]
  split
  · split
    · split
      · exact variableText
      · exact bare
    · cases hv : p.registry.valueOf? id.name with
      | none => exact outside
      | some v => exact values.valueOf? hv
  · exact outside

end Registry

namespace Closed

variable {P : String → Prop} (closed : Closed P) {s t : String} {ts : List String}

include closed

theorem empty : P "" := closed.inert (by decide)

theorem rowwise : Rowwise P := ⟨closed.empty, closed.append⟩

private theorem interpolated (h : P s) : P ("#\x7b" ++ s ++ "\x7d") := by
  have hash : P "#" := closed.inert (by decide)
  have joined : P ("#" ++ ("\x7b" ++ s ++ "\x7d")) := closed.append hash (closed.braced h)
  rwa [← String.append_assoc, ← String.append_assoc] at joined

theorem join (h : ∀ t ∈ ts, P t) : P (String.join ts) := closed.rowwise.join h

theorem intercalate (hs : P s) (h : ∀ t ∈ ts, P t) : P (s.intercalate ts) := closed.rowwise.intercalate hs h

theorem trimStart (h : P s) : P (trimStart s) := by
  refine closed.shortened ?_ (filter_trimStart (fun _ => isBracket_of_isBlank) s) h
  rw [Text.trimStart, String.toList_ofList]
  exact List.dropWhile_sublist _

theorem removeBlanks (h : P s) : P (removeBlanks s) := by
  refine closed.shortened ?_ (filter_removeBlanks (fun _ => isBracket_of_isBlank) s) h
  rw [Text.removeBlanks, String.toList_ofList]
  exact List.filter_sublist

theorem dropTrailing {c : Char} (hc : isBracket c = false) (h : P s) : P (dropTrailing c s) := by
  refine closed.shortened ?_ (filter_dropTrailing hc s) h
  rw [Text.dropTrailing, String.toList_ofList]
  have shorter : (s.toList.reverse.dropWhile (· == c)).Sublist s.toList.reverse := List.dropWhile_sublist _
  simpa using shorter.reverse

theorem eraseFirst {c : Char} (hc : isBracket c = false) (h : P s) : P (eraseFirst c s) := by
  refine closed.shortened ?_ (filter_eraseFirst hc s) h
  rw [Text.eraseFirst, String.toList_ofList]
  exact List.erase_sublist

private theorem of_after? {lead rest : String} (h : after? lead s = some rest)
    (plain : lead.toList.filter isBracket = [])
    (hs : P s) : P rest := by
  have split : s.toList = lead.toList ++ rest.toList := by
    rw [append_of_after? h, String.toList_append]
  refine closed.shortened ?_ ?_ hs
  · rw [split]
    exact List.sublist_append_right _ _
  · rw [split, List.filter_append, plain, List.nil_append]

private theorem of_before? {tail stem : String} (h : before? tail s = some stem)
    (plain : tail.toList.filter isBracket = [])
    (hs : P s) : P stem := by
  have split : s.toList = stem.toList ++ tail.toList := by
    rw [append_of_before? h, String.toList_append]
  refine closed.shortened ?_ ?_ hs
  · rw [split]
    exact List.sublist_append_left _ _
  · rw [split, List.filter_append, plain, List.append_nil]

theorem repeated (n : Nat) {c : Char} (hc : isInert c) : P (repeated n c) := by
  refine closed.inert (List.all_eq_true.2 fun d hd => ?_)
  rw [eq_of_mem_repeated hd, hc]

theorem indent (p : Pass) : P p.indent := closed.repeated _ (by decide)

variable {name : String} (d : Dialect)

theorem bare (h : P name) : P (Dialect.bare name) := by
  unfold Dialect.bare
  cases ha : after? "$" name with
  | none => exact h
  | some rest => exact closed.of_after? ha (by decide) h

theorem variableRef (h : P name) : P (d.variableRef name) := by
  have sigil : P d.sigil.toString := by cases d <;> exact closed.inert (by decide)
  exact closed.append sigil (closed.bare h)

theorem interpolation (h : P name) : P (d.interpolation name) := by
  cases d with
  | scss =>
    have dollar : P "$" := closed.inert (by decide)
    have inner : P ("#\x7b" ++ ("$" ++ Dialect.bare name) ++ "\x7d") :=
      closed.interpolated (closed.append dollar (closed.bare h))
    rwa [← String.append_assoc] at inner
  | less =>
    have sign : P "@" := closed.inert (by decide)
    have inner : P ("@" ++ ("\x7b" ++ Dialect.bare name ++ "\x7d")) :=
      closed.append sign (closed.braced (closed.bare h))
    rwa [← String.append_assoc, ← String.append_assoc] at inner

theorem content : P d.content := by cases d <;> exact closed.inert (by decide)

theorem returnWord : P d.returnWord := by cases d <;> exact closed.inert (by decide)

theorem inclusion : P d.inclusion := by cases d <;> exact closed.inert (by decide)

theorem fileEnding : P d.fileEnding := by cases d <;> exact closed.inert (by decide)

theorem called {args : String} (hn : P name) (ha : P args) : P (name ++ "(" ++ args ++ ")") := by
  have joined : P (name ++ ("(" ++ args ++ ")")) := closed.append hn (closed.parenthesized ha)
  rwa [← String.append_assoc, ← String.append_assoc] at joined

theorem mixinSignature {params : String} (hn : P name) (hp : P params) : P (d.mixinSignature name params) := by
  cases d with
  | scss =>
    have word : P "@mixin " := closed.inert (by decide)
    exact closed.called (closed.append word hn) hp
  | less =>
    have word : P "." := closed.inert (by decide)
    exact closed.called (closed.append word hn) hp

theorem callableHead {kind : DefinitionKind} {params : String} (hn : P name) (hp : P params) :
    P (Render.callableHead d kind name params) := by
  cases kind with
  | function =>
    have word : P "@function " := closed.inert (by decide)
    exact closed.called (closed.append word hn) hp
  | mixin => exact closed.mixinSignature d hn hp

theorem referenceText {p : Pass} (hp : p.registry.Holds P) {id : Identifier Node} (h : P id.name) :
    P (Render.referenceText d p id) :=
  hp.referenceText h (closed.variableRef d h) (closed.content d) (closed.interpolation d h) fun ht =>
    closed.append ht (closed.inert (by decide))

theorem quoted {q : QuotedText} (ht : P q.text) (hq : P q.quote) : P (Render.quoted q) :=
  closed.append (closed.append hq ht) hq

theorem number (x : Float) : P (Render.number x) :=
  closed.inert (List.all_eq_true.2 fun _ hc => isInert_of_isNumeral (Render.isNumeral_number hc))

theorem joinOperands (inValue : Bool) (operands : List Node) (h : ∀ t ∈ ts, P t) :
    P (Render.joinOperands inValue operands ts) :=
  closed.rowwise.joinOperands (closed.inert (by decide)) (closed.inert (by decide)) inValue operands h

theorem spelling {operator : String} (h : P operator) : P (Operator.spelling operator) := by
  unfold Operator.spelling
  split
  · exact closed.inert (by decide)
  · exact closed.inert (by decide)
  · exact closed.inert (by decide)
  · exact h

theorem binary {operator left right : String} (n : Node) (ho : P operator) (hl : P left) (hr : P right) :
    P (Render.binary operator n left right) := by
  have space : P " " := closed.inert (by decide)
  have grouped : P (if n.isExpression then "(" ++ right ++ ")" else right) := by
    split
    · exact closed.parenthesized hr
    · exact hr
  exact closed.append (closed.append (closed.append (closed.append hl space) (closed.spelling ho)) space) grouped

theorem unary {operator operand : String} (ho : P operator) (h : P operand) : P (Render.unary operator operand) :=
  closed.called (closed.spelling ho) h

theorem negate (negated : Bool) {condition : String} (h : P condition) : P (Render.negate negated condition) := by
  unfold Render.negate
  split
  · have word : P "not " := closed.inert (by decide)
    exact closed.called word h
  · exact h

theorem bounds {operator left right : String} (hl : P left) (hr : P right) :
    P (Render.bounds operator left right) := by
  have word : P (if operator = "..." then " to " else " through ") := by
    split <;> exact closed.inert (by decide)
  exact closed.append (closed.append hl word) hr

theorem joinItems {items : List Node} (h : ∀ t ∈ ts, P t)
    (names : ∀ n ∈ items, ∀ name, n.bareName? = some name → P name) : P (Render.joinItems d items ts) := by
  refine closed.intercalate (closed.inert (by decide)) fun u hu => ?_
  obtain ⟨⟨n, t⟩, ht, rfl⟩ := List.mem_map.1 hu
  have hn := List.of_mem_zip ht
  cases hb : n.bareName? with
  | none => simpa [hb] using h t hn.2
  | some name => simpa [hb] using closed.variableRef d (names n hn.1 name hb)

theorem loopHead {item : String} {key : Option String} {items : List Node} (hi : P item) (hk : ∀ k ∈ key, P k)
    (h : ∀ t ∈ ts, P t) (names : ∀ n ∈ items, ∀ name, n.bareName? = some name → P name) :
    P (Render.loopHead d item key items ts) := by
  have comma : P ", " := closed.inert (by decide)
  unfold Render.loopHead
  split
  · have word : P "@for " := closed.inert (by decide)
    have source : P " from " := closed.inert (by decide)
    exact closed.append (closed.append (closed.append word (closed.variableRef d hi)) source)
      (closed.intercalate comma h)
  · have word : P "@each " := closed.inert (by decide)
    have source : P " in " := closed.inert (by decide)
    have bound : P (", ".intercalate ((item :: key.toList).map d.variableRef)) := by
      refine closed.intercalate comma fun u hu => ?_
      obtain ⟨name, hname, rfl⟩ := List.mem_map.1 hu
      rcases List.mem_cons.1 hname with rfl | hname
      · exact closed.variableRef d hi
      · exact closed.variableRef d (hk name (Option.mem_toList.1 hname))
    exact closed.append (closed.append (closed.append word bound) source) (closed.joinItems d h names)

theorem joinSegments {segments : List Node} (h : ∀ t ∈ ts, P t) : P (Render.joinSegments segments ts) := by
  refine closed.join fun t ht => ?_
  obtain ⟨⟨n, u⟩, hu, rfl⟩ := List.mem_map.1 ht
  have hn : P u := h u (List.of_mem_zip hu).2
  dsimp only
  split
  · exact closed.interpolated hn
  · exact hn

theorem joinSelectors (h : ∀ t ∈ ts, P t) : P (Render.joinSelectors ts) := by
  have aligned : ∀ t ∈ ts.map Render.alignSelector, P t := by
    intro u hu
    obtain ⟨t, ht, rfl⟩ := List.mem_map.1 hu
    unfold Render.alignSelector
    split
    · exact h t ht
    · exact closed.trimStart (h t ht)
  unfold Render.joinSelectors
  split
  · exact closed.empty
  · next first rest hts =>
    rw [hts] at aligned
    refine closed.append (aligned first (by simp)) (closed.join fun u hu => ?_)
    obtain ⟨t, ht, rfl⟩ := List.mem_map.1 hu
    have comma : P (if Text.startsWith '\n' t then "," else ", ") := by
      split <;> exact closed.inert (by decide)
    exact closed.append comma (aligned t (by simp [ht]))

theorem ruleHead (p : Pass) (h : ∀ t ∈ ts, P t) : P (Render.ruleHead p ts) := by
  unfold Render.ruleHead
  split
  · exact closed.interpolated (closed.joinSelectors h)
  · exact closed.joinSelectors h

theorem query {predicate : Option String} {medium : String} {features : List String}
    (hp : ∀ t ∈ predicate, P t) (hm : P medium) (hf : ∀ t ∈ features, P t) :
    P (Render.query predicate medium features) := by
  have conditions : P (" and ".intercalate (if medium.isEmpty then features else medium :: features)) := by
    refine closed.intercalate (closed.inert (by decide)) ?_
    split
    · exact hf
    · exact List.forall_mem_cons.2 ⟨hm, hf⟩
  cases predicate with
  | none => exact conditions
  | some t => exact closed.append (closed.append (hp t rfl) (closed.inert (by decide))) conditions

theorem feature {value : Option String} (hn : P name) (hv : ∀ v ∈ value, P v) : P (Render.feature name value) := by
  cases value with
  | none => exact closed.parenthesized hn
  | some v =>
    have colon : P ": " := closed.inert (by decide)
    have inner : P ("(" ++ (name ++ ": " ++ v) ++ ")") :=
      closed.parenthesized (closed.append (closed.append hn colon) (hv v rfl))
    simpa only [Render.feature, String.append_assoc] using inner

theorem outputPath {path : String} (h : P path) : P (Render.outputPath d path) := by
  unfold Render.outputPath
  cases hb : before? Render.sheetEnding path with
  | none => exact h
  | some stem => exact closed.append (closed.of_before? hb (by decide) h) (closed.fileEnding d)

theorem joinPath {pieces : List Node} (h : ∀ t ∈ ts, P t)
    (texts : ∀ n ∈ pieces, ∀ q, n.quotedText? = some q → P q.text) : P (Render.joinPath pieces ts) := by
  refine closed.join fun u hu => ?_
  obtain ⟨⟨n, t⟩, ht, rfl⟩ := List.mem_map.1 hu
  have hn := List.of_mem_zip ht
  cases hq : n.quotedText? with
  | none => simpa [hq] using h t hn.2
  | some q => simpa [hq] using texts n hn.1 q hq

theorem pathQuote {pieces : List Node}
    (quotes : ∀ n ∈ pieces, ∀ q, n.quotedText? = some q → P q.quote) : P (Render.pathQuote pieces) := by
  unfold Render.pathQuote
  cases hf : ((pieces.filterMap Node.quotedText?).map (·.quote)).find? fun q => !q.isEmpty with
  | none => exact closed.empty
  | some quote =>
    obtain ⟨q, hq, rfl⟩ := List.mem_map.1 (List.mem_of_find?_eq_some hf)
    obtain ⟨n, hn, hnq⟩ := List.mem_filterMap.1 hq
    exact quotes n hn q hnq

theorem atHead {segments : List Node} (hn : P name) (h : ∀ t ∈ ts, P t) : P (Render.atHead name segments ts) := by
  have sign : P "@" := closed.inert (by decide)
  have space : P " " := closed.inert (by decide)
  refine closed.append (closed.append sign hn) ?_
  split
  · exact closed.empty
  · exact closed.append space (closed.joinSegments h)

theorem keptText {c : Comment} (h : P c.text) : P (Render.keptText c) := by
  unfold Render.keptText
  split
  · next rest hr =>
    split
    · exact h
    · have mark : P "/*!" := closed.inert (by decide)
      exact closed.append mark (closed.of_after? hr (by decide) h)
  · exact h

end Closed

def Node.TextsHold (P : String → Prop) (n : Node) : Prop := ∀ t ∈ n.texts, P t

variable {P : String → Prop}

theorem holds_of_bareName {n : Node} {name : String} (h : n.Every (Node.TextsHold P))
    (hn : n.bareName? = some name) : P name := by
  cases n with
  | identifier id =>
    have hname : id.name = name := by
      simp only [Node.bareName?] at hn
      split at hn
      · cases hn
      · exact Option.some.inj hn
    exact hname ▸ h.self id.name (by simp)
  | _ => simp [Node.bareName?] at hn

theorem holds_of_quotedText {n : Node} {q : QuotedText} (h : n.Every (Node.TextsHold P))
    (hq : n.quotedText? = some q) : P q.text ∧ P q.quote := by
  cases n with
  | quoted q' =>
    cases hq
    exact ⟨h.self _ (by simp), h.self _ (by simp)⟩
  | _ => simp [Node.quotedText?] at hq

end Stylesheet
