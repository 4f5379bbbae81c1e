import Stylesheet.Proofs.Lines.Texts

/-!
# Values, heads and rules of trees that differ in lines

What lists, operations, names, heads of loops and at-rules are written as, from readings of their parts.
-/

namespace Stylesheet.Render

open Text

variable {κ : Scene} {s t u v : String} {ss ts : List String} {σ : Style}

theorem twin_quoted {q : QuotedText} (ht : '@' ∉ q.text.toList) (hq : '@' ∉ q.quote.toList) :
    Twin κ (quoted q) (quoted q) :=
  twin_of_plain (by simp [quoted, ht, hq])

theorem twin_number (x : Float) : Twin κ (number x) (number x) := by
  apply twin_of_plain
  intro h
  exact absurd (isNumeral_number h) (by decide)

private theorem separator_unlined (inValue : Bool) (n : Node) : separator inValue n.unlined = separator inValue n := by
  simp [separator]

private theorem twin_separator (inValue : Bool) (n : Node) : Twin κ (separator inValue n) (separator inValue n) := by
  unfold separator
  split <;> exact twin_refl (by decide)

private def moreOperands (inValue : Bool) (operands : List Node) (texts : List String) : String :=
  String.join <| (operands.zip texts).map fun (n, t) => separator inValue n ++ t

private theorem joinOperands_cons (inValue : Bool) (n : Node) (ns : List Node) (t : String) (ts : List String) :
    joinOperands inValue (n :: ns) (t :: ts) = t ++ moreOperands inValue ns ts := rfl

private theorem twin_moreOperands (inValue : Bool) {operands : List Node} (h : Twins κ ss ts) :
    Twin κ (moreOperands inValue operands ss) (moreOperands inValue (operands.map Node.unlined) ts) := by
  induction h generalizing operands with
  | nil => cases operands <;> exact tight_empty
  | cons hst _ ih =>
    cases operands with
    | nil => exact tight_empty
    | cons n operands =>
      simp only [moreOperands, List.map_cons, List.zip_cons_cons, String.join_cons, separator_unlined]
      exact ((twin_separator inValue n).append hst).append ih

theorem twin_joinOperands (inValue : Bool) {operands : List Node} (h : Twins κ ss ts) :
    Twin κ (joinOperands inValue operands ss) (joinOperands inValue (operands.map Node.unlined) ts) := by
  cases h with
  | nil => cases operands <;> exact tight_empty
  | cons hst hrest =>
    cases operands with
    | nil => exact tight_empty
    | cons n operands =>
      rw [List.map_cons, joinOperands_cons, joinOperands_cons]
      exact hst.append (twin_moreOperands inValue hrest)

theorem plain_spelling {operator : String} (h : '@' ∉ operator.toList) :
    '@' ∉ (Operator.spelling operator).toList := by
  unfold Operator.spelling
  split
  · decide
  · decide
  · decide
  · exact h

theorem twin_binary {operator : String} (n : Node) (ho : '@' ∉ operator.toList) (hst : Twin κ s t) (huv : Twin κ u v) :
    Twin κ (binary operator n s u) (binary operator n.unlined t v) := by
  have space : Twin κ " " " " := twin_refl (by decide)
  have spelling : Twin κ _ _ := twin_of_plain (plain_spelling ho)
  have grouped : Twin κ (if n.isExpression then "(" ++ u ++ ")" else u)
      (if n.isExpression then "(" ++ v ++ ")" else v) := by
    split
    · exact ((twin_refl (by decide)).append huv).append (twin_refl (by decide))
    · exact huv
  rw [binary, binary, Node.isExpression_unlined]
  exact (((hst.append space).append spelling).append space).append grouped

theorem twin_unary {operator : String} (ho : '@' ∉ operator.toList) (hst : Twin κ s t) :
    Twin κ (unary operator s) (unary operator t) :=
  (((twin_of_plain (plain_spelling ho)).append (twin_refl (by decide))).append hst).append (twin_refl (by decide))

/-- A bare name reads the same in passes that are alike, if it can follow an at-sign. -/
theorem twin_referenceText {p p' : Pass} (hp : p.Alike κ p') (id : Identifier Node)
    (plain : '@' ∉ id.name.toList) (hash : '#' ∉ id.name.toList)
    (spells : κ.search = .everywhere → σ.dialect.Spells id.name) :
    Twin κ (referenceText σ.dialect p id) (referenceText σ.dialect p' id.unlined) := by
  have variableText := σ.dialect.twin_variableRef plain spells
  have name : Twin κ id.name id.name := twin_of_plain plain
  have known : Twin κ (if p.registry.knowsVariable id.name || p.registry.knowsParam id.name
      then σ.dialect.variableRef id.name else id.name) (if p.registry.knowsVariable id.name ||
      p.registry.knowsParam id.name then σ.dialect.variableRef id.name else id.name) := by
    split
    · exact variableText
    · exact name
  have outside : ∀ k : String, Twin κ k k → Twin κ (if id.placeholder then if id.name = "block" then σ.dialect.content
      else σ.dialect.interpolation id.name else if id.rest then k ++ "..." else k) (if id.placeholder then
      if id.name = "block" then σ.dialect.content else σ.dialect.interpolation id.name
      else if id.rest then k ++ "..." else k) := by
    intro k hk
    split
    · split
      · exact σ.dialect.twin_content
      · exact σ.dialect.twin_interpolation id.name
    · split
      · exact hk.append (twin_refl (by decide))
      · exact hk
  show Twin κ _ (referenceText σ.dialect p' { id with value := _, line := none })
  dsimp only [referenceText]
  rw [← hp.inAny, ← hp.inAny, ← hp.registry.knowsVariable, ← hp.registry.knowsParam]
  split
  · split
    · split
      · exact variableText
      · exact name
    · have hv := hp.registry.valueOf? hash
      generalize p.registry.valueOf? id.name = w, p'.registry.valueOf? id.name = w' at hv ⊢
      cases hv with
      | some hv => exact twin_of_valueWord hv
      | none => exact outside _ known
  · exact outside _ known

theorem twin_negate (negated : Bool) (h : Twin κ s t) : Twin κ (negate negated s) (negate negated t) := by
  unfold negate
  split
  · exact ((twin_refl (by decide)).append h).append (twin_refl (by decide))
  · exact h

theorem twin_bounds (operator : String) (hst : Twin κ s t) (huv : Twin κ u v) :
    Twin κ (bounds operator s u) (bounds operator t v) := by
  have word : Twin κ (if operator = "..." then " to " else " through ")
      (if operator = "..." then " to " else " through ") := by
    split <;> exact twin_refl (by decide)
  exact (hst.append word).append huv

/-- A bare name of a list that is gone through can follow an at-sign. -/
def Itemized (κ : Scene) (d : Dialect) (n : Node) : Prop :=
  ∀ name, n.bareName? = some name → '@' ∉ name.toList ∧ (κ.search = .everywhere → d.Spells name)

private theorem twin_joinItems {items : List Node} (h : Twins κ ss ts) (names : ∀ n ∈ items, Itemized κ σ.dialect n) :
    Twin κ (joinItems σ.dialect items ss) (joinItems σ.dialect (items.map Node.unlined) ts) := by
  refine tight_intercalate (twin_refl (by decide)) ?_
  induction h generalizing items with
  | nil => cases items <;> exact .nil
  | cons hst _ ih =>
    cases items with
    | nil => exact .nil
    | cons n items =>
      obtain ⟨hn, hns⟩ := List.forall_mem_cons.1 names
      refine .cons ?_ (ih hns)
      dsimp only
      rw [Node.bareName?_unlined]
      cases hb : n.bareName? with
      | none => exact hst
      | some name => exact σ.dialect.twin_variableRef (hn name hb).1 (hn name hb).2

theorem twin_loopHead {item : String} {key : Option String} {items : List Node} (h : Twins κ ss ts)
    (names : ∀ n ∈ items, Itemized κ σ.dialect n) :
    Twin κ (loopHead σ.dialect item key items ss) (loopHead σ.dialect item key (items.map Node.unlined) ts) := by
  unfold loopHead
  rw [← unlinedAll_eq, isSome_firstRange?_unlined]
  split
  · have head : Twin κ ("@for " ++ σ.dialect.variableRef item ++ " from ") _ :=
      twin_refl (clear_append (c := 'm') rfl (by decide))
    exact head.append (tight_intercalate (twin_refl (by decide)) h)
  · have head : Twin κ ("@each " ++ ", ".intercalate ((item :: key.toList).map σ.dialect.variableRef) ++ " in ") _ :=
      twin_refl (clear_append (c := 'n') rfl (by decide))
    rw [unlinedAll_eq]
    exact head.append (twin_joinItems h names)

/-- Parameters are twins with what comes after them. -/
structure Sealed (κ : Scene) (s t : String) : Prop where
  comma : Twin κ (s ++ ", ") (t ++ ", ")
  parenthesis : Twin κ (s ++ ")") (t ++ ")")

theorem sealed_of_twin (h : Twin κ s t) : Sealed κ s t :=
  ⟨h.append (twin_refl (by decide)), h.append (twin_refl (by decide))⟩

theorem sealed_refl (s : String) : Sealed κ s s :=
  ⟨twin_refl (clear_append (c := ',') rfl (by decide)), twin_refl (clear_append (c := ')') rfl (by decide))⟩

private theorem twin_params (h : List.Forall₂ (Sealed κ) ss ts) :
    Twin κ (", ".intercalate ss ++ ")") (", ".intercalate ts ++ ")") := by
  induction h with
  | nil => exact twin_refl (by decide)
  | cons hst hrest ih =>
    cases hrest with
    | nil =>
      rw [String.intercalate_singleton, String.intercalate_singleton]
      exact hst.parenthesis
    | cons _ _ =>
      rw [String.intercalate_cons_cons, String.intercalate_cons_cons]
      have both := hst.comma.append ih
      simpa only [String.append_assoc] using both

theorem twin_callableHead (d : Dialect) (kind : DefinitionKind) (name : String)
    (h : List.Forall₂ (Sealed κ) ss ts) :
    Twin κ (callableHead d kind name (", ".intercalate ss)) (callableHead d kind name (", ".intercalate ts)) := by
  have head : ∀ word : String, Twin κ (word ++ name ++ "(") (word ++ name ++ "(") := fun word =>
    twin_refl (clear_append (c := '(') rfl (by decide))
  cases kind with
  | function =>
    have both := (head "@function ").append (twin_params h)
    simpa only [callableHead, String.append_assoc] using both
  | mixin =>
    cases d with
    | scss =>
      have both := (head "@mixin ").append (twin_params h)
      simpa only [callableHead, Dialect.mixinSignature, String.append_assoc] using both
    | less =>
      have both := (head ".").append (twin_params h)
      simpa only [callableHead, Dialect.mixinSignature, String.append_assoc] using both

theorem twin_withEngines (vendorCopies : Bool) {pad pad' : String} (hp : Blank pad) (hp' : Blank pad')
    (h : Twin κ s t) : Twin κ (withEngines vendorCopies pad s) (withEngines vendorCopies pad' t) := by
  have standard : Twin κ "@keyframes " "@keyframes " := twin_refl (by decide)
  have one : ∀ engine ∈ engines, Clear returnKeyword ("@" ++ engine ++ "keyframes ").toList := by decide
  have copy : ∀ engine ∈ engines, Loose κ.word ("@" ++ engine ++ "keyframes " ++ s ++ "\n" ++ pad)
      ("@" ++ engine ++ "keyframes " ++ t ++ "\n" ++ pad') := by
    intro engine he
    have newline : Twin κ "\n" "\n" := twin_refl (by decide)
    exact (((twin_refl (one engine he)).append h).append newline).loose.append (loose_gap hp hp')
  have copies : Loose κ.word
      (String.join (engines.map fun engine => "@" ++ engine ++ "keyframes " ++ s ++ "\n" ++ pad))
      (String.join (engines.map fun engine => "@" ++ engine ++ "keyframes " ++ t ++ "\n" ++ pad')) := by
    apply loose_join
    rw [AllLoose, List.forall₂_map_left_iff, List.forall₂_map_right_iff, List.forall₂_same]
    exact copy
  have before : Twin κ (String.join (if vendorCopies then engines.map fun engine =>
        "@" ++ engine ++ "keyframes " ++ s ++ "\n" ++ pad else []) ++ "@keyframes ")
      (String.join (if vendorCopies then engines.map fun engine =>
        "@" ++ engine ++ "keyframes " ++ t ++ "\n" ++ pad' else []) ++ "@keyframes ") := by
    split
    · exact copies.append_tight standard (by decide)
    · exact tight_empty.loose.append_tight standard (by decide)
  exact before.append h

theorem twin_query {predicate : Option String} (hp : ∀ w ∈ predicate, '@' ∉ w.toList) (hm : Twin κ s t)
    (hf : Twins κ ss ts) : Twin κ (query predicate s ss) (query predicate t ts) := by
  have conditions : Twin κ (" and ".intercalate (if s.isEmpty then ss else s :: ss))
      (" and ".intercalate (if t.isEmpty then ts else t :: ts)) := by
    rw [← hm.isEmpty]
    refine tight_intercalate (twin_refl (by decide)) ?_
    split
    · exact hf
    · exact .cons hm hf
  cases predicate with
  | none => exact conditions
  | some w => exact ((twin_of_plain (hp w rfl)).append (twin_refl (by decide))).append conditions

theorem twin_feature {name name' : String} {value value' : Option String} (hn : Twin κ name name')
    (hv : Option.Rel (Twin κ) value value') : Twin κ (feature name value) (feature name' value') := by
  have opening : Twin κ "(" "(" := twin_refl (by decide)
  cases hv with
  | none => exact (opening.append hn).append (twin_refl (by decide))
  | some hv =>
    exact (((opening.append hn).append (twin_refl (by decide))).append hv).append (twin_refl (by decide))

theorem twin_atHead {name : String} {segments : List Node} (hn : '@' ∉ name.toList)
    (hs : κ.search = .everywhere → startsReturn name = false)
    (h : Twins κ ss ts) : Twin κ (atHead name segments ss) (atHead name (segments.map Node.unlined) ts) := by
  have word : Twin κ ("@" ++ name) ("@" ++ name) := twin_refl_of_searched fun hk => clear_at hn (hs hk)
  unfold atHead
  rw [List.isEmpty_map]
  refine word.append ?_
  split
  · exact tight_empty
  · exact (twin_refl (by decide)).append (twin_joinSegments h)

theorem joinPath_unlined (pieces : List Node) (texts : List String) :
    joinPath (pieces.map Node.unlined) texts = joinPath pieces texts := by
  simp only [joinPath, List.zip_map_left, List.map_map]
  congr 2
  funext ⟨n, t⟩
  simp

theorem pathQuote_unlined (pieces : List Node) : pathQuote (pieces.map Node.unlined) = pathQuote pieces := by
  have same : (Node.quotedText? ∘ Node.unlined) = Node.quotedText? := funext Node.quotedText?_unlined
  simp only [pathQuote, List.filterMap_map, same]

theorem plain_outputPath (d : Dialect) {path : String} (h : '@' ∉ path.toList) : '@' ∉ (outputPath d path).toList := by
  unfold outputPath
  cases hb : before? sheetEnding path with
  | none => exact h
  | some stem =>
    rw [append_of_before? hb, String.toList_append, List.mem_append, not_or] at h
    rw [String.toList_append, List.mem_append, not_or]
    exact ⟨h.1, by cases d <;> decide⟩

theorem plain_pathQuote {pieces : List Node}
    (quotes : ∀ n ∈ pieces, ∀ q, n.quotedText? = some q → '@' ∉ q.quote.toList) : '@' ∉ (pathQuote pieces).toList := by
  unfold pathQuote
  cases hf : ((pieces.filterMap Node.quotedText?).map (·.quote)).find? fun q => !q.isEmpty with
  | none => simp
  | some quote =>
    obtain ⟨q, hq, rfl⟩ := List.mem_map.1 (List.mem_of_find?_eq_some hf)
    obtain ⟨n, hn, hnq⟩ := List.mem_filterMap.1 hq
    exact quotes n hn q hnq

theorem joinPath_cons (n : Node) (ns : List Node) (t : String) (ts : List String) :
    joinPath (n :: ns) (t :: ts) = (n.quotedText?.map (·.text)).getD t ++ joinPath ns ts := by
  simp only [joinPath, List.zip_cons_cons, List.map_cons, String.join_cons]

/-- A path of literals and quoted pieces reads the same in both runs. -/
theorem joinPath_eq {pieces : List Node} (h : AllRead κ pieces ss ts)
    (hp : ∀ n ∈ pieces, n.isLiteral || n.quotedText?.isSome) (texts : ∀ n ∈ pieces, ∀ w ∈ n.texts, '@' ∉ w.toList) :
    joinPath pieces ss = joinPath pieces ts ∧ '@' ∉ (joinPath pieces ss).toList := by
  induction h with
  | nil => exact ⟨rfl, by simp [joinPath]⟩
  | @cons n ns t t' ts ts' head _ ih =>
    obtain ⟨hn, hns⟩ := List.forall_mem_cons.1 hp
    obtain ⟨wn, wns⟩ := List.forall_mem_cons.1 texts
    obtain ⟨heq, hplain⟩ := ih hns wns
    have first : (n.quotedText?.map (·.text)).getD t = (n.quotedText?.map (·.text)).getD t' ∧
        '@' ∉ ((n.quotedText?.map (·.text)).getD t).toList := by
      cases n with
      | literal text line =>
        obtain ⟨ht, ht'⟩ := head.literal text line rfl
        rw [ht, ht']
        exact ⟨rfl, wn text (by simp)⟩
      | quoted q => exact ⟨rfl, wn q.text (by simp)⟩
      | _ => simp [Node.isLiteral, Node.quotedText?] at hn
    rw [joinPath_cons, joinPath_cons, heq, first.1, String.toList_append, List.mem_append, not_or]
    refine ⟨rfl, ?_, ?_⟩
    · rw [← first.1]
      exact first.2
    · rw [← heq]
      exact hplain

theorem plain_keptText {c : Comment} (h : '@' ∉ c.text.toList) : '@' ∉ (keptText c).toList := by
  unfold keptText
  split
  · next rest hr =>
    split
    · exact h
    · rw [append_of_after? hr, String.toList_append, List.mem_append, not_or] at h
      rw [String.toList_append, List.mem_append, not_or]
      exact ⟨by decide, h.2⟩
  · exact h

/-- A comment that is worth a text keeps one. -/
theorem substantial_keptText {c : Comment} (h : Substantial c.text) : Substantial (keptText c) := by
  unfold keptText
  split
  · split
    · exact h
    · exact ⟨'/', by simp, by decide⟩
  · exact h

end Stylesheet.Render
