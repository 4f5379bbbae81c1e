import Stylesheet.Proofs.Lines.Values
import Stylesheet.Proofs.Success

/-!
# Constructs in step

Each construct is in step with itself on other lines if its parts are. What it is written as are twins, but for
selectors, which come behind white space.
-/

namespace Stylesheet

open Text Rendering

/-- Twins that are not all semicolons. -/
structure Braced (κ : Scene) (s t : String) : Prop where
  twin : Twin κ s t
  more : Substantial s

namespace Rendering

variable {σ : Style} {κ : Scene} {m m' : Rendering String}

theorem InStep.twin (h : InStep σ κ m m' (Braced κ)) : InStep σ κ m m' (Twin κ) := h.mono fun _ _ hb => hb.twin

theorem InStep.reads {n : Node} (hs : n.isSelector = false) (hl : n.isLiteral = false)
    (h : InStep σ κ m m' (Twin κ)) : InStep σ κ m m' (Reads κ n) := h.mono fun _ _ => .of_twin hs hl

theorem InStep.read {n : Node} (hs : n.isSelector = false) (h : InStep σ κ m m' (Reads κ n)) :
    InStep σ κ m m' (Twin κ) := h.mono fun _ _ hr => hr.twin hs

theorem InStep.twins {ns : List Node} {ms ms' : Rendering (List String)} (hs : ∀ n ∈ ns, n.isSelector = false)
    (h : InStep σ κ ms ms' (AllRead κ ns)) : InStep σ κ ms ms' (Twins κ) := h.mono fun _ _ hr => hr.twins hs

end Rendering

namespace Render

variable {σ : Style} {κ : Scene} {line line' : Option Nat} {text text' body body' : Rendering String}
  {texts texts' : Rendering (List String)} {s t : String}

theorem inStep_named {R : List String → List String → Prop} {S : String → String → Prop}
    {segments segments' : List Node} (h : InStep σ κ texts texts' R)
    (hr : ∀ ts ts', R ts ts' → S (joinSegments segments ts) (joinSegments segments' ts')) :
    InStep σ κ (named segments texts) (named segments' texts') S :=
  h.bind fun ts ts' hts => inStep_pure (hr ts ts' hts)

theorem inStep_name {segments : List Node} (plain : ∀ n ∈ segments, n.isSelector = false)
    (h : InStep σ κ texts texts' (AllRead κ segments)) :
    InStep σ κ (named segments texts) (named (unlinedAll segments) texts') (Twin κ) := by
  refine inStep_named h fun ts ts' hts => ?_
  rw [unlinedAll_eq]
  exact twin_joinSegments (hts.twins plain)

private theorem twin_terminated (h : Twin κ s t) : Twin κ (terminated s) (terminated t) := by
  unfold terminated
  rw [h.endsWith, h.endsWith]
  split
  · exact h
  · exact h.append (twin_refl (by decide))

private theorem inStep_insertReturn (h : Twin κ s t) : InStep σ κ (insertReturn σ.dialect.returnWord s)
    (insertReturn σ.dialect.returnWord t) (Twin κ) := by
  have runs : ∀ (content : String) (p : Pass), ∃ gap q, (insertReturn σ.dialect.returnWord content).Gives σ p
      (gap ++ σ.dialect.returnWord ++ trimStart content) q ∧ Blank gap ∧ (q = p ∨ q = p.nextLine) := by
    intro content p
    obtain ⟨t, q, h⟩ := (insertReturn_succeeds σ.dialect.returnWord content σ p).2 trivial
    obtain ⟨gap, rfl, ⟨rfl, rfl⟩ | ⟨rfl, rfl⟩⟩ := insertReturn_gives h
    · exact ⟨_, _, h, blank_margin content, .inl rfl⟩
    · exact ⟨_, _, h, blank_newline.append (blank_indent p), .inr rfl⟩
  refine inStep_of_gives fun p p' hp => ?_
  obtain ⟨gap, q, hs, hb, hq⟩ := runs s p
  obtain ⟨gap', q', ht, hb', hq'⟩ := runs t p'
  refine ⟨_, q, _, q', hs, ht, ?_, ?_⟩
  · have word : Substantial σ.dialect.returnWord := by cases σ.dialect <;> decide
    exact ((loose_gap hb hb').append_tight σ.dialect.twin_returnWord word).append h.trimStart
  · rcases hq with rfl | rfl <;> rcases hq' with rfl | rfl <;> exact { hp with }

private theorem inStep_withReturn (h : Twin κ s t) : InStep σ κ (withReturn s) (withReturn t) (Twin κ) := by
  have found (hk : κ.search = .everywhere) :
      contains (dropTrailing ' ' σ.dialect.returnWord) s = contains (dropTrailing ' ' σ.dialect.returnWord) t := by
    have word : dropTrailing ' ' σ.dialect.returnWord = .ofList returnKeyword := by cases σ.dialect <;> decide
    have alike : Tight returnKeyword s t := by rwa [Twin, Scene.word_of_searched hk] at h
    rw [word]
    exact alike.loose.spaced.contains (by decide) (by decide)
  refine (inStep_observe fun _ _ hp => hp.inAny _).bind fun inCallable _ hi => ?_
  subst hi
  have returns : InStep σ κ (observe (·.returning)) (observe (·.returning))
      fun b b' => b' = b ∧ (b → κ.returns) := inStep_observe fun _ _ hp => ⟨hp.returning.symm, hp.returns⟩
  refine returns.bind fun returning _ hr => ?_
  obtain ⟨rfl, hk⟩ := hr
  refine InStep.ite Iff.rfl (fun hb => ?_) fun _ => inStep_pure h
  have found := found (κ.searched (hk (Bool.and_eq_true_iff.1 hb).2))
  refine inStep_dialect.bind fun d d' hd => ?_
  rw [hd.1, hd.2]
  dsimp only
  rw [found]
  exact (InStep.ite Iff.rfl (fun _ => inStep_pure h) fun _ => inStep_insertReturn h).either fun _ _ hst =>
    inStep_pure (twin_terminated hst)

private theorem loose_ownLines (p p' : Pass) (h : Twin κ s t) : Loose κ.word (p.ownLines s) (p'.ownLines t) := by
  have led : ∀ (p : Pass) (s : String), ∃ gap, Blank gap ∧ p.ownLines s = gap ++ trimStart s := by
    intro p s
    unfold Pass.ownLines
    split
    · exact ⟨margin s, blank_margin s, (margin_append_trimStart s).symm⟩
    · exact ⟨"\n" ++ p.indent, blank_newline.append (blank_indent p), rfl⟩
  obtain ⟨gap, hb, hs⟩ := led p s
  obtain ⟨gap', hb', ht⟩ := led p' t
  rw [hs, ht]
  exact (loose_gap hb hb').append h.trimStart.loose

private theorem inStep_ownLines (h : Twin κ s t) : InStep σ κ
    (if startsWith '\n' s then pure s else do return "\n" ++ (← indent) ++ trimStart s)
    (if startsWith '\n' t then pure t else do return "\n" ++ (← indent) ++ trimStart t) (Loose κ.word) := by
  have runs : ∀ (s : String) (p : Pass), (if startsWith '\n' s then pure s else do
      return "\n" ++ (← indent) ++ trimStart s : Rendering String).Gives σ p (p.ownLines s) p := by
    intro s p
    unfold Pass.ownLines
    split
    · exact gives_pure.2 ⟨rfl, rfl⟩
    · simp
  exact inStep_of_gives fun p p' hp => ⟨_, _, _, _, runs s p, runs t p', loose_ownLines p p' h, hp⟩

theorem inStep_block (h : InStep σ κ text text' (Twin κ)) : InStep σ κ (block text) (block text') (Braced κ) := by
  have inner := InStep.deeper (h.bind fun s t hst =>
    (inStep_withReturn hst).bind fun s' t' hst' => inStep_ownLines hst')
  refine inner.bind fun s t hst => inStep_indent.bind fun pad pad' ⟨hp, hp'⟩ => ?_
  refine inStep_pure ⟨?_, ' ', by simp, by decide⟩
  have opening : Twin κ " \x7b" " \x7b" := twin_refl (by decide)
  have newline : Twin κ "\n" "\n" := twin_refl (by decide)
  have lines := (((opening.loose.append hst).append newline.loose).append (loose_gap hp hp'))
  exact lines.append_tight (twin_refl (by decide)) (by decide)

/-- A selector of literals and interpolated lists. -/
theorem inStep_selector {segments : List Node} {l : Option Nat} (h : InStep σ κ texts texts' (AllRead κ segments))
    (plain : ∀ n ∈ segments, n.isSelector = false) (hs : ∀ n ∈ segments, n.isLiteral || n.isExpression) :
    InStep σ κ (selector segments texts) (selector (unlinedAll segments) texts')
      (Reads κ (.selector segments l)) := by
  rw [unlinedAll_eq]
  have name : InStep σ κ (named segments texts) (named (segments.map Node.unlined) texts') fun s t => Twin κ s t ∧
      (s = t ∨ "#\x7b".toList <:+: s.toList ∧ "#\x7b".toList <:+: t.toList) :=
    inStep_named h fun ts ts' hts =>
      ⟨twin_joinSegments (hts.twins plain), joinSegments_same_or_interpolated hts hs⟩
  refine (inStep_lineStart _ _).bind fun gap gap' ⟨hb, hb'⟩ => ?_
  refine name.bind fun name name' ⟨hn, hsame⟩ => inStep_pure ?_
  refine ⟨?_, fun hf => ?_, fun text line he => ?_, fun _ => ?_⟩
  · rw [Led, trimStart_append hb, trimStart_append hb']
    exact hn.trimStart
  · cases hf
  · cases he
  · rw [trimStart_append hb, trimStart_append hb']
    rcases hsame with h | ⟨h, h'⟩
    · exact .inl (by rw [h])
    · exact .inr ⟨infix_trimStart (by decide) h, infix_trimStart (by decide) h'⟩

theorem inStep_ruleSet {ns : List Node} (hs : InStep σ κ texts texts' (AllRead κ ns))
    (selectors : κ.steps → ∀ n ∈ ns, n.isSelector) (hb : InStep σ κ body body' (Braced κ)) :
    InStep σ κ (ruleSet line texts body) (ruleSet line' texts' body') (Twin κ) := by
  refine (inStep_lineStart line line').bind fun gap gap' ⟨hg, hg'⟩ => ?_
  refine hs.bind fun heads heads' hh => hb.bind fun content content' hc => ?_
  -- The look at the place and the head that comes of it are one step here.
  have head : InStep σ κ (do
      let inKeyframes ← observe (·.inAny [.keyframes])
      let head := if inKeyframes && isComputedStep (joinSelectors heads) then
        "#\x7b" ++ joinSelectors heads ++ "\x7d" else joinSelectors heads
      return gap ++ head ++ content) (do
      let inKeyframes ← observe (·.inAny [.keyframes])
      let head := if inKeyframes && isComputedStep (joinSelectors heads') then
        "#\x7b" ++ joinSelectors heads' ++ "\x7d" else joinSelectors heads'
      return gap' ++ head ++ content') (Twin κ) := by
    refine inStep_of_gives fun p p' hp => ?_
    refine ⟨gap ++ ruleHead p heads ++ content, p, gap' ++ ruleHead p' heads' ++ content', p', ?_, ?_, ?_, hp⟩
    · simp [ruleHead]
    · simp [ruleHead]
    · exact ((loose_gap hg hg').append (loose_ruleHead hp hh selectors)).append_tight hc.twin hc.more
  exact head

theorem inStep_reference {id : Identifier Node} (plain : '@' ∉ id.name.toList) (hash : '#' ∉ id.name.toList)
    (spells : κ.search = .everywhere → σ.dialect.Spells id.name) :
    InStep σ κ (reference id) (reference id.unlined) (Twin κ) := by
  refine inStep_of_gives fun p p' hp => ?_
  refine ⟨referenceText σ.dialect p id, p, referenceText σ.dialect p' id.unlined, p', ?_, ?_, ?_, hp⟩
  · simp [reference]
  · simp [reference]
  · exact twin_referenceText hp id plain hash spells

private theorem clear_assigned (d : Dialect) (name : String) :
    Clear returnKeyword (d.variableRef name ++ ": ").toList :=
  clear_append (c := ':') rfl (by decide)

private theorem twin_assigned {name gap gap' : String} (hg : Loose κ.word gap gap') (h : Twin κ s t) :
    Twin κ (gap ++ σ.dialect.variableRef name ++ ": " ++ dropTrailing ';' s ++ ";")
      (gap' ++ σ.dialect.variableRef name ++ ": " ++ dropTrailing ';' t ++ ";") := by
  have named := hg.append_tight (twin_refl (clear_assigned σ.dialect name)) ⟨':', by simp, by decide⟩
  have all := (named.append h.dropTrailing).append (twin_refl (by decide) : Twin κ ";" ";")
  simpa only [String.append_assoc] using all

theorem inStep_assignment {name : String} {value : Expression Node} (h : InStep σ κ texts texts' (Twins κ)) :
    InStep σ κ (assignment name value texts) (assignment name value.unlined texts') (Twin κ) := by
  have rest : InStep σ κ (do
      let inCall ← observe (·.inAny [.call])
      let before ← if inCall then pure "" else lineStart value.line
      let texts ← within [.declarationValue] texts
      register (·.addVariable name)
      return before ++ (← variableRef name) ++ ": " ++ dropTrailing ';' (" ".intercalate texts) ++ ";") (do
      let inCall ← observe (·.inAny [.call])
      let before ← if inCall then pure "" else lineStart none
      let texts ← within [.declarationValue] texts'
      register (·.addVariable name)
      return before ++ (← variableRef name) ++ ": " ++ dropTrailing ';' (" ".intercalate texts) ++ ";") (Twin κ) := by
    refine (inStep_observe fun _ _ hp => hp.inAny _).bind fun inCall _ hi => ?_
    subst hi
    have before : InStep σ κ (if inCall then pure "" else lineStart value.line)
        (if inCall then pure "" else lineStart none) fun s t => Blank s ∧ Blank t :=
      InStep.ite Iff.rfl (fun _ => inStep_pure ⟨by simp [Blank], by simp [Blank]⟩) fun _ => inStep_lineStart _ _
    refine before.either fun gap gap' hg => ?_
    refine (h.within (by decide)).bind fun ts ts' hts => ?_
    refine (inStep_register fun _ _ hr => hr.addVariable name).bind fun _ _ _ => ?_
    refine (inStep_variableRef name).bind fun ref ref' hr => inStep_pure ?_
    rw [hr.1, hr.2]
    exact twin_assigned (loose_gap hg.1 hg.2) (tight_intercalate (twin_refl (by decide)) hts)
  unfold assignment
  rw [Expression.holdsMap_unlined]
  exact InStep.ite Iff.rfl (fun _ => (inStep_register fun _ _ hr => hr.addMap name).bind fun _ _ _ => rest)
    fun _ => rest

theorem inStep_boundValue {name : String} (h : InStep σ κ text text' (Twin κ)) :
    InStep σ κ (boundValue name line text) (boundValue name line' text') (Twin κ) := by
  refine (inStep_lineStart line line').bind fun gap gap' ⟨hg, hg'⟩ => ?_
  refine (h.within (by decide)).bind fun value value' hv => ?_
  refine (inStep_register fun _ _ hr => hr.addVariable name).bind fun _ _ _ => ?_
  refine (inStep_variableRef name).bind fun ref ref' ⟨hr, hr'⟩ => inStep_pure ?_
  rw [hr, hr']
  exact twin_assigned (loose_gap hg hg') hv

/-- A declaration, whose name is that of its segments and whose inner assignment can follow an at-sign. -/
theorem inStep_property {value : Expression Node}
    (hn : InStep σ κ text text' fun s t => Twin κ s t ∧ NameAlike s t)
    (inner : ∀ name, value.inlineName? = some name →
      Twin κ.inValue (σ.dialect.variableRef name) (σ.dialect.variableRef name))
    (hv : InStep σ κ.inValue body body' (Twin κ.inValue)) :
    InStep σ κ (property line text value body) (property line' text' value.unlined body') (Twin κ) := by
  have colon : Twin κ ": " ": " := twin_refl (by decide)
  have semicolon : Twin κ ";" ";" := twin_refl (by decide)
  refine (inStep_lineStart line line').bind fun gap gap' ⟨hg, hg'⟩ => ?_
  have led : ∀ {s t : String}, Twin κ s t → Substantial s → Twin κ (gap ++ s) (gap' ++ t) := fun hst hne =>
    (loose_gap hg hg').append_tight hst hne
  refine InStep.within (by decide) ?_
  refine hn.bind fun name name' ⟨hname, halike⟩ => ?_
  refine (inStep_observe fun _ _ hp => hp.registry.nextSlot).bind fun slot _ hslot => ?_
  subst hslot
  refine (inStep_register fun _ _ hr => hr.openDeclaration halike).bind fun _ _ _ => ?_
  refine hv.inValue.bind fun content content' known => ?_
  have hc : Twin κ content content' := twin_of_inValue known
  rw [Expression.inlineName?_unlined, Expression.handsBlock_unlined, hc.endsWith]
  cases hi : value.inlineName? with
  | some name =>
    refine (inStep_variableRef name).bind fun ref ref' ⟨hr, hr'⟩ => ?_
    subst hr hr'
    have known := tight_of_inValue (inner name hi)
    refine (inStep_register fun _ _ h => (h.addVariable name).closeDeclaration known slot).bind fun _ _ _ => ?_
    refine inStep_indent.bind fun pad pad' ⟨hp, hp'⟩ => inStep_pure ?_
    have before : Loose κ.word (gap ++ trimStart content ++ "\n" ++ pad) (gap' ++ trimStart content' ++ "\n" ++ pad') :=
      (((loose_gap hg hg').append hc.trimStart.loose).append (loose_gap blank_newline blank_newline)).append
        (loose_gap hp hp')
    have named := before.append_tight (hname.append colon) ⟨':', by simp, by decide⟩
    have all := (named.append (twin_of_inValue (inner name hi))).append semicolon
    simpa only [String.append_assoc] using all
  | none =>
    have known := tight_of_inValue known
    refine (inStep_register fun _ _ h => h.closeDeclaration known slot).bind fun _ _ _ => inStep_pure ?_
    have declared := led (hname.append colon) ⟨':', by simp, by decide⟩
    have terminator : Twin κ (if endsWith ';' content' || value.handsBlock then "" else ";")
        (if endsWith ';' content' || value.handsBlock then "" else ";") := by
      split
      · exact tight_empty
      · exact semicolon
    have all := (declared.append hc).append terminator
    simpa only [String.append_assoc] using all

private theorem inStep_returnStart (line line' : Option Nat) :
    InStep σ κ (returnStart line) (returnStart line') (Twin κ) := by
  refine (inStep_lineStart line line').bind fun gap gap' ⟨hg, hg'⟩ => ?_
  refine inStep_dialect.bind fun d d' ⟨hd, hd'⟩ => inStep_pure ?_
  rw [hd, hd']
  have word : Substantial σ.dialect.returnWord := by cases σ.dialect <;> decide
  exact (loose_gap hg hg').append_tight σ.dialect.twin_returnWord word

theorem inStep_expression {e : Expression Node} (h : InStep σ κ texts texts' (Twins κ)) :
    InStep σ κ (expression e texts) (expression e.unlined texts') (Twin κ) := by
  refine (inStep_observe fun _ _ hp => hp.inAny _).bind fun inside _ hi => ?_
  subst hi
  refine (inStep_observe fun _ _ hp => hp.inAny _).bind fun inValue _ hi => ?_
  subst hi
  have returned : InStep σ κ (observe fun p => p.returning && !inside) (observe fun p => p.returning && !inside)
      (· = ·) := inStep_observe fun _ _ hp => by rw [hp.returning]
  refine returned.bind fun returned _ hr => ?_
  subst hr
  have before : InStep σ κ (if returned then returnStart e.line else pure "")
      (if returned then returnStart none else pure "") (Twin κ) :=
    InStep.ite Iff.rfl (fun _ => inStep_returnStart _ _) fun _ => inStep_pure tight_empty
  refine before.either fun before before' hb => ?_
  refine (h.within (by decide)).bind fun ts ts' hts => ?_
  have address : InStep σ κ (observe fun p => p.inAny [.call] && p.callName == some "url")
      (observe fun p => p.inAny [.call] && p.callName == some "url") (· = ·) :=
    inStep_observe fun _ _ hp => by rw [hp.inAny, hp.callName]
  refine address.bind fun isAddress _ ha => inStep_pure ?_
  subst ha
  have operands : Twin κ (joinOperands inValue e.operands ts) (joinOperands inValue e.unlined.operands ts') := by
    rw [Expression.unlined_operands]
    exact twin_joinOperands inValue hts
  refine hb.append ?_
  split
  · exact operands.removeBlanks
  · exact operands

theorem inStep_arguments (h : InStep σ κ texts texts' (Twins κ)) :
    InStep σ κ (arguments texts) (arguments texts') (Twin κ) := by
  refine InStep.within (by decide) (h.bind fun ts ts' hts => inStep_pure ?_)
  refine tight_intercalate (twin_refl (by decide)) ?_
  rw [AllTight, List.forall₂_map_left_iff, List.forall₂_map_right_iff]
  exact hts.imp fun _ _ hst => hst.dropTrailing

private theorem inStep_inclusionStart (hs : Blank s) (ht : Blank t) :
    InStep σ κ (inclusionStart s) (inclusionStart t) (Loose κ.word) := by
  have owed : ∀ {s}, Blank s → Blank (if s.isEmpty then "\n" else s) := by
    intro s hs
    split
    · exact blank_newline
    · exact hs
  refine inStep_indent.bind fun pad pad' ⟨hp, hp'⟩ => ?_
  refine inStep_dialect.bind fun d d' ⟨hd, hd'⟩ => inStep_pure ?_
  rw [hd, hd']
  exact ((loose_gap (owed hs) (owed ht)).append (loose_gap hp hp')).append σ.dialect.twin_inclusion.loose

theorem inStep_call {name : String} {handed handed' : Option (Rendering String)} (hn : '@' ∉ name.toList)
    (h : InStep σ κ texts texts' (Twins κ))
    (hb : Option.Rel (fun b b' => InStep σ κ b b' (Twin κ)) handed handed') :
    InStep σ κ (call name line texts handed) (call name line' texts' handed') (Twin κ) := by
  refine (inStep_lineBreaks line line').bind fun owed owed' ⟨ho, ho'⟩ => ?_
  refine (inStep_observe fun _ _ hp => hp.inAny _).bind fun inside _ hi => ?_
  subst hi
  have included : InStep σ κ (observe fun p => !p.returning && !inside) (observe fun p => !p.returning && !inside)
      (· = ·) := inStep_observe fun _ _ hp => by rw [hp.returning]
  refine included.bind fun statement _ hs => ?_
  subst hs
  have before : InStep σ κ (if statement then inclusionStart owed else pure owed)
      (if statement then inclusionStart owed' else pure owed') (Loose κ.word) :=
    InStep.ite Iff.rfl (fun _ => inStep_inclusionStart ho ho') fun _ => inStep_pure (loose_gap ho ho')
  refine before.either fun before before' hbefore => ?_
  refine (inStep_arguments h).calling.bind fun args args' ha => ?_
  have called : Twin κ (before ++ name ++ "(" ++ args ++ ")") (before' ++ name ++ "(" ++ args' ++ ")") := by
    have opening : Twin κ (name ++ "(") (name ++ "(") := twin_of_plain (by simp [hn])
    have closing : Twin κ ")" ")" := twin_refl (by decide)
    have all := ((hbefore.append_tight opening ⟨'(', by simp, by decide⟩).append ha).append closing
    simpa only [String.append_assoc] using all
  cases hb with
  | none =>
    refine inStep_pure (called.append ?_)
    split
    · exact twin_refl (by decide)
    · exact tight_empty
  | some hb => exact hb.bind fun content content' hc => inStep_pure (called.append hc)

theorem inStep_member {left right : Node} {leftText leftText' rightText rightText' : Rendering String}
    (quote : σ.quote ≠ '@') (hleft : Itemized κ σ.dialect left) (hright : Itemized κ σ.dialect right)
    (hl : InStep σ κ leftText leftText' (Twin κ)) (hr : InStep σ κ rightText rightText' (Twin κ)) :
    InStep σ κ (member left right leftText rightText)
      (member left.unlined right.unlined leftText' rightText') (Twin κ) := by
  have comma : Twin κ ", " ", " := twin_refl (by decide)
  have closing : Twin κ ")" ")" := twin_refl (by decide)
  have mark : Twin κ σ.quote.toString σ.quote.toString := twin_of_plain (by simpa using quote.symm)
  rw [member_eq, member_eq, Node.chainStart?_unlined, Node.bareName?_unlined, Node.bareName?_unlined]
  have known : InStep σ κ (observe fun p => (left.chainStart?.map p.registry.knowsMap).getD false)
      (observe fun p => (left.chainStart?.map p.registry.knowsMap).getD false) (· = ·) := by
    refine inStep_observe fun p p' hp => ?_
    have same : p.registry.knowsMap = p'.registry.knowsMap := funext fun name => hp.registry.knowsMap name
    rw [same]
  refine known.bind fun ofMap _ hm => ?_
  subst hm
  refine InStep.ite Iff.rfl (fun _ => ?_) fun _ => ?_
  · have owner : InStep σ κ (left.bareName?.elim leftText variableRef) (left.bareName?.elim leftText' variableRef)
        (Twin κ) := by
      cases hb : left.bareName? with
      | none => exact hl
      | some name =>
        refine (inStep_variableRef name).mono fun ref ref' ⟨h, h'⟩ => ?_
        rw [h, h']
        exact σ.dialect.twin_variableRef (hleft name hb).1 (hleft name hb).2
    have key : InStep σ κ (right.bareName?.elim rightText pure) (right.bareName?.elim rightText' pure) (Twin κ) := by
      cases hb : right.bareName? with
      | none => exact hr
      | some name => exact inStep_pure (twin_of_plain (hright name hb).1)
    refine owner.bind fun owner owner' ho => key.bind fun key key' hk => ?_
    refine inStep_read.bind fun τ τ' ⟨hτ, hτ'⟩ => inStep_pure ?_
    rw [hτ, hτ']
    have opening : Twin κ "map-get(" "map-get(" := twin_refl (by decide)
    exact (((((opening.append ho).append comma).append mark).append hk).append mark).append closing
  · refine hl.bind fun owner owner' ho => hr.bind fun key key' hk => inStep_pure ?_
    exact (ho.append (twin_refl (by decide))).append hk

structure EntryAlike (κ : Scene) (e e' : String × String) : Prop where
  key : e.1 = e'.1
  plain : '@' ∉ e.1.toList
  value : Twin κ e.2 e'.2

theorem inStep_mapLiteral {entries entries' : Rendering (List (String × String))} (quote : σ.quote ≠ '@')
    (h : InStep σ κ entries entries' (List.Forall₂ (EntryAlike κ))) :
    InStep σ κ (mapLiteral line entries) (mapLiteral line' entries') (Twin κ) := by
  have mark : Twin κ σ.quote.toString σ.quote.toString := twin_of_plain (by simpa using quote.symm)
  refine inStep_read.bind fun τ τ' hτ => ?_
  rw [hτ.1, hτ.2]
  refine InStep.bind (R := AllLoose κ.word) ?_ fun ls ls' hl => ?_
  · refine InStep.deeper (inStep_indent.bind fun pad pad' hp => ?_)
    refine (h.within (by decide)).bind fun es es' hes => inStep_pure ?_
    rw [AllLoose, List.forall₂_map_left_iff, List.forall₂_map_right_iff]
    refine hes.imp fun e e' he => ?_
    obtain ⟨key, value⟩ := e
    obtain ⟨key', value'⟩ := e'
    obtain ⟨hk, hplain, hv⟩ := he
    dsimp only at hk hplain hv ⊢
    subst hk
    have colon : Twin κ ": " ": " := twin_refl (by decide)
    have before : Loose κ.word ("\n" ++ pad) ("\n" ++ pad') :=
      (loose_gap blank_newline blank_newline).append (loose_gap hp.1 hp.2)
    have keyed := ((mark.append (twin_of_plain hplain)).append mark).append colon
    have all := (before.append keyed.loose).append hv.loose.eraseFirst
    simpa only [String.append_assoc] using all
  · have closed : InStep σ κ (do return "(" ++ ",".intercalate ls ++ "\n" ++ (← indent) ++ ")")
        (do return "(" ++ ",".intercalate ls' ++ "\n" ++ (← indent) ++ ")") (Twin κ) := by
      refine inStep_indent.bind fun pad pad' hp => inStep_pure ?_
      have opening : Twin κ "(" "(" := twin_refl (by decide)
      have comma : Twin κ "," "," := twin_refl (by decide)
      have before := (opening.loose.append (loose_intercalate comma.loose hl)).append
        (loose_gap blank_newline blank_newline)
      exact (before.append (loose_gap hp.1 hp.2)).append_tight (twin_refl (by decide)) (by decide)
    have moved : InStep σ κ (modify (afterMap · line ls.length)) (modify (afterMap · line' ls'.length))
        fun _ _ => True := by
      refine inStep_modify fun p p' hp => ?_
      cases line <;> cases line' <;> exact { hp with }
    have all := moved.bind fun _ _ _ => closed
    cases line <;> cases line' <;> exact all

/-- A parameter is closed by what comes after it, so its name may be any. -/
theorem inStep_param (id : Identifier Node) (h : id.isBound → InStep σ κ text text' (Twin κ)) :
    InStep σ κ (param id text) (param id.unlined text') (Sealed κ) := by
  refine (inStep_variableRef id.name).bind fun ref ref' ⟨hr, hr'⟩ => ?_
  rw [hr, hr', Identifier.isBound_unlined]
  have value : InStep σ κ (if id.isBound then defaultValue text else pure "")
      (if id.isBound then defaultValue text' else pure "")
      fun s t => s = "" ∧ t = "" ∨ ∃ u v, Twin κ u v ∧ s = ": " ++ u ∧ t = ": " ++ v := by
    refine InStep.ite Iff.rfl (fun hb => ?_) fun _ => inStep_pure (.inl ⟨rfl, rfl⟩)
    exact ((h hb).within (by decide)).bind fun s t hst =>
      inStep_pure (.inr ⟨dropTrailing ';' s, dropTrailing ';' t, hst.dropTrailing, rfl, rfl⟩)
  refine value.either fun value value' hv => ?_
  refine (inStep_register fun _ _ hr => hr.addVariable id.name).bind fun _ _ _ => inStep_pure ?_
  show Sealed κ (_ ++ value ++ if id.rest then "..." else "") (_ ++ value' ++ if id.rest then "..." else "")
  rcases hv with ⟨rfl, rfl⟩ | ⟨u, v, huv, rfl, rfl⟩
  · exact sealed_refl _
  · have named : Twin κ (σ.dialect.variableRef id.name ++ ": ") (σ.dialect.variableRef id.name ++ ": ") :=
      twin_refl (clear_assigned σ.dialect id.name)
    have rest : Twin κ (if id.rest then "..." else "") (if id.rest then "..." else "") := by
      split <;> exact twin_refl (by decide)
    have all := (named.append huv).append rest
    exact sealed_of_twin (by simpa only [String.append_assoc] using all)

theorem inStep_callable {name : String} {kind : DefinitionKind} {names : List String}
    (hk : kind = .function → κ.search ≠ .nowhere)
    (h : InStep σ (κ.inCallable kind) texts texts' (List.Forall₂ (Sealed (κ.inCallable kind))))
    (hb : InStep σ (κ.inCallable kind) body body' (Twin (κ.inCallable kind))) :
    InStep σ κ (callable name line kind names texts body) (callable name line' kind names texts' body') (Twin κ) := by
  refine (inStep_lineStart line line').bind fun gap gap' ⟨hg, hg'⟩ => ?_
  refine (inStep_register fun _ _ hr => hr.setParams names).bind fun _ _ _ => ?_
  have inner : InStep σ (κ.inCallable kind) (within [.callableBody] do
      let params ← texts
      let body ← body
      return (", ".intercalate params, body)) (within [.callableBody] do
      let params ← texts'
      let body ← body'
      return (", ".intercalate params, body))
      fun x y => ∃ ss ts, List.Forall₂ (Sealed (κ.inCallable kind)) ss ts ∧ x.1 = ", ".intercalate ss ∧
        y.1 = ", ".intercalate ts ∧ Twin (κ.inCallable kind) x.2 y.2 :=
    InStep.within (by decide) (h.bind fun ss ts hst => hb.bind fun _ _ hc =>
      inStep_pure ⟨ss, ts, hst, rfl, rfl, hc⟩)
  refine inner.inCallable hk ?_
  intro ⟨params, content⟩ ⟨params', content'⟩ ⟨ss, ts, hst, hps, hpt, hc⟩
  dsimp only at hps hpt hc ⊢
  refine (inStep_register fun _ _ hr => hr.clearParams).bind fun _ _ _ => ?_
  refine inStep_dialect.bind fun d d' ⟨hd, hd'⟩ => inStep_pure ?_
  rw [hd, hd', hps, hpt]
  have head : Twin κ _ _ := twin_of_inCallable (twin_callableHead σ.dialect kind name hst)
  have more : Substantial (callableHead σ.dialect kind name (", ".intercalate ss)) := by
    cases kind with
    | function => exact ⟨'@', by simp [callableHead], by decide⟩
    | mixin => cases σ.dialect <;> exact ⟨'(', by simp [callableHead, Dialect.mixinSignature], by decide⟩
  exact ((loose_gap hg hg').append_tight head more).append (twin_of_inCallable hc)

theorem inStep_returned (h : InStep σ κ text text' (Twin κ)) :
    InStep σ κ (returned line text) (returned line' text') (Twin κ) := by
  refine (inStep_lineStart line line').bind fun gap gap' ⟨hg, hg'⟩ => ?_
  refine (h.within (by decide)).bind fun value value' hv => ?_
  refine inStep_dialect.bind fun d d' ⟨hd, hd'⟩ => inStep_pure ?_
  rw [hd, hd']
  have word : Substantial σ.dialect.returnWord := by cases σ.dialect <;> decide
  have before : Twin κ _ _ := (loose_gap hg hg').append_tight σ.dialect.twin_returnWord word
  exact (before.append hv.dropTrailing).append (twin_refl (by decide))

inductive StartAlike : BranchStart → BranchStart → Prop
  | leading (line line' : Option Nat) : StartAlike (.leading line) (.leading line')
  | chained : StartAlike .chained .chained

private theorem inStep_branchStart {start start' : BranchStart} (h : StartAlike start start') :
    InStep σ κ start.text start'.text (Twin κ) := by
  cases h with
  | leading line line' =>
    refine (inStep_lineStart line line').bind fun gap gap' ⟨hg, hg'⟩ => inStep_pure ?_
    exact (loose_gap hg hg').append_tight (twin_refl (by decide)) (by decide)
  | chained => exact inStep_pure (twin_refl (by decide))

theorem inStep_conditional {start start' : BranchStart} {negated : Bool} (hs : StartAlike start start')
    (hc : InStep σ κ text text' (Twin κ)) (hb : InStep σ κ body body' (Twin κ))
    (ha : InStep σ κ texts texts' (Twins κ)) :
    InStep σ κ (conditional start negated text body texts)
      (conditional start' negated text' body' texts') (Twin κ) := by
  refine (inStep_branchStart hs).bind fun before before' hbefore => ?_
  refine (hc.within (by decide)).bind fun condition condition' hcondition => ?_
  refine hb.bind fun content content' hcontent => ha.bind fun others others' ho => inStep_pure ?_
  exact ((hbefore.append (twin_negate negated hcondition)).append hcontent).append (tight_join ho)

theorem inStep_chained (h : InStep σ κ text text' (Twin κ)) :
    InStep σ κ (chained text) (chained text') (Twin κ) := by
  have moved : InStep σ κ (modify Pass.nextLine) (modify Pass.nextLine) fun _ _ => True :=
    inStep_modify fun _ _ hp => { hp with }
  exact moved.bind fun _ _ _ => h

theorem inStep_otherwise (h : InStep σ κ body body' (Twin κ)) :
    InStep σ κ (otherwise body) (otherwise body') (Twin κ) :=
  h.bind fun _ _ hc => inStep_pure ((twin_refl (by decide)).append hc)

theorem inStep_loop {item : String} {key : Option String} (iterable : Expression Node)
    {each each' : Rendering (List String)} (names : ∀ n ∈ iterable.operands, Itemized κ σ.dialect n)
    (hr : InStep σ κ texts texts' (Twins κ)) (he : InStep σ κ each each' (Twins κ))
    (hb : InStep σ κ body body' (Twin κ)) :
    InStep σ κ (loop item key line iterable texts each body)
      (loop item key line' iterable.unlined texts' each' body') (Twin κ) := by
  have twin_head : ∀ {ts ts'}, Twins κ ts ts' → Braced κ (loopHead σ.dialect item key iterable.operands ts)
      (loopHead σ.dialect item key iterable.unlined.operands ts') := by
    intro ts ts' hts
    rw [Expression.unlined_operands]
    refine ⟨twin_loopHead hts names, '@', ?_, by decide⟩
    unfold loopHead
    split <;> simp
  have head : InStep σ κ (if (firstRange? iterable.operands).isSome then forHead item texts
        else eachHead item key iterable.operands each)
      (if (firstRange? iterable.unlined.operands).isSome then forHead item texts'
        else eachHead item key iterable.unlined.operands each') (Braced κ) := by
    have same : (firstRange? iterable.unlined.operands).isSome = (firstRange? iterable.operands).isSome :=
      isSome_firstRange?_unlined iterable.operands
    simp only [loopHead, same] at twin_head
    rw [same]
    refine InStep.ite Iff.rfl (fun hs => ?_) fun hs => ?_
    · refine hr.bind fun ts ts' hts => (inStep_variableRef item).bind fun ref ref' h => inStep_pure ?_
      have htwin := twin_head hts
      rw [if_pos hs, if_pos hs] at htwin
      rw [h.1, h.2]
      exact htwin
    · refine inStep_dialect.bind fun d d' hd => he.bind fun ts ts' hts => inStep_pure ?_
      have htwin := twin_head hts
      rw [if_neg hs, if_neg hs] at htwin
      rw [hd.1, hd.2]
      exact htwin
  have addKey : ∀ name, InStep σ κ (register (·.addVariable name)) (register (·.addVariable name))
      fun _ _ => True := fun name => inStep_register fun _ _ hr => hr.addVariable name
  refine (inStep_lineStart line line').bind fun gap gap' hg => (addKey item).bind fun _ _ _ => ?_
  have inside := head.within (show Place.keyframes ∉ [Place.condition] by decide)
  have rest := inside.bind fun head head' hh => hb.bind fun content content' hc =>
    inStep_pure (((loose_gap hg.1 hg.2).append_tight hh.twin hh.more).append hc)
  cases key with
  | none => exact rest
  | some key => exact (addKey key).bind fun _ _ _ => rest

/-- Steps of keyframes are selectors, inside of them if not outside. -/
theorem inStep_keyframes {segments statements : List Node}
    (hs : InStep σ κ.inKeyframes texts texts' (AllRead κ.inKeyframes segments))
    (plain : ∀ n ∈ segments, n.isSelector = false)
    (hb : InStep σ κ.inKeyframes body body' (Twin κ.inKeyframes)) :
    InStep σ κ (keyframes line segments statements texts body)
      (keyframes line' (unlinedAll segments) (unlinedAll statements) texts' body') (Twin κ) := by
  refine InStep.framed ?_ (·.enter [.keyframes]) (·.leave ·) (run_within [.keyframes] _) (run_within [.keyframes] _)
    (fun hp => hp.enter (fun _ => trivial) fun _ => trivial) fun hp hq => hp.leave hq
  refine (inStep_lineStart line line').bind fun gap gap' ⟨hg, hg'⟩ => ?_
  refine (inStep_name plain hs).bind fun name name' hn => ?_
  have rest : InStep σ κ.inKeyframes (do
      let rule := name ++ (← body)
      return gap ++ withEngines (← read).vendorCopies (← indent) rule) (do
      let rule := name' ++ (← body')
      return gap' ++ withEngines (← read).vendorCopies (← indent) rule) (Twin κ) := by
    refine hb.bind fun content content' hc => inStep_read.bind fun τ τ' ⟨hτ, hτ'⟩ => ?_
    rw [hτ, hτ']
    refine inStep_indent.bind fun pad pad' ⟨hp, hp'⟩ => inStep_pure ?_
    have more : Substantial (withEngines σ.vendorCopies pad (name ++ content)) :=
      ⟨'@', by simp [withEngines], by decide⟩
    exact (loose_gap hg hg').append_tight (twin_withEngines σ.vendorCopies hp hp' (hn.append hc)) more
  have first : ((unlinedAll statements).head?.map Node.isExpression).getD false =
      (statements.head?.map Node.isExpression).getD false := by
    cases statements with
    | nil => rfl
    | cons n ns => exact n.isExpression_unlined
  rw [first]
  refine InStep.ite Iff.rfl (fun _ => ?_) fun _ => rest
  have unresolved : removeBlanks (Fault.unresolvedKeyframes name).message =
      removeBlanks (Fault.unresolvedKeyframes name').message := by
    have before : Twin κ "Codegen error: please check that @keyframes " _ := twin_refl (by decide)
    have after : Twin κ " is written correctly" _ := twin_refl (by decide)
    exact ((before.append hn).append after).loose.spaced.removeBlanks_eq
  exact (inStep_throw unresolved : InStep σ κ.inKeyframes _ _ fun _ _ => False).bind fun _ _ h => h.elim

theorem inStep_conditionRule {keyword : String} (word : Twin κ keyword keyword) (more : Substantial keyword)
    (hc : InStep σ κ text text' (Twin κ)) (hb : InStep σ κ body body' (Twin κ)) :
    InStep σ κ (conditionRule keyword line text body) (conditionRule keyword line' text' body') (Twin κ) := by
  refine (inStep_lineStart line line').bind fun gap gap' ⟨hg, hg'⟩ => ?_
  refine hc.bind fun condition condition' hcondition => hb.bind fun content content' hcontent => inStep_pure ?_
  exact (((loose_gap hg hg').append_tight word more).append hcondition).append hcontent

theorem inStep_xmlNamespace {shortName : Option String} (hn : ∀ name ∈ shortName, '@' ∉ name.toList)
    (h : InStep σ κ text text' (Twin κ)) :
    InStep σ κ (xmlNamespace line shortName text) (xmlNamespace line' shortName text') (Twin κ) := by
  refine (inStep_lineStart line line').bind fun gap gap' ⟨hg, hg'⟩ => ?_
  refine (h.within (by decide)).bind fun value value' hv => inStep_pure ?_
  have word : Twin κ "@namespace " "@namespace " := twin_refl (by decide)
  have short : Twin κ ((shortName.map (· ++ " ")).getD "") ((shortName.map (· ++ " ")).getD "") := by
    cases shortName with
    | none => exact tight_empty
    | some name => exact twin_of_plain (by simp [hn name rfl])
  have before := ((loose_gap hg hg').append_tight word (by decide)).append short
  exact (before.append hv.dropTrailing).append (twin_refl (by decide))

theorem inStep_charset {encoding : QuotedText} (ht : '@' ∉ encoding.text.toList) (hq : '@' ∉ encoding.quote.toList) :
    InStep σ κ (charset line encoding) (charset line' encoding) (Twin κ) := by
  refine (inStep_lineStart line line').bind fun gap gap' ⟨hg, hg'⟩ => inStep_pure ?_
  have word : Twin κ "@charset " "@charset " := twin_refl (by decide)
  have before := ((loose_gap hg hg').append_tight word (by decide)).append (twin_quoted ht hq)
  exact before.append (twin_refl (by decide))

/-- The path of an import is made of literals and quoted pieces. -/
theorem inStep_importSheet {pieces : List Node} (hp : ∀ n ∈ pieces, n.isLiteral || n.quotedText?.isSome)
    (plain : ∀ n ∈ pieces, ∀ w ∈ n.texts, '@' ∉ w.toList) (h : InStep σ κ texts texts' (AllRead κ pieces)) :
    InStep σ κ (importSheet line pieces texts) (importSheet line' (unlinedAll pieces) texts') (Twin κ) := by
  rw [unlinedAll_eq]
  refine (inStep_lineStart line line').bind fun gap gap' ⟨hg, hg'⟩ => ?_
  refine inStep_dialect.bind fun d d' ⟨hd, hd'⟩ => h.bind fun ts ts' hts => inStep_pure ?_
  have quotes : ∀ n ∈ pieces, ∀ q, n.quotedText? = some q → '@' ∉ q.quote.toList := by
    intro n hn q hq
    cases n with
    | quoted r =>
      cases hq
      exact plain _ hn q.quote (by simp)
    | _ => cases hq
  obtain ⟨same, hpath⟩ := joinPath_eq hts hp plain
  have mark : Twin κ _ _ := twin_of_plain (plain_pathQuote quotes)
  have path : Twin κ _ _ := twin_of_plain (plain_outputPath σ.dialect hpath)
  rw [hd, hd', joinPath_unlined, pathQuote_unlined, ← same]
  have word : Twin κ "@import " "@import " := twin_refl (by decide)
  have before := ((loose_gap hg hg').append_tight word (by decide)).append mark
  exact ((before.append path).append mark).append (twin_refl (by decide))

theorem inStep_extend {selectors : List Node} (h : InStep σ κ texts texts' (AllRead κ selectors)) :
    InStep σ κ (extend line selectors texts) (extend line' (unlinedAll selectors) texts') (Twin κ) := by
  rw [unlinedAll_eq]
  have rest : InStep σ κ (do
      let before ← lineStart line
      return before ++ "@extend " ++ ", ".intercalate ((← texts).map trimStart) ++ ";") (do
      let before ← lineStart line'
      return before ++ "@extend " ++ ", ".intercalate ((← texts').map trimStart) ++ ";") (Twin κ) := by
    refine (inStep_lineStart line line').bind fun gap gap' ⟨hg, hg'⟩ => h.bind fun ts ts' hts => inStep_pure ?_
    have word : Twin κ "@extend " "@extend " := twin_refl (by decide)
    have trimmed : Twins κ (ts.map trimStart) (ts'.map trimStart) := by
      rw [Twins, AllTight, List.forall₂_map_left_iff, List.forall₂_map_right_iff]
      exact hts.led
    have before := (loose_gap hg hg').append_tight word (by decide)
    exact (before.append (tight_intercalate (twin_refl (by decide)) trimmed)).append (twin_refl (by decide))
  unfold extend
  rw [List.isEmpty_map]
  refine InStep.ite Iff.rfl (fun _ => ?_) fun _ => rest
  exact (inStep_missing : InStep σ κ _ _ fun _ _ => False).bind fun _ _ h => h.elim

theorem inStep_atRule {name : String} {segments : List Node} {content content' : Option (Rendering String)}
    (hn : '@' ∉ name.toList) (hs : κ.search = .everywhere → startsReturn name = false)
    (h : InStep σ κ texts texts' (Twins κ))
    (hb : Option.Rel (fun b b' => InStep σ κ b b' (Twin κ)) content content') :
    InStep σ κ (atRule name line segments texts content)
      (atRule name line' (unlinedAll segments) texts' content') (Twin κ) := by
  rw [unlinedAll_eq]
  refine (inStep_lineStart line line').bind fun gap gap' ⟨hg, hg'⟩ => h.bind fun ts ts' hts => ?_
  have head : Twin κ (gap ++ atHead name segments ts) (gap' ++ atHead name (segments.map Node.unlined) ts') :=
    (loose_gap hg hg').append_tight (twin_atHead hn hs hts) ⟨'@', by simp [atHead], by decide⟩
  cases hb with
  | none => exact inStep_pure (head.append (twin_refl (by decide)))
  | some hb => exact hb.bind fun inner inner' hi => inStep_pure (head.append hi)

/-- Where a comment stands is a matter of white space, as long as there is some text in it. -/
theorem inStep_comment (c c' : Comment) (sameLine sameLine' : Bool) (text : c'.text = c.text)
    (suppressed : c'.suppressed = c.suppressed) (plain : '@' ∉ c.text.toList) (more : Substantial c.text) :
    InStep σ κ (comment c sameLine) (comment c' sameLine') (Twin κ) := by
  have runs : ∀ (c : Comment) (sameLine : Bool) (p : Pass), ∃ gap,
      (comment c sameLine).Gives σ p (gap ++ keptText c) (p.reach (lastLine c)) ∧ Blank gap := by
    intro c sameLine p
    obtain ⟨t, q, h⟩ := (comment_succeeds c sameLine σ p).2 trivial
    obtain ⟨rfl, rfl⟩ := comment_gives h
    refine ⟨_, h, ?_⟩
    split
    · exact blank_space
    · exact blank_lead p c.line
  refine inStep_of_gives fun p p' hp => ?_
  obtain ⟨gap, hc, hb⟩ := runs c sameLine p
  obtain ⟨gap', hc', hb'⟩ := runs c' sameLine' p'
  have same : keptText c' = keptText c := by rw [keptText, keptText, text, suppressed]
  refine ⟨_, _, _, _, hc, hc', ?_, hp.reach _ _⟩
  rw [same]
  exact (loose_gap hb hb').append_tight (twin_of_plain (plain_keptText plain)) (substantial_keptText more)

end Render

end Stylesheet
