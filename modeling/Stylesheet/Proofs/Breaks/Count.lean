import Stylesheet.Proofs.Breaks.Statements

/-!
# Breaks of the sheet in the output

Where the steps of statements never go back, the line feeds of their output are the lines that the pass moves on by,
with one more for each block that is closed and one less for each alternative, which moves the pass on without a break.
-/

namespace Stylesheet

open Text Rendering Render

/-- The pass is where the steps lead, and the line feeds of the text make up for the way. -/
structure Steps.Fits (ss : Steps) (p : Pass) (t : String) (q : Pass) : Prop where
  line : q.line = ss.after p.line
  forward : p.line ≤ q.line
  count : feeds t + ss.branches = q.line - p.line + ss.blocks

/-- The text holds what the block gives from a calm pass on the line, where its steps are in order. -/
def Shown (σ : Style) (x : Nat × Body Node) (t : String) : Prop :=
  ∃ p u q, p.Calm ∧ p.line = x.1 ∧ AreStatements x.2.statements ∧ (blockSteps (some x.2)).InOrder x.1 ∧
    (Render.body x.2).Gives σ p u q ∧ u.toList <:+: t.toList

structure Laid (σ : Style) (ss : Steps) (p : Pass) (t : String) (q : Pass) : Prop extends ss.Fits p t q where
  calm : q.Calm
  shown : ∀ x ∈ ss.openings p.line, Shown σ x t

variable {σ : Style} {ss xs ys : Steps} {p q r : Pass} {s t u : String}

theorem Shown.within {x : Nat × Body Node} (h : Shown σ x t) (inside : t.toList <:+: u.toList) : Shown σ x u := by
  obtain ⟨p, s, q, hp, hl, hs, order, hg, hi⟩ := h
  exact ⟨p, s, q, hp, hl, hs, order, hg, hi.trans inside⟩

namespace Laid

theorem append (hx : Laid σ xs p s q) (hy : Laid σ ys q t r) : Laid σ (xs ++ ys) p (s ++ t) r := by
  have forward := hx.forward
  have further := hy.forward
  have count := hx.count
  have others := hy.count
  have left : s.toList <:+: (s ++ t).toList := by
    rw [String.toList_append]
    exact List.infix_append_left
  have right : t.toList <:+: (s ++ t).toList := by
    rw [String.toList_append]
    exact List.infix_append_right
  refine ⟨⟨?_, Nat.le_trans forward further, ?_⟩, hy.calm, ?_⟩
  · rw [hy.line, hx.line, Steps.after_append]
  · rw [feeds_append, Steps.branches_append, Steps.blocks_append]
    omega
  · intro x hm
    rw [Steps.openings_append, ← hx.line] at hm
    rcases List.mem_append.1 hm with hm | hm
    · exact (hx.shown x hm).within left
    · exact (hy.shown x hm).within right

/-- What is on one line moves nothing. -/
theorem oneLine (hp : p.Calm) (h : OneLine t) : Laid σ [] p t p :=
  ⟨⟨rfl, Nat.le_refl _, by rw [h, Nat.sub_self]; rfl⟩, hp, by simp [Steps.openings]⟩

theorem tail (h : Laid σ ss p t q) (hu : OneLine u) : Laid σ ss p (t ++ u) q := by
  have both : Laid σ (ss ++ []) p (t ++ u) q := h.append (oneLine h.calm hu)
  rwa [List.append_nil] at both

private theorem repass (h : Laid σ ss p t q) (same : r.line = q.line) (calm : r.Calm) : Laid σ ss p t r :=
  ⟨⟨same.trans h.line, same ▸ h.forward, same ▸ h.count⟩, calm, h.shown⟩

private theorem retext (h : Laid σ ss p t q) (none : ss.openings p.line = []) (same : feeds u = feeds t) :
    Laid σ ss p u q :=
  ⟨⟨h.line, h.forward, same ▸ h.count⟩, h.calm, by simp [none]⟩

end Laid

private theorem Pass.feeds_lead_some (p : Pass) (l : Nat) : feeds (p.lead (some l)) = l - p.line := by
  have indent : OneLine p.indent := closed_oneLine.indent p
  rw [Pass.lead, feeds_append, indent, Pass.breaksTo, feeds_repeated, Nat.add_zero, Pass.owed]

private theorem laid_lead (hp : p.Calm) {line : Option Nat} (order : (stepTo line).InOrder p.line) :
    Laid σ (stepTo line) p (p.lead line) (p.reach line) := by
  cases line with
  | none => exact Laid.oneLine hp (closed_oneLine.append closed_oneLine.empty (closed_oneLine.indent p))
  | some l =>
    refine ⟨⟨rfl, order.1, ?_⟩, hp.reach (some l), by simp [stepTo, Steps.openings]⟩
    rw [p.feeds_lead_some l]
    rfl

/-- From a calm pass whose line the steps are in order from, the rendering is laid out by the steps. -/
def Rendering.Lays (σ : Style) (m : Rendering String) (ss : Steps) : Prop :=
  ∀ ⦃p t q⦄, p.Calm → ss.InOrder p.line → m.Gives σ p t q → Laid σ ss p t q

/-- After what is laid out, the rest of the steps lays out what comes next. -/
theorem Laid.followed {m : Rendering String} (h : Laid σ xs p s q) (order : (xs ++ ys).InOrder p.line)
    (hm : m.Lays σ ys) (hg : m.Gives σ q t r) : Laid σ (xs ++ ys) p (s ++ t) r := by
  have rest := (Steps.inOrder_append.1 order).2
  rw [← h.line] at rest
  exact h.append (hm h.calm rest hg)

namespace Render

variable {text body : Rendering String} {texts : Rendering (List String)} {line : Option Nat}

private theorem conditionRule_lays {keyword : String} (hk : OneLine keyword) (hc : text.Quiets σ OneLine)
    (hb : body.Lays σ ss) : (conditionRule keyword line text body).Lays σ (stepTo line ++ ss) := by
  intro p t q hp order hg
  obtain ⟨condition, r, content, hcondition, hcontent, rfl⟩ := conditionRule_gives hg
  have start := laid_lead (σ := σ) hp (Steps.inOrder_append.1 order).1
  obtain ⟨hcond, rfl⟩ := hc start.calm hcondition
  exact ((start.tail hk).tail hcond).followed order hb hcontent

private theorem atRule_lays {name : String} {segments : List Node} (hn : OneLine name)
    (h : texts.Quiets σ fun ts => ∀ t ∈ ts, OneLine t) :
    (atRule name line segments texts none).Lays σ (stepTo line) := by
  intro p t q hp order hg
  obtain ⟨ts, r, hts, ⟨-, rfl, rfl⟩ | ⟨b, inner, hnone, -⟩⟩ := atRule_gives hg
  · have start := laid_lead (σ := σ) hp order
    obtain ⟨hall, rfl⟩ := h start.calm hts
    exact (start.tail (closed_oneLine.atHead hn hall)).tail (by decide)
  · cases hnone

private theorem atRule_block_lays {name : String} {segments : List Node} (hn : OneLine name)
    (h : texts.Quiets σ fun ts => ∀ t ∈ ts, OneLine t) (hb : body.Lays σ ss) :
    (atRule name line segments texts (some body)).Lays σ (stepTo line ++ ss) := by
  intro p t q hp order hg
  obtain ⟨ts, r, hts, ⟨hsome, -⟩ | ⟨b, inner, hb', hinner, rfl⟩⟩ := atRule_gives hg
  · cases hsome
  · cases hb'
    have start := laid_lead (σ := σ) hp (Steps.inOrder_append.1 order).1
    obtain ⟨hall, rfl⟩ := h start.calm hts
    exact (start.tail (closed_oneLine.atHead hn hall)).followed order hb hinner

private theorem charset_lays {encoding : QuotedText} (ht : OneLine encoding.text) (hq : OneLine encoding.quote) :
    (charset line encoding).Lays σ (stepTo line) := by
  intro p t q hp order hg
  obtain ⟨rfl, rfl⟩ := charset_gives hg
  exact (((laid_lead hp order).tail (by decide)).tail (closed_oneLine.quoted ht hq)).tail (by decide)

private theorem importSheet_lays {pieces : List Node} (hp : EveryIn Node.Quiet pieces) :
    (importSheet line pieces (each pieces)).Lays σ (stepTo line) := by
  intro p t q calm order hg
  obtain ⟨ts, hts, rfl⟩ := importSheet_gives hg
  have start := laid_lead (σ := σ) calm order
  obtain ⟨hall, rfl⟩ := each_quiets pieces hp start.calm hts
  have own : ∀ n ∈ pieces, ∀ q, n.quotedText? = some q → OneLine q.text ∧ OneLine q.quote := fun n hn q hq =>
    holds_of_quotedText ((hp n hn).mono fun _ hm => hm.texts) hq
  have quote : OneLine (pathQuote pieces) := closed_oneLine.pathQuote fun n hn q hq => (own n hn q hq).2
  have path := closed_oneLine.joinPath hall fun n hn q hq => (own n hn q hq).1
  exact ((((start.tail (by decide)).tail quote).tail (closed_oneLine.outputPath σ.dialect path)).tail quote).tail
    (by decide)

private theorem xmlNamespace_lays {shortName : Option String} (hs : ∀ s ∈ shortName, OneLine s)
    (h : text.Quiets σ OneLine) : (xmlNamespace line shortName text).Lays σ (stepTo line) := by
  intro p t q hp order hg
  obtain ⟨value, r, hvalue, rfl, rfl⟩ := xmlNamespace_gives hg
  have start := laid_lead (σ := σ) hp order
  obtain ⟨hv, hr⟩ := h.leave start.calm (by decide) hvalue
  have short : OneLine ((shortName.map (· ++ " ")).getD "") :=
    closed_oneLine.rowwise.optional_append hs (by decide)
  rw [hr]
  exact (((start.tail (by decide)).tail short).tail (closed_oneLine.dropTrailing (by decide) hv)).tail (by decide)

private theorem comment_lays {c : Comment} (some : c.line.isSome) {sameLine : Bool} :
    ∀ ⦃p t q⦄, p.Calm → (sameLine → ∀ l ∈ c.line, l ≤ p.line) → c.steps.InOrder p.line →
      (comment c sameLine).Gives σ p t q → Laid σ c.steps p t q := by
  intro p t q hp same order hg
  obtain ⟨l, hl⟩ := Option.isSome_iff_exists.1 some
  obtain ⟨rfl, rfl⟩ := comment_gives hg
  have kept : feeds (keptText c) = feeds c.text := by
    unfold keptText
    split
    · next rest hr =>
      split
      · rfl
      · rw [append_of_after? hr, feeds_append, feeds_append]
        rfl
    · rfl
  have before : feeds (if sameLine then " " else p.lead c.line) = l - p.line := by
    cases sameLine with
    | false =>
      rw [hl]
      exact p.feeds_lead_some l
    | true =>
      have passed : l ≤ p.line := same rfl l hl
      rw [Nat.sub_eq_zero_of_le passed, if_pos rfl]
      rfl
  have hs : c.steps = [.comment l (feeds c.text)] := by
    rw [Comment.steps, hl]
    rfl
  have reached : p.reach (lastLine c) = { p with line := l + feeds c.text } := by
    rw [lastLine, hl]
    rfl
  rw [hs] at order ⊢
  have ahead : p.line ≤ l := order.1
  have calm := hp.reach (lastLine c)
  rw [reached] at calm ⊢
  refine ⟨⟨rfl, Nat.le_add_right_of_le ahead, ?_⟩, calm, by simp [Steps.openings]⟩
  rw [feeds_append, before, kept]
  show l - p.line + feeds c.text + 0 = l + feeds c.text - p.line + 0
  omega

private theorem assigned_lays {name value : String} (h : Laid σ ss p s q) (hn : OneLine name) (hv : OneLine value) :
    Laid σ ss p (s ++ σ.dialect.variableRef name ++ ": " ++ dropTrailing ';' value ++ ";") q :=
  (((h.tail (closed_oneLine.variableRef σ.dialect hn)).tail (by decide)).tail
    (closed_oneLine.dropTrailing (by decide) hv)).tail (by decide)

private theorem calm_knowingMap (hp : p.Calm) (name : String) (value : Expression Node) :
    (knowingMap p name value).Calm := by
  unfold knowingMap
  split
  · exact hp.learn hp.values.addMap
  · exact hp

private theorem line_knowingMap (p : Pass) (name : String) (value : Expression Node) (line : Option Nat) :
    ((knowingMap p name value).reach line).line = (p.reach line).line := by
  unfold knowingMap
  split <;> cases line <;> rfl

private theorem assignment_lays {name : String} {value : Expression Node} (hn : OneLine name)
    (h : texts.Quiets σ fun ts => ∀ t ∈ ts, OneLine t) :
    (assignment name value texts).Lays σ (stepTo value.line) := by
  intro p t q hp order hg
  obtain ⟨before, start, ts, r, hstart, hts, rfl, rfl⟩ := assignment_gives hg
  rcases hstart with ⟨inCall, -⟩ | ⟨-, rfl, rfl⟩
  · rw [hp.calling] at inCall
    cases inCall
  · have known := (calm_knowingMap hp name value).reach value.line
    obtain ⟨hall, hr⟩ := h.leave known (by decide) hts
    have row : OneLine (" ".intercalate ts) := closed_oneLine.intercalate (by decide) hall
    rw [hr]
    exact (assigned_lays (laid_lead hp order) hn row).repass (line_knowingMap p name value value.line)
      (known.addVariable name)

private theorem boundValue_lays {name : String} (hn : OneLine name) (h : text.Quiets σ OneLine) :
    (boundValue name line text).Lays σ (stepTo line) := by
  intro p t q hp order hg
  obtain ⟨value, r, hvalue, rfl, rfl⟩ := boundValue_gives hg
  have start := laid_lead (σ := σ) hp order
  obtain ⟨hv, hr⟩ := h.leave start.calm (by decide) hvalue
  rw [hr]
  exact (assigned_lays start hn hv).repass rfl (start.calm.addVariable name)

private theorem inlineName?_of_quiet {e : Expression Node} (h : EveryIn Node.Quiet e.operands) :
    e.inlineName? = none := by
  unfold Expression.inlineName?
  split
  · next id hid =>
    split
    · next value hvalue =>
      have bound : id.isBound := by
        unfold Identifier.isBound
        rw [hvalue]
      have kind := (h (.identifier id) (by simp [hid])).self.kind
      simp [Node.isQuiet, bound] at kind
    · rfl
  · rfl

private theorem property_lays {segments : List Node} {value : Expression Node} (hs : EveryIn Node.Quiet segments)
    (hv : EveryIn Node.Quiet value.operands) :
    (property line (named segments (each segments)) value (expression value (each value.operands))).Lays σ
      (stepTo line) := by
  intro p t q hp order hg
  obtain ⟨name, r, content, s, hname, hcontent, hends⟩ := property_gives hg
  have start := laid_lead (σ := σ) hp order
  have inner := @Pass.Calm.enter _ start.calm [.declarationValue] (by decide)
  obtain ⟨hn, rfl⟩ := named_quiets segments hs inner hname
  have opened := @Pass.Calm.learn _ inner (·.openDeclaration name) inner.values.openDeclaration
  obtain ⟨hc, rfl⟩ := expression_quiets value hv opened hcontent
  rw [inlineName?_of_quiet hv] at hends
  obtain ⟨_, hsome, -⟩ | ⟨-, rfl, rfl⟩ := hends
  · cases hsome
  · have terminator : OneLine (if Text.endsWith ';' content || value.handsBlock then "" else ";") := by
      split <;> decide
    have row : OneLine (name ++ ": " ++ content ++
        if Text.endsWith ';' content || value.handsBlock then "" else ";") :=
      ((hn.append (by decide)).append hc).append terminator
    exact (start.tail row).repass rfl ((opened.learn (opened.values.closeDeclaration hc _)).leave start.calm)

def Broken (t : String) : Prop := Text.startsWith '\n' t

instance (t : String) : Decidable (Broken t) := inferInstanceAs (Decidable (Text.startsWith '\n' t = true))

theorem Broken.append (h : Broken s) (t : String) : Broken (s ++ t) := by
  rw [Broken, Text.startsWith, beq_iff_eq] at h ⊢
  rw [String.toList_append, List.head?_append, h]
  rfl

theorem broken_lead {l : Nat} (h : p.line < l) : Broken (p.lead (some l)) := by
  obtain ⟨n, hn⟩ : ∃ n, l - p.line = n + 1 := ⟨l - p.line - 1, by omega⟩
  simp [Broken, Pass.lead, Pass.breaksTo, Pass.owed, hn, Text.repeated, Text.startsWith, List.replicate_succ]

/-- A text that is trimmed only where nothing is lost. -/
def Settled (t : String) : Prop := Broken t ∨ OneLine t

private theorem settled_lead (p : Pass) (line : Option Nat) (hu : OneLine u) : Settled (p.lead line ++ u) := by
  have indent : OneLine p.indent := closed_oneLine.indent p
  cases line with
  | none => exact .inr ((closed_oneLine.append closed_oneLine.empty indent).append hu)
  | some l =>
    by_cases passed : l ≤ p.line
    · right
      rw [OneLine, feeds_append, p.feeds_lead_some l, hu, Nat.sub_eq_zero_of_le passed]
    · exact .inl ((broken_lead (by omega)).append u)

private theorem feeds_alignSelector (h : Settled t) : feeds (alignSelector t) = feeds t := by
  unfold alignSelector
  split
  · rfl
  · next hs =>
    have ht : OneLine t := h.resolve_left hs
    rw [ht]
    exact closed_oneLine.trimStart ht

private theorem feeds_joinSelectors {ts : List String} (h : ∀ t ∈ ts, Settled t) :
    feeds (joinSelectors ts) = feeds (String.join ts) := by
  have aligned : (ts.map alignSelector).map feeds = ts.map feeds := by
    rw [List.map_map]
    exact List.map_congr_left fun t ht => feeds_alignSelector (h t ht)
  rw [feeds_join, ← aligned]
  unfold joinSelectors
  split
  · next hts => rw [hts]; rfl
  · next first rest hts =>
    have comma (t : String) : feeds ((if Text.startsWith '\n' t then "," else ", ") ++ t) = feeds t := by
      rw [feeds_append]
      split <;> exact Nat.zero_add _
    rw [hts, feeds_append, feeds_join, List.map_map, List.map_cons, List.sum_cons]
    exact congrArg (feeds first + ·.sum) (List.map_congr_left fun t _ => comma t)

private theorem openings_stepTo (k : Nat) (line : Option Nat) : (stepTo line).openings k = [] := by cases line <;> rfl

private theorem openings_headSteps (k : Nat) (n : Node) : n.headSteps.openings k = [] := by
  cases n with
  | selector => exact openings_stepTo k _
  | _ => rfl

private theorem openings_heads (k : Nat) (ns : List Node) : Steps.openings k (ns.flatMap Node.headSteps) = [] := by
  induction ns generalizing k with
  | nil => rfl
  | cons n ns ih => rw [List.flatMap_cons, Steps.openings_append, openings_headSteps, ih, List.append_nil]

private theorem head_laid {n : Node} (h : n.IsHead) (hp : p.Calm) (order : n.headSteps.InOrder p.line)
    (hg : (node n).Gives σ p t q) : Laid σ n.headSteps p t q ∧ Settled t := by
  cases n with
  | selector segments line =>
    obtain ⟨ts, hts, rfl⟩ := selector_gives hg
    have start := laid_lead (σ := σ) hp order
    obtain ⟨hall, rfl⟩ := each_quiets segments h start.calm hts
    have row : OneLine (joinSegments segments ts) := closed_oneLine.joinSegments hall
    exact ⟨start.tail row, settled_lead p _ row⟩
  | _ =>
    obtain ⟨ht, rfl⟩ := node_quiets _ h hp hg
    exact ⟨Laid.oneLine hp ht, .inr ht⟩

private theorem heads_laid {ns : List Node} {ts : List String} (h : ∀ n ∈ ns, n.IsHead) (hp : p.Calm)
    (order : Steps.InOrder p.line (ns.flatMap Node.headSteps)) (hg : (each ns).Gives σ p ts q) :
    Laid σ (ns.flatMap Node.headSteps) p (String.join ts) q ∧ ∀ t ∈ ts, Settled t := by
  induction ns generalizing p ts with
  | nil =>
    obtain ⟨rfl, rfl⟩ := gives_pure.1 hg
    exact ⟨Laid.oneLine hp closed_oneLine.empty, by simp⟩
  | cons n ns ih =>
    simp only [eachWith, gives_bind, gives_pure] at hg
    obtain ⟨t, r, ht, ts, _, hts, rfl, rfl⟩ := hg
    obtain ⟨hn, hns⟩ := List.forall_mem_cons.1 h
    rw [List.flatMap_cons, Steps.inOrder_append] at order
    obtain ⟨first, settled⟩ := head_laid hn hp order.1 ht
    obtain ⟨rest, others⟩ := ih hns first.calm (first.line ▸ order.2) hts
    rw [String.join_cons, List.flatMap_cons]
    exact ⟨first.append rest, List.forall_mem_cons.2 ⟨settled, others⟩⟩

private theorem ruleSet_lays {selectors : List Node} (hs : ∀ n ∈ selectors, n.IsHead) (hb : body.Lays σ ss) :
    (ruleSet line (each selectors) body).Lays σ (stepTo line ++ selectors.flatMap Node.headSteps ++ ss) := by
  intro p t q hp order hg
  obtain ⟨heads, r, content, hheads, hcontent, rfl⟩ := ruleSet_gives hg
  obtain ⟨leading, heading⟩ := Steps.inOrder_append.1 (Steps.inOrder_append.1 order).1
  have start := laid_lead (σ := σ) hp leading
  obtain ⟨laid, settled⟩ := heads_laid hs start.calm (start.line ▸ heading) hheads
  have same : feeds (ruleHead q heads) = feeds (String.join heads) := by
    unfold ruleHead
    split
    · rw [feeds_append, feeds_append, feeds_joinSelectors settled]
      exact Nat.zero_add _
    · exact feeds_joinSelectors settled
  exact (start.append (laid.retext (openings_heads _ selectors) same)).followed order hb hcontent

private theorem loop_lays {item : String} {key : Option String} {iterable : Expression Node} (hi : OneLine item)
    (hk : ∀ k ∈ key, OneLine k) (hv : EveryIn Node.Quiet iterable.operands) (hb : body.Lays σ ss) :
    (loop item key line iterable (ranges iterable.operands) (each iterable.operands) body).Lays σ
      (stepTo line ++ ss) := by
  intro p t q hp order hg
  obtain ⟨ts, r, content, hts, hcontent, rfl⟩ := loop_gives hg
  have start := laid_lead (σ := σ) hp (Steps.inOrder_append.1 order).1
  have known : (knowingItems (p.reach line) item key).Calm := by
    cases key with
    | none => exact start.calm.addVariable item
    | some key => exact (start.calm.addVariable item).addVariable key
  have items : (if (firstRange? iterable.operands).isSome then ranges iterable.operands
      else each iterable.operands : Rendering (List String)).Quiets σ fun ts => ∀ t ∈ ts, OneLine t := by
    split
    · exact ranges_quiets iterable.operands hv
    · exact each_quiets iterable.operands hv
  obtain ⟨hall, rfl⟩ := items (known.enter (by decide)) hts
  have head := closed_oneLine.loopHead σ.dialect hi hk hall fun n hn name hname =>
    holds_of_bareName ((hv n hn).mono fun _ hm => hm.texts) hname
  have opened : Laid σ (stepTo line) p (p.lead line ++ loopHead σ.dialect item key iterable.operands ts)
      (((knowingItems (p.reach line) item key).enter [.condition]).leave (p.reach line)) := by
    refine (start.tail head).repass ?_ ((known.enter (by decide)).leave start.calm)
    cases key <;> rfl
  exact opened.followed order hb hcontent

private def LaysAll (σ : Style) (m : Rendering (List String)) (ss : Steps) : Prop :=
  ∀ ⦃p ts q⦄, p.Calm → ss.InOrder p.line → m.Gives σ p ts q → Laid σ ss p (String.join ts) q

private theorem conditional_laid {start : BranchStart} {negated : Bool} {zs : Steps}
    (hstart : Laid σ xs p (branchLead p start) (branchPass p start)) (order : (xs ++ ys ++ zs).InOrder p.line)
    (hc : text.Quiets σ OneLine) (hb : body.Lays σ ys) (ha : LaysAll σ texts zs)
    (hg : (conditional start negated text body texts).Gives σ p t q) : Laid σ (xs ++ ys ++ zs) p t q := by
  obtain ⟨condition, r, content, s, others, hcondition, hcontent, hothers, rfl⟩ := conditional_gives hg
  obtain ⟨hcond, hr⟩ := hc.leave hstart.calm (by decide) hcondition
  rw [hr] at hcontent
  obtain ⟨before, after⟩ := Steps.inOrder_append.1 order
  have branch := (hstart.tail (closed_oneLine.negate negated hcond)).followed before hb hcontent
  rw [← branch.line] at after
  exact branch.append (ha branch.calm after hothers)

private theorem chained_lays (h : text.Lays σ ss) : (chained text).Lays σ (.branch :: ss) := by
  intro p t q hp order hg
  have moved : Laid σ [.branch] p "" p.nextLine := by
    refine ⟨⟨rfl, Nat.le_succ _, ?_⟩, hp.nextLine, by simp [Steps.openings]⟩
    show 0 + 1 = p.line + 1 - p.line + 0
    omega
  have both : Laid σ ([.branch] ++ ss) p ("" ++ t) q := moved.followed order h (chained_gives hg)
  rwa [String.empty_append] at both

private theorem otherwise_lays (hb : body.Lays σ ss) : (otherwise body).Lays σ ss := by
  intro p t q hp order hg
  obtain ⟨content, hcontent, rfl⟩ := otherwise_gives hg
  have word : Laid σ [] p " @else" p := Laid.oneLine hp (by decide)
  exact word.followed order hb hcontent

private theorem feeds_braced (p : Pass) (content : String) :
    feeds (" \x7b" ++ content ++ "\n" ++ p.indent ++ "\x7d") = feeds content + 1 := by
  have indent : OneLine p.indent := closed_oneLine.indent p
  have newline : feeds "\n" = 1 := by decide
  have opening : feeds " \x7b" = 0 := by decide
  have closing : feeds "\x7d" = 0 := by decide
  rw [feeds_append, feeds_append, feeds_append, feeds_append, indent, newline, opening, closing]
  omega

private theorem broken_statement {n : Node} (h : n.IsStatement) (hp : p.Calm) {l : Nat} (hn : n.line = some l)
    (hl : p.line < l) (hg : (statement none n).Gives σ p t q) : Broken t := by
  have lead : Broken (p.lead n.line) := hn ▸ broken_lead hl
  cases n with
  | identifier id =>
    obtain ⟨name, value, placeholder, rest, line⟩ := id
    obtain ⟨bound, -, values⟩ := h
    cases value with
    | none => cases bound
    | some v =>
      have ⟨quiet, assigned⟩ := values v rfl
      have kind := quiet.self.kind
      cases v with
      | null => cases bound
      | callable => cases kind
      | expression e =>
        obtain ⟨before, start, ts, r, ⟨inCall, -⟩ | ⟨-, rfl, -⟩, -, -, rfl⟩ := assignment_gives hg
        · rw [hp.calling] at inCall
          cases inCall
        · rw [assigned e rfl]
          exact (((lead.append _).append _).append _).append _
      | _ =>
        obtain ⟨value, r, -, -, rfl⟩ := boundValue_gives hg
        exact (((lead.append _).append _).append _).append _
  | property segments value line =>
    obtain ⟨name, r, content, s, -, -, ⟨inner, -, -, rfl⟩ | ⟨-, -, rfl⟩⟩ := property_gives hg
    · exact ((((((lead.append _).append _).append _).append _).append _).append _).append _
    · exact lead.append _
  | ruleSet selectors b line =>
    cases b with
    | none => exact h.2.elim
    | some b =>
      obtain ⟨heads, r, content, -, -, rfl⟩ := ruleSet_gives hg
      exact (lead.append _).append _
  | media q b line =>
    cases b with
    | none => exact h.2.elim
    | some b =>
      obtain ⟨condition, r, content, -, -, rfl⟩ := conditionRule_gives hg
      exact ((lead.append _).append _).append _
  | supports condition b line =>
    cases b with
    | none => exact h.2.elim
    | some b =>
      obtain ⟨condition, r, content, -, -, rfl⟩ := conditionRule_gives hg
      exact ((lead.append _).append _).append _
  | atRule name segments b line =>
    cases b with
    | none =>
      have hg : (atRule name line segments (each segments) none).Gives σ p t q := hg
      obtain ⟨ts, r, -, ⟨-, -, rfl⟩ | ⟨b, inner, handed, -⟩⟩ := atRule_gives hg
      · exact (lead.append _).append _
      · cases handed
    | some b =>
      have hg : (atRule name line segments (each segments) (some (Render.body b))).Gives σ p t q := hg
      obtain ⟨ts, r, -, ⟨handed, -⟩ | ⟨b, inner, -, -, rfl⟩⟩ := atRule_gives hg
      · cases handed
      · exact (lead.append _).append _
  | charset encoding line =>
    obtain ⟨-, rfl⟩ := charset_gives hg
    exact ((lead.append _).append _).append _
  | importSheet path line =>
    obtain ⟨ts, -, rfl⟩ := importSheet_gives hg
    exact ((((lead.append _).append _).append _).append _).append _
  | xmlNamespace value shortName line =>
    obtain ⟨value, r, -, -, rfl⟩ := xmlNamespace_gives hg
    exact (((lead.append _).append _).append _).append _
  | loop item key iterable b line =>
    obtain ⟨-, -, ⟨e, he, -⟩, hb⟩ := h
    cases he
    cases b with
    | none => exact hb.elim
    | some b =>
      obtain ⟨ts, r, content, -, -, rfl⟩ := loop_gives hg
      exact (lead.append _).append _
  | conditional condition b alternatives negated line =>
    cases b with
    | none => exact h.2.1.elim
    | some b =>
      obtain ⟨condition, r, content, s, others, -, -, -, rfl⟩ := conditional_gives hg
      exact (((lead.append _).append _).append _).append _
  | comment c =>
    have own : (c.line.isSome && (none : Option Nat) == c.line) = false := by
      rw [show c.line = some l from hn]
      rfl
    obtain ⟨-, rfl⟩ := comment_gives hg
    rw [own]
    exact lead.append _
  | _ => exact h.elim

private theorem steps_start {n : Node} (h : n.IsStatement) :
    (∃ c, n = .comment c) ∨ ∃ rest, n.steps = stepTo n.line ++ rest := by
  cases n with
  | comment c => exact .inl ⟨c, rfl⟩
  | identifier | property | charset | importSheet | xmlNamespace => exact .inr ⟨[], (List.append_nil _).symm⟩
  | media | supports | atRule | loop => exact .inr ⟨_, rfl⟩
  | ruleSet | conditional => exact .inr ⟨_, List.append_assoc _ _ _⟩
  | _ => exact h.elim

private theorem line_le_after {n : Node} (h : n.IsStatement) {k : Nat} (order : n.steps.InOrder k) :
    ∀ l ∈ n.line, l ≤ n.steps.after k := by
  intro l hl
  have hl : n.line = some l := hl
  rcases steps_start h with ⟨c, rfl⟩ | ⟨rest, hs⟩
  · have hs : c.steps = [.comment l (c.text.toList.count '\n')] := by
      rw [Comment.steps, show c.line = some l from hl]
      rfl
    show l ≤ c.steps.after k
    rw [hs]
    exact Nat.le_add_right l _
  · rw [hs, Steps.inOrder_append] at order
    rw [hs, Steps.after_append]
    rw [hl] at order ⊢
    exact Steps.le_after order.2

private theorem infix_braced (p : Pass) (content : String) :
    content.toList <:+: (" \x7b" ++ content ++ "\n" ++ p.indent ++ "\x7d").toList := by
  rw [String.append_assoc, String.append_assoc, String.toList_append, String.toList_append]
  exact List.infix_append _ _ _

private theorem body_content {ns : List Node} {line : Option Nat} (hs : AreStatements ns)
    (h : (statements none ns).Lays σ (stepsOf ns)) (hp : p.Calm)
    (order : Steps.InOrder p.line (.opens ⟨ns, line⟩ :: stepsOf ns)) (hg : (Render.body ⟨ns, line⟩).Gives σ p t q) :
    ∃ content r, (statements none ns).Gives σ p.down content r ∧ Laid σ (stepsOf ns) p.down content r ∧ q = r.up ∧
      t = " \x7b" ++ content ++ "\n" ++ r.up.indent ++ "\x7d" := by
  obtain ⟨⟨n, hn, l, hl, later⟩, rest⟩ := order
  have braced : (block (statements none ns)).Gives σ p t q := hg
  obtain ⟨content, r, content', r', hc, hw, rfl, rfl⟩ := block_gives braced
  have laid := h hp.down rest hc
  have kept : content' = content ∧ r' = r := by
    rcases withReturn_gives hw with ⟨-, hc, hr⟩ | ⟨returns, -⟩ | ⟨returns, -⟩
    · exact ⟨hc, hr⟩
    · rw [laid.calm.inFunction] at returns
      cases returns
    · rw [laid.calm.inFunction] at returns
      cases returns
  obtain ⟨rfl, rfl⟩ := kept
  have broken : Broken content' := by
    cases ns with
    | nil => cases hn
    | cons m ms =>
      obtain rfl : m = n := Option.some.inj hn
      rw [statements_cons] at hc
      simp only [gives_bind, gives_pure] at hc
      obtain ⟨t, _, ht, u, _, -, rfl, -⟩ := hc
      exact (broken_statement hs.1 hp.down hl later ht).append u
  have own : r'.ownLines content' = content' := if_pos broken
  exact ⟨content', r', hc, laid, rfl, by rw [own]⟩

private theorem block_lays {ns : List Node} {line : Option Nat} (hs : AreStatements ns)
    (h : (statements none ns).Lays σ (stepsOf ns)) :
    (Render.body ⟨ns, line⟩).Lays σ (.opens ⟨ns, line⟩ :: stepsOf ns) := by
  intro p t q hp order hg
  have shown : Shown σ (p.line, ⟨ns, line⟩) t := ⟨p, t, q, hp, rfl, hs, order, hg, List.infix_refl _⟩
  obtain ⟨content, r, -, laid, rfl, rfl⟩ := body_content hs h hp order hg
  have count := laid.count
  refine ⟨⟨laid.line, laid.forward, ?_⟩, laid.calm.up, ?_⟩
  · rw [feeds_braced, Steps.branches_opens, Steps.blocks_opens]
    show feeds content + 1 + Steps.branches (stepsOf ns) = r.line - p.down.line + (Steps.blocks (stepsOf ns) + 1)
    omega
  · intro x hx
    rcases List.mem_cons.1 hx with rfl | hx
    · exact shown
    · exact (laid.shown x hx).within (infix_braced r.up content)

private theorem statement_lays {n : Node} (h : n.IsStatement) (hn : (node n).Lays σ n.steps) {previous : Option Nat}
    (passed : ∀ l ∈ previous, l ≤ p.line) (hp : p.Calm) (order : n.steps.InOrder p.line)
    (hg : (statement previous n).Gives σ p t q) : Laid σ n.steps p t q := by
  cases n with
  | comment c =>
    refine comment_lays h hp (fun same l hl => passed l ?_) order hg
    have equal : previous = c.line := by simpa using (Bool.and_eq_true_iff.1 same).2
    rw [equal]
    exact hl
  | _ => exact hn hp order hg

private theorem alternatives_cons_lay {n : Node} {ns : List Node} (hn : (alternative n).Lays σ xs)
    (hns : LaysAll σ (alternatives ns) ys) : LaysAll σ (alternatives (n :: ns)) (xs ++ ys) := by
  intro p ts q hp order hg
  rw [alternatives_cons] at hg
  simp only [gives_bind, gives_pure] at hg
  obtain ⟨t, r, ht, us, _, hus, rfl, rfl⟩ := hg
  obtain ⟨first, rest⟩ := Steps.inOrder_append.1 order
  have laid := hn hp first ht
  rw [← laid.line] at rest
  rw [String.join_cons]
  exact laid.append (hns laid.calm rest hus)

mutual

private theorem node_lays (n : Node) (h : n.IsStatement) : (node n).Lays σ n.steps := by
  match n with
  | .identifier ⟨name, none, placeholder, rest, line⟩ => cases h.1
  | .identifier ⟨name, some v, placeholder, rest, line⟩ =>
    obtain ⟨bound, hname, values⟩ := h
    have ⟨quiet, assigned⟩ := values v rfl
    have kind := quiet.self.kind
    cases v with
    | null => cases bound
    | callable => cases kind
    | expression e =>
      have lays : (assignment name e (each e.operands)).Lays σ (stepTo e.line) :=
        assignment_lays hname (each_quiets e.operands ((Node.every_iff_everyIn _).1 quiet).2)
      rw [assigned e rfl] at lays
      exact lays
    | _ => exact boundValue_lays hname (node_quiets _ quiet)
  | .property _ _ _ => exact property_lays h.1 h.2
  | .ruleSet selectors none _ => exact h.2.elim
  | .ruleSet selectors (some b) _ => exact ruleSet_lays h.1 (body_lays b h.2)
  | .media _ none _ | .supports _ none _ => exact h.2.elim
  | .media condition (some b) _ => exact conditionRule_lays (by decide) (node_quiets condition h.1) (body_lays b h.2)
  | .supports condition (some b) _ =>
    exact conditionRule_lays (by decide) (node_quiets condition h.1) (body_lays b h.2)
  | .atRule name segments none line =>
    have lays : (atRule name line segments (each segments) none).Lays σ (stepTo line) :=
      atRule_lays h.1 (each_quiets segments h.2.1)
    show (atRule name line segments (each segments) none).Lays σ (stepTo line ++ [])
    rwa [List.append_nil]
  | .atRule name segments (some b) _ =>
    exact atRule_block_lays h.1 (each_quiets segments h.2.1) (body_lays b (h.2.2.resolve_left (by simp)))
  | .charset _ _ => exact charset_lays h.1 h.2
  | .importSheet _ _ => exact importSheet_lays h
  | .xmlNamespace value _ _ => exact xmlNamespace_lays h.2 (node_quiets value h.1)
  | .loop _ _ none _ _ =>
    obtain ⟨-, -, ⟨e, he, -⟩, -⟩ := h
    cases he
  | .loop _ _ (some _) none _ => exact h.2.2.2.elim
  | .loop item key (some iterable) (some b) _ =>
    obtain ⟨hi, hk, ⟨e, he, operands⟩, hb⟩ := h
    cases he
    exact loop_lays hi hk operands (body_lays b hb)
  | .conditional _ none _ _ _ => exact h.2.1.elim
  | .conditional condition (some b) alternatives negated line =>
    intro p t q hp order hg
    have start : Laid σ (stepTo line) p (branchLead p (.leading line)) (branchPass p (.leading line)) :=
      (laid_lead hp (Steps.inOrder_append.1 (Steps.inOrder_append.1 order).1).1).tail (by decide)
    exact conditional_laid start order (node_quiets condition h.1) (body_lays b h.2.1)
      (alternatives_lay alternatives h.2.2) hg
  | .comment c => exact fun _ _ _ hp order hg => comment_lays h hp (fun same => by cases same) order hg
  | .null | .literal .. | .number .. | .quoted _ | .boolean _ | .color _ | .expression _ | .arguments _ | .block _
  | .selector .. | .call .. | .callable .. | .returned .. | .binary .. | .unary .. | .keyframes .. | .queryList _
  | .query .. | .feature .. | .extend .. | .member .. | .mapLiteral .. => exact h.elim
termination_by structural n

private theorem body_lays (b : Body Node) (h : AreStatements b.statements) :
    (Render.body b).Lays σ (.opens b :: stepsOf b.statements) := by
  match b with
  | ⟨ns, _⟩ => exact block_lays h fun p t q hp order hg => statements_laid ns h hp (by simp) order hg
termination_by structural b

private theorem statements_laid (ns : List Node) (h : AreStatements ns) {previous : Option Nat} {p q : Pass}
    {t : String}
    (hp : p.Calm) (passed : ∀ l ∈ previous, l ≤ p.line) (order : (stepsOf ns).InOrder p.line)
    (hg : (statements previous ns).Gives σ p t q) : Laid σ (stepsOf ns) p t q := by
  match ns with
  | [] =>
    obtain ⟨rfl, rfl⟩ := gives_pure.1 hg
    exact Laid.oneLine hp closed_oneLine.empty
  | n :: ns =>
    rw [statements_cons] at hg
    simp only [gives_bind, gives_pure] at hg
    obtain ⟨t, r, ht, u, _, hu, rfl, rfl⟩ := hg
    obtain ⟨first, rest⟩ := Steps.inOrder_append.1 order
    have laid := statement_lays h.1 (node_lays n h.1) passed hp first ht
    have ahead := line_le_after h.1 first
    rw [← laid.line] at rest ahead
    exact laid.append (statements_laid ns h.2 laid.calm ahead rest hu)
termination_by structural ns

private theorem alternatives_lay (ns : List Node) (h : AreBranches ns) :
    LaysAll σ (alternatives ns) (branchSteps ns) := by
  match ns with
  | [] =>
    intro p ts q hp _ hg
    obtain ⟨rfl, rfl⟩ := gives_pure.1 hg
    exact Laid.oneLine hp closed_oneLine.empty
  | n :: ns =>
    cases n with
    | conditional condition b alts negated line =>
      obtain ⟨hc, hb, ha, hns⟩ := h
      match b with
      | none => exact hb.elim
      | some b =>
        have branch : (conditional .chained negated (node condition) (Render.body b) (alternatives alts)).Lays σ
            (.opens b :: stepsOf b.statements ++ branchSteps alts) := by
          intro p t q hp order hg
          have start : Laid σ [] p " @else if " p := Laid.oneLine hp (by decide)
          exact conditional_laid start order (node_quiets condition hc) (body_lays b hb) (alternatives_lay alts ha) hg
        exact alternatives_cons_lay (chained_lays branch) (alternatives_lay ns hns)
    | block b =>
      exact alternatives_cons_lay (chained_lays (otherwise_lays (body_lays b h.1))) (alternatives_lay ns h.2)
    | _ => exact h.elim
termination_by structural ns

end

private theorem stepsOf_append (ns ms : List Node) : stepsOf (ns ++ ms) = stepsOf ns ++ stepsOf ms := by
  induction ns with
  | nil => rfl
  | cons n ns ih => rw [List.cons_append, stepsOf, ih, stepsOf, List.append_assoc]

private theorem areStatements_front {front rest : List Node} (h : AreStatements (front ++ rest)) :
    AreStatements front := by
  induction front with
  | nil => exact trivial
  | cons n front ih => exact ⟨h.1, ih h.2⟩

private theorem statements_front {front rest : List Node} {previous : Option Nat}
    (hg : (statements previous (front ++ rest)).Gives σ p t q) :
    ∃ u r, (statements previous front).Gives σ p u r ∧ u.toList <+: t.toList := by
  induction front generalizing previous p t with
  | nil => exact ⟨"", p, gives_pure.2 ⟨rfl, rfl⟩, List.nil_prefix⟩
  | cons n front ih =>
    rw [List.cons_append, statements_cons] at hg
    simp only [gives_bind, gives_pure] at hg
    obtain ⟨s, r, hs, v, _, hv, rfl, rfl⟩ := hg
    obtain ⟨u, r', hu, start⟩ := ih hv
    refine ⟨s ++ u, r', ?_, ?_⟩
    · rw [statements_cons]
      simp only [gives_bind, gives_pure]
      exact ⟨s, r, hs, u, r', hu, rfl, rfl⟩
    · rw [String.toList_append, String.toList_append]
      exact (List.prefix_append_right_inj _).2 start

/-- Every row of first statements gives a part of the text, and that part fits its steps. -/
def FrontsFit (σ : Style) (ns : List Node) (p : Pass) (t : String) : Prop :=
  ∀ front, front <+: ns → ∃ u q, (statements none front).Gives σ p u q ∧ u.toList <:+: t.toList ∧
    (stepsOf front).Fits p u q

/-- From a pass on the line, the block gives a part of the text. It fits its steps, as do its first statements. -/
def BlockFits (σ : Style) (x : Nat × Body Node) (t : String) : Prop :=
  ∃ p u q, p.line = x.1 ∧ (Render.body x.2).Gives σ p u q ∧ u.toList <:+: t.toList ∧
    (blockSteps (some x.2)).Fits p u q ∧ FrontsFit σ x.2.statements p.down u

private theorem fronts_fit {ns : List Node} (h : AreStatements ns) (hp : p.Calm) (order : (stepsOf ns).InOrder p.line)
    (hg : (statements none ns).Gives σ p t q) : FrontsFit σ ns p t := by
  rintro front ⟨rest, rfl⟩
  obtain ⟨u, r, hu, start⟩ := statements_front hg
  rw [stepsOf_append, Steps.inOrder_append] at order
  have laid := statements_laid front (areStatements_front h) hp (by simp) order.1 hu
  exact ⟨u, r, hu, start.isInfix, laid.toFits⟩

private theorem fits_of_shown {x : Nat × Body Node} (h : Shown σ x t) : BlockFits σ x t := by
  obtain ⟨p, u, q, hp, hl, hs, order, hg, inside⟩ := h
  rw [← hl] at order
  obtain ⟨k, ns, line⟩ := x
  have lays : (statements none ns).Lays σ (stepsOf ns) := fun p t q hp order hg =>
    statements_laid ns hs hp (by simp) order hg
  obtain ⟨content, r, hc, -, rfl, rfl⟩ := body_content hs lays hp order hg
  refine ⟨p, _, _, hl, hg, inside, (body_lays ⟨ns, line⟩ hs hp order hg).toFits, ?_⟩
  intro front hf
  obtain ⟨v, s, hv, within, fits⟩ := fronts_fit hs hp.down order.2 hc front hf
  exact ⟨v, s, hv, within.trans (infix_braced r.up content), fits⟩

/-- From the start of a sheet, statements in order are rendered, and the breaks in their text are those of the lines
they are on, one more for each block and one less for each alternative. The same holds for all rows of first
statements, and in every block, wherever it opens. -/
theorem statements_fit (σ : Style) (ns : List Node) (h : AreStatements ns) (order : (stepsOf ns).InOrder 1) :
    ∃ t q, (statements none ns).Gives σ {} t q ∧ (stepsOf ns).Fits {} t q ∧ FrontsFit σ ns {} t ∧
      ∀ x ∈ (stepsOf ns).openings 1, BlockFits σ x t := by
  obtain ⟨t, q, hg⟩ := (statements_succeedsIff none ns σ {}).2 (statements_sufficient ns h)
  have laid := statements_laid ns h Pass.calm_start (by simp) order hg
  exact ⟨t, q, hg, laid.toFits, fronts_fit h Pass.calm_start order hg, fun x hx => fits_of_shown (laid.shown x hx)⟩

theorem statements_fit_branches :
    let declared (name value : String) (line : Nat) : Node :=
      .property [.literal name none] ⟨[.literal value none], some line⟩ (some line)
    let selector (name : String) (line : Nat) : Node := .selector [.literal name (some line)] (some line)
    let rule : Node :=
      .ruleSet [selector ".a" 3, selector ".b" 4] (some ⟨[declared "x" "1" 6], some 4⟩) (some 3)
    let otherwise : Node := .block ⟨[declared "x" "3" 12], some 10⟩
    let branch : Node :=
      .conditional (.identifier { name := "c" }) (some ⟨[declared "x" "2" 9], some 8⟩) [otherwise] false (some 8)
    let ns : List Node := [.comment ⟨"/* a\nb */", false, some 1⟩, rule, branch]
    let output := "/*! a\nb */\n.a,\n.b \x7b\n\n  x: 1;\n\x7d\n\n@if c \x7b\n  x: 2;\n\x7d @else \x7b\n\n  x: 3;\n\x7d"
    AreStatements ns ∧ (stepsOf ns).InOrder 1 ∧
      (((statements none ns).run {}).run {}).toOption.map Prod.fst = some output ∧
      ∃ t q, (statements none ns).Gives {} {} t q ∧ (stepsOf ns).Fits {} t q ∧ FrontsFit {} ns {} t ∧
        ∀ x ∈ (stepsOf ns).openings 1, BlockFits {} x t := by
  intro declared selector rule otherwise branch ns output
  have statements : AreStatements ns := by
    simp [ns, rule, branch, otherwise, selector, declared, AreStatements, Node.IsStatement, IsBlock, AreBranches,
      Node.IsHead, Node.every_iff_everyIn, Node.quiet_iff, Node.isQuiet, Node.TextsHold, Identifier.isBound]
    decide
  have order : (stepsOf ns).InOrder 1 := by
    simp [ns, rule, branch, otherwise, selector, declared, stepsOf, Node.steps, blockSteps, branchSteps,
      Node.headSteps, Comment.steps, stepTo, Steps.InOrder, Step.Allowed, Step.after, Node.line]
  exact ⟨statements, order, by decide +kernel, statements_fit {} ns statements order⟩

end Render

end Stylesheet
