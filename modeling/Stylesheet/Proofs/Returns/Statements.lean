import Stylesheet.Proofs.Returns.Values

/-!
# The keyword in front of statements

The number of keywords in the text of a statement is decided by its tree, by the places around it and by whether
values are returned: one for each list or explicit return that is a statement, at least one for each block of a
function, and one for each loose list inside of a statement.
-/

namespace Stylesheet

open Text Rendering

/-- The keywords of a text, in front of statements and inside of them, and whether values are returned after it. -/
structure Tally where
  fronts : Nat := 0
  insides : Nat := 0
  returning : Bool
deriving DecidableEq

/-- The places around statements, as far as they decide what is returned. -/
structure Stand where
  amongValues : Bool
  inCallable : Bool

def Pass.stand (p : Pass) : Stand where
  amongValues := p.inAny [.expression, .arguments, .declarationValue, .mapLiteral, .condition]
  inCallable := p.inAny [.callableBody]

namespace Tally

def total (t : Tally) : Nat := t.fronts + t.insides

/-- The tally of a text with another one behind it. -/
def followed (t : Tally) (rest : Bool → Tally) : Tally where
  fronts := t.fronts + (rest t.returning).fronts
  insides := t.insides + (rest t.returning).insides
  returning := (rest t.returning).returning

def times (t : Tally) (copies : Nat) : Tally := { t with fronts := copies * t.fronts, insides := copies * t.insides }

def value (s : Stand) (returning : Bool) : Tally where
  fronts := if returning && !s.amongValues then 1 else 0
  returning := returning

/-- What stands inside of a statement and has loose lists. -/
def inner (s : Stand) (returning : Bool) (loose : Nat) : Tally where
  insides := if returning && !s.amongValues then loose else 0
  returning := returning

/-- A block of a function returns its first statement if nothing in it is returned. -/
def ofBlock (s : Stand) (t : Tally) : Tally :=
  if s.inCallable && t.returning && t.total == 0 then { t with fronts := 1 } else t

private theorem total_followed (t : Tally) (rest : Bool → Tally) :
    (t.followed rest).total = t.total + (rest t.returning).total := by
  simp only [total, followed]
  omega

private theorem total_times (t : Tally) (copies : Nat) : (t.times copies).total = copies * t.total :=
  (Nat.mul_add copies t.fronts t.insides).symm

end Tally

def Style.copies (σ : Style) : Nat := if σ.vendorCopies then Render.engines.length + 1 else 1

mutual

def Node.tally (copies : Nat) (s : Stand) (returning : Bool) : Node → Tally
  | .expression _ => .value s returning
  | .returned .. => { fronts := 1, returning }
  | .block b => blockTally copies s returning b
  | .ruleSet selectors (some b) _ =>
    (Tally.inner s returning (looseListsIn selectors)).followed fun r => blockTally copies s r b
  | .call _ _ (some b) _ => blockTally copies s returning b
  | .callable _ _ (some b) _ =>
    let inside := { s with inCallable := true }
    { blockTally copies inside (DefinitionKind.ofBody b.statements == .function) b with returning := false }
  | .conditional _ (some b) alternatives _ _ =>
    (blockTally copies s returning b).followed fun r => branchesTally copies s r alternatives
  | .loop _ _ _ (some b) _ => blockTally copies s returning b
  | .keyframes segments (some b) _ =>
    ((Tally.inner s returning (looseListsIn segments)).followed fun r => blockTally copies s r b).times copies
  | .media condition (some b) _ | .supports condition (some b) _ =>
    (Tally.inner s returning condition.looseLists).followed fun r => blockTally copies s r b
  | .xmlNamespace value _ _ => .inner s returning value.looseLists
  | .importSheet path _ => .inner s returning (looseListsIn path.operands)
  | .extend selectors _ => .inner s returning (looseListsIn selectors)
  | .atRule _ segments none _ => .inner s returning (looseListsIn segments)
  | .atRule _ segments (some b) _ =>
    (Tally.inner s returning (looseListsIn segments)).followed fun r => blockTally copies s r b
  | n => .inner s returning n.looseLists
termination_by structural n => n

def blockTally (copies : Nat) (s : Stand) (returning : Bool) : Body Node → Tally
  | ⟨ss, _⟩ => (statementsTally copies s returning ss).ofBlock s
termination_by structural b => b

def statementsTally (copies : Nat) (s : Stand) (returning : Bool) : List Node → Tally
  | [] => { returning }
  | n :: ns => (n.tally copies s returning).followed fun r => statementsTally copies s r ns
termination_by structural ns => ns

def branchesTally (copies : Nat) (s : Stand) (returning : Bool) : List Node → Tally
  | [] => { returning }
  | .conditional _ (some b) alternatives _ _ :: ns =>
    ((blockTally copies s returning b).followed fun r => branchesTally copies s r alternatives).followed fun r =>
      branchesTally copies s r ns
  | .block b :: ns => (blockTally copies s returning b).followed fun r => branchesTally copies s r ns
  | _ :: ns => branchesTally copies s returning ns
termination_by structural ns => ns

end

namespace Pass

/-- From `p` to `q` the text is written, and it has the keywords of the tally. -/
structure Tallied (p : Pass) (f : Tally) (t : String) (q : Pass) : Prop where
  values : q.registry.Holds Silent
  places : q.places = p.places
  returning : q.returning = f.returning
  marked : Marked f.total t

variable {p q r : Pass} {f : Tally} {s t : String}

namespace Tallied

theorem stand (h : p.Tallied f t q) : q.stand = p.stand := by
  unfold Pass.stand Pass.inAny
  rw [h.places]

theorem before (h : p.Tallied f t q) (hs : Silent s) : p.Tallied f (s ++ t) q where
  values := h.values
  places := h.places
  returning := h.returning
  marked := by
    have both := hs.marked.append h.marked
    rwa [Nat.zero_add] at both

theorem after (h : p.Tallied f t q) (hs : Silent s) : p.Tallied f (t ++ s) q where
  values := h.values
  places := h.places
  returning := h.returning
  marked := h.marked.append hs.marked

theorem followed {rest : Bool → Tally} (h : p.Tallied f t r) (h' : r.Tallied (rest r.returning) s q) :
    p.Tallied (f.followed rest) (t ++ s) q where
  values := h'.values
  places := h'.places.trans h.places
  returning := by
    rw [h'.returning, h.returning]
    rfl
  marked := by
    rw [Tally.total_followed, ← h.returning]
    exact h.marked.append h'.marked

end Tallied

theorem Along.stand (h : p.Along q) : q.stand = p.stand := by
  obtain ⟨_, rfl⟩ := h
  rfl

theorem Along.returning (h : p.Along q) : q.returning = p.returning := by
  obtain ⟨_, rfl⟩ := h
  rfl

theorem Along.places (h : p.Along q) : q.places = p.places := by
  obtain ⟨_, rfl⟩ := h
  rfl

private theorem Along.tallied {loose : Nat} (h : p.Along q) (hp : p.registry.Holds Silent)
    (shows : Shows p.returnsList loose t) : p.Tallied (.inner p.stand p.returning loose) t q where
  values := h.holds hp
  places := h.places
  returning := h.returning
  marked := by
    rw [Tally.total, Tally.inner, Nat.zero_add]
    exact shows.all

private theorem Tallied.of_along (h : q.Tallied f t r) (hp : p.Along q) : p.Tallied f t r where
  values := h.values
  places := h.places.trans hp.places
  returning := h.returning
  marked := h.marked

/-- Behind a head comes a body in the same places. -/
theorem Tallied.then_body {g : Stand → Bool → Tally} (h : p.Tallied f t r)
    (h' : r.Tallied (g r.stand r.returning) s q) : p.Tallied (f.followed fun x => g p.stand x) (t ++ s) q := by
  rw [h.stand] at h'
  exact h.followed h'

/-- The name of another rule in front of a text that does not go on with the name. -/
theorem Tallied.behind {name : String} {c : Char} {cs : List Char} (h : p.Tallied f t q)
    (plain : '@' ∉ name.toList) (other : ¬"return".toList <+: name.toList) (ht : t.toList = c :: cs)
    (hc : c ∉ returnKeyword) : p.Tallied f ("@" ++ name ++ t) q :=
  { h with marked := marked_behind plain other ht hc h.marked }

private theorem tallied_of_silent (values : q.registry.Holds Silent) (places : q.places = p.places)
    (returning : q.returning = p.returning) (h : Silent t) : p.Tallied (.inner p.stand p.returning 0) t q where
  values := values
  places := places
  returning := returning
  marked := by
    have none : (Tally.inner p.stand p.returning 0).total = 0 := by simp [Tally.total, Tally.inner]
    rw [none]
    exact h.marked

end Pass

namespace Rendering

/-- From a pass whose declarations have silent values a text comes out with a tally that the places decide. -/
def Tallies (σ : Style) (m : Rendering String) (f : Stand → Bool → Tally) : Prop :=
  ∀ ⦃p t q⦄, p.registry.Holds Silent → m.Gives σ p t q → p.Tallied (f p.stand p.returning) t q

def TalliesRow (σ : Style) (m : Rendering (List String)) (f : Stand → Bool → Tally) : Prop :=
  ∀ ⦃p ts q⦄, p.registry.Holds Silent → m.Gives σ p ts q → p.Tallied (f p.stand p.returning) (String.join ts) q

end Rendering

namespace Render

variable {σ : Style} {p q : Pass} {t : String} {line : Option Nat} {text body : Rendering String}
  {texts : Rendering (List String)} {f : Tally} {k : Nat}

/-- A body of a function that has the keyword is kept, and it is put in front of any other one. -/
theorem withReturn_inserts {content : String} (h : (withReturn content).Gives σ p t q) (function : p.inFunction) :
    HasReturn content ∧ t = terminated content ∧ q = p ∨
      ¬HasReturn content ∧ ∃ r, (insertReturn σ.dialect.returnWord content).Gives σ p r q ∧ t = terminated r := by
  have word : dropTrailing ' ' σ.dialect.returnWord = "@return" := by cases σ.dialect <;> decide
  simp only [withReturn, gives_ite, gives_bind, gives_pure, gives_observe, gives_dialect] at h
  obtain ⟨_, _, ⟨rfl, rfl⟩, _, _, ⟨rfl, rfl⟩, h⟩ := h
  rw [Pass.inFunction] at function
  rw [if_pos function] at h
  obtain ⟨_, _, ⟨rfl, rfl⟩, h⟩ := h
  rw [word] at h
  by_cases found : HasReturn content
  · rw [if_pos found] at h
    obtain ⟨_, _, ⟨rfl, rfl⟩, rfl, rfl⟩ := h
    exact .inl ⟨found, rfl, rfl⟩
  · rw [if_neg found] at h
    obtain ⟨r, _, hr, rfl, rfl⟩ := h
    exact .inr ⟨found, r, hr, rfl⟩

theorem marked_terminated (h : Marked k t) : Marked k (terminated t) := by
  unfold terminated
  split
  · exact h
  · have ending : Silent ";" := by decide
    exact h.append ending.marked

theorem marked_ownLines (p : Pass) (h : Marked k t) : Marked k (p.ownLines t) := by
  unfold Pass.ownLines
  split
  · exact h
  · have feed : Silent "\n" := by decide
    have both := (feed.append (silent_of_blank (blank_indent p))).marked.append h.trimStart
    rwa [Nat.zero_add] at both

theorem insertReturn_marked {content : String} (h : Marked k content)
    (hg : (insertReturn σ.dialect.returnWord content).Gives σ p t q) : Marked (1 + k) t ∧ p.Along q := by
  obtain ⟨margin, rfl, hm⟩ := insertReturn_gives hg
  have front : Silent margin ∧ p.Along q := by
    rcases hm with ⟨rfl, rfl⟩ | ⟨rfl, rfl⟩
    · exact ⟨silent_of_blank (blank_margin content), .refl _⟩
    · have feed : Silent "\n" := by decide
      exact ⟨feed.append (silent_of_blank (blank_indent p)), ⟨_, rfl⟩⟩
  have both := (front.1.marked.append σ.dialect.marked_returnWord).append h.trimStart
  rw [Nat.zero_add] at both
  exact ⟨both, front.2⟩

private theorem withReturn_tallied {content : String} {r : Pass} (h : p.Tallied f content r)
    (hg : (withReturn content).Gives σ r t q) : p.Tallied (f.ofBlock p.stand) t q := by
  have function : r.inFunction = (p.stand.inCallable && f.returning) := by
    rw [← h.stand, ← h.returning]
    rfl
  by_cases hf : r.inFunction
  · rw [hf] at function
    rcases withReturn_inserts hg hf with ⟨found, rfl, rfl⟩ | ⟨absent, s, hs, rfl⟩
    · have some : f.total ≠ 0 := h.marked.hasReturn_iff.1 found
      have kept : f.ofBlock p.stand = f := by
        rw [Tally.ofBlock, ← function]
        simp [some]
      rw [kept]
      exact ⟨h.values, h.places, h.returning, marked_terminated h.marked⟩
    · have none : f.total = 0 := by simpa using mt h.marked.hasReturn_iff.2 absent
      have first : f.ofBlock p.stand = { f with fronts := 1 } := by
        rw [Tally.ofBlock, ← function]
        simp [none]
      obtain ⟨marked, along⟩ := insertReturn_marked h.marked hs
      have insides : f.insides = 0 := by
        rw [Tally.total] at none
        omega
      rw [first]
      refine ⟨along.holds h.values, along.places.trans h.places, along.returning.trans h.returning, ?_⟩
      rw [none] at marked
      rw [Tally.total, insides]
      exact marked_terminated marked
  · have outside : f.ofBlock p.stand = f := by
      rw [Tally.ofBlock, ← function]
      simp [hf]
    rcases withReturn_gives hg with ⟨-, rfl, rfl⟩ | ⟨hr, -⟩ | ⟨hr, -⟩
    · rw [outside]
      exact h
    · exact absurd hr hf
    · exact absurd hr hf

theorem block_tallied (h : ∀ content r, text.Gives σ p.down content r → p.down.Tallied f content r)
    (hg : (block text).Gives σ p t q) : p.Tallied (f.ofBlock p.stand) t q := by
  obtain ⟨content, r, content', r', hc, hw, rfl, rfl⟩ := block_gives hg
  have inside := withReturn_tallied (h content r hc) hw
  have feed : Silent "\n" := by decide
  have opening : Silent " \x7b" := by decide
  have closing : Silent ("\n" ++ r'.up.indent ++ "\x7d") :=
    (feed.append (silent_of_blank (blank_indent _))).append (by decide)
  have own : p.Tallied (f.ofBlock p.stand) (r'.ownLines content') r'.up :=
    ⟨inside.values, inside.places, inside.returning, marked_ownLines r' inside.marked⟩
  simpa only [String.append_assoc] using (own.before opening).after closing

/-- A block begins with a space, so no name goes on in it. -/
theorem block_start (hg : (block text).Gives σ p t q) : ∃ cs, t.toList = ' ' :: cs := by
  obtain ⟨_, _, _, _, -, -, -, rfl⟩ := block_gives hg
  simp only [String.append_assoc, String.toList_append]
  exact ⟨_, rfl⟩

section bodies

variable {g : Stand → Bool → Tally}

theorem shows_ruleHead {returns : Bool} {selectors : List Node} {ts : List String} (p : Pass)
    (h : AllShow returns selectors ts) : Shows returns (looseListsIn selectors) (ruleHead p ts) := by
  have joined := shows_joinSelectors h
  unfold ruleHead
  split
  · have opening : Silent "#\x7b" := by decide
    exact (opening.then_shows joined).then_silent (by decide)
  · exact joined

theorem ruleSet_tallies {selectors : List Node}
    (hs : texts.Exposes σ fun returns ts => AllShow returns selectors ts) (hb : body.Tallies σ g) :
    (ruleSet line texts body).Tallies σ fun s r =>
      (Tally.inner s r (looseListsIn selectors)).followed fun r => g s r := by
  intro p t q hp hg
  obtain ⟨heads, r, content, hh, hc, rfl⟩ := ruleSet_gives hg
  obtain ⟨along, shown⟩ := hs.reached hp hh
  have head := along.tallied hp (shows_ruleHead q shown)
  have both := head.then_body (hb (along.holds hp) hc)
  rw [String.append_assoc]
  exact both.before (silent_lead p line)

theorem conditionRule_tallies {keyword : String} (silent : Silent keyword)
    (ht : text.Exposes σ fun returns t => Shows returns k t) (hb : body.Tallies σ g) :
    (conditionRule keyword line text body).Tallies σ fun s r => (Tally.inner s r k).followed fun r => g s r := by
  intro p t q hp hg
  obtain ⟨condition, r, content, hcondition, hc, rfl⟩ := conditionRule_gives hg
  obtain ⟨along, shown⟩ := ht.reached hp hcondition
  have head := along.tallied hp shown
  have both := head.then_body (hb (along.holds hp) hc)
  rw [String.append_assoc]
  exact both.before ((silent_lead p line).append silent)

private theorem marked_join {ts : List String} (h : ∀ t ∈ ts, Marked k t) :
    Marked (ts.length * k) (String.join ts) := by
  induction ts with
  | nil =>
    rw [List.length_nil, Nat.zero_mul]
    exact (silent_join (by simp)).marked
  | cons t ts ih =>
    obtain ⟨ht, hts⟩ := List.forall_mem_cons.1 h
    rw [String.join_cons, List.length_cons, Nat.succ_mul, Nat.add_comm]
    exact ht.append (ih hts)

private theorem marked_withEngines {pad rule : String} (hp : Blank pad) (h : Marked k rule) :
    Marked (σ.copies * k) (withEngines σ.vendorCopies pad rule) := by
  have fronts : ∀ engine ∈ engines, Silent ("@" ++ engine ++ "keyframes ") := by decide
  have feed : Silent "\n" := by decide
  have standard : Silent "@keyframes " := by decide
  have copies : ∀ t ∈ engines.map fun engine => "@" ++ engine ++ "keyframes " ++ rule ++ "\n" ++ pad, Marked k t := by
    intro t ht
    obtain ⟨engine, he, rfl⟩ := List.mem_map.1 ht
    have row := (((fronts engine he).marked.append h).append feed.marked).append (silent_of_blank hp).marked
    simpa only [Nat.zero_add, Nat.add_zero] using row
  have last := standard.marked.append h
  rw [Nat.zero_add] at last
  dsimp only [withEngines, Style.copies]
  by_cases hv : σ.vendorCopies
  · have all := (marked_join copies).append last
    rw [if_pos hv, if_pos hv, String.append_assoc, Nat.succ_mul]
    rwa [List.length_map] at all
  · rw [if_neg hv, if_neg hv, String.append_assoc, Nat.one_mul]
    have none : Silent (String.join []) := silent_join (by simp)
    have all := none.marked.append last
    rwa [Nat.zero_add] at all

/-- All copies have the same name and the same body. -/
theorem keyframes_tallies {segments statements : List Node}
    (hs : texts.Exposes σ fun returns ts => AllShow returns segments ts) (hb : body.Tallies σ g) :
    (keyframes line segments statements texts body).Tallies σ fun s r =>
      ((Tally.inner s r (looseListsIn segments)).followed fun r => g s r).times σ.copies := by
  intro p t q hp hg
  obtain ⟨ts, r, content, last, hts, hc, rfl, rfl⟩ := keyframes_gives hg
  have held : (p.enter [.keyframes]).registry.Holds Silent := hp
  have stand : (p.enter [.keyframes]).stand = p.stand := by simp [Pass.stand, Pass.inAny, Pass.enter]
  obtain ⟨along, shown⟩ := hs.reached held hts
  have head := along.tallied held (shows_joinSegments shown)
  have both := head.then_body (hb (along.holds held) hc)
  rw [stand] at both
  have copied := marked_withEngines (σ := σ) (blank_indent last) both.marked
  rw [← Tally.total_times] at copied
  have placed : p.Tallied (((Tally.inner p.stand p.returning (looseListsIn segments)).followed fun r =>
      g p.stand r).times σ.copies) (withEngines σ.vendorCopies last.indent (joinSegments segments ts ++ content))
      (last.leave p) := ⟨both.values, rfl, both.returning, copied⟩
  exact placed.before (silent_lead _ line)

theorem conditional_tallies {start : BranchStart} {negated : Bool} {g' : Stand → Bool → Tally}
    (hc : text.Exposes σ fun returns t => Shows returns k t) (hb : body.Tallies σ g)
    (ha : texts.TalliesRow σ g') :
    (conditional start negated text body texts).Tallies σ fun s r => (g s r).followed fun r => g' s r := by
  intro p t q hp hg
  obtain ⟨condition, r, content, s, others, hcondition, hcontent, hothers, rfl⟩ := conditional_gives hg
  have start_along : p.Along (branchPass p start) := by
    cases start with
    | leading line => exact p.along_reach line
    | chained => exact .refl p
  have lead : Silent (branchLead p start) := by
    cases start with
    | leading line => exact (silent_lead p line).append (by decide)
    | chained => exact (by decide : Silent " @else if ")
  obtain ⟨along, shown⟩ := hc.inside (start_along.holds hp) (by simp) hcondition
  have negation : Silent (negate negated condition) := by
    have silent := shown.silent rfl
    unfold negate
    split
    · have opening : Silent "not (" := by decide
      exact (opening.append silent).append (by decide)
    · exact silent
  have before := start_along.trans along
  have branch := (hb (before.holds hp) hcontent).of_along before
  rw [before.stand, before.returning] at branch
  have both := branch.then_body (ha branch.values hothers)
  rw [String.append_assoc]
  exact both.before (lead.append negation)

theorem chained_tallies (h : text.Tallies σ g) : (chained text).Tallies σ g := by
  intro p t q hp hg
  have next : p.Along p.nextLine := ⟨_, rfl⟩
  have tallied := (h (next.holds hp) (chained_gives hg)).of_along next
  rwa [next.stand, next.returning] at tallied

theorem otherwise_tallies (h : body.Tallies σ g) : (otherwise body).Tallies σ g := by
  intro p t q hp hg
  obtain ⟨content, hc, rfl⟩ := otherwise_gives hg
  exact (h hp hc).before (by decide)

private theorem atHead_tallied {name : String} {segments : List Node} {ts : List String} {rest : String} {c : Char}
    {cs : List Char} (plain : '@' ∉ name.toList) (other : ¬"return".toList <+: name.toList)
    (h : p.Tallied f (joinSegments segments ts ++ rest) q) (hr : rest.toList = c :: cs) (hc : c ∉ returnKeyword) :
    p.Tallied f (atHead name segments ts ++ rest) q := by
  by_cases he : segments.isEmpty
  · rw [List.isEmpty_iff.1 he] at h ⊢
    have bare : joinSegments [] ts ++ rest = rest := String.empty_append
    rw [bare] at h
    have head : atHead name [] ts ++ rest = "@" ++ name ++ rest := by
      rw [atHead, List.isEmpty_nil, if_pos rfl, String.append_empty]
    rw [head]
    exact h.behind plain other hr hc
  · have space : Silent " " := by decide
    have spaced : (" " ++ (joinSegments segments ts ++ rest)).toList =
        ' ' :: (joinSegments segments ts ++ rest).toList := by
      rw [String.toList_append]
      rfl
    have head : atHead name segments ts ++ rest = "@" ++ name ++ (" " ++ (joinSegments segments ts ++ rest)) := by
      rw [atHead, if_neg he]
      simp only [String.append_assoc]
    rw [head]
    exact (h.before space).behind plain other spaced (by decide)

theorem atRule_tallies {name : String} {segments : List Node} (plain : '@' ∉ name.toList)
    (other : ¬"return".toList <+: name.toList)
    (hs : texts.Exposes σ fun returns ts => AllShow returns segments ts) :
    (atRule name line segments texts none).Tallies σ fun s r => .inner s r (looseListsIn segments) := by
  intro p t q hp hg
  obtain ⟨ts, r, hts, ⟨-, rfl, rfl⟩ | ⟨b, inner, hb, -⟩⟩ := atRule_gives hg
  · obtain ⟨along, shown⟩ := hs.reached hp hts
    have ending : Silent ";" := by decide
    have head := (along.tallied hp (shows_joinSegments shown)).after ending
    have end_char : ";".toList = [';'] := rfl
    have whole := (atHead_tallied plain other head end_char (by decide)).before (silent_lead p line)
    rwa [← String.append_assoc] at whole
  · cases hb

theorem atRule_block_tallies {name : String} {segments : List Node} (plain : '@' ∉ name.toList)
    (other : ¬"return".toList <+: name.toList)
    (hs : texts.Exposes σ fun returns ts => AllShow returns segments ts) (hb : body.Tallies σ g)
    (start : ∀ {p t q}, body.Gives σ p t q → ∃ cs, t.toList = ' ' :: cs) :
    (atRule name line segments texts (some body)).Tallies σ fun s r =>
      (Tally.inner s r (looseListsIn segments)).followed fun r => g s r := by
  intro p t q hp hg
  obtain ⟨ts, r, hts, ⟨hn, -⟩ | ⟨b, content, hbody, hc, rfl⟩⟩ := atRule_gives hg
  · cases hn
  · cases hbody
    obtain ⟨along, shown⟩ := hs.reached hp hts
    have head := along.tallied hp (shows_joinSegments shown)
    have both := head.then_body (hb (along.holds hp) hc)
    obtain ⟨cs, hcs⟩ := start hc
    rw [String.append_assoc]
    exact (atHead_tallied plain other both hcs (by decide)).before (silent_lead p line)

private theorem silent_joinItems {d : Dialect} {items : List Node} {ts : List String} (h : ∀ t ∈ ts, Silent t)
    (names : ∀ n ∈ items, ∀ name, n.bareName? = some name → '@' ∉ name.toList ∧ d.Avoids name) :
    Silent (joinItems d items ts) := by
  refine silent_intercalate (by decide) fun t ht => ?_
  obtain ⟨⟨n, u⟩, hm, rfl⟩ := List.mem_map.1 ht
  obtain ⟨hn, hu⟩ := List.of_mem_zip hm
  dsimp only
  cases hb : n.bareName? with
  | none => exact h u hu
  | some name =>
    obtain ⟨plain, avoids⟩ := names n hn name hb
    exact d.silent_variableRef plain avoids

private theorem silent_loopHead {d : Dialect} {item : String} {key : Option String} {items : List Node}
    {ts : List String}
    (known : ∀ name ∈ item :: key.toList, '@' ∉ name.toList ∧ d.Avoids name) (h : ∀ t ∈ ts, Silent t)
    (names : ∀ n ∈ items, ∀ name, n.bareName? = some name → '@' ∉ name.toList ∧ d.Avoids name) :
    Silent (loopHead d item key items ts) := by
  have written : ∀ name ∈ item :: key.toList, Silent (d.variableRef name) := fun name hn =>
    d.silent_variableRef (known name hn).1 (known name hn).2
  have comma : Silent ", " := by decide
  unfold loopHead
  split
  · have opening : Silent "@for " := by decide
    have between : Silent " from " := by decide
    exact ((opening.append (written item (by simp))).append between).append (silent_intercalate comma h)
  · have opening : Silent "@each " := by decide
    have between : Silent " in " := by decide
    have listed : ∀ t ∈ (item :: key.toList).map d.variableRef, Silent t := by
      intro t ht
      obtain ⟨name, hn, rfl⟩ := List.mem_map.1 ht
      exact written name hn
    exact ((opening.append (silent_intercalate comma listed)).append between).append (silent_joinItems h names)

/-- The head of a loop is among conditions, so only its body can return. -/
theorem loop_tallies {item : String} {key : Option String} {iterable : Expression Node}
    {ranges each : Rendering (List String)}
    (known : ∀ name ∈ item :: key.toList, '@' ∉ name.toList ∧ σ.dialect.Avoids name)
    (names : ∀ n ∈ iterable.operands, ∀ name, n.bareName? = some name → '@' ∉ name.toList ∧ σ.dialect.Avoids name)
    (hr : ranges.Exposes σ fun returns ts => returns = false → ∀ t ∈ ts, Silent t)
    (he : each.Exposes σ fun returns ts => returns = false → ∀ t ∈ ts, Silent t) (hb : body.Tallies σ g) :
    (loop item key line iterable ranges each body).Tallies σ g := by
  intro p t q hp hg
  obtain ⟨ts, r, content, hts, hc, rfl⟩ := loop_gives hg
  have start := p.along_reach line
  have learned : (knowingItems (p.reach line) item key).registry.Holds Silent := by
    cases key <;> exact start.holds hp
  have places : (knowingItems (p.reach line) item key).places = p.places := by
    cases key <;> exact p.reach_places line
  have returning : (knowingItems (p.reach line) item key).returning = p.returning := by
    cases key <;> exact p.reach_returning line
  obtain ⟨along, silent⟩ : (knowingItems (p.reach line) item key).Along
      (r.leave (knowingItems (p.reach line) item key)) ∧ (false = false → ∀ t ∈ ts, Silent t) := by
    split at hts
    · exact hr.inside learned (by simp) hts
    · exact he.inside learned (by simp) hts
  have left : r.leave (knowingItems (p.reach line) item key) = r.leave (p.reach line) := by
    rw [Pass.leave, Pass.leave, places, p.reach_places]
  rw [left] at along
  have inside := hb (along.holds learned) hc
  have stand : (r.leave (p.reach line)).stand = p.stand := by
    rw [along.stand]
    unfold Pass.stand Pass.inAny
    rw [places]
  rw [stand, along.returning, returning] at inside
  have body : p.Tallied (g p.stand p.returning) content q :=
    { inside with places := inside.places.trans (p.reach_places line) }
  exact body.before ((silent_lead p line).append (silent_loopHead known (silent rfl) names))

theorem call_block_tallies {name : String} {args : List Node} (plain : '@' ∉ name.toList)
    (h : texts.Exposes σ fun returns ts => AllShow returns args ts) (hb : body.Tallies σ g) :
    (call name line texts (some body)).Tallies σ g := by
  intro p t q hp hg
  obtain ⟨args, r, ha, ⟨hn, -⟩ | ⟨b, content, hbody, hc, rfl⟩⟩ := call_gives hg
  · cases hn
  · cases hbody
    have moved := p.along_reach line
    have held : ((p.reach line).call name).registry.Holds Silent := moved.holds hp
    obtain ⟨along, inner⟩ := arguments_exposes h held ha
    have before := moved.trans along.hangUp
    have body := (hb (before.holds hp) hc).of_along before
    rw [before.stand, before.returning] at body
    have opening : Silent "(" := by decide
    have closing : Silent ")" := by decide
    exact body.before (((((silent_callLead p line).append (silent_of_plain plain)).append opening).append
      inner).append closing)

private theorem silent_callableHead (d : Dialect) (kind : DefinitionKind) {name params : String}
    (plain : '@' ∉ name.toList)
    (h : Silent params) : Silent (callableHead d kind name params) := by
  have opening : Silent "(" := by decide
  have closing : Silent ")" := by decide
  have signature : ∀ {word : String}, Silent word → Silent (word ++ name ++ "(" ++ params ++ ")") := fun hw =>
    (((hw.append (silent_of_plain plain)).append opening).append h).append closing
  cases kind with
  | function => exact signature (by decide)
  | mixin => cases d <;> exact signature (by decide)

/-- Whether a callable returns values is its own, and nothing is returned after it. -/
theorem callable_tallies {name : String} {kind : DefinitionKind} {names : List String} (plain : '@' ∉ name.toList)
    (hps : ∀ {p ts q}, p.registry.Holds Silent → texts.Gives σ p ts q →
      q.registry.Holds Silent ∧ q.places = p.places ∧ q.returning = p.returning ∧ ∀ t ∈ ts, Silent t)
    (hb : body.Tallies σ g) :
    (callable name line kind names texts body).Tallies σ fun s _ =>
      { g { s with inCallable := true } (kind == .function) with returning := false } := by
  intro p t q hp hg
  obtain ⟨params, r, content, s, hparams, hc, rfl, rfl⟩ := callable_gives hg
  have held : (intoCallable (p.reach line) kind names).registry.Holds Silent := (p.along_reach line).holds hp
  have stand : (intoCallable (p.reach line) kind names).stand = { p.stand with inCallable := true } := by
    simp [Pass.stand, Pass.inAny, intoCallable, Pass.enter, Pass.learn]
  obtain ⟨values, places, returning, silent⟩ := hps held hparams
  have inside := hb values hc
  have within_callable : r.stand = (intoCallable (p.reach line) kind names).stand := by
    unfold Pass.stand Pass.inAny
    rw [places]
  rw [within_callable, stand, returning] at inside
  have head : Silent (p.lead line ++ callableHead σ.dialect kind name (", ".intercalate params)) :=
    (silent_lead p line).append (silent_callableHead _ kind plain (silent_intercalate (by decide) silent))
  have left := inside.before head
  exact ⟨left.values, p.reach_places line, rfl, left.marked⟩

end bodies

theorem expression_tallies {e : Expression Node}
    (h : texts.Exposes σ fun returns ts => AllShow returns e.operands ts) :
    (expression e texts).Tallies σ .value := by
  intro p t q hp hg
  obtain ⟨along, shown⟩ := expression_exposes h hp hg
  exact ⟨along.holds hp, along.places, along.returning, shown.all⟩

theorem returned_front (h : text.Exposes σ fun returns t => returns = false → Silent t)
    (hp : p.registry.Holds Silent) (hg : (returned line text).Gives σ p t q) :
    p.Along q ∧ ∃ rest, Silent rest ∧ t = p.lead line ++ σ.dialect.returnWord ++ rest := by
  obtain ⟨value, r, hv, rfl, rfl⟩ := returned_gives hg
  have start := p.along_reach line
  obtain ⟨along, silent⟩ := h.inside (start.holds hp) (by simp) hv
  have ending : Silent ";" := by decide
  exact ⟨start.trans along, _, (silent rfl).dropTrailing.append ending, String.append_assoc ..⟩

theorem returned_tallies (h : text.Exposes σ fun returns t => returns = false → Silent t) :
    (returned line text).Tallies σ fun _ r => { fronts := 1, returning := r } := by
  intro p t q hp hg
  obtain ⟨along, rest, silent, rfl⟩ := returned_front h hp hg
  have word := (silent_lead p line).marked.append σ.dialect.marked_returnWord
  exact ⟨along.holds hp, along.places, along.returning, word.append silent.marked⟩

/-- What stands inside of a statement that only moves on by lines. -/
theorem tallies_of_exposes (h : text.Exposes σ fun returns t => Shows returns k t) :
    text.Tallies σ fun s r => .inner s r k := by
  intro p t q hp hg
  obtain ⟨along, shown⟩ := h hp hg
  exact along.tallied hp shown

/-- A declaration neither returns anything itself nor gives the keyword to later look-ups of its value. -/
theorem property_tallies {value : Expression Node} (single : value.inlineName? = none)
    (hn : text.Exposes σ fun returns t => returns = false → Silent t)
    (hv : body.Exposes σ fun returns t => returns = false → Silent t) :
    (property line text value body).Tallies σ fun s r => .inner s r 0 := by
  intro p t q hp hg
  obtain ⟨name, r, content, s, hname, hcontent, ⟨_, hs, -⟩ | ⟨-, rfl, rfl⟩⟩ := property_gives hg
  · rw [single] at hs
    cases hs
  · have start := p.along_reach line
    have held : ((p.reach line).enter [.declarationValue]).registry.Holds Silent := start.holds hp
    have among : ((p.reach line).enter [.declarationValue]).returnsList = false :=
      (p.reach line).returnsList_enter (by simp)
    obtain ⟨first, named⟩ := hn held hname
    have opened : (r.learn (·.openDeclaration name)).registry.Holds Silent := (first.holds held).openDeclaration
    obtain ⟨rest, silent⟩ := hv opened hcontent
    have still : (r.learn (·.openDeclaration name)).returnsList = false := first.returnsList.trans among
    have written : Silent content := silent still
    have values : (s.learn (·.closeDeclaration r.registry.nextSlot content)).registry.Holds Silent :=
      (rest.holds opened).closeDeclaration written _
    have colon : Silent ": " := by decide
    have ending : Silent (if Text.endsWith ';' content || value.handsBlock then "" else ";") := by split <;> decide
    have declared := (((named among).append colon).append written).append ending
    exact Pass.tallied_of_silent values (p.reach_places line)
      (rest.returning.trans (first.returning.trans (p.reach_returning line))) ((silent_lead p line).append declared)

theorem charset_tallies {encoding : QuotedText} (text : '@' ∉ encoding.text.toList)
    (quote : '@' ∉ encoding.quote.toList) : (charset line encoding).Tallies σ fun s r => .inner s r 0 := by
  intro p t q hp hg
  obtain ⟨rfl, rfl⟩ := charset_gives hg
  have word : Silent "@charset " := by decide
  have ending : Silent ";" := by decide
  have written := (((silent_lead p line).append word).append (silent_quoted text quote)).append ending
  exact (p.along_reach line).tallied hp written.shows

/-- The value of a namespace is not among values, so a list in it is taken for a statement. -/
theorem xmlNamespace_tallies {shortName : Option String} (plain : ∀ n ∈ shortName, '@' ∉ n.toList)
    (h : text.Exposes σ fun returns t => Shows returns k t) :
    (xmlNamespace line shortName text).Tallies σ fun s r => .inner s r k := by
  intro p t q hp hg
  obtain ⟨value, r, hv, rfl, rfl⟩ := xmlNamespace_gives hg
  have start := p.along_reach line
  have held : ((p.reach line).enter [.xmlNamespace]).registry.Holds Silent := start.holds hp
  have among : ((p.reach line).enter [.xmlNamespace]).returnsList = p.returnsList := by
    simp [Pass.returnsList, Pass.inAny, Pass.enter]
  obtain ⟨along, shown⟩ := h held hv
  rw [among] at shown
  have word : Silent "@namespace " := by decide
  have short : Silent ((shortName.map (· ++ " ")).getD "") :=
    silent_rowwise.optional_append (fun n hn => silent_of_plain (plain n hn)) (by decide)
  have front := ((silent_lead p line).append word).append short
  have ended : p.Tallied (.inner p.stand p.returning k) (Text.dropTrailing ';' value ++ ";")
      (r.leave (p.reach line)) := by
    have tallied := (start.trans along.leave).tallied hp shown
    exact { tallied with marked := tallied.marked.terminated }
  have whole := ended.before front
  rwa [← String.append_assoc] at whole

/-- The ending of the sheet's file gives way to another one. -/
theorem shows_outputPath (d : Dialect) {returns : Bool} {path : String} (h : Shows returns k path) :
    Shows returns k (outputPath d path) := by
  unfold outputPath
  cases hb : Text.before? sheetEnding path with
  | none => exact h
  | some stem =>
    have split : path = stem ++ "." ++ "styl" := by
      rw [append_of_before? hb, String.append_assoc]
      rfl
    have dot : Clear returnKeyword (stem ++ ".").toList := by
      rw [String.toList_append]
      refine clear_of_last (c := '.') ?_ (by decide)
      rw [solids_append]
      exact List.getLast?_concat
    rw [split] at h
    have stays := h.of_append dot (by decide)
    have ending : d.fileEnding = "." ++ d.name := by cases d <;> rfl
    have word : Silent d.name := by cases d <;> decide
    rw [ending]
    dsimp only
    rw [← String.append_assoc]
    exact stays.then_silent word

private theorem shows_joinPath {returns : Bool} {pieces : List Node} {ts : List String} (h : AllShow returns pieces ts)
    (plain : ∀ n ∈ pieces, ∀ q, n.quotedText? = some q → '@' ∉ q.text.toList) :
    Shows returns (looseListsIn pieces) (joinPath pieces ts) := by
  induction h with
  | nil => exact (silent_join (by simp)).shows
  | @cons n t ns ts head rest ih =>
    obtain ⟨hn, hns⟩ := List.forall_mem_cons.1 plain
    have first : Shows returns n.looseLists ((n.quotedText?.map (·.text)).getD t) := by
      cases hq : n.quotedText? with
      | none => exact head
      | some q =>
        have leaf : n.looseLists = 0 := by
          cases n with
          | quoted q => rfl
          | _ => cases hq
        rw [leaf]
        exact (silent_of_plain (hn q hq)).shows
    rw [joinPath_cons, looseListsIn]
    exact first.append (ih hns)

theorem importSheet_tallies {pieces : List Node}
    (plain : ∀ n ∈ pieces, ∀ q, n.quotedText? = some q → '@' ∉ q.text.toList ∧ '@' ∉ q.quote.toList)
    (h : texts.Exposes σ fun returns ts => AllShow returns pieces ts) :
    (importSheet line pieces texts).Tallies σ fun s r => .inner s r (looseListsIn pieces) := by
  intro p t q hp hg
  obtain ⟨ts, hts, rfl⟩ := importSheet_gives hg
  obtain ⟨along, shown⟩ := h.reached hp hts
  have mark : Silent (pathQuote pieces) :=
    silent_of_plain (plain_pathQuote fun n hn q hq => (plain n hn q hq).2)
  have word : Silent "@import " := by decide
  have front := ((silent_lead p line).append word).append mark
  have path := shows_outputPath σ.dialect (shows_joinPath shown fun n hn q hq => (plain n hn q hq).1)
  have written := ((front.then_shows path).then_silent mark).then_silent (by decide : Silent ";")
  exact along.tallied hp written

theorem extend_tallies {selectors : List Node}
    (h : texts.Exposes σ fun returns ts => AllShow returns selectors ts) :
    (extend line selectors texts).Tallies σ fun s r => .inner s r (looseListsIn selectors) := by
  intro p t q hp hg
  obtain ⟨-, ts, hts, rfl⟩ := extend_gives hg
  obtain ⟨along, shown⟩ := h.reached hp hts
  have word : Silent "@extend " := by decide
  have comma : Silent ", " := by decide
  have listed := shows_intercalate comma shown.trimStart
  have written := (((silent_lead p line).append word).then_shows listed).then_silent (by decide : Silent ";")
  exact along.tallied hp written

end Render

end Stylesheet
