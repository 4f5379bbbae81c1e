import Stylesheet.Proofs.Frame
import Stylesheet.Proofs.Lines.Texts
import Stylesheet.Proofs.Scope

/-!
# Rows of statements

Statements in a row have a text each. So have those of a block, whose row stands in braces, and where nothing is defined
the row of every block in a tree starts from a pass that returns values if and only if the pass around the tree does.
-/

namespace Stylesheet

open Rendering

namespace Render

/-- The texts of statements in a row; `previous` is the line of the one before. -/
def row (previous : Option Nat) : List Node → Rendering (List String)
  | [] => return []
  | n :: ns => do
    let text ← statement previous n
    return text :: (← row n.line ns)

private theorem statements_eq_row (previous : Option Nat) (ns : List Node) :
    statements previous ns = String.join <$> row previous ns := by
  induction ns generalizing previous with
  | nil => rfl
  | cons n ns ih => simp only [statements_cons, row, ih, map_eq_pure_bind, bind_assoc, pure_bind, String.join_cons]

variable {σ : Style} {p q : Pass} {t : String} {ts : List String} {previous : Option Nat} {n : Node} {ns : List Node}

/-- Only a comment depends on what stands in front of it. -/
theorem statement_eq_node (other : ∀ c, n ≠ .comment c) : statement previous n = node n := by
  cases n with
  | comment c => exact absurd rfl (other c)
  | _ => rfl

theorem gives_statements : (statements previous ns).Gives σ p t q ↔
    ∃ ts, (row previous ns).Gives σ p ts q ∧ t = String.join ts := by
  rw [statements_eq_row, gives_map]

theorem gives_row_cons : (row previous (n :: ns)).Gives σ p ts q ↔
    ∃ t r us, (statement previous n).Gives σ p t r ∧ (row n.line ns).Gives σ r us q ∧ ts = t :: us := by
  simp only [row, gives_bind, gives_pure]
  constructor
  · rintro ⟨t, r, ht, us, s, hus, rfl, rfl⟩
    exact ⟨t, r, us, ht, hus, rfl⟩
  · rintro ⟨t, r, us, ht, hus, rfl⟩
    exact ⟨t, r, ht, us, q, hus, rfl, rfl⟩

end Render

mutual

/-- The blocks of rule sets, branches and loops in a statement, at any depth. -/
def Node.blocks : Node → List (Body Node)
  | .ruleSet _ b _ | .loop _ _ _ b _ => blocksIn b
  | .conditional _ b alternatives _ _ => blocksIn b ++ blocksOf alternatives
  | .block b => b :: blocksOf b.statements
  | _ => []
termination_by structural n => n

def blocksOf : List Node → List (Body Node)
  | [] => []
  | n :: ns => n.blocks ++ blocksOf ns
termination_by structural ns => ns

def blocksIn : Option (Body Node) → List (Body Node)
  | none => []
  | some b => b :: blocksOf b.statements
termination_by structural b => b

end

mutual

private theorem Node.blocks_inner (n : Node) {b : Body Node} (h : b ∈ n.blocks) :
    ∀ c ∈ blocksOf b.statements, c ∈ n.blocks := by
  match n with
  | .ruleSet _ c _ | .loop _ _ _ c _ => exact blocksIn_inner c h
  | .conditional _ c alternatives _ _ =>
    intro d hd
    rcases List.mem_append.1 h with h | h
    · exact List.mem_append_left _ (blocksIn_inner c h d hd)
    · exact List.mem_append_right _ (blocksOf_inner alternatives h d hd)
  | .block ⟨ss, _⟩ =>
    intro d hd
    rcases List.mem_cons.1 h with rfl | h
    · exact List.mem_cons_of_mem _ hd
    · exact List.mem_cons_of_mem _ (blocksOf_inner ss h d hd)
  | .null | .literal .. | .identifier _ | .number .. | .quoted _ | .boolean _ | .color _ | .expression _ | .arguments _
  | .selector .. | .property .. | .call .. | .callable .. | .returned .. | .binary .. | .unary .. | .keyframes ..
  | .media .. | .queryList _ | .query .. | .feature .. | .supports .. | .xmlNamespace .. | .charset .. | .importSheet ..
  | .extend .. | .atRule .. | .comment _ | .member .. | .mapLiteral .. => cases h
termination_by structural n

theorem blocksOf_inner (ns : List Node) {b : Body Node} (h : b ∈ blocksOf ns) :
    ∀ c ∈ blocksOf b.statements, c ∈ blocksOf ns := by
  match ns with
  | [] => cases h
  | n :: ns =>
    intro d hd
    rcases List.mem_append.1 h with h | h
    · exact List.mem_append_left _ (n.blocks_inner h d hd)
    · exact List.mem_append_right _ (blocksOf_inner ns h d hd)
termination_by structural ns

private theorem blocksIn_inner (c : Option (Body Node)) {b : Body Node} (h : b ∈ blocksIn c) :
    ∀ d ∈ blocksOf b.statements, d ∈ blocksIn c := by
  match c with
  | none => cases h
  | some ⟨ss, _⟩ =>
    intro d hd
    rcases List.mem_cons.1 h with rfl | h
    · exact List.mem_cons_of_mem _ hd
    · exact List.mem_cons_of_mem _ (blocksOf_inner ss h d hd)
termination_by structural c

end

/-- The pass `q` is in the same places as `p`, at any depth, and returns values just if `p` does. -/
structure Pass.Inside (p q : Pass) : Prop where
  returning : q.returning = p.returning
  places : q.places = p.places

namespace Pass.Inside

variable {p q r : Pass}

theorem refl (p : Pass) : p.Inside p := ⟨rfl, rfl⟩

theorem trans (h : p.Inside q) (h' : q.Inside r) : p.Inside r :=
  ⟨h'.returning.trans h.returning, h'.places.trans h.places⟩

theorem reach (p : Pass) (line : Option Nat) : p.Inside (p.reach line) := by cases line <;> exact ⟨rfl, rfl⟩

theorem down (p : Pass) : p.Inside p.down := ⟨rfl, rfl⟩

theorem nextLine (p : Pass) : p.Inside p.nextLine := ⟨rfl, rfl⟩

/-- Back in the places of `p`, with the scope of `p`. -/
theorem leave (kept : q.scope = p.scope) : p.Inside (q.leave p) := ⟨congrArg Scope.returning kept, rfl⟩

/-- What keeps the scope ends inside of where it starts. -/
theorem of_run (beside : p.Beside q) (kept : q.scope = p.scope) : p.Inside q :=
  ⟨congrArg Scope.returning kept, beside.places⟩

theorem inAny (h : p.Inside q) (among : List Place) : q.inAny among = p.inAny among := by
  rw [Pass.inAny, Pass.inAny, h.places]

theorem inFunction (h : p.Inside q) : q.inFunction = p.inFunction := by
  rw [Pass.inFunction, Pass.inFunction, h.inAny, h.returning]

end Pass.Inside

namespace Render

variable {σ : Style} {p q r : Pass} {s t u : String} {b : Body Node}

private theorem each_inside {ns : List Node} {ts : List String} (plain : ¬Defined ns) (h : (each ns).Gives σ p ts q) :
    p.Inside q := .of_run (each_stays ns h) ((each_scoped ns h).kept plain)

private theorem body_inside (plain : ¬Defined b.statements) (h : (body b).Gives σ p t q) : p.Inside q :=
  .of_run (Pass.beside_steps.body b h) ((body_scoped b h).kept plain)

private theorem row_inside {previous : Option Nat} {ns : List Node} {ts : List String} (plain : ¬Defined ns)
    (h : (row previous ns).Gives σ p ts q) : p.Inside q :=
  have run := gives_statements.2 ⟨ts, h, rfl⟩
  .of_run (statements_stays previous ns run) ((statements_scoped previous ns run).kept plain)

private theorem statement_inside {previous : Option Nat} {n : Node} (plain : ¬n.Defines)
    (h : (statement previous n).Gives σ p t q) : p.Inside q := by
  have run : (row previous [n]).Gives σ p [t] q := gives_row_cons.2 ⟨t, q, [], h, gives_pure.2 ⟨rfl, rfl⟩, rfl⟩
  exact row_inside (by simpa using plain) run

private theorem alternative_inside {n : Node} (plain : ¬n.Defines) (h : (alternative n).Gives σ p t q) :
    p.Inside q := by
  have run : (alternatives [n]).Gives σ p [t] q := by
    rw [alternatives_cons]
    exact h.bind (.bind (gives_pure.2 ⟨rfl, rfl⟩) (gives_pure.2 ⟨rfl, rfl⟩))
  exact .of_run (Pass.beside_steps.alternatives [n] run) ((alternatives_scoped [n] run).kept (by simpa using plain))

/-- In the text, the statements of the block stand in braces, as they are rendered from a pass inside of `p`. -/
def Encloses (σ : Style) (p : Pass) (t : String) (b : Body Node) : Prop :=
  ∃ r ts s content s', p.Inside r ∧ r.Inside s ∧ (row none b.statements).Gives σ r ts s ∧
    (withReturn (String.join ts)).Gives σ s content s' ∧
    ("\x7b" ++ s'.ownLines content ++ "\n" ++ s'.up.indent ++ "\x7d").toList <:+: t.toList

namespace Encloses

theorem inside (h : Encloses σ q t b) (around : p.Inside q) : Encloses σ p t b := by
  obtain ⟨r, ts, s, content, s', inner, run⟩ := h
  exact ⟨r, ts, s, content, s', around.trans inner, run⟩

theorem within (h : Encloses σ p t b) (held : t.toList <:+: u.toList) : Encloses σ p u b := by
  obtain ⟨r, ts, s, content, s', inner, further, hts, hc, found⟩ := h
  exact ⟨r, ts, s, content, s', inner, further, hts, hc, found.trans held⟩

theorem append_left (h : Encloses σ p t b) (s : String) : Encloses σ p (s ++ t) b :=
  h.within (String.toList_append ▸ List.infix_append_right)

private theorem append_right (h : Encloses σ p t b) (u : String) : Encloses σ p (t ++ u) b :=
  h.within (String.toList_append ▸ List.infix_append_left)

/-- Braces are no white space, so that trimming leaves them alone. -/
theorem trimStart (h : Encloses σ p t b) : Encloses σ p (Text.trimStart t) b := by
  obtain ⟨r, ts, s, content, s', inner, further, hts, hc, found⟩ := h
  refine ⟨r, ts, s, content, s', inner, further, hts, hc, ?_⟩
  simp only [String.append_assoc] at found ⊢
  rw [String.toList_append] at found ⊢
  exact infix_trimStart (c := '\x7b') (by decide) found

theorem terminated (h : Encloses σ p t b) : Encloses σ p (Render.terminated t) b := by
  unfold Render.terminated
  split
  · exact h
  · exact h.append_right ";"

theorem withReturn (h : Encloses σ p t b) {content : String} (run : (Render.withReturn t).Gives σ q content r) :
    Encloses σ p content b := by
  rcases withReturn_gives run with ⟨-, rfl, -⟩ | ⟨-, rfl, -⟩ | ⟨-, inserted, hi, rfl⟩
  · exact h
  · exact h.terminated
  · obtain ⟨margin, rfl, -⟩ := insertReturn_gives hi
    exact (h.trimStart.append_left (margin ++ σ.dialect.returnWord)).terminated

theorem ownLines (h : Encloses σ p t b) (q : Pass) : Encloses σ p (q.ownLines t) b := by
  unfold Pass.ownLines
  split
  · exact h
  · exact h.trimStart.append_left ("\n" ++ q.indent)

end Encloses

private theorem body_encloses (plain : ¬Defined b.statements) (h : (body b).Gives σ p t q) : Encloses σ p t b ∧
    ∀ c, (∀ ⦃ts q⦄, (row none b.statements).Gives σ p.down ts q → Encloses σ p.down (String.join ts) c) →
      Encloses σ p t c := by
  obtain ⟨ss, line⟩ := b
  have braced : (block (statements none ss)).Gives σ p t q := h
  obtain ⟨content, r, content', r', hc, hw, rfl, rfl⟩ := block_gives braced
  obtain ⟨ts, hts, rfl⟩ := gives_statements.1 hc
  refine ⟨⟨p.down, ts, r, content', r', .down p, row_inside plain hts, hts, hw, ?_⟩, fun c held => ?_⟩
  · exact ⟨[' '], [], by simp⟩
  · have inner := (((held hts).withReturn hw).ownLines r').append_left " \x7b"
    exact ((inner.append_right "\n").append_right r'.up.indent).append_right "\x7d" |>.inside (.down p)

private theorem conditional_encloses {condition : Node} {c : Body Node} {alts : List Node} {start : BranchStart}
    {negated : Bool} (plain : ¬(condition.Defines ∨ Defined c.statements ∨ Defined alts))
    (hc : ∀ ⦃p t q⦄, (body c).Gives σ p t q → ∀ b ∈ c :: blocksOf c.statements, Encloses σ p t b)
    (ha : ∀ ⦃p ts q⦄, (alternatives alts).Gives σ p ts q → ∀ b ∈ blocksOf alts, Encloses σ p (String.join ts) b)
    (h : (conditional start negated (node condition) (body c) (alternatives alts)).Gives σ p t q) :
    ∀ b ∈ (c :: blocksOf c.statements) ++ blocksOf alts, Encloses σ p t b := by
  obtain ⟨none, content, -⟩ : ¬condition.Defines ∧ ¬Defined c.statements ∧ ¬Defined alts := by simpa using plain
  obtain ⟨_, r, _, s, others, hcondition, hcontent, hothers, rfl⟩ := conditional_gives h
  have led : p.Inside (branchPass p start) := by
    cases start with
    | leading line => exact .reach p line
    | chained => exact .refl p
  have kept : r.scope = (branchPass p start).scope := by simpa using (node_scoped condition hcondition).kept none
  have around := led.trans (.leave kept)
  intro b hm
  rcases List.mem_append.1 hm with hm | hm
  · exact (((hc hcontent b hm).inside around).append_left _).append_right _
  · exact ((ha hothers b hm).inside (around.trans (body_inside content hcontent))).append_left _

mutual

private theorem node_encloses (n : Node) (plain : ¬n.Defines) {p q : Pass} {t : String} (h : (node n).Gives σ p t q) :
    ∀ b ∈ n.blocks, Encloses σ p t b := by
  have parts : ¬Defined n.parts := fun held => plain (n.defines_iff.2 (.inr held))
  match n with
  | .ruleSet selectors none _ => exact absurd h gives_missing
  | .ruleSet selectors (some c) line =>
    obtain ⟨heads, content⟩ : ¬Defined selectors ∧ ¬Defined c.statements := by simpa using parts
    obtain ⟨_, r, _, hs, hb, rfl⟩ := ruleSet_gives h
    have around := (Pass.Inside.reach p line).trans (each_inside heads hs)
    exact fun b hm => ((body_encloses_all c content hb b hm).inside around).append_left _
  | .conditional _ none _ _ _ => exact absurd h gives_missing
  | .conditional condition (some c) alts negated line =>
    have inner : ¬(condition.Defines ∨ Defined c.statements ∨ Defined alts) := by simpa [or_assoc] using parts
    obtain ⟨content, others⟩ := not_or.1 (not_or.1 inner).2
    exact conditional_encloses inner (fun _ _ _ hc => body_encloses_all c content hc)
      (fun _ _ _ ha => alternatives_encloses alts others ha) h
  | .loop _ _ none _ _ => exact absurd h gives_missing
  | .loop _ _ (some _) none _ => exact absurd h gives_missing
  | .loop item key (some e) (some c) line =>
    obtain ⟨items, content⟩ : ¬Defined e.operands ∧ ¬Defined c.statements := by simpa using parts
    obtain ⟨_, r, _, hts, hb, rfl⟩ := loop_gives h
    have kept : r.scope = (p.reach line).scope := by
      split at hts
      · simpa using (ranges_scoped e.operands hts).kept items
      · simpa using (each_scoped e.operands hts).kept items
    have around := (Pass.Inside.reach p line).trans (.leave kept)
    exact fun b hm => ((body_encloses_all c content hb b hm).inside around).append_left _
  | .block c => exact body_encloses_all c parts h
  | .null | .literal .. | .identifier _ | .number .. | .quoted _ | .boolean _ | .color _ | .expression _ | .arguments _
  | .selector .. | .property .. | .call .. | .callable .. | .returned .. | .binary .. | .unary .. | .keyframes ..
  | .media .. | .queryList _ | .query .. | .feature .. | .supports .. | .xmlNamespace .. | .charset .. | .importSheet ..
  | .extend .. | .atRule .. | .comment _ | .member .. | .mapLiteral .. => nofun
termination_by structural n

theorem body_encloses_all (c : Body Node) (plain : ¬Defined c.statements) {p q : Pass} {t : String}
    (h : (body c).Gives σ p t q) : ∀ b ∈ c :: blocksOf c.statements, Encloses σ p t b := by
  match c with
  | ⟨ss, line⟩ =>
    obtain ⟨own, inner⟩ := body_encloses plain h
    exact List.forall_mem_cons.2 ⟨own, fun b hm => inner b fun ts q hts => row_encloses none ss plain hts b hm⟩
termination_by structural c

theorem row_encloses (previous : Option Nat) (ns : List Node) (plain : ¬Defined ns) {p q : Pass} {ts : List String}
    (h : (row previous ns).Gives σ p ts q) : ∀ b ∈ blocksOf ns, Encloses σ p (String.join ts) b := by
  match ns with
  | [] => nofun
  | n :: ns =>
    rw [defined_cons, not_or] at plain
    obtain ⟨t, r, us, ht, hus, rfl⟩ := gives_row_cons.1 h
    rw [String.join_cons]
    intro b hm
    rcases List.mem_append.1 hm with hm | hm
    · rw [statement_eq_node (by rintro c rfl; cases hm)] at ht
      exact (node_encloses n plain.1 ht b hm).append_right _
    · exact ((row_encloses n.line ns plain.2 hus b hm).inside (statement_inside plain.1 ht)).append_left t
termination_by structural ns

private theorem alternatives_encloses (ns : List Node) (plain : ¬Defined ns) {p q : Pass} {ts : List String}
    (h : (alternatives ns).Gives σ p ts q) : ∀ b ∈ blocksOf ns, Encloses σ p (String.join ts) b := by
  match ns with
  | [] => nofun
  | n :: ns =>
    rw [defined_cons, not_or] at plain
    have parts : ¬Defined n.parts := fun held => plain.1 (n.defines_iff.2 (.inr held))
    rw [alternatives_cons] at h
    simp only [gives_bind, gives_pure] at h
    obtain ⟨t, r, ht, us, _, hus, rfl, rfl⟩ := h
    rw [String.join_cons]
    -- another branch, or the last one, which has no condition
    have own : ∀ b ∈ n.blocks, Encloses σ p t b := by
      cases n with
      | conditional condition c alts negated line =>
        match c with
        | none => exact absurd ht gives_missing
        | some c =>
          have inner : ¬(condition.Defines ∨ Defined c.statements ∨ Defined alts) := by simpa [or_assoc] using parts
          obtain ⟨content, others⟩ := not_or.1 (not_or.1 inner).2
          have branch := conditional_encloses inner (fun _ _ _ hc => body_encloses_all c content hc)
            (fun _ _ _ ha => alternatives_encloses alts others ha) (chained_gives ht)
          exact fun b hm => (branch b hm).inside (.nextLine p)
      | block c =>
        obtain ⟨content, hb, rfl⟩ := otherwise_gives (chained_gives ht)
        exact fun b hm => ((body_encloses_all c parts hb b hm).inside (.nextLine p)).append_left _
      | _ => exact absurd ht gives_missing
    intro b hm
    rcases List.mem_append.1 hm with hm | hm
    · exact (own b hm).append_right _
    · exact ((alternatives_encloses ns plain.2 hus b hm).inside (alternative_inside plain.1 ht)).append_left t
termination_by structural ns

end

end Render

end Stylesheet
