import Stylesheet.Convert
import Stylesheet.Proofs.Returns.Statements

/-!
# The keyword in heads and bodies

A rendering of a tree that brings no keyword has the keywords of its tally. None of the heads of rules is among
values, so every loose list of a head in the body of a function is taken for a statement and has the keyword in front
of it.
-/

namespace Stylesheet

open Text Rendering

namespace Render

variable {σ : Style}

private theorem params_silent (quote : σ.quote ≠ '@') {ids : List (Identifier Node)}
    (names : ∀ id ∈ ids, '@' ∉ id.name.toList ∧ σ.dialect.Avoids id.name)
    (defaults : Pieces σ.dialect (ids.flatMap (·.value.toList))) {p q : Pass} {ts : List String}
    (hp : p.registry.Holds Silent) (hg : (params ids).Gives σ p ts q) :
    q.registry.Holds Silent ∧ q.places = p.places ∧ q.returning = p.returning ∧ ∀ t ∈ ts, Silent t := by
  induction ids generalizing p ts with
  | nil =>
    obtain ⟨rfl, rfl⟩ := gives_pure.1 hg
    exact ⟨hp, rfl, rfl, by simp⟩
  | cons id ids ih =>
    obtain ⟨⟨plain, avoids⟩, others⟩ := List.forall_mem_cons.1 names
    rw [List.flatMap_cons] at defaults
    obtain ⟨own, rest⟩ := (pieces_append _ _).1 defaults
    simp only [paramsWith, gives_bind, gives_pure] at hg
    obtain ⟨t, r, ht, ts, _, hts, rfl, rfl⟩ := hg
    obtain ⟨value, s, hs, rfl, rfl⟩ := param_gives ht
    obtain ⟨along, silent⟩ : p.Along s ∧ Silent value := by
      rcases hs with ⟨-, rfl, rfl⟩ | ⟨-, content, s, hc, rfl, rfl⟩
      · exact ⟨.refl _, silent_of_plain (by simp)⟩
      · obtain ⟨along, silent⟩ := (optional_silent quote id.value own).inside hp (by simp) hc
        have colon : Silent ": " := by decide
        exact ⟨along, colon.append (silent rfl).dropTrailing⟩
    have dots : Silent (if id.rest then "..." else "") := by split <;> decide
    have learned : (s.learn (·.addVariable id.name)).registry.Holds Silent := (along.holds hp).addVariable
    obtain ⟨values, places, returning, all⟩ := ih others rest learned hts
    have first := ((σ.dialect.silent_variableRef plain avoids).append silent).append dots
    exact ⟨values, places.trans along.places, returning.trans along.returning, List.forall_mem_cons.2 ⟨first, all⟩⟩

private theorem body_start {b : Body Node} {p q : Pass} {t : String} (h : (body b).Gives σ p t q) :
    ∃ cs, t.toList = ' ' :: cs := by
  cases b
  exact block_start h

private theorem tallies_missing {kind : Kind} {part : NeededPart} {f : Stand → Bool → Tally} :
    (missing kind part).Tallies σ f := by
  intro p t q _ hg
  exact absurd hg gives_missing

private theorem inlineName?_of_every {value : Expression Node} (h : EveryIn (Node.Mute σ.dialect) value.operands) :
    value.inlineName? = none := by
  cases hv : value.inlineName? with
  | none => rfl
  | some name =>
    obtain ⟨id, hid, -, bound⟩ := Expression.identifier_of_inlineName? hv
    have unbound : id.isBound = false := (h _ hid).self.bare
    rw [unbound] at bound
    cases bound

mutual

private theorem node_tallies (quote : σ.quote ≠ '@') (n : Node) (h : n.Every (Node.Mute σ.dialect)) :
    (node n).Tallies σ (n.tally σ.copies) := by
  have texts := h.self.texts
  have inside := h.pieces
  have held := h.parts
  match n with
  | .null | .literal .. | .identifier _ | .number .. | .quoted _ | .boolean _ | .color _ | .arguments _ | .selector ..
  | .call _ _ none _ | .binary .. | .unary .. | .queryList _ | .query .. | .feature .. | .member .. | .mapLiteral ..
  | .comment _ =>
    exact tallies_of_exposes (node_exposes quote _ h rfl)
  | .expression e => exact expression_tallies (each_exposes quote e.operands inside)
  | .returned value _ =>
    exact returned_tallies ((expression_exposes (each_exposes quote value.operands inside)).mono
      fun _ _ shown => shown.silent)
  | .block b => exact body_tallies quote b held
  | .ruleSet _ none _ => exact tallies_missing
  | .ruleSet selectors (some b) _ =>
    exact ruleSet_tallies (each_exposes quote selectors inside) (body_tallies quote b ((everyIn_append _ _).1 held).2)
  | .property segments value _ =>
    obtain ⟨name, content⟩ := (pieces_append _ _).1 inside
    exact property_tallies (inlineName?_of_every ((everyIn_append _ _).1 held).2)
      ((named_exposes (each_exposes quote segments name)).mono fun _ _ shown => shown.silent)
      ((expression_exposes (each_exposes quote value.operands content)).mono fun _ _ shown => shown.silent)
  | .call name args (some b) _ =>
    exact call_block_tallies (texts name (by simp)) (each_exposes quote args inside)
      (body_tallies quote b ((everyIn_append _ _).1 held).2)
  | .callable _ _ none _ => exact tallies_missing
  | .callable name ps (some b) _ =>
    have names : ∀ id ∈ ps, '@' ∉ id.name.toList ∧ σ.dialect.Avoids id.name := fun id hid =>
      have written : id.name ∈ ps.map (·.name) := List.mem_map_of_mem hid
      ⟨texts id.name (List.mem_cons_of_mem _ written), h.self.names id.name written⟩
    exact callable_tallies (texts name (by simp)) (params_silent quote names inside)
      (body_tallies quote b ((everyIn_append _ _).1 held).2)
  | .conditional _ none _ _ _ => exact tallies_missing
  | .conditional condition (some b) alternatives _ _ =>
    obtain ⟨⟨hc, piece⟩, -⟩ := (pieces_cons _ _).1 inside
    obtain ⟨first, others⟩ := (everyIn_append _ _).1 held
    exact conditional_tallies (node_exposes quote condition hc piece)
      (body_tallies quote b ((everyIn_cons _ _).1 first).2) (alternatives_tallies quote alternatives others)
  | .loop _ _ none _ _ => exact tallies_missing
  | .loop _ _ (some _) none _ => exact tallies_missing
  | .loop item key (some e) (some b) _ =>
    have known : ∀ name ∈ item :: key.toList, '@' ∉ name.toList ∧ σ.dialect.Avoids name := fun name hn =>
      ⟨texts name hn, h.self.names name hn⟩
    exact loop_tallies known (fun n hn _ => plain_of_bareName (inside n hn).1) (ranges_silent quote e.operands inside)
      ((each_exposes quote e.operands inside).mono fun returns _ shown hr => (hr ▸ shown).silent)
      (body_tallies quote b ((everyIn_append _ _).1 held).2)
  | .keyframes _ none _ => exact tallies_missing
  | .keyframes segments (some b) _ =>
    exact keyframes_tallies (each_exposes quote segments inside)
      (body_tallies quote b ((everyIn_append _ _).1 held).2)
  | .media _ none _ => exact tallies_missing
  | .media q (some b) _ =>
    obtain ⟨⟨hq, piece⟩, -⟩ := (pieces_cons _ _).1 inside
    exact conditionRule_tallies (by decide) (node_exposes quote q hq piece)
      (body_tallies quote b ((everyIn_cons _ _).1 held).2)
  | .supports _ none _ => exact tallies_missing
  | .supports condition (some b) _ =>
    obtain ⟨⟨hc, piece⟩, -⟩ := (pieces_cons _ _).1 inside
    exact conditionRule_tallies (by decide) (node_exposes quote condition hc piece)
      (body_tallies quote b ((everyIn_cons _ _).1 held).2)
  | .xmlNamespace value shortName _ =>
    obtain ⟨⟨hv, piece⟩, -⟩ := (pieces_cons _ _).1 inside
    exact xmlNamespace_tallies (fun n hn => texts n (by simpa using hn)) (node_exposes quote value hv piece)
  | .charset encoding _ =>
    exact charset_tallies (texts encoding.text (by simp)) (texts encoding.quote (by simp))
  | .importSheet path _ =>
    refine importSheet_tallies (fun n hn q hq => ?_) (each_exposes quote path.operands inside)
    have own := (inside n hn).1.self.texts
    cases n with
    | quoted _ =>
      cases hq
      exact ⟨own q.text (by simp), own q.quote (by simp)⟩
    | _ => cases hq
  | .extend selectors _ => exact extend_tallies (each_exposes quote selectors inside)
  | .atRule name segments none line =>
    exact atRule_tallies (texts name (by simp)) (h.self.rules name (by simp [Node.ruleNames]))
      (each_exposes quote segments inside)
  | .atRule name segments (some b) line =>
    exact atRule_block_tallies (texts name (by simp)) (h.self.rules name (by simp [Node.ruleNames]))
      (each_exposes quote segments inside) (body_tallies quote b ((everyIn_append _ _).1 held).2) body_start
termination_by structural n

private theorem body_tallies (quote : σ.quote ≠ '@') (b : Body Node) (h : EveryIn (Node.Mute σ.dialect) b.statements) :
    (body b).Tallies σ fun s r => blockTally σ.copies s r b := by
  match b with
  | ⟨ss, _⟩ =>
    intro p t q hp hg
    have held : p.down.registry.Holds Silent := hp
    exact block_tallied (fun content r hc => statements_tallies quote none ss h held hc) hg
termination_by structural b

private theorem statements_tallies (quote : σ.quote ≠ '@') (previous : Option Nat) (ns : List Node)
    (h : EveryIn (Node.Mute σ.dialect) ns) :
    (statements previous ns).Tallies σ fun s r => statementsTally σ.copies s r ns := by
  match ns with
  | [] =>
    intro p t q hp hg
    obtain ⟨rfl, rfl⟩ := gives_pure.1 hg
    exact ⟨hp, rfl, rfl, (silent_of_plain (by simp)).marked⟩
  | n :: ns =>
    obtain ⟨hn, hns⟩ := (everyIn_cons _ _).1 h
    intro p t q hp hg
    rw [statements_cons] at hg
    simp only [gives_bind, gives_pure] at hg
    obtain ⟨t, r, ht, ts, _, hts, rfl, rfl⟩ := hg
    have first : p.Tallied (n.tally σ.copies p.stand p.returning) t r := by
      have alone (hm : (node n).Gives σ p t r) := node_tallies quote n hn hp hm
      cases n with
      | comment c => exact tallies_of_exposes (comment_exposes (hn.self.texts c.text (by simp))) hp ht
      | _ => exact alone ht
    exact first.then_body (g := fun s r => statementsTally σ.copies s r ns)
      (statements_tallies quote n.line ns hns first.values hts)
termination_by structural ns

private theorem alternatives_tallies (quote : σ.quote ≠ '@') (ns : List Node) (h : EveryIn (Node.Mute σ.dialect) ns) :
    (alternatives ns).TalliesRow σ fun s r => branchesTally σ.copies s r ns := by
  match ns with
  | [] =>
    intro p ts q hp hg
    obtain ⟨rfl, rfl⟩ := gives_pure.1 hg
    exact ⟨hp, rfl, rfl, (silent_join (by simp)).marked⟩
  | n :: ns =>
    obtain ⟨hn, hns⟩ := (everyIn_cons _ _).1 h
    intro p ts q hp hg
    rw [alternatives_cons] at hg
    simp only [gives_bind, gives_pure] at hg
    obtain ⟨t, r, ht, ts, _, hts, rfl, rfl⟩ := hg
    have rest (values : r.registry.Holds Silent) := alternatives_tallies quote ns hns values hts
    rw [String.join_cons]
    cases n with
    | conditional condition b others negated line =>
      match b with
      | none => exact absurd ht gives_missing
      | some b =>
        obtain ⟨⟨hc, piece⟩, -⟩ := (pieces_cons _ _).1 hn.pieces
        obtain ⟨first, more⟩ := (everyIn_append _ _).1 hn.parts
        have branch := chained_tallies (conditional_tallies (node_exposes quote condition hc piece)
          (body_tallies quote b ((everyIn_cons _ _).1 first).2) (alternatives_tallies quote others more)) hp ht
        exact branch.then_body (g := fun s r => branchesTally σ.copies s r ns) (rest branch.values)
    | block b =>
      have branch := chained_tallies (otherwise_tallies (body_tallies quote b hn.parts)) hp ht
      exact branch.then_body (g := fun s r => branchesTally σ.copies s r ns) (rest branch.values)
    | _ => exact absurd ht gives_missing
termination_by structural ns

end

/-- What comes behind the head of a rule: its body, or what ends a rule without one. -/
def BehindHead (σ : Style) (b : Option (Body Node)) (p : Pass) (t : String) (q : Pass) : Prop :=
  match b with
  | none => t = ";" ∧ q = p
  | some b => (body b).Gives σ p t q

/-- A rule that is rendered from `p`: a head that has the keyword exactly if lists are returned there and some of its
lists are loose, and what comes behind it. -/
structure Headed (σ : Style) (p : Pass) (loose : Nat) (b : Option (Body Node)) (head rest : String) (q : Pass) :
    Prop where
  keyword : HasReturn head ↔ p.returnsList ∧ loose ≠ 0
  behind : ∃ r, BehindHead σ b r rest q

variable {p q : Pass} {t : String} {line : Option Nat}

private theorem ruleSet_headed (quote : σ.quote ≠ '@') {selectors : List Node} {b : Body Node}
    (h : Pieces σ.dialect selectors) (hp : p.registry.Holds Silent)
    (hg : (node (.ruleSet selectors (some b) line)).Gives σ p t q) :
    ∃ head rest, Headed σ p (looseListsIn selectors) (some b) head rest q ∧ t = p.lead line ++ head ++ rest := by
  obtain ⟨heads, r, content, hh, hc, rfl⟩ := ruleSet_gives hg
  obtain ⟨-, shown⟩ := (each_exposes quote selectors h).reached hp hh
  exact ⟨_, content, ⟨(shows_ruleHead q shown).hasReturn_iff, r, hc⟩, rfl⟩

private theorem media_headed (quote : σ.quote ≠ '@') {n : Node} {b : Body Node} (h : n.Every (Node.Mute σ.dialect))
    (piece : n.isPiece) (hp : p.registry.Holds Silent) (hg : (node (.media n (some b) line)).Gives σ p t q) :
    ∃ head rest, Headed σ p n.looseLists (some b) head rest q ∧ t = p.lead line ++ "@media " ++ head ++ rest := by
  obtain ⟨head, r, content, hh, hc, rfl⟩ := conditionRule_gives hg
  obtain ⟨-, shown⟩ := (node_exposes quote n h piece).reached hp hh
  exact ⟨head, content, ⟨shown.hasReturn_iff, r, hc⟩, rfl⟩

private theorem atRule_headed (quote : σ.quote ≠ '@') {name : String} {segments : List Node} {b : Option (Body Node)}
    (h : Pieces σ.dialect segments) (hp : p.registry.Holds Silent)
    (hg : (node (.atRule name segments b line)).Gives σ p t q) :
    ∃ head rest, Headed σ p (looseListsIn segments) b head rest q ∧ t = p.lead line ++ "@" ++ name ++ head ++ rest := by
  have run : ∃ ts r rest, (each segments).Gives σ (p.reach line) ts r ∧ BehindHead σ b r rest q ∧
      t = p.lead line ++ atHead name segments ts ++ rest := by
    cases b with
    | none =>
      obtain ⟨ts, r, hts, ⟨-, rfl, rfl⟩ | ⟨_, _, hb, -⟩⟩ := atRule_gives hg
      · exact ⟨ts, q, ";", hts, ⟨rfl, rfl⟩, rfl⟩
      · cases hb
    | some b =>
      obtain ⟨ts, r, hts, ⟨hn, -⟩ | ⟨_, content, hb, hc, rfl⟩⟩ := atRule_gives hg
      · cases hn
      · cases hb
        exact ⟨ts, r, content, hts, hc, rfl⟩
  obtain ⟨ts, r, rest, hts, hr, rfl⟩ := run
  obtain ⟨-, shown⟩ := (each_exposes quote segments h).reached hp hts
  have head : Shows p.returnsList (looseListsIn segments)
      (if segments.isEmpty then "" else " " ++ joinSegments segments ts) := by
    split
    · next he =>
      rw [List.isEmpty_iff.1 he]
      exact (silent_of_plain (by simp)).shows
    · exact (by decide : Silent " ").then_shows (shows_joinSegments shown)
  exact ⟨_, rest, ⟨head.hasReturn_iff, r, hr⟩, by simp only [atHead, String.append_assoc]⟩

private theorem keyframes_headed (quote : σ.quote ≠ '@') {segments : List Node} {b : Body Node}
    (h : Pieces σ.dialect segments) (hp : p.registry.Holds Silent)
    (hg : (node (.keyframes segments (some b) line)).Gives σ p t q) :
    ∃ head rest s, Headed σ p (looseListsIn segments) (some b) head rest s ∧ q = s.leave p ∧
      t = p.lead line ++ withEngines σ.vendorCopies q.indent (head ++ rest) := by
  obtain ⟨ts, r, content, s, hts, hc, rfl, rfl⟩ := keyframes_gives hg
  have held : (p.enter [.keyframes]).registry.Holds Silent := hp
  have among : (p.enter [.keyframes]).returnsList = p.returnsList := by
    simp [Pass.returnsList, Pass.inAny, Pass.enter]
  obtain ⟨-, shown⟩ := (each_exposes quote segments h).reached held hts
  rw [among] at shown
  have lead : (p.enter [.keyframes]).lead line = p.lead line := by cases line <;> rfl
  rw [lead]
  exact ⟨_, content, s, ⟨(shows_joinSegments shown).hasReturn_iff, r, hc⟩, rfl, rfl⟩

/-- From every pass that a mute tree can be rendered from, the head of a rule has the keyword exactly if lists are
returned there and a list in it is loose, since no head is among values. A list or a return that is a statement has
the keyword at its start and nowhere else. A mute node leaves such a pass again, and its text has the keyword once in
front of each statement that is returned and once for each loose list inside of one. -/
theorem keyword_of_run (σ : Style) (quote : σ.quote ≠ '@') (p : Pass) (values : p.registry.Holds Silent) :
    (∀ selectors b line t q, Pieces σ.dialect selectors →
      (node (.ruleSet selectors (some b) line)).Gives σ p t q → ∃ head rest,
        Headed σ p (looseListsIn selectors) (some b) head rest q ∧ t = p.lead line ++ head ++ rest) ∧
    (∀ n b line t q, n.Every (Node.Mute σ.dialect) → n.isPiece →
      (node (.media n (some b) line)).Gives σ p t q → ∃ head rest,
        Headed σ p n.looseLists (some b) head rest q ∧ t = p.lead line ++ "@media " ++ head ++ rest) ∧
    (∀ name segments b line t q, Pieces σ.dialect segments →
      (node (.atRule name segments b line)).Gives σ p t q → ∃ head rest,
        Headed σ p (looseListsIn segments) b head rest q ∧ t = p.lead line ++ "@" ++ name ++ head ++ rest) ∧
    (∀ segments b line t q, Pieces σ.dialect segments →
      (node (.keyframes segments (some b) line)).Gives σ p t q → ∃ head rest s,
        Headed σ p (looseListsIn segments) (some b) head rest s ∧ q = s.leave p ∧
          t = p.lead line ++ withEngines σ.vendorCopies q.indent (head ++ rest)) ∧
    (∀ e t q, Pieces σ.dialect e.operands → (node (.expression e)).Gives σ p t q → ∃ rest,
      Silent rest ∧ t = (if p.returnsList then p.lead e.line ++ σ.dialect.returnWord else "") ++ rest) ∧
    (∀ value line t q, Pieces σ.dialect value.operands → (node (.returned value line)).Gives σ p t q → ∃ rest,
      Silent rest ∧ t = p.lead line ++ σ.dialect.returnWord ++ rest) ∧
    ∀ n t q, n.Every (Node.Mute σ.dialect) → (node n).Gives σ p t q →
      q.registry.Holds Silent ∧ occurrences returnKeyword t.toList =
        (n.tally σ.copies p.stand p.returning).fronts + (n.tally σ.copies p.stand p.returning).insides := by
  refine ⟨?_, ?_, ?_, ?_, ?_, ?_, ?_⟩
  · intro selectors b line t q h hg
    exact ruleSet_headed quote h values hg
  · intro n b line t q h piece hg
    exact media_headed quote h piece values hg
  · intro name segments b line t q h hg
    exact atRule_headed quote h values hg
  · intro segments b line t q h hg
    exact keyframes_headed quote h values hg
  · intro e t q h hg
    exact (expression_front (each_exposes quote e.operands h) values hg).2
  · intro value line t q h hg
    have content := (expression_exposes (e := value) (each_exposes quote value.operands h)).mono
      fun _ _ shown => shown.silent
    exact (returned_front content values hg).2
  · intro n t q h hg
    have run := node_tallies quote n h values hg
    exact ⟨run.values, run.marked.count⟩

/-- A rule in the body of a function, with a name inserted into its selector and a declaration in its block. -/
theorem keyword_of_run_selector :
    let n : Identifier Node := { name := "n" }
    let inserted : Node := .expression ⟨[.identifier n], some 3⟩
    let selectors : List Node := [.selector [.literal ".a-" (some 3), inserted] (some 3)]
    let b : Body Node := ⟨[.property [.literal "w" none] ⟨[.literal "1" none], none⟩ (some 4)], some 3⟩
    let rule : Node := .ruleSet selectors (some b) (some 3)
    let known : Registry := { variableNames := ["n"], paramNames := ["n"] }
    let p : Pass := { depth := 1, line := 2, places := [.callableBody], returning := true, registry := known }
    let t := "\n  .a-#\x7b  @return $n\x7d \x7b\n    @return w: 1;\n  \x7d"
    let q : Pass := { p with line := 4, registry := { known with declarations := [("w", some "1")] } }
    p.registry.Holds Silent ∧ rule.Every (Node.Mute .scss) ∧ (node rule).Gives {} p t q ∧
      (∃ head rest, Headed {} p 1 (some b) head rest q ∧ t = p.lead (some 3) ++ head ++ rest) ∧
      occurrences returnKeyword t.toList = 1 + 1 := by
  intro n inserted selectors b rule known p t q
  have values : p.registry.Holds Silent := by
    intro d hd
    cases hd
  have mute : rule.Every (Node.Mute .scss) := by
    simp only [Node.every_iff_everyIn, rule, selectors, b, inserted, n, Node.parts, statementsOf, Option.toList_none,
      everyIn_cons, everyIn_nil, everyIn_append, and_true]
    decide
  have run : (node rule).Gives {} p t q := eq_ok_of_toOption (by decide +kernel)
  have all := keyword_of_run {} (by decide) p values
  exact ⟨values, mute, run, all.1 selectors b (some 3) t q mute.pieces run,
    (all.2.2.2.2.2.2 rule t q mute run).2.trans (by decide)⟩

/-- In the body of a function a list that is inserted into a selector is taken for a statement, and has the keyword in
front of it. -/
theorem keyword_in_selector :
    let n : Identifier Node := { name := "n" }
    let list (line : Nat) : Node := .expression ⟨[.identifier n], some line⟩
    let selectors : List Node := [.selector [.literal ".a-" (some 3), list 3] (some 3)]
    let b : Body Node := ⟨[.property [.literal "w" none] ⟨[.literal "1" none], none⟩ (some 4)], some 3⟩
    let f : Node := .callable "f" [n] (some ⟨[list 2, .ruleSet selectors (some b) (some 3)], none⟩) (some 1)
    let known : Registry := { variableNames := ["n"], paramNames := ["n"] }
    let p : Pass := { depth := 1, line := 3, places := [.callableBody], returning := true, registry := known }
    f.Every (Node.Mute .scss) ∧ Sheet.convert ⟨[f]⟩ {} = .ok
      "@function f($n) \x7b\n  @return $n\n  .a-#\x7b  @return $n\x7d \x7b\n    @return w: 1;\n  \x7d\n\x7d\n" ∧
      ¬∀ heads q, (each selectors).Gives {} p heads q → ¬HasReturn (ruleHead q heads) := by
  intro n list selectors b f known p
  refine ⟨?_, eq_ok_of_toOption (by decide +kernel), fun silent => ?_⟩
  · simp only [Node.every_iff_everyIn, f, selectors, b, list, n, Node.parts, statementsOf, Option.toList_none,
      List.flatMap_cons, List.flatMap_nil, List.append_nil, everyIn_cons, everyIn_nil, everyIn_append, and_true]
    decide
  · have run : (each selectors).Gives {} p ["  .a-#\x7b  @return $n\x7d"] p := eq_ok_of_toOption (by decide +kernel)
    exact silent _ _ run (by decide)

end Render

end Stylesheet
