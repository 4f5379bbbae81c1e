import Stylesheet.Proofs.Constructs
import Stylesheet.Proofs.Frame
import Stylesheet.Proofs.Success

/-!
# Ranges of loops

Whether a loop goes through a range is read off the tree, and its head is written in a recursion of its own. Both visit
the same nodes: those that can be reached from what the loop goes through by way of lists. So the head of a loop starts
with the word for ranges if and only if one of them is a range, and each of them that is one is written with a word
between its bounds.
-/

namespace Stylesheet

open Rendering

section Lists

variable {P : List Node → Prop}

mutual

private theorem list_cons (nil : P []) (leaf : ∀ n ns, n.isExpression = false → P ns → P (n :: ns))
    (list : ∀ e ns, P e.operands → P ns → P (.expression e :: ns)) (n : Node) (ns : List Node) (rest : P ns) :
    P (n :: ns) := by
  match n with
  | .expression ⟨operands, _⟩ => exact list _ ns (list_induction nil leaf list operands) rest
  | .null | .literal .. | .identifier _ | .number .. | .quoted _ | .boolean _ | .color _ | .arguments _ | .block _
  | .selector .. | .ruleSet .. | .property .. | .call .. | .callable .. | .returned .. | .conditional .. | .loop ..
  | .binary .. | .unary .. | .keyframes .. | .media .. | .queryList _ | .query .. | .feature .. | .supports ..
  | .xmlNamespace .. | .charset .. | .importSheet .. | .extend .. | .atRule .. | .comment _ | .member ..
  | .mapLiteral .. => exact leaf _ ns rfl rest
termination_by structural n

@[elab_as_elim]
private theorem list_induction (nil : P []) (leaf : ∀ n ns, n.isExpression = false → P ns → P (n :: ns))
    (list : ∀ e ns, P e.operands → P ns → P (.expression e :: ns)) (ns : List Node) : P ns := by
  match ns with
  | [] => exact nil
  | n :: ns => exact list_cons nil leaf list n ns (list_induction nil leaf list ns)
termination_by structural ns

end

end Lists

/-- `m` is among `ns` or in a list among them, at any depth. -/
inductive Reached (m : Node) : List Node → Prop
  | here {ns : List Node} (among : m ∈ ns) : Reached m ns
  | inside {ns : List Node} {e : Expression Node} (among : .expression e ∈ ns) (inner : Reached m e.operands) :
    Reached m ns

mutual

/-- The nodes other than lists that a node consists of, in their order. -/
def Node.leaves : Node → List Node
  | .expression e => leavesOf e.operands
  | n => [n]
termination_by structural n => n

def leavesOf : List Node → List Node
  | [] => []
  | n :: ns => n.leaves ++ leavesOf ns
termination_by structural ns => ns

end

variable {m : Node}

private theorem Node.leaves_of_leaf {n : Node} (leaf : n.isExpression = false) : n.leaves = [n] := by
  cases n with
  | expression e => cases leaf
  | _ => rfl

private theorem leavesOf_cons_leaf {n : Node} (leaf : n.isExpression = false) (ns : List Node) :
    leavesOf (n :: ns) = n :: leavesOf ns := by
  rw [leavesOf, Node.leaves_of_leaf leaf, List.singleton_append]

private theorem leavesOf_cons_list (e : Expression Node) (ns : List Node) :
    leavesOf (.expression e :: ns) = leavesOf e.operands ++ leavesOf ns := rfl

theorem Reached.cons (n : Node) {ns : List Node} (h : Reached m ns) : Reached m (n :: ns) := by
  cases h with
  | here among => exact .here (List.mem_cons_of_mem n among)
  | inside among inner => exact .inside (List.mem_cons_of_mem n among) inner

private theorem mem_leavesOf (ns : List Node) : m ∈ leavesOf ns ↔ m.isExpression = false ∧ Reached m ns := by
  constructor
  · intro h
    induction ns using list_induction with
    | nil => cases h
    | leaf n ns leaf ih =>
      rw [leavesOf_cons_leaf leaf] at h
      rcases List.mem_cons.1 h with rfl | h
      · exact ⟨leaf, .here List.mem_cons_self⟩
      · exact ⟨(ih h).1, (ih h).2.cons n⟩
    | list e ns inner ih =>
      rw [leavesOf_cons_list] at h
      rcases List.mem_append.1 h with h | h
      · exact ⟨(inner h).1, .inside List.mem_cons_self (inner h).2⟩
      · exact ⟨(ih h).1, (ih h).2.cons _⟩
  · rintro ⟨leaf, reached⟩
    have flat : ∀ ns, leavesOf ns = ns.flatMap Node.leaves := by
      intro ns
      induction ns with
      | nil => rfl
      | cons n ns ih => rw [leavesOf, ih, List.flatMap_cons]
    induction reached with
    | here among =>
      rw [flat, List.mem_flatMap]
      exact ⟨m, among, by rw [Node.leaves_of_leaf leaf]; exact List.mem_singleton_self m⟩
    | inside among _ ih =>
      rw [flat, List.mem_flatMap]
      exact ⟨_, among, ih⟩

private theorem firstRange?_eq_findSome? (ns : List Node) : firstRange? ns = (leavesOf ns).findSome? Node.range? := by
  induction ns using list_induction with
  | nil => rfl
  | leaf n ns leaf ih =>
    rw [leavesOf_cons_leaf leaf, firstRange?, ih, List.findSome?_cons]
    cases n.range? <;> rfl
  | list e ns inner ih =>
    rw [leavesOf_cons_list, firstRange?, Node.range?, inner, ih, List.findSome?_append]
    cases (leavesOf e.operands).findSome? Node.range? <;> rfl

private theorem Node.range?_of_leaf {r : Range} (leaf : m.isExpression = false) : m.range? = some r ↔
    m = .binary r.operator r.left r.right ∧ Operator.spansRange r.operator := by
  cases m with
  | expression e => cases leaf
  | binary operator left right =>
    rw [Node.range?]
    split
    · next spans =>
      constructor
      · rintro ⟨⟩
        exact ⟨rfl, spans⟩
      · rintro ⟨h, -⟩
        cases h
        rfl
    · next plain =>
      constructor
      · rintro ⟨⟩
      · rintro ⟨h, spans⟩
        cases h
        exact absurd spans plain
  | _ =>
    constructor
    · rintro ⟨⟩
    · rintro ⟨⟨⟩, -⟩

private theorem firstRange?_isSome_iff (ns : List Node) : (firstRange? ns).isSome ↔
    ∃ operator left right, Operator.spansRange operator ∧ Reached (.binary operator left right) ns := by
  rw [firstRange?_eq_findSome?, List.findSome?_isSome_iff]
  constructor
  · rintro ⟨n, among, found⟩
    obtain ⟨leaf, reached⟩ := (mem_leavesOf ns).1 among
    obtain ⟨r, hr⟩ := Option.isSome_iff_exists.1 found
    obtain ⟨rfl, spans⟩ := (Node.range?_of_leaf leaf).1 hr
    exact ⟨r.operator, r.left, r.right, spans, reached⟩
  · rintro ⟨operator, left, right, spans, reached⟩
    have found := (Node.range?_of_leaf (m := .binary operator left right) (r := ⟨_, _, _⟩) rfl).2 ⟨rfl, spans⟩
    exact ⟨_, (mem_leavesOf ns).2 ⟨rfl, reached⟩, by rw [found]; rfl⟩

/-- Lists of one thing each, one in another, around `core`. -/
inductive Around (core : Node) : List Node → Prop
  | core : Around core [core]
  | list {e : Expression Node} (inner : Around core e.operands) : Around core [.expression e]

theorem Around.reached {core : Node} {ns : List Node} (h : Around core ns) : Reached core ns := by
  induction h with
  | core => exact .here (List.mem_singleton_self core)
  | list _ ih => exact .inside (List.mem_singleton_self _) ih

namespace Render

def Gap (s : String) : Prop := ∀ c ∈ s.toList, c = ',' ∨ c = ' '

/-- The text of what is no list: a range has a word between its bounds, whose runs follow one another. -/
inductive Spelled (σ : Style) (p : Pass) : Node → String → Pass → Prop
  | range {operator first last : String} {left right : Node} {r q : Pass} (spans : Operator.spansRange operator)
    (start : (node left).Gives σ p first r) (stop : (node right).Gives σ r last q) :
    Spelled σ p (.binary operator left right)
      (first ++ (if operator = "..." then " to " else " through ") ++ last) q
  | value {n : Node} {t : String} {q : Pass} (single : n.range? = none) (own : (node n).Gives σ p t q) :
    Spelled σ p n t q

/-- Their texts in a row, with nothing but commas and blanks around them. -/
inductive Strung (σ : Style) : Pass → List Node → String → Pass → Prop
  | nil {p : Pass} {s : String} (gap : Gap s) : Strung σ p [] s p
  | cons {p q r : Pass} {s t u : String} {n : Node} {ns : List Node} (gap : Gap s) (first : Spelled σ p n t r)
    (rest : Strung σ r ns u q) : Strung σ p (n :: ns) (s ++ t ++ u) q

variable {σ : Style} {p q r : Pass} {s t u : String} {ns ms : List Node}

private theorem gap_empty : Gap "" := by simp [Gap]

private theorem gap_blank : Gap " " := by simp [Gap]

private theorem gap_comma : Gap ", " := by simp [Gap]

private theorem Gap.orEmpty {b : Bool} (h : Gap s) : Gap (if b then "" else s) := by
  split
  · exact gap_empty
  · exact h

theorem Gap.append (hs : Gap s) (ht : Gap t) : Gap (s ++ t) := by
  intro c hc
  rw [String.toList_append] at hc
  exact (List.mem_append.1 hc).elim (hs c) (ht c)

theorem Strung.behind (gap : Gap s) (h : Strung σ p ns t q) : Strung σ p ns (s ++ t) q := by
  cases h with
  | nil own => exact .nil (gap.append own)
  | cons own first rest =>
    rw [← String.append_assoc, ← String.append_assoc]
    exact .cons (gap.append own) first rest

theorem Strung.append (h : Strung σ p ns t q) (h' : Strung σ q ms u r) : Strung σ p (ns ++ ms) (t ++ u) r := by
  induction h with
  | nil gap => exact h'.behind gap
  | cons gap first _ ih =>
    rw [String.append_assoc]
    exact .cons gap first (ih h')

private theorem range_spelled (leaf : m.isExpression = false) (h : (range m).Gives σ p t q) : Spelled σ p m t q := by
  have plain (other : m.range? = none) (own : (node m).Gives σ p t q) : Spelled σ p m t q := .value other own
  cases m with
  | expression e => cases leaf
  | binary operator left right =>
    simp only [range] at h
    split at h
    · next spans =>
      simp only [gives_bind, gives_pure] at h
      obtain ⟨first, r, start, last, _, stop, rfl, rfl⟩ := h
      exact .range spans start stop
    · next plainly => exact .value (by rw [Node.range?, if_neg plainly]) h
  | _ => exact plain rfl h

private theorem gives_ranges_cons {n : Node} {ts : List String} (h : (ranges (n :: ns)).Gives σ p ts q) :
    ∃ t r us, (range n).Gives σ p t r ∧ (ranges ns).Gives σ r us q ∧ ts = t :: us := by
  rw [ranges_cons] at h
  simp only [gives_bind, gives_pure] at h
  obtain ⟨t, r, first, us, _, rest, rfl, rfl⟩ := h
  exact ⟨t, r, us, first, rest, rfl⟩

private theorem gives_range_list {e : Expression Node} (h : (range (.expression e)).Gives σ p t q) :
    ∃ ts, (ranges e.operands).Gives σ p ts q ∧ t = " ".intercalate ts := by
  simp only [range, gives_bind, gives_pure] at h
  obtain ⟨ts, _, inner, rfl, rfl⟩ := h
  exact ⟨ts, inner, rfl⟩

private theorem intercalate_cons (s t : String) (us : List String) :
    s.intercalate (t :: us) = t ++ ((if us.isEmpty then "" else s) ++ s.intercalate us) := by
  cases us with
  | nil => simp
  | cons u us => simp [String.append_assoc]

private theorem ranges_strung (gap : Gap s) {ts : List String} (h : (ranges ns).Gives σ p ts q) :
    Strung σ p (leavesOf ns) (s.intercalate ts) q := by
  induction ns using list_induction generalizing s p ts q with
  | nil =>
    obtain ⟨rfl, rfl⟩ := gives_pure.1 h
    exact .nil gap_empty
  | leaf n ns leaf ih =>
    obtain ⟨t, r, us, first, rest, rfl⟩ := gives_ranges_cons h
    have between : Gap (if us.isEmpty then "" else s) := gap.orEmpty
    rw [leavesOf_cons_leaf leaf, intercalate_cons, ← String.empty_append (s := t)]
    exact .cons gap_empty (range_spelled leaf first) ((ih gap rest).behind between)
  | list e ns inner ih =>
    obtain ⟨t, r, us, first, rest, rfl⟩ := gives_ranges_cons h
    obtain ⟨ts, operands, rfl⟩ := gives_range_list first
    have between : Gap (if us.isEmpty then "" else s) := gap.orEmpty
    rw [leavesOf_cons_list, intercalate_cons]
    -- in a list the texts are joined with blanks, whatever stands between the texts around it
    exact (inner gap_blank operands).append ((ih gap rest).behind between)

private theorem ranges_of_around {core : Node} (leaf : core.isExpression = false) (around : Around core ns)
    {ts : List String}
    (h : (ranges ns).Gives σ p ts q) : ∃ t, ts = [t] ∧ Spelled σ p core t q := by
  induction around generalizing p ts with
  | core =>
    obtain ⟨t, r, us, first, rest, rfl⟩ := gives_ranges_cons h
    obtain ⟨rfl, rfl⟩ := gives_pure.1 rest
    exact ⟨t, rfl, range_spelled leaf first⟩
  | list _ ih =>
    obtain ⟨t, r, us, first, rest, rfl⟩ := gives_ranges_cons h
    obtain ⟨rfl, rfl⟩ := gives_pure.1 rest
    obtain ⟨ts, operands, rfl⟩ := gives_range_list first
    obtain ⟨t, rfl, spelled⟩ := ih operands
    exact ⟨t, by rw [String.intercalate_singleton], spelled⟩

private theorem ranges_of_tower {operator : String} {left right : Node} (spans : Operator.spansRange operator)
    (around : Around (.binary operator left right) ns) {ts : List String} (h : (ranges ns).Gives σ p ts q) :
    ∃ first r last, (node left).Gives σ p first r ∧ (node right).Gives σ r last q ∧
      ts = [first ++ (if operator = "..." then " to " else " through ") ++ last] := by
  obtain ⟨_, rfl, spelled⟩ := ranges_of_around rfl around h
  cases spelled with
  | range _ start stop => exact ⟨_, _, _, start, stop, rfl⟩
  | value single _ =>
    rw [Node.range?, if_pos spans] at single
    cases single

theorem loopHead_of_range {d : Dialect} {item : String} {key : Option String} {ts : List String}
    (ranged : (firstRange? ns).isSome) :
    loopHead d item key ns ts = "@for " ++ (d.variableRef item ++ (" from " ++ ", ".intercalate ts)) := by
  rw [loopHead, if_pos ranged, String.append_assoc, String.append_assoc]

theorem loopHead_of_list {d : Dialect} {item : String} {key : Option String} {ts : List String}
    (listed : firstRange? ns = none) : loopHead d item key ns ts =
      "@each " ++ (", ".intercalate ((item :: key.toList).map d.variableRef) ++ (" in " ++ joinItems d ns ts)) := by
  rw [loopHead, if_neg (by simp [listed]), String.append_assoc, String.append_assoc]

private theorem forWord_ne_eachWord {s t : String} : "@for " ++ s ≠ "@each " ++ t := by
  intro h
  have h := congrArg String.toList h
  simp [String.toList_append] at h

/-- A loop with something to go through and a body is rendered unless a node in it lacks a part. It names a range in
its head if and only if one can be reached through lists alone, and goes through a list otherwise. All that can be
reached is written in its order, and each range with a word between its bounds; lists around a single range add nothing
to it. -/
theorem loop_heads (σ : Style) (p : Pass) (item : String) (key : Option String) (e : Expression Node) (b : Body Node)
    (line : Option Nat) :
    let loop : Node := .loop item key (some e) (some b) line
    let start := (knowingItems (p.reach line) item key).enter [.condition]
    let name := σ.dialect.variableRef
    ((∃ t q, (node loop).Gives σ p t q) ↔ loop.Every Node.Sufficient) ∧
    ((firstRange? e.operands).isSome ↔
      ∃ operator left right, Operator.spansRange operator ∧ Reached (.binary operator left right) e.operands) ∧
    (∀ n, n ∈ leavesOf e.operands ↔ n.isExpression = false ∧ Reached n e.operands) ∧
    ∀ t q, (node loop).Gives σ p t q → ∃ head s content,
      t = p.lead line ++ head ++ content ∧ (body b).Gives σ (s.leave (p.reach line)) content q ∧
      ((∃ rest, head = "@for " ++ rest) ↔ (firstRange? e.operands).isSome) ∧
      ((∃ rest, head = "@each " ++ rest) ↔ firstRange? e.operands = none) ∧
      ((firstRange? e.operands).isSome → ∃ text, head = "@for " ++ name item ++ " from " ++ text ∧
        Strung σ start (leavesOf e.operands) text s) ∧
      (firstRange? e.operands = none → ∃ ts, (each e.operands).Gives σ start ts s ∧
        head = "@each " ++ ", ".intercalate ((item :: key.toList).map name) ++ " in " ++
          joinItems σ.dialect e.operands ts) ∧
      ∀ operator left right, Operator.spansRange operator → Around (.binary operator left right) e.operands →
        ∃ first r last, (node left).Gives σ start first r ∧ r.inAny [.condition] ∧ (node right).Gives σ r last s ∧
          head = "@for " ++ name item ++ " from " ++ first ++
            (if operator = "..." then " to " else " through ") ++ last := by
  intro loop start name
  refine ⟨node_succeedsIff loop σ p, firstRange?_isSome_iff e.operands, fun _ => mem_leavesOf e.operands,
    fun t q h => ?_⟩
  obtain ⟨ts, s, content, hts, hb, rfl⟩ := loop_gives h
  refine ⟨loopHead σ.dialect item key e.operands ts, s, content, rfl, hb, ?_⟩
  rcases Option.eq_none_or_eq_some (firstRange? e.operands) with listed | ⟨found, ranged⟩
  · have none : ¬(firstRange? e.operands).isSome := by simp [listed]
    rw [if_neg none] at hts
    rw [loopHead_of_list listed]
    refine ⟨⟨fun ⟨_, h⟩ => absurd h.symm forWord_ne_eachWord, fun h => absurd h none⟩,
      ⟨fun _ => listed, fun _ => ⟨_, rfl⟩⟩, fun h => absurd h none, fun _ => ⟨ts, hts, ?_⟩,
      fun operator left right spans around => ?_⟩
    · simp only [String.append_assoc, name]
    · exact absurd ((firstRange?_isSome_iff e.operands).2 ⟨operator, left, right, spans, around.reached⟩) none
  · have one : (firstRange? e.operands).isSome := by simp [ranged]
    have unlisted : firstRange? e.operands ≠ none := by simp [ranged]
    rw [if_pos one] at hts
    rw [loopHead_of_range one]
    refine ⟨⟨fun _ => one, fun _ => ⟨_, rfl⟩⟩,
      ⟨fun ⟨_, h⟩ => absurd h forWord_ne_eachWord, fun h => absurd h unlisted⟩,
      fun _ => ⟨_, ?_, ranges_strung gap_comma hts⟩, fun h => absurd h unlisted,
      fun operator left right spans around => ?_⟩
    · simp only [String.append_assoc, name]
    · obtain ⟨first, r, last, hfirst, hlast, rfl⟩ := ranges_of_tower spans around hts
      have kept := (node_stays left hfirst).inAny [.condition]
      exact ⟨first, r, last, hfirst, kept.trans rfl, hlast,
        by simp only [String.intercalate_singleton, String.append_assoc, name]⟩

/-- Two lists around a range up to a parameter, and the same range after a list of another one and a single value. -/
theorem loop_heads_columns :
    let rows : Node := .binary ".." (.literal "1" none) (.literal "3" none)
    let columns : Node := .binary "..." (.literal "0" none) (.identifier { name := "n" })
    let nested : Expression Node := ⟨[.expression ⟨[.expression ⟨[columns], none⟩], none⟩], none⟩
    let mixed : Expression Node := ⟨[.expression ⟨[rows, .literal "x" none], none⟩, columns], none⟩
    let b : Body Node := ⟨[.property [.literal "w" none] ⟨[.identifier { name := "i" }], none⟩ none], none⟩
    let p : Pass := { depth := 1, line := 3, registry := { paramNames := ["n"] } }
    let start := (knowingItems (p.reach (some 4)) "i" none).enter [.condition]
    let ofNested := "\n  @for $i from 0 to $n \x7b\n    w: $i;\n  \x7d"
    let ofMixed := "\n  @for $i from 1 through 3 x, 0 to $n \x7b\n    w: $i;\n  \x7d"
    (∃ q, (node (.loop "i" none (some nested) (some b) (some 4))).Gives {} p ofNested q) ∧
    (∃ head s content, ofNested = p.lead (some 4) ++ head ++ content ∧
      ∃ first r last, (node (.literal "0" none)).Gives {} start first r ∧ r.inAny [.condition] ∧
        (node (.identifier { name := "n" })).Gives {} r last s ∧
        head = "@for $i from " ++ first ++ " to " ++ last) ∧
    (∃ q, (node (.loop "i" none (some mixed) (some b) (some 4))).Gives {} p ofMixed q) ∧
    ∃ head s content, ofMixed = p.lead (some 4) ++ head ++ content ∧
      ∃ text, head = "@for $i from " ++ text ∧ Strung {} start [rows, .literal "x" none, columns] text s := by
  intro rows columns nested mixed b p start ofNested ofMixed
  let q : Pass := { p with
    line := 4, registry := { variableNames := ["i"], paramNames := ["n"], declarations := [("w", some "$i")] } }
  have runNested : (node (.loop "i" none (some nested) (some b) (some 4))).Gives {} p ofNested q :=
    eq_ok_of_toOption (by decide +kernel)
  have runMixed : (node (.loop "i" none (some mixed) (some b) (some 4))).Gives {} p ofMixed q :=
    eq_ok_of_toOption (by decide +kernel)
  obtain ⟨-, -, -, heads⟩ := loop_heads {} p "i" none nested b (some 4)
  obtain ⟨head, s, content, split, -, -, -, -, -, tower⟩ := heads _ _ runNested
  obtain ⟨-, ranged, -, heads⟩ := loop_heads {} p "i" none mixed b (some 4)
  obtain ⟨head', s', content', split', -, -, -, strung, -⟩ := heads _ _ runMixed
  have reached : Reached rows mixed.operands := .inside List.mem_cons_self (.here List.mem_cons_self)
  exact ⟨⟨_, runNested⟩, ⟨head, s, content, split, tower "..." _ _ rfl (.list (.list .core))⟩, ⟨_, runMixed⟩,
    head', s', content', split', strung (ranged.2 ⟨_, _, _, rfl, reached⟩)⟩

end Render

end Stylesheet
