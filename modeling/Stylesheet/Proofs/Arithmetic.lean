import Stylesheet.Proofs.Constructs
import Stylesheet.Proofs.Frame
import Stylesheet.Proofs.Success

/-!
# Arithmetic in declarations

Texts of numbers, operators and parentheses are read with the usual precedence and from left to right. The value of
a declaration reads back as the operations it was written from, where no product starts with a sum and every number
is within range.
-/

namespace Stylesheet

open Rendering

inductive Operation
  | plus
  | minus
  | times
  | divide
deriving Repr, DecidableEq

namespace Operation

def symbol : Operation → Char
  | plus => '+'
  | minus => '-'
  | times => '*'
  | divide => '/'

/-- Operations of a greater level bind tighter. -/
def level : Operation → Nat
  | plus | minus => 0
  | times | divide => 1

end Operation

inductive Term
  | number (n : Nat)
  | apply (op : Operation) (left right : Term)
deriving Repr, DecidableEq

def Term.level : Term → Nat
  | number _ => 2
  | apply op _ _ => op.level

inductive Token
  | number (n : Nat)
  | operation (op : Operation)
  | opening
  | closing
deriving Repr, DecidableEq

/-- What a character other than a digit stands for. A blank stands for nothing. -/
def tokensOf? (c : Char) : Option (List Token) :=
  match c with
  | '+' => some [.operation .plus]
  | '-' => some [.operation .minus]
  | '*' => some [.operation .times]
  | '/' => some [.operation .divide]
  | '(' => some [.opening]
  | ')' => some [.closing]
  | ' ' => some []
  | _ => none

/-- The tokens of a text. Digits in a row are one number, of which `open?` is the part that was read before. -/
def tokens (open? : Option Nat) : List Char → Option (List Token)
  | [] => some (open?.map Token.number).toList
  | c :: cs =>
    if c.isDigit then tokens (some (10 * open?.getD 0 + (c.toNat - '0'.toNat))) cs
    else do
      let ks ← tokensOf? c
      let others ← tokens none cs
      return (open?.map Token.number).toList ++ ks ++ others

/-- What waits for its right operand at one depth of parentheses: a sum, and behind it a product. -/
structure Started where
  sum : Option (Term × Operation) := none
  product : Option (Term × Operation) := none

namespace Started

/-- The product that ends in `t`. -/
def endProduct (s : Started) (t : Term) : Term := s.product.elim t fun (left, op) => .apply op left t

/-- All that was read at this depth, ending in `t`. -/
def endSum (s : Started) (t : Term) : Term :=
  s.sum.elim (s.endProduct t) fun (left, op) => .apply op left (s.endProduct t)

end Started

/-- The reader between two tokens. -/
structure Reader where
  /-- The depths around this one, from the inside. -/
  outer : List Started := []
  here : Started := {}
  /-- The operand before the next token, if there is one. -/
  operand : Option Term := none

namespace Reader

/-- A product takes the operand at once. A sum first completes what stands to its left. -/
def step : Reader → Token → Option Reader
  | ⟨outer, here, none⟩, .number n => some ⟨outer, here, some (.number n)⟩
  | ⟨outer, here, none⟩, .opening => some ⟨here :: outer, {}, none⟩
  | ⟨outer, here, some t⟩, .operation op =>
    if op.level = 0 then some ⟨outer, ⟨some (here.endSum t, op), none⟩, none⟩
    else some ⟨outer, { here with product := some (here.endProduct t, op) }, none⟩
  | ⟨around :: outer, here, some t⟩, .closing => some ⟨outer, around, some (here.endSum t)⟩
  | _, _ => none

/-- What was read, if every operation has its operands and every parenthesis is closed. -/
def term? : Reader → Option Term
  | ⟨[], here, some t⟩ => some (here.endSum t)
  | _ => none

end Reader

/-- The term that a text spells with the usual precedence, operations of one level from left to right. -/
def readTerm (s : String) : Option Term := do
  let ks ← tokens none s.toList
  let r ← ks.foldlM Reader.step {}
  r.term?

example : readTerm "10 - 2 - 3*(4 + 5)" = some (.apply .minus (.apply .minus (.number 10) (.number 2))
    (.apply .times (.number 3) (.apply .plus (.number 4) (.number 5)))) := by decide

/-- The natural number that a double is, which for zero has two signs. -/
def naturalOf? (x : Float) : Option Nat :=
  match FloatClass.ofFloat x with
  | .finite negative magnitude => magnitude.toNat?.filter fun n => !negative || n == 0
  | _ => none

/-- The node is a tree of operations on natural numbers, in which a list of one operand is a pair of parentheses. An
operand without parentheses needs none where it stands. -/
inductive Node.Denotes : Node → Term → Prop
  | number {x : Float} {n : Nat} (natural : naturalOf? x = some n) : Denotes (.number x none) (.number n)
  | group {n : Node} {t : Term} (line : Option Nat) (inner : Denotes n t) : Denotes (.expression ⟨[n], line⟩) t
  | operation {left right : Node} {l r : Term} (op : Operation) (first : Denotes left l) (second : Denotes right r)
    (leftFits : left.isExpression = false → op.level ≤ l.level)
    (rightFits : right.isExpression = false → op.level < r.level) :
    Denotes (.binary op.symbol.toString left right) (.apply op l r)

mutual

def Node.isSum : Node → Bool
  | .binary operator _ _ => operator == "+" || operator == "-"
  | .expression e => isSumAlone e.operands
  | _ => false
termination_by structural n => n

def isSumAlone : List Node → Bool
  | [n] => n.isSum
  | _ => false
termination_by structural ns => ns

end

/-- A number is written as it is, and the parentheses that a left operand is written without are not missed. -/
def Node.Legible : Node → Prop
  | .number x _ => ∀ n ∈ naturalOf? x, n < Word.signedLimit
  | .binary operator left _ => operator = "*" ∨ operator = "/" → left.isSum = false
  | _ => True

private theorem Node.Denotes.isSum_iff {n : Node} {t : Term} (h : n.Denotes t) : n.isSum ↔ t.level = 0 := by
  induction h with
  | number => simp [Node.isSum, Term.level]
  | group line inner ih => simpa [Node.isSum, isSumAlone] using ih
  | operation op => cases op <;> simp [Node.isSum, Term.level, Operation.level, Operation.symbol]

def Apart (cs : List Char) : Prop := ∀ c ∈ cs.head?, c.isDigit = false

/-- In front of a text that starts with no digit, the characters are read as the tokens. -/
def Spells (cs : List Char) (ks : List Token) : Prop :=
  ∀ ⦃rest js⦄, Apart rest → tokens none rest = some js → tokens none (cs ++ rest) = some (ks ++ js)

private theorem tokens_of_apart {cs : List Char} (h : Apart cs) (n : Nat) :
    tokens (some n) cs = (tokens none cs).map (.number n :: ·) := by
  cases cs with
  | nil => rfl
  | cons c cs =>
    have hc : c.isDigit = false := h c rfl
    rw [tokens, tokens, hc]
    cases tokensOf? c <;> cases tokens none cs <;> rfl

private theorem tokens_digits {ds : List Char} (digits : ∀ d ∈ ds, d.isDigit) (n : Nat) (rest : List Char) :
    tokens (some n) (ds ++ rest) = tokens (some (Nat.ofDigitChars 10 ds n)) rest := by
  induction ds generalizing n with
  | nil => rfl
  | cons d ds ih =>
    obtain ⟨hd, hds⟩ := List.forall_mem_cons.1 digits
    rw [List.cons_append, tokens, if_pos hd, ih hds, Nat.ofDigitChars_cons]
    rfl

private theorem spells_number (n : Nat) : Spells (Nat.repr n).toList [.number n] := by
  intro rest js apart h
  have digits : ∀ d ∈ Nat.toDigits 10 n, d.isDigit := fun d hd =>
    Nat.isDigit_of_mem_toDigits (by decide) (by decide) hd
  have value : Nat.ofDigitChars 10 (Nat.toDigits 10 n) 0 = n := Nat.ofDigitChars_toDigits (by decide) (by decide)
  rw [Nat.toList_repr]
  cases hds : Nat.toDigits 10 n with
  | nil => exact absurd hds Nat.toDigits_ne_nil
  | cons d ds =>
    rw [hds] at digits value
    obtain ⟨hd, hds⟩ := List.forall_mem_cons.1 digits
    rw [Nat.ofDigitChars_cons] at value
    calc tokens none (d :: ds ++ rest)
        = tokens (some (10 * 0 + (d.toNat - '0'.toNat))) (ds ++ rest) := by
          rw [List.cons_append, tokens, if_pos hd]
          rfl
      _ = tokens (some n) rest := by rw [tokens_digits hds, value]
      _ = some ([.number n] ++ js) := by rw [tokens_of_apart apart, h]; rfl

private theorem tokens_cons {c : Char} {ks js : List Token} {rest : List Char} (digit : c.isDigit = false)
    (hc : tokensOf? c = some ks) (h : tokens none rest = some js) : tokens none (c :: rest) = some (ks ++ js) := by
  rw [tokens, digit, hc, h]
  rfl

private theorem apart_cons {c : Char} (h : c.isDigit = false) (cs : List Char) : Apart (c :: cs) := by
  intro d hd
  cases hd
  exact h

private theorem tokensOf?_symbol (op : Operation) : tokensOf? op.symbol = some [.operation op] := by cases op <;> rfl

private theorem isDigit_symbol (op : Operation) : op.symbol.isDigit = false := by cases op <;> rfl

private theorem spells_binary {ls rs : List Char} {ks js : List Token} (op : Operation) (hl : Spells ls ks)
    (hr : Spells rs js) : Spells (ls ++ op.symbol :: rs) (ks ++ .operation op :: js) := by
  intro rest others apart h
  have operator := tokens_cons (isDigit_symbol op) (tokensOf?_symbol op) (hr apart h)
  simpa using hl (apart_cons (isDigit_symbol op) _) operator

private theorem spells_spaced_binary {ls rs : List Char} {ks js : List Token} (op : Operation) (hl : Spells ls ks)
    (hr : Spells rs js) : Spells (ls ++ ' ' :: op.symbol :: ' ' :: rs) (ks ++ .operation op :: js) := by
  intro rest others apart h
  have blank : tokensOf? ' ' = some [] := rfl
  have operand := tokens_cons (by decide) blank (hr apart h)
  have operator := tokens_cons (by decide) blank (tokens_cons (isDigit_symbol op) (tokensOf?_symbol op) operand)
  simpa using hl (apart_cons (by decide) _) operator

private theorem spells_group {cs : List Char} {ks : List Token} (h : Spells cs ks) :
    Spells ('(' :: cs ++ [')']) (.opening :: ks ++ [.closing]) := by
  intro rest js _ hrest
  have closed := tokens_cons (c := ')') (by decide) rfl hrest
  have inner := h (apart_cons (by decide) _) closed
  have all := tokens_cons (c := '(') (by decide) rfl inner
  simpa using all

/-- The text is read as the tokens, also after it has lost its white space. -/
structure SpelledBy (s : String) (ks : List Token) : Prop where
  spaced : Spells s.toList ks
  dense : Spells (Text.removeBlanks s).toList ks

private theorem toList_removeBlanks (s : String) :
    (Text.removeBlanks s).toList = s.toList.filter (!Text.isBlank ·) := by
  rw [Text.removeBlanks, String.toList_ofList]

namespace SpelledBy

variable {s t : String} {ks js : List Token}

theorem removeBlanks (h : SpelledBy s ks) : SpelledBy (Text.removeBlanks s) ks := by
  refine ⟨h.dense, ?_⟩
  have twice : (Text.removeBlanks (Text.removeBlanks s)).toList = (Text.removeBlanks s).toList := by
    rw [toList_removeBlanks, toList_removeBlanks, List.filter_filter]
    simp
  rw [twice]
  exact h.dense

theorem number (n : Nat) : SpelledBy (Nat.repr n) [.number n] := by
  refine ⟨spells_number n, ?_⟩
  have solid : (Nat.repr n).toList.filter (!Text.isBlank ·) = (Nat.repr n).toList := by
    rw [List.filter_eq_self]
    intro c hc
    rw [Nat.toList_repr] at hc
    have digit : c.isDigit := Nat.isDigit_of_mem_toDigits (by decide) (by decide) hc
    rw [Bool.not_eq_true', ← Bool.not_eq_true]
    intro blank
    have none : Text.blanks.all fun b => !b.isDigit := by decide
    have other := List.all_eq_true.1 none c (List.contains_iff_mem.1 blank)
    rw [digit] at other
    cases other
  rw [toList_removeBlanks, solid]
  exact spells_number n

private theorem group (h : SpelledBy s ks) : SpelledBy ("(" ++ s ++ ")") (.opening :: ks ++ [.closing]) := by
  refine ⟨by simpa using spells_group h.spaced, ?_⟩
  have dense := spells_group h.dense
  rw [toList_removeBlanks] at dense ⊢
  simpa [List.filter_append, Text.isBlank, Text.blanks] using dense

theorem binary (op : Operation) (n : Node) (hs : SpelledBy s ks)
    (ht : SpelledBy (if n.isExpression then "(" ++ t ++ ")" else t) js) :
    SpelledBy (Render.binary op.symbol.toString n s t) (ks ++ .operation op :: js) := by
  have text : Render.binary op.symbol.toString n s t =
      s ++ " " ++ op.symbol.toString ++ " " ++ if n.isExpression then "(" ++ t ++ ")" else t := by
    cases op <;> rfl
  rw [text]
  generalize (if n.isExpression then "(" ++ t ++ ")" else t) = u at ht ⊢
  refine ⟨by simpa using spells_spaced_binary op hs.spaced ht.spaced, ?_⟩
  have dense := spells_binary op hs.dense ht.dense
  have blank : Text.isBlank op.symbol = false := by cases op <;> rfl
  rw [toList_removeBlanks] at dense ⊢
  simpa [toList_removeBlanks, List.filter_append, List.filter_cons, blank, show Text.isBlank ' ' = true by decide]
    using dense

end SpelledBy

/-- Wherever an operand is expected, the tokens are read as the operand `t`. -/
def ReadAlone (ks : List Token) (t : Term) : Prop :=
  ∀ outer here, ks.foldlM Reader.step ⟨outer, here, none⟩ = some ⟨outer, here, some t⟩

/-- Behind a sum at most, the tokens are read as a product. -/
def ReadAsProduct (ks : List Token) (t : Term) : Prop :=
  ∀ outer sum, ∃ product x, ks.foldlM Reader.step ⟨outer, ⟨sum, none⟩, none⟩ = some ⟨outer, ⟨sum, product⟩, some x⟩ ∧
    Started.endProduct ⟨sum, product⟩ x = t

/-- At the start of a depth the tokens are read as a sum. -/
def ReadAsSum (ks : List Token) (t : Term) : Prop :=
  ∀ outer, ∃ here x, ks.foldlM Reader.step ⟨outer, {}, none⟩ = some ⟨outer, here, some x⟩ ∧ here.endSum x = t

variable {ks js : List Token} {t l r : Term}

private theorem ReadAlone.asProduct (h : ReadAlone ks t) : ReadAsProduct ks t :=
  fun outer sum => ⟨none, t, h outer ⟨sum, none⟩, rfl⟩

private theorem ReadAsProduct.asSum (h : ReadAsProduct ks t) : ReadAsSum ks t := by
  intro outer
  obtain ⟨product, x, hread, hend⟩ := h outer none
  exact ⟨⟨none, product⟩, x, hread, hend⟩

private theorem readAlone_number (n : Nat) : ReadAlone [.number n] (.number n) := fun _ _ => rfl

private theorem ReadAsSum.group (h : ReadAsSum ks t) : ReadAlone (.opening :: ks ++ [.closing]) t := by
  intro outer here
  obtain ⟨inner, x, hread, rfl⟩ := h (here :: outer)
  show (ks ++ [Token.closing]).foldlM Reader.step ⟨here :: outer, {}, none⟩ = _
  rw [List.foldlM_append, hread]
  rfl

/-- A product goes on with the next operand. -/
theorem ReadAsProduct.times {op : Operation} (tight : op.level = 1) (hl : ReadAsProduct ks l)
    (hr : ReadAlone js r) : ReadAsProduct (ks ++ .operation op :: js) (.apply op l r) := by
  intro outer sum
  obtain ⟨product, x, hread, rfl⟩ := hl outer sum
  refine ⟨some (Started.endProduct ⟨sum, product⟩ x, op), r, ?_, rfl⟩
  rw [List.foldlM_append, hread]
  show (Reader.step ⟨outer, ⟨sum, product⟩, some x⟩ (.operation op)).bind (js.foldlM Reader.step) = _
  simp only [Reader.step, tight, Nat.one_ne_zero, if_false]
  exact hr outer _

/-- A sum goes on with the next product. -/
theorem ReadAsSum.plus {op : Operation} (loose : op.level = 0) (hl : ReadAsSum ks l)
    (hr : ReadAsProduct js r) : ReadAsSum (ks ++ .operation op :: js) (.apply op l r) := by
  intro outer
  obtain ⟨here, x, hread, rfl⟩ := hl outer
  obtain ⟨product, y, hnext, hend⟩ := hr outer (some (here.endSum x, op))
  refine ⟨⟨some (here.endSum x, op), product⟩, y, ?_, ?_⟩
  · rw [List.foldlM_append, hread]
    show (Reader.step ⟨outer, here, some x⟩ (.operation op)).bind (js.foldlM Reader.step) = _
    simp only [Reader.step, loose, if_true]
    exact hnext
  · rw [← hend]
    rfl

/-- The tokens are read as the term wherever its level allows that. -/
structure ReadAs (ks : List Token) (t : Term) : Prop where
  sum : ReadAsSum ks t
  product : 1 ≤ t.level → ReadAsProduct ks t
  alone : 2 ≤ t.level → ReadAlone ks t

private theorem ReadAlone.readAs (h : ReadAlone ks t) :
    ReadAs ks t := ⟨h.asProduct.asSum, fun _ => h.asProduct, fun _ => h⟩

theorem ReadAs.binary (op : Operation) (hl : ReadAs ks l) (left : op.level ≤ l.level)
    (product : op.level = 0 → ReadAsProduct js r) (alone : op.level = 1 → ReadAlone js r) :
    ReadAs (ks ++ .operation op :: js) (.apply op l r) := by
  have level : op.level = 0 ∨ op.level = 1 := by cases op <;> simp [Operation.level]
  have own : (Term.apply op l r).level = op.level := rfl
  rcases level with loose | tight
  · refine ⟨.plus loose hl.sum (product loose), fun h => ?_, fun h => ?_⟩ <;> omega
  · have whole := ReadAsProduct.times tight (hl.product (by omega)) (alone tight)
    refine ⟨whole.asSum, fun _ => whole, fun h => ?_⟩
    omega

private theorem readTerm_of_spelled {s : String} (h : SpelledBy s ks) (hk : ReadAs ks t) : readTerm s = some t := by
  have whole : tokens none s.toList = some ks := by
    have nothing : tokens none [] = some [] := rfl
    simpa using h.spaced (by simp [Apart]) nothing
  obtain ⟨here, x, hread, rfl⟩ := hk.sum []
  have done : ks.foldlM Reader.step {} = some ⟨[], here, some x⟩ := hread
  rw [readTerm, whole]
  show (ks.foldlM Reader.step {}).bind Reader.term? = _
  rw [done]
  rfl

private theorem clamp_of_lt {n : Nat} (h : n < Word.signedLimit) : Word.clamp n = n := by
  unfold Word.clamp
  rw [if_neg (by omega), if_neg (by omega)]

private theorem number_of_natural {x : Float} {n : Nat} (h : naturalOf? x = some n) (small : n < Word.signedLimit) :
    Render.number x = Nat.repr n := by
  unfold naturalOf? at h
  unfold Render.number
  cases hx : FloatClass.ofFloat x with
  | finite negative magnitude =>
    simp only [hx] at h
    obtain ⟨natural, sign⟩ := Option.filter_eq_some_iff.1 h
    have signed : (if negative then -n else n : Int) = n := by
      cases negative with
      | false => rfl
      | true => simp_all
    simp only [natural]
    rw [signed, clamp_of_lt small, Int.toString_eq_repr, Int.repr_eq_if, if_pos (Int.natCast_nonneg n),
      Int.toNat_natCast]
  | _ =>
    simp only [hx] at h
    cases h

namespace Node.Denotes

variable {n : Node}

theorem sufficient (h : n.Denotes t) : n.Every Node.Sufficient := by
  induction h with
  | number => exact (Render.every_sufficient_iff _).2 ⟨rfl, everyIn_nil⟩
  | group line inner ih => exact (Render.every_sufficient_iff _).2 ⟨rfl, (everyIn_cons _ _).2 ⟨ih, everyIn_nil⟩⟩
  | operation op first second leftFits rightFits ihl ihr =>
    exact (Render.every_sufficient_iff _).2 ⟨rfl, (everyIn_cons _ _).2 ⟨ihl, (everyIn_cons _ _).2 ⟨ihr, everyIn_nil⟩⟩⟩

private theorem each_one {σ : Style} {p q : Pass} {ts : List String} (h : (Render.each [n]).Gives σ p ts q) :
    ∃ s, (Render.node n).Gives σ p s q ∧ ts = [s] := by
  simp only [Render.eachWith, gives_bind, gives_pure] at h
  obtain ⟨s, r, hs, _, _, ⟨rfl, rfl⟩, rfl, rfl⟩ := h
  exact ⟨s, hs, rfl⟩

private theorem level_le_of_legible {op : Operation} {left right : Node} (h : left.Denotes l)
    (legible : (Node.binary op.symbol.toString left right).Legible) : op.level ≤ l.level := by
  have notSum : op.level = 1 → left.isSum = false := by
    intro tight
    apply legible
    cases op <;> simp_all [Operation.level, Operation.symbol]
  have level : op.level = 0 ∨ op.level = 1 := by cases op <;> simp [Operation.level]
  rcases level with loose | tight
  · omega
  · have positive : l.level ≠ 0 := fun zero => by simpa [notSum tight] using h.isSum_iff.2 zero
    omega

/-- Where a list is not returned, a legible tree is written as tokens that read as its term. -/
theorem reads (h : n.Denotes t) (legible : n.Every Node.Legible) : ∀ {σ : Style} {p q : Pass} {s : String},
    p.returnsList = false → (Render.node n).Gives σ p s q → q = p ∧ ∃ ks, SpelledBy s ks ∧ ReadAs ks t := by
  induction h with
  | number natural =>
    intro σ p q s _ hg
    obtain ⟨rfl, rfl⟩ := gives_pure.1 hg
    have text : Render.number _ ++ "" = _ :=
      (String.append_empty).trans (number_of_natural natural (legible.self _ natural))
    refine ⟨rfl, [.number _], ?_, (readAlone_number _).readAs⟩
    show SpelledBy (Render.number _ ++ "") _
    rw [text]
    exact .number _
  | @group n t line inner ih =>
    intro σ p q s hp hg
    obtain ⟨ts, r, hts, rfl, rfl⟩ := Render.expression_gives_operands hp hg
    obtain ⟨text, hn, rfl⟩ := each_one hts
    have inside : (p.enter [.expression]).returnsList = false := by simp [Pass.returnsList, Pass.inAny, Pass.enter]
    obtain ⟨rfl, ks, spelled, read⟩ := ih (legible.part (by simp)) inside hn
    have operand : Render.joinOperands (p.inAny [.declarationValue]) [n] [text] = text := String.append_empty
    refine ⟨rfl, ks, ?_, read⟩
    rw [operand]
    split
    · exact spelled.removeBlanks
    · exact spelled
  | @operation left right l r op first second leftFits rightFits ihl ihr =>
    intro σ p q s hp hg
    simp only [Render.nodeWith, gives_bind, gives_pure] at hg
    obtain ⟨leftText, p', hleft, rightText, q', hright, rfl, rfl⟩ := hg
    obtain ⟨rfl, ks, spelledLeft, readLeft⟩ := ihl (legible.part (by simp)) hp hleft
    obtain ⟨rfl, js, spelledRight, readRight⟩ := ihr (legible.part (by simp)) hp hright
    have fits : op.level ≤ l.level := by
      cases hle : left.isExpression with
      | false => exact leftFits hle
      | true => exact level_le_of_legible first legible.self
    refine ⟨rfl, ?_⟩
    cases hre : right.isExpression with
    | false =>
      have tighter := rightFits hre
      refine ⟨ks ++ .operation op :: js, spelledLeft.binary op right ?_, readLeft.binary op fits
        (fun _ => readRight.product (by omega)) (fun _ => readRight.alone (by omega))⟩
      simpa [hre] using spelledRight
    | true =>
      have grouped := readRight.sum.group
      refine ⟨ks ++ .operation op :: (.opening :: js ++ [.closing]), spelledLeft.binary op right ?_,
        readLeft.binary op fits (fun _ => grouped.asProduct) (fun _ => grouped)⟩
      simpa [hre] using spelledRight.group

end Node.Denotes

private theorem semicolon_not_mem_of_tokens {cs : List Char} : ∀ {open? : Option Nat} {ks : List Token},
    tokens open? cs = some ks → ';' ∉ cs := by
  induction cs with
  | nil => simp
  | cons c cs ih =>
    intro open? ks h
    rw [tokens] at h
    split at h
    · next digit =>
      have other : ';' ≠ c := by
        rintro rfl
        cases digit
      simp [other, ih h]
    · simp only [Option.bind_eq_bind, Option.bind_eq_some_iff] at h
      obtain ⟨js, hc, others, hcs, -⟩ := h
      have other : ';' ≠ c := by
        rintro rfl
        cases hc
      simp [other, ih hcs]

private theorem endsWith_of_readTerm {s : String} (h : readTerm s = some t) : Text.endsWith ';' s = false := by
  simp only [readTerm, Option.bind_eq_bind, Option.bind_eq_some_iff] at h
  obtain ⟨ks, hs, -⟩ := h
  rw [Text.endsWith, beq_eq_false_iff_ne]
  intro last
  exact semicolon_not_mem_of_tokens hs (List.mem_of_getLast? last)

namespace Node.Denotes

variable {n : Node}

theorem handsBlock (h : n.Denotes t) : n.handsBlock = false := by
  induction h with
  | number => rfl
  | group line inner ih => exact ih
  | operation => rfl

private theorem inlineName?_value (h : n.Denotes t) (line : Option Nat) :
    (Expression.mk [n] line).inlineName? = none := by
  cases h <;> rfl

end Node.Denotes

namespace Render

variable {n : Node} {segments : List Node} {line valueLine : Option Nat} {σ : Style} {p : Pass}

private theorem returnsList_of_inValue (h : p.inAny [.declarationValue]) : p.returnsList = false := by
  have inside : Place.declarationValue ∈ p.places := by simpa [Pass.inAny] using h
  simp [Pass.returnsList, Pass.inAny, inside]

/-- A declaration of a legible tree is written, and what stands between its colon and its semicolon reads back as the
term of the tree. So two such trees with other terms are never written alike. -/
theorem declaration_reads_back (h : n.Denotes t) (legible : n.Every Node.Legible)
    (sufficient : EveryIn Node.Sufficient segments) : ∃ name r value q,
    (named segments (each segments)).Gives σ ((p.reach line).enter [.declarationValue]) name r ∧
      (node (.property segments ⟨[n], valueLine⟩ line)).Gives σ p (p.lead line ++ (name ++ ": " ++ value ++ ";")) q ∧
      readTerm value = some t := by
  have value : EveryIn Node.Sufficient [n] := (everyIn_cons _ _).2 ⟨h.sufficient, everyIn_nil⟩
  have whole : (Node.property segments ⟨[n], valueLine⟩ line).Every Node.Sufficient :=
    (every_sufficient_iff _).2 ⟨rfl, (everyIn_append _ _).2 ⟨sufficient, value⟩⟩
  obtain ⟨text, q, hg⟩ := (node_succeedsIff _ σ p).2 whole
  obtain ⟨name, r, value, s, hname, hvalue, hends⟩ := property_gives hg
  have inValue : (r.learn (·.openDeclaration name)).inAny [.declarationValue] := by
    have there := (named_stays segments (each_stays segments) hname).inAny [.declarationValue]
    rw [show (r.learn (·.openDeclaration name)).inAny [.declarationValue] = r.inAny [.declarationValue] from rfl, there]
    simp [Pass.inAny, Pass.enter]
  have read : readTerm value = some t := by
    have legible' : (Node.expression ⟨[n], valueLine⟩).Every Node.Legible :=
      (Node.every_iff_everyIn _).2 ⟨trivial, (everyIn_cons _ _).2 ⟨legible, everyIn_nil⟩⟩
    obtain ⟨-, ks, spelled, read⟩ := (h.group valueLine).reads legible' (returnsList_of_inValue inValue) hvalue
    exact readTerm_of_spelled spelled read
  refine ⟨name, r, value, q, hname, ?_, read⟩
  rcases hends with ⟨inner, hi, -, -⟩ | ⟨-, -, rfl⟩
  · rw [h.inlineName?_value valueLine] at hi
    cases hi
  · have plain : (Text.endsWith ';' value || Expression.handsBlock ⟨[n], valueLine⟩) = false := by
      rw [endsWith_of_readTerm read]
      exact h.handsBlock
    rw [plain] at hg
    exact hg

/-- A sum behind a product keeps its parentheses. -/
theorem declaration_reads_back_product :
    let name : List Node := [.literal "width" none]
    let sum : Node := .binary "+" (.number 1 none) (.number 3 none)
    let value : Node := .binary "*" (.number 2 none) (.expression ⟨[sum], none⟩)
    let product : Term := .apply .times (.number 2) (.apply .plus (.number 1) (.number 3))
    let sheet : Sheet := ⟨[.property name ⟨[value], none⟩ none]⟩
    sheet.convert {} = .ok "width: 2 * (1 + 3);\n" ∧
      value.Denotes product ∧ value.Every Node.Legible ∧ EveryIn Node.Sufficient name ∧
      ∃ text r content q,
        (named name (each name)).Gives {} ((({} : Pass).reach none).enter [.declarationValue]) text r ∧
        (node (.property name ⟨[value], none⟩ none)).Gives {} {}
          (({} : Pass).lead none ++ (text ++ ": " ++ content ++ ";")) q ∧
        readTerm content = some product := by
  intro name sum value product sheet
  have one : Node.Denotes (.number 1 none) (.number 1) := .number (by decide +kernel)
  have two : Node.Denotes (.number 2 none) (.number 2) := .number (by decide +kernel)
  have three : Node.Denotes (.number 3 none) (.number 3) := .number (by decide +kernel)
  have denotes : value.Denotes product :=
    .operation .times two (.group none (.operation .plus one three (by decide) (by decide))) (by decide) (by decide)
  have legible : value.Every Node.Legible := by
    have small : (∀ n ∈ naturalOf? 2, n < Word.signedLimit) ∧ (∀ n ∈ naturalOf? 1, n < Word.signedLimit) ∧
        ∀ n ∈ naturalOf? 3, n < Word.signedLimit := by decide +kernel
    simpa [value, sum, Node.every_iff_everyIn, Node.Legible, Node.isSum] using small
  have sufficient : EveryIn Node.Sufficient name := by simp [name, Node.every_iff_everyIn, Node.Sufficient]
  exact ⟨eq_ok_of_toOption (by decide +kernel), denotes, legible, sufficient,
    declaration_reads_back denotes legible sufficient⟩

/-- A sum in front of a product loses its parentheses, so that two terms are written alike, and a number beyond the
range is another number. -/
theorem declaration_misread :
    let sum : Node := .binary "+" (.number 1 none) (.number 2 none)
    let grouped : Node := .binary "*" (.expression ⟨[sum], none⟩) (.number 3 none)
    let plain : Node := .binary "+" (.number 1 none) (.binary "*" (.number 2 none) (.number 3 none))
    let product : Term := .apply .times (.apply .plus (.number 1) (.number 2)) (.number 3)
    let total : Term := .apply .plus (.number 1) (.apply .times (.number 2) (.number 3))
    let sheet (value : Node) : Sheet := ⟨[.property [.literal "width" none] ⟨[value], none⟩ none]⟩
    (grouped.Denotes product ∧ plain.Denotes total ∧ readTerm "1 + 2 * 3" = some total ∧
      (sheet grouped).convert {} = .ok "width: 1 + 2 * 3;\n" ∧ (sheet plain).convert {} = .ok "width: 1 + 2 * 3;\n") ∧
    (Node.number 1e19 none).Denotes (.number 10000000000000000000) ∧
      (sheet (.number 1e19 none)).convert {} = .ok "width: 9223372036854775807;\n" := by
  intro sum grouped plain product total sheet
  have one : Node.Denotes (.number 1 none) (.number 1) := .number (by decide +kernel)
  have two : Node.Denotes (.number 2 none) (.number 2) := .number (by decide +kernel)
  have three : Node.Denotes (.number 3 none) (.number 3) := .number (by decide +kernel)
  have groupedDenotes : grouped.Denotes product :=
    .operation .times (.group none (.operation .plus one two (by decide) (by decide))) three (by decide) (by decide)
  have plainDenotes : plain.Denotes total :=
    .operation .plus one (.operation .times two three (by decide) (by decide)) (by decide) (by decide)
  exact ⟨⟨groupedDenotes, plainDenotes, by decide, eq_ok_of_toOption (by decide +kernel),
    eq_ok_of_toOption (by decide +kernel)⟩, .number (by decide +kernel), eq_ok_of_toOption (by decide +kernel)⟩

end Render

end Stylesheet
