import Stylesheet.Proofs.Parts

/-!
# Steps over lines

What statements do to the line that the pass is on, in the order of traversal and read off the tree alone. The
renderings that keep the breaks of the sheet are those of steps that never go back.
-/

namespace Stylesheet

inductive Step
  /-- A statement or a selector starts on a line. -/
  | line (line : Nat)
  /-- A comment starts on a line and goes on for as many lines as it has line feeds. -/
  | comment (line feeds : Nat)
  | opens (b : Body Node)
  /-- An alternative starts behind the brace of the branch before it. -/
  | branch

namespace Step

/-- The line the pass is on after a step from line `k`. -/
def after (k : Nat) : Step → Nat
  | line l => l
  | comment l feeds => l + feeds
  | opens _ => k
  | branch => k + 1

/-- No step goes back, and a block has a first statement, on a later line. -/
def Allowed (k : Nat) : Step → Prop
  | line l => k ≤ l
  | comment l _ => k ≤ l
  | opens b => ∃ n ∈ b.statements.head?, ∃ l ∈ n.line, k < l
  | branch => True

def isOpening : Step → Bool
  | opens _ => true
  | _ => false

def isBranch : Step → Bool
  | branch => true
  | _ => false

theorem le_after {k : Nat} {s : Step} (h : s.Allowed k) : k ≤ s.after k := by
  cases s with
  | line l => exact h
  | comment l feeds => exact Nat.le_add_right_of_le h
  | opens b => exact Nat.le_refl k
  | branch => exact Nat.le_succ k

end Step

abbrev Steps := List Step

namespace Steps

/-- The line the pass is on after all steps. -/
def after (k : Nat) : Steps → Nat
  | [] => k
  | s :: ss => after (s.after k) ss

/-- Each step is allowed from where the ones before it lead. -/
def InOrder (k : Nat) : Steps → Prop
  | [] => True
  | s :: ss => s.Allowed k ∧ InOrder (s.after k) ss

/-- The blocks with the lines that the pass is on when they open. -/
def openings (k : Nat) : Steps → List (Nat × Body Node)
  | [] => []
  | .opens b :: ss => (k, b) :: openings k ss
  | s :: ss => openings (s.after k) ss

def blocks (ss : Steps) : Nat := ss.countP Step.isOpening

def branches (ss : Steps) : Nat := ss.countP Step.isBranch

variable {k : Nat} {ss xs ys : Steps}

theorem after_append : after k (xs ++ ys) = after (after k xs) ys := by
  induction xs generalizing k with
  | nil => rfl
  | cons s xs ih => exact ih

theorem inOrder_append : InOrder k (xs ++ ys) ↔ InOrder k xs ∧ InOrder (after k xs) ys := by
  induction xs generalizing k with
  | nil => simp [InOrder, after]
  | cons s xs ih => rw [List.cons_append, InOrder, InOrder, ih, and_assoc, after]

theorem openings_append : openings k (xs ++ ys) = openings k xs ++ openings (after k xs) ys := by
  induction xs generalizing k with
  | nil => rfl
  | cons s xs ih =>
    cases s with
    | opens b => exact congrArg ((k, b) :: ·) ih
    | _ => exact ih

@[simp] theorem blocks_append : blocks (xs ++ ys) = blocks xs + blocks ys := List.countP_append

@[simp] theorem branches_append : branches (xs ++ ys) = branches xs + branches ys := List.countP_append

@[simp] theorem blocks_opens (b : Body Node) : blocks (.opens b :: ss) = blocks ss + 1 := List.countP_cons_of_pos rfl

@[simp] theorem branches_opens (b : Body Node) : branches (.opens b :: ss) = branches ss :=
  List.countP_cons_of_neg Bool.false_ne_true

/-- Steps in order lead forward. -/
theorem le_after (h : InOrder k ss) : k ≤ after k ss := by
  induction ss generalizing k with
  | nil => exact Nat.le_refl k
  | cons s ss ih => exact Nat.le_trans (Step.le_after h.1) (ih h.2)

end Steps

def stepTo (line : Option Nat) : Steps := (line.map Step.line).toList

/-- A selector starts on the line of its last piece. -/
def Node.headSteps : Node → Steps
  | selector segments _ => stepTo (segments.getLast?.bind Node.line)
  | _ => []

def Comment.steps (c : Comment) : Steps :=
  (c.line.map fun l => Step.comment l (c.text.toList.count '\n')).toList

mutual

def Node.steps : Node → Steps
  | .identifier id => stepTo id.line
  | .property _ _ line | .xmlNamespace _ _ line | .charset _ line | .importSheet _ line => stepTo line
  | .ruleSet selectors b line => stepTo line ++ selectors.flatMap Node.headSteps ++ blockSteps b
  | .media _ b line | .supports _ b line | .atRule _ _ b line | .loop _ _ _ b line => stepTo line ++ blockSteps b
  | .conditional _ b alternatives _ line => stepTo line ++ blockSteps b ++ branchSteps alternatives
  | .comment c => c.steps
  | _ => []
termination_by structural n => n

def stepsOf : List Node → Steps
  | [] => []
  | n :: ns => n.steps ++ stepsOf ns
termination_by structural ns => ns

def blockSteps : Option (Body Node) → Steps
  | none => []
  | some b => .opens b :: stepsOf b.statements
termination_by structural b => b

def branchSteps : List Node → Steps
  | [] => []
  | .conditional _ b alternatives _ _ :: ns => .branch :: blockSteps b ++ branchSteps alternatives ++ branchSteps ns
  | .block b :: ns => .branch :: .opens b :: stepsOf b.statements ++ branchSteps ns
  | _ :: ns => branchSteps ns
termination_by structural ns => ns

end

end Stylesheet
