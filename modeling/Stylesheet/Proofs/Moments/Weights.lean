import Mathlib.Algebra.GroupWithZero.Nat
import Stylesheet.Proofs.Parts

/-!
# Weights of trees

What every node of a tree weighs, summed up. A weight is a number that is read off the node itself, without its parts.
-/

namespace Stylesheet

def AllBelow (size : Nat) (ns : List Node) : Prop := ∀ c ∈ ns, sizeOf c < size

section

variable {size : Nat}

private theorem allBelow_of_le {ns : List Node} (h : sizeOf ns ≤ size) : AllBelow size ns :=
  fun _ hc => Nat.lt_of_lt_of_le (List.sizeOf_lt_of_mem hc) h

private theorem allBelow_append {ns ms : List Node} (hn : AllBelow size ns) (hm : AllBelow size ms) :
    AllBelow size (ns ++ ms) := List.forall_mem_append.2 ⟨hn, hm⟩

private theorem allBelow_cons {n : Node} {ns : List Node} (hn : sizeOf n < size) (hns : AllBelow size ns) :
    AllBelow size (n :: ns) := List.forall_mem_cons.2 ⟨hn, hns⟩

private theorem allBelow_statementsOf {b : Option (Body Node)} (h : sizeOf b ≤ size) :
    AllBelow size (statementsOf b) := by
  refine allBelow_of_le (Nat.le_trans ?_ h)
  rcases b with _ | ⟨ss, l⟩ <;> simp +arith

private theorem allBelow_operandsOf {e : Option (Expression Node)} (h : sizeOf e ≤ size) :
    AllBelow size (operandsOf e) := by
  refine allBelow_of_le (Nat.le_trans ?_ h)
  rcases e with _ | ⟨ss, l⟩ <;> simp +arith

end

theorem Node.allBelow_parts (n : Node) : AllBelow (sizeOf n) n.parts := by
  cases n with
  | null | literal | number | quoted | boolean | color | charset | comment => exact allBelow_of_le (by simp +arith)
  | identifier id =>
    obtain ⟨name, value, placeholder, rest, line⟩ := id
    cases value with
    | none => exact allBelow_of_le (by simp +arith)
    | some v => exact allBelow_cons (by simp +arith) (allBelow_of_le (by simp +arith))
  | expression e => cases e; exact allBelow_of_le (by simp +arith)
  | block b => cases b; exact allBelow_of_le (by simp +arith)
  | returned value | importSheet value => cases value; exact allBelow_of_le (by simp +arith)
  | arguments | selector | queryList | extend => exact allBelow_of_le (by simp +arith)
  | ruleSet | call | keyframes | atRule =>
    exact allBelow_append (allBelow_of_le (by simp +arith)) (allBelow_statementsOf (by simp +arith))
  | property segments value =>
    cases value
    exact allBelow_append (allBelow_of_le (by simp +arith)) (allBelow_of_le (by simp +arith))
  | callable name params b line =>
    refine allBelow_append (fun c hc => ?_) (allBelow_statementsOf (by simp +arith))
    obtain ⟨id, hid, hc⟩ := List.mem_flatMap.1 hc
    have smaller := List.sizeOf_lt_of_mem hid
    obtain ⟨name, value, placeholder, rest, line⟩ := id
    obtain rfl : value = some c := by simpa using hc
    simp +arith at smaller ⊢
    omega
  | conditional =>
    exact allBelow_cons (by simp +arith)
      (allBelow_append (allBelow_statementsOf (by simp +arith)) (allBelow_of_le (by simp +arith)))
  | loop => exact allBelow_append (allBelow_operandsOf (by simp +arith)) (allBelow_statementsOf (by simp +arith))
  | binary | member =>
    exact allBelow_cons (by simp +arith) (allBelow_cons (by simp +arith) (allBelow_of_le (by simp +arith)))
  | unary | xmlNamespace => exact allBelow_cons (by simp +arith) (allBelow_of_le (by simp +arith))
  | media | supports => exact allBelow_cons (by simp +arith) (allBelow_statementsOf (by simp +arith))
  | query features medium =>
    cases medium with
    | none => exact allBelow_append (allBelow_of_le (by simp +arith)) (allBelow_of_le (by simp +arith))
    | some m =>
      exact allBelow_append (allBelow_of_le (by simp +arith))
        (allBelow_cons (by simp +arith) (allBelow_of_le (by simp +arith)))
  | feature => exact allBelow_append (allBelow_of_le (by simp +arith)) (allBelow_operandsOf (by simp +arith))
  | mapLiteral es line =>
    intro c hc
    obtain ⟨⟨key, n⟩, he, rfl⟩ := List.mem_map.1 hc
    have smaller := List.sizeOf_lt_of_mem he
    simp +arith at smaller ⊢
    omega

def Node.sum (w : Node → Nat) (n : Node) : Nat := w n + (n.parts.attach.map fun c => c.1.sum w).sum
termination_by sizeOf n
decreasing_by exact n.allBelow_parts c.1 c.2

def sumIn (w : Node → Nat) (ns : List Node) : Nat := (ns.map (·.sum w)).sum

section Sums

variable {w v : Node → Nat}

theorem Node.sum_eq (n : Node) : n.sum w = w n + sumIn w n.parts := by
  rw [Node.sum, sumIn, List.attach_map_val (f := fun c : Node => c.sum w)]

@[simp] theorem sumIn_nil : sumIn w [] = 0 := rfl

@[simp] theorem sumIn_cons (n : Node) (ns : List Node) : sumIn w (n :: ns) = n.sum w + sumIn w ns := by simp [sumIn]

@[simp] theorem sumIn_append (ns ms : List Node) : sumIn w (ns ++ ms) = sumIn w ns + sumIn w ms := by simp [sumIn]

private theorem Node.sum_add (n : Node) : n.sum (fun m => w m + v m) = n.sum w + n.sum v := by
  have parts (ns : List Node) (h : ∀ c ∈ ns, c.sum (fun m => w m + v m) = c.sum w + c.sum v) :
      sumIn (fun m => w m + v m) ns = sumIn w ns + sumIn v ns := by
    induction ns with
    | nil => rfl
    | cons c cs ih =>
      obtain ⟨hc, hcs⟩ := List.forall_mem_cons.1 h
      rw [sumIn_cons, sumIn_cons, sumIn_cons, hc, ih hcs]
      omega
  rw [Node.sum_eq, Node.sum_eq, Node.sum_eq, parts n.parts fun c hc => c.sum_add]
  omega
termination_by sizeOf n
decreasing_by exact n.allBelow_parts c hc

theorem sumIn_add (ns : List Node) : sumIn (fun m => w m + v m) ns = sumIn w ns + sumIn v ns := by
  induction ns with
  | nil => rfl
  | cons n ns ih =>
    rw [sumIn_cons, sumIn_cons, sumIn_cons, n.sum_add, ih]
    omega

end Sums

end Stylesheet
