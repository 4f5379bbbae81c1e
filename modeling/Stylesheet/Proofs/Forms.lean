import Stylesheet.Render.Node

/-!
# Forms of renderings

Equations that give the renderings of lists one element at a time, with the element's own rendering as a function
of its own, a member with one step for each of its sides, and a declaration with one for what follows its value.
-/

namespace Stylesheet.Render

open Rendering

/-- A statement after one on the line `previous`. -/
def statement (previous : Option Nat) : Node → Rendering String
  | .comment c => comment c (c.line.isSome && previous == c.line)
  | n => node n

theorem statements_cons (previous : Option Nat) (n : Node) (ns : List Node) :
    statements previous (n :: ns) = (do
      let text ← statement previous n
      return text ++ (← statements n.line ns)) := by
  cases n <;> rfl

def lineAfter (previous : Option Nat) (ns : List Node) : Option Nat := ns.foldl (fun _ n => n.line) previous

theorem statements_append (previous : Option Nat) (ns ms : List Node) :
    statements previous (ns ++ ms) = (do
      let first ← statements previous ns
      let rest ← statements (lineAfter previous ns) ms
      return first ++ rest) := by
  induction ns generalizing previous with
  | nil =>
    simp only [statementsWith, lineAfter, List.nil_append, List.foldl_nil, pure_bind, String.empty_append, bind_pure]
  | cons n ns ih =>
    rw [List.cons_append, statements_cons, statements_cons, ih]
    simp only [bind_assoc, pure_bind, String.append_assoc]
    rfl

def alternative : Node → Rendering String
  | .conditional condition (some b) alts negated _ =>
    chained (conditional .chained negated (node condition) (body b) (alternatives alts))
  | .block b => chained (otherwise (body b))
  | .conditional .. => chained (missing .conditional .body)
  | _ => chained (missing .conditional .elseBody)

theorem alternatives_cons (n : Node) (ns : List Node) :
    alternatives (n :: ns) = (do
      let text ← alternative n
      return text :: (← alternatives ns)) := by
  cases n with
  | conditional condition b alts negated line => cases b <;> rfl
  | _ => rfl

def range : Node → Rendering String
  | .binary operator left right =>
    if Operator.spansRange operator then do
      let start ← node left
      let stop ← node right
      pure (bounds operator start stop)
    else node (.binary operator left right)
  | .expression e => do return " ".intercalate (← ranges e.operands)
  | n => node n

theorem ranges_cons (n : Node) (ns : List Node) :
    ranges (n :: ns) = (do
      let text ← range n
      return text :: (← ranges ns)) := by
  cases n with
  | binary operator left right =>
    simp only [ranges, rangesWith, range]
    split <;> simp only [bind_assoc, pure_bind]
  | expression e => simp only [ranges, rangesWith, range, bind_assoc, pure_bind]
  | _ => rfl

theorem member_eq (left right : Node) (leftText rightText : Rendering String) :
    member left right leftText rightText = (do
      let ofMap ← observe fun p => (left.chainStart?.map p.registry.knowsMap).getD false
      if ofMap then
        let owner ← left.bareName?.elim leftText variableRef
        let key ← right.bareName?.elim rightText pure
        let quote := (← read).quote.toString
        return "map-get(" ++ owner ++ ", " ++ quote ++ key ++ quote ++ ")"
      else
        let owner ← leftText
        let key ← rightText
        return owner ++ "." ++ key) := by
  unfold member
  cases left.bareName? <;> cases right.bareName? <;> rfl

/-- What follows the value of a declaration that took `slot`. -/
def closing (value : Expression Node) (before name : String) (slot : Nat) (text : String) : Rendering String :=
  match value.inlineName? with
  | some inner => do
    let reference ← variableRef inner
    register fun r => (r.addVariable inner).closeDeclaration slot reference
    return before ++ Text.trimStart text ++ "\n" ++ (← indent) ++ name ++ ": " ++ reference ++ ";"
  | none => do
    register (·.closeDeclaration slot text)
    let terminator := if Text.endsWith ';' text || value.handsBlock then "" else ";"
    return before ++ name ++ ": " ++ text ++ terminator

theorem property_eq (line : Option Nat) (name : Rendering String) (value : Expression Node)
    (text : Rendering String) : property line name value text = (do
    let before ← lineStart line
    within [.declarationValue] do
      let name ← name
      let slot ← observe (·.registry.nextSlot)
      register (·.openDeclaration name)
      closing value before name slot (← text)) := rfl

end Stylesheet.Render
