import Mathlib.Logic.Relation
import Stylesheet.Proofs.Growth

/-!
# Look-ups in maps

A name that a map was assigned to is known as a map from there on, wherever the pass goes and whatever it learns. So a
chain of members from that name on is a look-up for each of its keys, in which all names stand for themselves.
-/

namespace Stylesheet

open Rendering

namespace Pass

/-- What a pass does at a time: it goes elsewhere, or some of what it knows changes. -/
inductive Moves : Pass → Pass → Prop
  | go (p : Pass) (depth line : Nat) (places : List Place) (callName : Option String) (returning : Bool) :
    Moves p { p with depth, line, places, callName, returning }
  | addVariable (p : Pass) (name : String) : Moves p (p.learn (·.addVariable name))
  | addMap (p : Pass) (name : String) : Moves p (p.learn (·.addMap name))
  | openDeclaration (p : Pass) (name : String) : Moves p (p.learn (·.openDeclaration name))
  | closeDeclaration (p : Pass) (slot : Nat) (value : String) : Moves p (p.learn (·.closeDeclaration slot value))
  | setParams (p : Pass) (names : List String) : Moves p (p.learn (·.setParams names))

/-- The pass after any number of moves, so at any moment of what is rendered from it on. -/
abbrev Later : Pass → Pass → Prop := Relation.ReflTransGen Moves

variable {p q : Pass} {name : String}

theorem Moves.knowsMap (h : p.Moves q) (known : p.registry.knowsMap name) : q.registry.knowsMap name := by
  cases h with
  | addMap other => simp [Registry.knowsMap_addMap, known]
  | _ => exact known

theorem Later.knowsMap (h : p.Later q) (known : p.registry.knowsMap name) : q.registry.knowsMap name := by
  induction h with
  | refl => exact known
  | tail _ last ih => exact last.knowsMap ih

private theorem later_steps : StepRelation Later where
  refl _ := .refl
  trans := .trans
  move p line := .single (.go p p.depth line p.places p.callName p.returning)
  addVariable p name := .single (.addVariable p name)
  addMap p name := .single (.addMap p name)
  within {p q places} h :=
    (Relation.ReflTransGen.head (.go p p.depth p.line (places ++ p.places) p.callName p.returning) h).tail
      (.go q q.depth q.line p.places q.callName q.returning)
  deeper {p q} h :=
    (Relation.ReflTransGen.head (.go p (p.depth + 1) p.line p.places p.callName p.returning) h).tail
      (.go q (q.depth - 1) q.line q.places q.callName q.returning)
  calling {p q name} h := by
    have entered : p.Moves (p.call name) := .go p p.depth p.line (.call :: p.places) (some name) p.returning
    exact (Relation.ReflTransGen.head entered h).tail (.go q q.depth q.line p.places p.callName q.returning)
  declare {p q name value} h :=
    (Relation.ReflTransGen.head (.openDeclaration p name) h).tail (.closeDeclaration q p.registry.nextSlot value)
  define {p q kind names} h := by
    have entered := Moves.go (p.learn (·.setParams names)) p.depth p.line ([.callableBody] ++ p.places) p.callName
      (kind == DefinitionKind.function)
    have left := Moves.go q q.depth q.line p.places q.callName false
    exact (((Relation.ReflTransGen.single (.setParams p names)).tail entered).trans h).tail left |>.tail
      (.setParams _ [])

end Pass

/-- Members of members, from the first name on. -/
def Node.chain (root : Identifier Node) (keys : List (Identifier Node)) : Node :=
  keys.foldl (fun owner key => .member owner (.identifier key)) (.identifier root)

namespace Render

def lookUp (quote : Char) (owner key : String) : String :=
  "map-get(" ++ owner ++ ", " ++ quote.toString ++ key ++ quote.toString ++ ")"

/-- One look-up after the other, in what the map holds. -/
def lookUps (quote : Char) (owner : String) (keys : List (Identifier Node)) : String :=
  keys.foldl (fun owner key => lookUp quote owner key.name) owner

variable {σ : Style} {p q : Pass} {t name owner : String} {left : Node}

private theorem knowsMap_of_assigned {id : Identifier Node} {value : Expression Node}
    (assigned : id.value = some (.expression value)) (map : value.holdsMap)
    (h : (node (.identifier id)).Gives σ p t q) : q.registry.knowsMap id.name := by
  obtain ⟨name, bound, placeholder, rest, line⟩ := id
  obtain rfl : bound = some (.expression value) := assigned
  have assignment : (Render.assignment name value (each value.operands)).Gives σ p t q := h
  obtain ⟨before, start, ts, r, hstart, hts, rfl, -⟩ := assignment_gives assignment
  have known : start.registry.knowsMap name := by
    have learned : (knowingMap p name value).registry.knowsMap name := by
      simp [knowingMap, map, Registry.knowsMap_addMap]
    rcases hstart with ⟨-, -, rfl⟩ | ⟨-, -, rfl⟩
    · exact learned
    · rwa [Pass.reach_registry]
  exact (Pass.grown_steps.each value.operands hts).knownMaps name known

private theorem member_gives_lookUp (start : left.chainStart? = some name) (map : p.registry.knowsMap name)
    (own : left.bareName? = none → (node left).Gives σ p owner p)
    (variable_owner : ∀ other, left.bareName? = some other → owner = σ.dialect.variableRef other)
    {key : Identifier Node} (bare : key.isBound = false) :
    (node (.member left (.identifier key))).Gives σ p (lookUp σ.quote owner key.name) p := by
  have ofMap : (left.chainStart?.map p.registry.knowsMap).getD false = true := by simpa [start] using map
  show (member left (.identifier key) (node left) (node (.identifier key))).Gives _ _ _ _
  rw [member_eq, Identifier.bareName?_of_unbound bare]
  refine .bind (gives_observe.2 ⟨ofMap.symm, rfl⟩) ?_
  have ownerText : (left.bareName?.elim (node left) variableRef).Gives σ p owner p := by
    cases found : left.bareName? with
    | none => exact own found
    | some other => exact gives_variableRef.2 ⟨variable_owner other found, rfl⟩
  exact ownerText.bind (.bind (gives_pure.2 ⟨rfl, rfl⟩) (.bind (gives_read.2 ⟨rfl, rfl⟩) (gives_pure.2 ⟨rfl, rfl⟩)))

private theorem chain_gives_lookUps {keys : List (Identifier Node)} (bare : ∀ k ∈ keys, k.isBound = false)
    (start : left.chainStart? = some name) (map : p.registry.knowsMap name)
    (inner : left.bareName? = none) (own : (node left).Gives σ p owner p) :
    (node (keys.foldl (fun owner key => .member owner (.identifier key)) left)).Gives σ p
      (lookUps σ.quote owner keys) p := by
  induction keys generalizing left owner with
  | nil => exact own
  | cons key keys ih =>
    obtain ⟨hk, hks⟩ := List.forall_mem_cons.1 bare
    have first := member_gives_lookUp start map (fun _ => own) (fun _ found => by rw [inner] at found; cases found) hk
    exact ih hks start rfl first

/-- Once a map was assigned to a name, every chain of members from that name on is rendered as a look-up for each of its
keys, whatever has been rendered since and wherever the pass is, and leaves the pass as it is. The names of the chain
are not read as anything else. -/
theorem lookUps_of_assigned {id : Identifier Node} {value : Expression Node}
    (assigned : id.value = some (.expression value)) (map : value.holdsMap)
    (run : (node (.identifier id)).Gives σ p t q) :
    (∀ previous ns u r, (statements previous ns).Gives σ q u r → q.Later r) ∧
    ∀ r, q.Later r → ∀ (root key : Identifier Node) (keys : List (Identifier Node)), root.name = id.name →
      (∀ k ∈ root :: key :: keys, k.isBound = false) →
      (node (.chain root (key :: keys))).Gives σ r
        (lookUps σ.quote (σ.dialect.variableRef id.name) (key :: keys)) r := by
  refine ⟨fun previous ns u r after => Pass.later_steps.statements previous ns after, ?_⟩
  intro r later root key keys named bare
  obtain ⟨bareRoot, bareKeys⟩ := List.forall_mem_cons.1 bare
  obtain ⟨bareKey, bareRest⟩ := List.forall_mem_cons.1 bareKeys
  have known : r.registry.knowsMap root.name := named ▸ later.knowsMap (knowsMap_of_assigned assigned map run)
  have first : (node (.member (.identifier root) (.identifier key))).Gives σ r
      (lookUp σ.quote (σ.dialect.variableRef id.name) key.name) r := by
    have self := Identifier.bareName?_of_unbound bareRoot
    refine member_gives_lookUp rfl known (fun none => ?_) (fun other found => ?_) bareKey
    · rw [self] at none
      cases none
    · rw [self] at found
      rw [← Option.some.inj found, named]
  let left : Node := .member (.identifier root) (.identifier key)
  have start : left.chainStart? = some root.name := rfl
  have inner : left.bareName? = none := rfl
  show (node (keys.foldl (fun owner key => .member owner (.identifier key)) left)).Gives σ r _ r
  exact chain_gives_lookUps bareRest start known inner first

/-- The map `theme` is looked up in the arguments of a call, in a callable with a parameter `theme`, after a declaration
`colors` and a variable `primary`. -/
theorem lookUps_of_assigned_theme :
    let theme : Identifier Node := { name := "theme" }
    let colors : Identifier Node := { name := "colors" }
    let primary : Identifier Node := { name := "primary" }
    let shades : Node := .mapLiteral [("primary", .literal "red" (some 3))] (some 2)
    let value : Expression Node := ⟨[.mapLiteral [("colors", shades)] (some 1)], some 1⟩
    let assigned : Identifier Node := { theme with value := some (.expression value) }
    let declared : Node := .property [.literal "colors" none] ⟨[.literal "none" none], none⟩ (some 8)
    let blue : Node := .identifier { primary with value := some (.literal "blue" none), line := some 9 }
    let q : Pass := { line := 5, registry := { variableNames := ["theme"], mapNames := ["theme"] } }
    let known : Registry :=
      { variableNames := ["primary", "theme"], mapNames := ["theme"], declarations := [("colors", some "none")] }
    let r : Pass := { line := 9, registry := known }
    let s : Pass := { r with
      places := [.call, .callableBody], callName := some "tint", registry := { known with paramNames := ["theme"] } }
    (node (.identifier assigned)).Gives {} {}
        "$theme: (\n  'colors': (\n    'primary': red\n  )\n);" q ∧
      (statements none [declared, blue]).Gives {} q "\n\n\ncolors: none;\n$primary: blue;" r ∧ q.Later s ∧
      (node (.chain theme [colors, primary])).Gives {} s "map-get(map-get($theme, 'colors'), 'primary')" s := by
  intro theme colors primary shades value assigned declared blue q known r s
  have run : (node (.identifier assigned)).Gives {} {}
      "$theme: (\n  'colors': (\n    'primary': red\n  )\n);" q := eq_ok_of_toOption (by decide +kernel)
  have after : (statements none [declared, blue]).Gives {} q "\n\n\ncolors: none;\n$primary: blue;" r :=
    eq_ok_of_toOption (by decide +kernel)
  have isAssigned : ({ theme with value := some (.expression value) } : Identifier Node).value =
      some (.expression value) := rfl
  have isMap : value.holdsMap := by decide
  obtain ⟨isLater, looks⟩ := lookUps_of_assigned isAssigned isMap run
  have inside : (r.learn (·.setParams ["theme"])).Moves s :=
    .go _ 0 9 [.call, .callableBody] (some "tint") false
  have later : q.Later s := ((isLater _ _ _ _ after).tail (.setParams r ["theme"])).tail inside
  have text : lookUps '\'' (Dialect.variableRef .scss "theme") [colors, primary] =
      "map-get(map-get($theme, 'colors'), 'primary')" := by decide +kernel
  exact ⟨run, after, later, text ▸ looks s later theme colors [primary] rfl (by decide)⟩

end Render

end Stylesheet
