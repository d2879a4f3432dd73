/-
Graphs of elements, and the steps that read and change them.

A step that fails keeps what it has changed so far: `Build` does not roll
back. `children` lists the elements an element holds, in the order in which
they are visited; the class an element stands in (`parent`) and the scope of
an argument are not among them, so that visits go downwards only.
-/
import Modelica.Element
import Modelica.Fault

namespace Modelica

structure Graph where
  elements : Array Element := #[]
  warnings : Array String := #[]
deriving Inhabited

abbrev Build := EStateM Fault Graph

namespace Graph

def get? (g : Graph) (id : Id) : Option Element := g.elements[id]?

/-- The number of elements, and the first address that is free. -/
abbrev size (g : Graph) : Nat := g.elements.size

def add (g : Graph) (e : Element) : Graph × Id :=
  ({ g with elements := g.elements.push e }, g.size)

def set (g : Graph) (id : Id) (e : Element) : Graph :=
  { g with elements := g.elements.setIfInBounds id e }

theorem get?_add_self (g : Graph) (e : Element) : (g.add e).1.get? (g.add e).2 = some e := by
  simp [get?, add]

theorem get?_add_of_lt (g : Graph) (e : Element) {id : Id} (h : id < g.size) :
    (g.add e).1.get? id = g.get? id := by
  simp [get?, add, Array.getElem?_push, Nat.ne_of_lt h]

theorem get?_set_self (g : Graph) (e : Element) {id : Id} (h : id < g.size) :
    (g.set id e).get? id = some e := by
  simp [get?, set, h]

theorem get?_set_other (g : Graph) (e : Element) {id other : Id} (h : other ≠ id) :
    (g.set id e).get? other = g.get? other := by
  simp [get?, set, h.symm]

end Graph

namespace Build

def alloc (e : Element) : Build Id := fun g =>
  let (g, id) := g.add e
  .ok id g

def element (id : Id) : Build Element := fun g =>
  match g.get? id with
  | some e => .ok e g
  | none => .error .noPart g

def store (id : Id) (e : Element) : Build Unit := fun g => .ok () (g.set id e)

def warn (message : String) : Build Unit := fun g =>
  .ok () { g with warnings := g.warnings.push message }

def size : Build Nat := fun g => .ok g.size g

def classAt (id : Id) : Build ClassDef := do
  match ← element id with
  | .classDef c => pure c
  | _ => throw .noPart

def symbolAt (id : Id) : Build Symbol := do
  match ← element id with
  | .symbol s => pure s
  | _ => throw .noPart

def referenceAt (id : Id) : Build Reference := do
  match ← element id with
  | .reference r => pure r
  | _ => throw .noPart

def clauseAt (id : Id) : Build Clause := do
  match ← element id with
  | .clause c => pure c
  | _ => throw .noPart

def wordsAt (id : Id) : Build (List String) := do
  match ← element id with
  | .keywords ws => pure ws
  | _ => throw .noPart

def argumentsAt (id : Id) : Build (List Id) := do
  match ← element id with
  | .modification args => pure args
  | _ => throw .noPart

def setClass (id : Id) (c : ClassDef) : Build Unit := store id (.classDef c)

def modifyClass (id : Id) (f : ClassDef → ClassDef) : Build Unit := do
  setClass id (f (← classAt id))

def modifySymbol (id : Id) (f : Symbol → Symbol) : Build Unit := do
  store id (.symbol (f (← symbolAt id)))

def modifyReference (id : Id) (f : Reference → Reference) : Build Unit := do
  store id (.reference (f (← referenceAt id)))

def setArguments (id : Id) (args : List Id) : Build Unit := store id (.modification args)

def keywordsOf (symbol : Id) : Build (List String) := do
  wordsAt (← symbolAt symbol).keywords

/-! ### Fresh elements -/

def primary (v : Value) : Build Id := alloc (.primary v)

def freshReference (name : String) : Build Id := alloc (.reference { name })

def freshModification : Build Id := alloc (.modification [])

def freshSymbol (order : Nat) : Build Id := do
  let type ← freshReference ""
  let keywords ← alloc (.keywords [])
  let dimension ← primary .null
  let start ← primary .null
  let min ← primary .null
  let max ← primary .null
  let nominal ← primary .null
  let value ← primary .null
  let fixed ← primary (.bool false)
  let unit ← primary (.text "")
  alloc (.symbol {
    type := .node type, keywords, dimensions := [[.node dimension]], start := .node start,
    min := .node min, max := .node max, nominal := .node nominal, value := .node value,
    fixed := .node fixed, unit := .node unit, order })

/-- A class that descends from no other. -/
def freshClass (c : ClassDef) : Build Id := do
  let id ← alloc (.classDef c)
  modifyClass id fun c => { c with declaration := id }
  pure id

end Build

/-! ### What elements hold -/

mutual

def Value.nodes : Value → List Id
  | .node id => [id]
  | .list items => Value.nodesAll items
  | _ => []

def Value.nodesAll : List Value → List Id
  | [] => []
  | v :: rest => Value.nodes v ++ Value.nodesAll rest

end

def Value.nodesOfRows (rows : List (List Value)) : List Id := rows.flatMap Value.nodesAll

def Symbol.children (s : Symbol) : List Id :=
  s.type.nodes ++ Value.nodesOfRows s.dimensions ++ s.start.nodes ++ s.min.nodes ++ s.max.nodes ++
    s.nominal.nodes ++ s.value.nodes ++ s.fixed.nodes ++ s.unit.nodes ++ s.modification.toList ++
    s.connector.toList

def ClassDef.children (c : ClassDef) : List Id :=
  c.imports ++ c.bases ++ c.classes.values ++ c.symbols.values ++ c.functions.values ++
    c.initialEquations ++ c.equations ++ c.initialStatements ++ c.statements ++ c.remarks.toList ++
    c.environment.toList

def Element.children : Element → List Id
  | .primary v => v.nodes
  | .array vs => Value.nodesAll vs
  | .slice a b c => a.nodes ++ b.nodes ++ c.nodes
  | .reference r => Value.nodesOfRows r.indices ++ r.child
  | .expression op vs => op.nodes ++ Value.nodesAll vs
  | .conditional cs vs => Value.nodesAll cs ++ Value.nodesAll vs
  | .equation l r _ => l.nodes ++ r.nodes
  | .branch _ cs bs _ => Value.nodesAll cs ++ bs.flatten
  | .iterator _ v => v.nodes
  | .loopEquation is body _ => is ++ body
  | .connect l r _ _ _ => [l, r]
  | .assignment ts v _ => ts ++ v.nodes
  | .loopStatement is body _ => is ++ body
  | .call _ vs _ => Value.nodesAll vs
  | .symbol s => s.children
  | .clause c => [c.type] ++ Value.nodesOfRows c.dimensions ++ c.symbols
  | .importAs c _ => [c]
  | .elementModification c vs => c :: Value.nodesAll vs
  | .shortClass _ _ c m => [c, m]
  | .modification args => args
  | .argument v _ _ _ => [v]
  | .base c m _ => [c, m]
  | .classDef c => c.children
  | .keywords _ => []

/-! ### Visits -/

structure Visitor (σ : Type) where
  enter : Id → StateT σ Build Unit := fun _ => pure ()
  exit : Id → StateT σ Build Unit := fun _ => pure ()

/-- Visits an element and all it holds. The first argument bounds the depth. -/
def Visitor.walk {σ : Type} (v : Visitor σ) : Nat → Id → StateT σ Build Unit
  | 0, _ => throw .tooDeep
  | n + 1, id => do
    v.enter id
    let e ← Build.element id
    for child in e.children do
      v.walk n child
    v.exit id

/-- Visits with an initial state; the graph itself bounds the depth. -/
def Visitor.run {σ : Type} (v : Visitor σ) (id : Id) (s : σ) : Build σ := do
  let n ← Build.size
  let (_, s) ← (v.walk (n + 1) id).run s
  pure s

end Modelica
