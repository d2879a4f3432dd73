/-
The markup of a flat model: its components with their modifiers, and its
equations.

Each part of the model is drawn when a visit leaves it, from what was drawn
last for the parts it holds.
-/
import Modelica.Markup.Forest
import Modelica.Outline
import Modelica.Flat.Model
import Std.Data.TreeMap

namespace Modelica.Markup

/-- What has been drawn so far, and which drawing belongs to which part. -/
structure Draft where
  forest : Forest := {}
  drawn : Std.TreeMap Id Nat := {}

abbrev Drawing := StateT Draft Build

namespace Drawing

def draw (tag : String) (attributes : List (String × String)) (children : List Nat) : Drawing Nat := do
  if attributes.any fun a => a.2.toList.any fun c => !isWritable c then throw .badValue
  let d ← get
  let (forest, id) := d.forest.make tag attributes children
  set { d with forest }
  pure id

def drawFor (part : Id) (tag : String) (attributes : List (String × String)) (children : List Nat) :
    Drawing Unit := do
  let n ← draw tag attributes children
  modify fun d => { d with drawn := d.drawn.insert part n }

def find (part : Id) : Drawing Nat := do
  match (← get).drawn.get? part with
  | some n => pure n
  | none => throw .noEntry

def findValue : Value → Drawing Nat
  | .node id => find id
  | .list _ => throw .wrongKind
  | _ => throw .noEntry

def literal (v : Value) : Drawing Value := do
  match v with
  | .node id =>
    match ← Build.element id with
    | .primary v => pure v
    | _ => throw .noPart
  | _ => throw .noPart

def numberItem (name : String) (v : Value) : Drawing (List Nat) := do
  match ← literal v with
  | .null => pure []
  | v => do
    let real ← draw "real" [("value", v.word)] []
    pure [← draw "item" [("name", name)] [real]]

def flagItem (name : String) (v : Value) : Drawing (List Nat) := do
  if (← literal v).isSet then
    let yes ← draw "true" [] []
    pure [← draw "item" [("name", name)] [yes]]
  else pure []

def variabilities : List String := ["discrete", "continuous", "parameter", "constant"]

def typeName (v : Value) : Drawing String := do
  match v with
  | .node id =>
    match ← Build.element id with
    | .classDef c =>
      match c.name with
      | some name => pure name
      | none => throw .wrongKind
    | e =>
      match e.name? with
      | some name => pure name
      | none => throw .noPart
  | _ => throw .noPart

def symbol (id : Id) (s : Symbol) : Drawing Unit := do
  let words ← Build.wordsAt s.keywords
  let start ← numberItem "start" s.start
  let value ← numberItem "value" s.value
  let fixed ← flagItem "fixed" s.fixed
  let modifier ← draw "modifier" [] (start ++ value ++ fixed)
  let type ← draw "builtin" [("name", ← typeName s.type)] []
  let variability := (variabilities.find? words.contains).toList.map fun v => ("variability", v)
  drawFor id "component" (("name", s.name) :: variability) [type, modifier]

def operatorName (v : Value) : Drawing String := do
  match v with
  | .text s => pure s
  | .node id => do pure (← Build.referenceAt id).name
  | _ => throw .wrongKind

def whenEquation (id : Id) (conditions : List Value) (blocks : List (List Id)) : Drawing Unit := do
  match conditions, blocks with
  | c :: _, b :: _ => do
    let condition ← draw "cond" [] [← findValue c]
    let body ← draw "then" [] (← b.mapM find)
    drawFor id "when" [] [condition, body]
  | _, _ => throw .outOfRange

def classDefinition (id : Id) (c : ClassDef) : Drawing Unit := do
  let symbols ← c.symbols.values.mapM find
  let equation ← draw "equation" [] (← c.equations.mapM find)
  let cls ← draw "class" [("kind", "model")] (symbols ++ [equation])
  match c.name with
  | some name => drawFor id "classDefinition" [("name", name)] [cls]
  | none => throw .wrongKind

/-- The names that the outermost element introduces, and the version of the
format. -/
def rootAttributes : List (String × String) := [
  ("xmlns:py", "http://codespeak.net/lxml/objectify/pytype"),
  ("xmlns:xsi", "http://www.w3.org/2001/XMLSchema-instance"),
  ("xmlns:xsd", "http://www.w3.org/2001/XMLSchema"),
  ("format", "1.0")]

/-- Draws the part at an address. Parts without a markup of their own are left
out. -/
def part (id : Id) : Drawing Unit := do
  match ← Build.element id with
  | .equation l r _ => do
    let left ← findValue l
    let right ← findValue r
    drawFor id "equal" [] [left, right]
  | .expression op operands => do
    let name ← operatorName op
    let operands ← operands.mapM findValue
    if operands.length = 1 then drawFor id "operator" [("name", name)] operands
    else drawFor id "apply" [("builtin", name)] operands
  | .primary v => drawFor id "real" [("value", v.word)] []
  | .reference r => drawFor id "local" [("name", r.name)] []
  | .symbol s => symbol id s
  | .modification args => do drawFor id "modifier" [] (← args.mapM find)
  | .call name args _ => do drawFor id "apply" [("builtin", name)] (← args.mapM findValue)
  | .branch .whenEquation conditions blocks _ => whenEquation id conditions blocks
  | .classDef c =>
    match c.role with
    | .declared => classDefinition id c
    | .tree => do
      let declarations ← draw "declarations" [] (← c.classes.values.mapM find)
      drawFor id "modelica" rootAttributes [declarations]
    | .instanced => pure ()
  | _ => pure ()

end Drawing

def ofModel (root : Id) (path : List String) : Build Markup := do
  let flat ← Build.flatten (← Build.copy root) path
  let visitor : Visitor Draft := { exit := Drawing.part }
  let d ← visitor.run flat {}
  match d.drawn.get? flat with
  | some n => pure (d.forest.tree n)
  | none => throw .noEntry

end Modelica.Markup
