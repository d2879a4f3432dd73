/-
The script of a flat model.

The text of each part is composed when a visit leaves it, from the texts of
the parts it holds. Terms are joined without parentheses.
-/
import Modelica.Script
import Modelica.Flat.Model
import Std.Data.TreeMap

namespace Modelica.Script

structure Draft where
  texts : Std.TreeMap Id String := {}
  models : Std.TreeMap Id ModelScript := {}
  result : Script := []

abbrev Composing := StateT Draft Build

namespace Composing

def record (id : Id) (text : String) : Composing Unit :=
  modify fun d => { d with texts := d.texts.insert id text }

def text (id : Id) : Composing String := do
  match (← get).texts.get? id with
  | some t => pure t
  | none => throw .noEntry

def valueText : Value → Composing String
  | .node id => text id
  | .list _ => throw .wrongKind
  | _ => throw .noEntry

def literal? (v : Value) : Composing (Option Value) := do
  match v with
  | .node id =>
    match ← Build.element id with
    | .primary v => pure (some v)
    | _ => pure none
  | _ => pure none

def startText (v : Option Value) : String :=
  match v with
  | some v => if v.isSet then v.word else Binary64.zero.text
  | none => Binary64.zero.text

/-- The text of the initial value of a symbol: its value, which must be a
literal to be seen, or else its start value. -/
def initialText (symbols : Table String Id) (s : Symbol) : Composing String := do
  match symbols.get? s.name with
  | none => throw .unknownSymbol
  | some id => do
    let named ← Build.symbolAt id
    match ← literal? named.value with
    | some .null => do pure (startText (← literal? named.start))
    | some v => pure v.word
    | none => pure ""

def declared (symbols : Table String Id) (ids : List Id) : Composing (List Declared) :=
  ids.mapM fun id => do
    let initial ← initialText symbols (← Build.symbolAt id)
    pure ⟨← text id, initial⟩

/-- The symbols of a class, each with its keywords, in order of declaration. -/
def ordered (c : ClassDef) : Composing (List (Id × List String)) := do
  let symbols ← c.symbols.values.mapM fun id => do
    let s ← Build.symbolAt id
    pure (s.order, id, ← Build.wordsAt s.keywords)
  pure ((symbols.mergeSort fun a b => decide (a.1 ≤ b.1)).map fun s => s.2)

/-- The symbols with a keyword, once for each time they have it. -/
def withKeyword (word : String) (symbols : List (Id × List String)) : List Id :=
  symbols.flatMap fun s => (s.2.filter (· == word)).map fun _ => s.1

def model (c : ClassDef) : Composing ModelScript := do
  let symbols ← ordered c
  let plain := (symbols.filter fun s => s.2.isEmpty).map fun s => s.1
  let states := withKeyword "state" symbols
  let outputs := withKeyword "output" symbols
  let algebraics := plain ++ outputs.filter fun s => !states.contains s
  let equations ← c.equations.mapM fun e => do pure (((← get).texts.get? e).getD "")
  pure {
    name := c.name.getD "None"
    states := ← declared c.symbols states
    algebraics := ← algebraics.mapM text
    constants := ← declared c.symbols (withKeyword "constant" symbols)
    parameters := ← declared c.symbols (withKeyword "parameter" symbols)
    inputs := ← declared c.symbols (withKeyword "input" symbols)
    outputs := ← outputs.mapM text
    equations }

def arithmetic : List String := ["*", "+", "-", "/", "^"]

def signs : List String := ["+", "-"]

/-- The text of an operation. An operator that is neither arithmetic nor a
derivative must be a reference to a function. -/
def operation (op : Value) (operands : List Value) : Composing String := do
  let name ← match op with
    | .text s => pure s
    | .node id => Build.referenceText id
    | v => pure v.word
  if name = "der" then
    match operands with
    | [] => throw .outOfRange
    | v :: _ => do pure ("(" ++ (← valueText v) ++ ").diff(self.t)")
  else match operands, arithmetic.contains name, signs.contains name with
    | [left, right], true, _ => do
      let left ← valueText left
      let right ← valueText right
      pure (left ++ " " ++ (if name = "^" then "**" else name) ++ " " ++ right)
    | [operand], _, true => do pure (name ++ " " ++ (← valueText operand))
    | _, _, _ => do
      let arguments ← operands.mapM valueText
      match op with
      | .node id => do
        pure ((← Build.referenceAt id).name ++ "(" ++ String.intercalate "," arguments ++ ")")
      | _ => throw .noPart

def part (id : Id) : Composing Unit := do
  match ← Build.element id with
  | .primary v => record id v.word
  | .reference r => record id (identifier r.name)
  | .symbol s => record id (identifier s.name)
  | .expression op operands => do record id (← operation op operands)
  | .equation l r _ => do
    let left ← valueText l
    let right ← valueText r
    record id (left ++ " - (" ++ right ++ ")")
  | .classDef c =>
    match c.role with
    | .declared => do
      let m ← model c
      modify fun d => { d with models := d.models.insert id m }
    | .tree => do
      let models ← c.classes.values.mapM fun cls => do
        match (← get).models.get? cls with
        | some m => pure m
        | none => throw .noEntry
      modify fun d => { d with result := models }
    | .instanced => pure ()
  | _ => pure ()

end Composing

/-- Composes the texts of all parts, from the innermost outwards. -/
def composer : Visitor Draft := { exit := Composing.part }

/-- The script of the model that a name denotes, and of the functions it
calls. -/
def ofModel (root : Id) (path : List String) : Build Script := do
  let flat ← Build.flatten (← Build.copy root) path
  pure (← composer.run flat {}).result

end Modelica.Script
