/-
The flat model: a flat class with its connections expanded, the values of
its variables as equations, and its states marked.
-/
import Modelica.Flat.Connection

namespace Modelica.Build

def isUnset (v : Value) : Build Bool := do
  match v with
  | .node id => do pure ((← element id) matches .primary .null)
  | _ => pure false

/-- The value of a variable becomes an equation; constants and parameters
keep theirs. -/
def addValueEquation (cls symbol : Id) : Build Unit := do
  let s ← symbolAt symbol
  if !(← isUnset s.value) then
    let words ← keywordsOf symbol
    if !(words.contains "constant" || words.contains "parameter") then
      let e ← alloc (.equation (.node symbol) s.value "")
      modifyClass cls fun c => { c with equations := c.equations ++ [e] }
      let unset ← primary .null
      modifySymbol symbol fun s => { s with value := .node unset }

def addValueEquations (cls : Id) : Build Unit := do
  (← classAt cls).symbols.values.forM (addValueEquation cls)

/-- In a function the value of a variable becomes a statement. -/
def addValueStatement (cls symbol : Id) : Build Unit := do
  let s ← symbolAt symbol
  if !(← isUnset s.value) then
    let e ← alloc (.assignment [symbol] s.value "")
    modifyClass cls fun c => { c with statements := c.statements ++ [e] }
    let unset ← primary .null
    modifySymbol symbol fun s => { s with value := .node unset }

def addValueStatements (cls : Id) : Build Unit := do
  (← classAt cls).symbols.values.forM (addValueStatement cls)

def markState (symbol : Id) : Build Unit := do
  let s ← symbolAt symbol
  let words ← wordsAt s.keywords
  if !words.contains "state" then store s.keywords (.keywords (words ++ ["state"]))

def isDerivative : Element → Bool
  | .expression (.text op) _ => op == "der"
  | _ => false

/-- Visits a class, counting the derivatives around each place, and marks the
symbols whose references stand inside a derivative. -/
def stateVisitor (cls : Id) : Visitor Nat where
  enter id := do
    if isDerivative (← element id) then modify (· + 1)
  exit id := do
    match ← element id with
    | .reference r =>
      if 0 < (← get) then
        if !r.child.isEmpty then throw (.assertion "")
        match (← classAt cls).symbols.get? r.name with
        | some s => markState s
        | none => pure ()
    | e => if isDerivative e then modify (· - 1)

def markStates (cls : Id) : Build Unit := do
  discard ((stateVisitor cls).run cls 0)

/-- The names of a dotted text. -/
def splitPath (name : String) : List String := (name.toList.splitOn '.').map String.ofList

/-- What follows on the expansion of connections: the values of declarations become
equations, and the flat class is put into a tree of its own, behind its functions. -/
def complete (orig flat : Id) : Build Id := do
  addValueEquations flat
  (← classAt flat).functions.values.forM addValueStatements
  markStates flat
  let functions : Table (Option String) Id :=
    ⟨(← classAt flat).functions.entries.map fun e => (some e.1, e.2)⟩
  modifyClass flat fun c => { c with functions := {} }
  let classes := functions.insert (← classAt orig).name flat
  freshClass { role := .tree, classes }

/-- A tree that holds the flat model of a class and, before it, the functions
it calls. -/
def flatten (root : Id) (path : List String) : Build Id := do
  let orig ← findOriginal root path
  let flat ← flattenClass orig
  expandConnections flat
  complete orig flat

end Modelica.Build
