/-
Editing references and classes.

A class that is added to another one belongs to it from then on; a class that
is removed belongs to none. Equations are told apart by their address, so that
of two equal equations the one that is meant is removed.
-/
import Modelica.Graph.Copy

namespace Modelica.Build

/-! ### References -/

def referenceOf : List String → Build Id
  | [] => throw .outOfRange
  | [name] => freshReference name
  | name :: rest => do
    let child ← referenceOf rest
    alloc (.reference { name, child := [child] })

def lastPartTo : Nat → Id → Build Id
  | 0, _ => throw .tooDeep
  | n + 1, id => do
    match (← referenceAt id).child with
    | [] => pure id
    | c :: _ => lastPartTo n c

def lastPart (id : Id) : Build Id := do lastPartTo ((← size) + 1) id

def appendReference (id other : Id) : Build Unit := do
  let end_ ← lastPart id
  let other ← copy other
  modifyReference end_ fun r => { r with child := [other] }

/-- One reference with the parts of all given ones, which stay as they are. -/
def concatenate : List Id → Build Id
  | [] => throw .outOfRange
  | first :: rest => do
    let r ← copy first
    rest.forM (appendReference r)
    pure r

/-! ### Classes -/

def addClass (cls new : Id) : Build Unit := do
  let name := (← classAt new).name
  modifyClass cls fun c => { c with classes := c.classes.insert name new }
  modifyClass new fun c => { c with parent := some cls }

def removeClass (cls removed : Id) : Build Unit := do
  let name := (← classAt removed).name
  if !((← classAt cls).classes.contains name) then throw .noEntry
  modifyClass cls fun c => { c with classes := c.classes.erase name }
  modifyClass removed fun c => { c with parent := none }

/-- Gives a class another name; it no longer counts as the class it was
copied from. -/
def renameClass (cls : Id) (name : String) : Build Unit :=
  modifyClass cls fun c => { c with name := some name, declaration := cls }

def addSymbol (cls symbol : Id) : Build Unit := do
  let name := (← symbolAt symbol).name
  modifyClass cls fun c => { c with symbols := c.symbols.insert name symbol }

def removeSymbol (cls symbol : Id) : Build Unit := do
  let name := (← symbolAt symbol).name
  if !((← classAt cls).symbols.contains name) then throw .noEntry
  modifyClass cls fun c => { c with symbols := c.symbols.erase name }

def addEquation (cls equation : Id) : Build Unit :=
  modifyClass cls fun c => { c with equations := c.equations ++ [equation] }

def removeEquation (cls equation : Id) : Build Unit := do
  if !((← classAt cls).equations.contains equation) then throw .badValue
  modifyClass cls fun c => { c with equations := c.equations.erase equation }

end Modelica.Build
