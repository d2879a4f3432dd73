/-
Outlines as plain data, and in object notation.

The kinds of elements are left out, but for the outermost one. A table with a
nameless entry beside named ones has no order in object notation, and cannot
be written; a nameless entry alone is called null.
-/
import Modelica.Outline
import Modelica.Data

namespace Modelica.Outline

def keyOf (alone : Bool) : Option String → Except Fault String
  | some k => pure k
  | none => if alone then pure "null" else throw .wrongKind

mutual

def toData : Outline → Except Fault Data
  | .null => pure .null
  | .bool b => pure (.flag b)
  | .int i => pure (.whole i)
  | .real x => pure (.number x)
  | .text s => pure (.text s)
  | .list items => do pure (.list (← itemsData items))
  | .table entries => do pure (.group (← entriesData (entries.length = 1) entries))
  | .node _ fields => do pure (.group (← fieldsData fields))

def itemsData : List Outline → Except Fault (List Data)
  | [] => pure []
  | o :: rest => do
    let d ← toData o
    pure (d :: (← itemsData rest))

def entriesData (alone : Bool) : List (Option String × Outline) → Except Fault (List (String × Data))
  | [] => pure []
  | (k, o) :: rest => do
    let d ← toData o
    let k ← keyOf alone k
    pure ((k, d) :: (← entriesData alone rest))

def fieldsData : List (String × Outline) → Except Fault (List (String × Data))
  | [] => pure []
  | (k, o) :: rest => do
    let d ← toData o
    pure ((k, d) :: (← fieldsData rest))

end

/-- An outline in object notation. The outermost element also says of what
kind it is. -/
def object (o : Outline) : Except Fault String := do
  match o with
  | .node kind fields => do
    let members ← fieldsData fields
    pure ((Data.group (members ++ [("_type", .text kind)])).object 2)
  | o => do pure ((← toData o).object 2)

end Modelica.Outline
