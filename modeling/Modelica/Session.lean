/-
Work on a folder that reports to its user.

What was printed before a fault stays printed, and what was written stays
written.
-/
import Modelica.Folder

namespace Modelica

structure Session where
  folder : Folder := {}
  out : Array String := #[]
  err : Array String := #[]
deriving Inhabited

abbrev Work := EStateM Fault Session

namespace Work

def say (line : String) : Work Unit := modify fun s => { s with out := s.out.push line }

def sayIf (loud : Bool) (line : String) : Work Unit := if loud then say line else pure ()

def complain (line : String) : Work Unit := modify fun s => { s with err := s.err.push line }

def ofExcept {α : Type} : Except Fault α → Work α
  | .ok a => pure a
  | .error f => throw f

def folder : Work Folder := do return (← get).folder

def textAt (path : String) : Work String := do ofExcept ((← folder).read path)

def textAt? (path : String) : Work (Option String) := do return ((← folder).read path).toOption

def change (f : Folder → Except Fault Folder) : Work Unit := do
  let new ← ofExcept (f (← folder))
  modify fun s => { s with folder := new }

def putText (path text : String) : Work Unit := change (·.write path text)

def addText (path text : String) : Work Unit := change (·.append path text)

def removeText (path : String) : Work Unit := change (·.remove path)

/-- Goes on with `next` where a source of versions does not apply. -/
def orElseIfNotApplicable {α : Type} (first : Work α) (next : Work α) : Work α :=
  tryCatch first fun
    | .notApplicable _ => next
    | f => throw f

end Work
end Modelica
