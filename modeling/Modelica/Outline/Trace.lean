/-
The course of a visit: which elements are entered and left, in order.
-/
import Modelica.Outline

namespace Modelica

inductive Visit where
  | enter (kind : String) (name : Option String)
  | leave (kind : String)
deriving Repr, DecidableEq, Inhabited

namespace Visit

def kind : Visit → String
  | .enter k _ => k
  | .leave k => k

def text : Visit → String
  | .enter k none => ">" ++ k
  | .enter k (some name) => ">" ++ k ++ " " ++ name
  | .leave k => "<" ++ k

def kinds (visits : List Visit) : List String :=
  (visits.map kind).eraseDups.mergeSort fun a b => decide (a ≤ b)

end Visit

def Build.trace (id : Id) : Build (List Visit) := do
  let visitor : Visitor (Array Visit) := {
    enter := fun id => do
      let e ← Build.element id
      modify (·.push (.enter e.kind e.name?))
    exit := fun id => do
      let e ← Build.element id
      modify (·.push (.leave e.kind)) }
  pure (← visitor.run id #[]).toList

end Modelica
