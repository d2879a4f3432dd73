/-
Brief texts of elements: a dotted reference, a symbol with its type, a class
with its category. An element without a brief form is written in object
notation.
-/
import Modelica.Outline.Object
import Modelica.Lookup

namespace Modelica

namespace Build

def object (id : Id) : Build String := do
  match (← outline id).object with
  | .ok s => pure s
  | .error f => throw f

/-- A value as an item of a list, where elements stand in full. -/
def listedTo : Nat → Value → Build String
  | 0, _ => throw .tooDeep
  | n + 1, v => do
    match v with
    | .node id => object id
    | .list items => do pure ("[" ++ String.intercalate ", " (← items.mapM (listedTo n)) ++ "]")
    | v => pure v.word

def listed (items : List Value) : Build String := do
  listedTo ((← size) + 1) (.list items)

def classBrief (c : ClassDef) : String :=
  c.role.kind ++ " " ++ c.name.getD "None" ++ ", Type \"" ++ c.category ++ "\""

def briefTo : Nat → Value → Build String
  | 0, _ => throw .tooDeep
  | n + 1, .node id => do
    match ← element id with
    | .primary v => do pure ("Primary value " ++ (← briefTo n v))
    | .array vs => do pure ("Array " ++ (← listed vs))
    | .slice a b c => do
      pure ("Slice start: " ++ (← briefTo n a) ++ ", stop: " ++ (← briefTo n b) ++
        ", step: " ++ (← briefTo n c))
    | .reference _ => referenceText id
    | .symbol s => do pure ("Symbol " ++ s.name ++ ", Type \"" ++ (← briefTo n s.type) ++ "\"")
    | .classDef c => pure (classBrief c)
    | _ => object id
  | _, .list items => listed items
  | _, v => pure v.word

def brief (id : Id) : Build String := do briefTo ((← size) + 2) (.node id)

/-- The brief texts of literals, arrays, slices, references and symbols on the
way through an element. -/
def briefs (id : Id) : Build (List String) := do
  let visitor : Visitor (Array String) := {
    enter := fun id => do
      match ← element id with
      | .primary _ | .array _ | .slice .. | .reference _ | .symbol _ =>
        let t ← brief id
        modify (·.push t)
      | _ => pure () }
  pure (← visitor.run id #[]).toList

end Build
end Modelica
