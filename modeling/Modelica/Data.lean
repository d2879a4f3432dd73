/-
Plain data: null, truth values, numbers, texts, lists and groups of named
members.

`Data.object` writes data in object notation, one item on a line, the members
of groups sorted by name. `Data.literal` writes it on one line, the members in
their own order.
-/
import Modelica.Decimal.Layout
import Modelica.Text.Quoted

namespace Modelica

inductive Data where
  | null
  | flag (b : Bool)
  | whole (i : Int)
  | number (x : Binary64)
  | text (s : String)
  | list (items : List Data)
  | group (members : List (String × Data))
deriving Repr, Inhabited, BEq

namespace Data

def bracketed (width : Nat) (left right : String) (depth : Nat) (items : List String) : String :=
  let margin (d : Nat) : String := String.ofList (List.replicate (width * d) ' ')
  if items.isEmpty then left ++ right
  else
    left ++ "\n" ++ String.intercalate ",\n" (items.map (margin (depth + 1) ++ ·)) ++ "\n" ++
      margin depth ++ right

def sortMembers (members : List (String × String)) : List (String × String) :=
  members.mergeSort fun a b => decide (a.1 ≤ b.1)

mutual

def objectAt (width depth : Nat) : Data → String
  | .null => "null"
  | .flag b => if b then "true" else "false"
  | .whole i => toString i
  | .number x => Decimal.Layout.object.write Decimal.shortest x
  | .text s => Text.Quoted.object s
  | .list items => bracketed width "[" "]" depth (objectItems width (depth + 1) items)
  | .group members =>
    let sorted := sortMembers (objectMembers width (depth + 1) members)
    bracketed width "\x7b" "\x7d" depth (sorted.map fun m => Text.Quoted.object m.1 ++ ": " ++ m.2)

def objectItems (width depth : Nat) : List Data → List String
  | [] => []
  | d :: rest => objectAt width depth d :: objectItems width depth rest

def objectMembers (width depth : Nat) : List (String × Data) → List (String × String)
  | [] => []
  | (k, d) :: rest => (k, objectAt width depth d) :: objectMembers width depth rest

end

def object (width : Nat) (d : Data) : String := d.objectAt width 0

mutual

def literal : Data → String
  | .null => "None"
  | .flag b => if b then "True" else "False"
  | .whole i => toString i
  | .number x => x.text
  | .text s => Text.Quoted.literal s
  | .list items => "[" ++ String.intercalate ", " (literalItems items) ++ "]"
  | .group members => "\x7b" ++ String.intercalate ", " (literalMembers members) ++ "\x7d"

def literalItems : List Data → List String
  | [] => []
  | d :: rest => literal d :: literalItems rest

def literalMembers : List (String × Data) → List String
  | [] => []
  | (k, d) :: rest => (Text.Quoted.literal k ++ ": " ++ literal d) :: literalMembers rest

end

/-- Data as part of a message, where a text stands without quotes. -/
def message : Data → String
  | .text s => s
  | d => d.literal

def member? (name : String) : Data → Option Data
  | .group members => members.lookup name
  | _ => none

def isSet : Data → Bool
  | .null => false
  | .flag b => b
  | .whole i => i != 0
  | .number x => !x.isZero
  | .text s => !s.isEmpty
  | .list items => !items.isEmpty
  | .group members => !members.isEmpty

def ofText? : Option String → Data
  | some s => .text s
  | none => .null

def ofFlag? : Option Bool → Data
  | some b => .flag b
  | none => .null

end Data
end Modelica
