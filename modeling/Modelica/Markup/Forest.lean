/-
Markup under construction.

Elements are made one by one and put into each other. An element stands in
one place at most: putting it somewhere else takes it away from where it was.
-/
import Modelica.Markup

namespace Modelica.Markup

structure Node where
  tag : String
  attributes : List (String × String) := []
  children : List Nat := []
  parent : Option Nat := none
deriving Repr, Inhabited

/-- Elements by number, each made after the ones that were put into it. -/
structure Forest where
  nodes : Array Node := #[]
deriving Repr, Inhabited

namespace Forest

def update (f : Forest) (n : Nat) (g : Node → Node) : Forest :=
  ⟨f.nodes.modify n g⟩

def detach (f : Forest) (child : Nat) : Forest :=
  match f.nodes[child]? with
  | some ⟨_, _, _, some p⟩ => f.update p fun node => { node with children := node.children.erase child }
  | _ => f

def attach (f : Forest) (parent child : Nat) : Forest :=
  let f := f.detach child
  let f := f.update child fun node => { node with parent := some parent }
  f.update parent fun node => { node with children := node.children ++ [child] }

def make (f : Forest) (tag : String) (attributes : List (String × String)) (children : List Nat) :
    Forest × Nat :=
  let id := f.nodes.size
  let f : Forest := ⟨f.nodes.push { tag, attributes }⟩
  (children.foldl (fun f c => f.attach id c) f, id)

/-- The element with all that stands in it. The first argument bounds the
depth. -/
def treeTo (f : Forest) : Nat → Nat → Markup
  | 0, _ => .element "" [] []
  | n + 1, id =>
    match f.nodes[id]? with
    | some node => .element node.tag node.attributes (node.children.map (f.treeTo n))
    | none => .element "" [] []

def tree (f : Forest) (id : Nat) : Markup := f.treeTo (f.nodes.size + 1) id

end Forest
end Modelica.Markup
