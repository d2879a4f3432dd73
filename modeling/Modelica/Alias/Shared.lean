/-
Alias relations whose groups are shared sets.

The names of a group are kept in one set, and every name of the group has the
number of that set: when the set grows, it grows for all of them. A step that
fails keeps what it has written so far. `view` is the relation that the sets
make up; every question is put to the view.
-/
import Modelica.Alias

namespace Modelica

/-- Sets of names, by number. -/
structure NameSets where
  sets : Array (List String) := #[]
deriving Repr, Inhabited

abbrev Sharing := EStateM Fault NameSets

namespace NameSets

abbrev size (st : NameSets) : Nat := st.sets.size

def names (st : NameSets) (s : Nat) : List String := st.sets[s]?.getD []

def put (st : NameSets) (s : Nat) (names : List String) : NameSets := ⟨st.sets.setIfInBounds s names⟩

def push (st : NameSets) (names : List String) : NameSets := ⟨st.sets.push names⟩

def make (names : List String) : Sharing Nat := fun st => .ok st.size (st.push names)

def write (s : Nat) (names : List String) : Sharing Unit := fun st => .ok () (st.put s names)

def absorb (s other : Nat) : Sharing Unit := fun st =>
  .ok () (st.put s (AliasRelation.union (st.names s) (st.names other)))

end NameSets

structure SharedRelation where
  groups : Table String Nat := {}
  leaders : Table String (String × Sign) := {}
  canonical : Nat
deriving Repr, Inhabited, DecidableEq

namespace SharedRelation

open NameSets AliasRelation

def view (r : SharedRelation) (st : NameSets) : AliasRelation :=
  { groups := r.groups.map st.names, leaders := r.leaders, canonical := st.names r.canonical }

def start : Sharing SharedRelation := do pure { canonical := ← make [] }

/-- The set of a name. A name that is in no group has a new one. -/
def group (r : SharedRelation) (name : String) : Sharing Nat :=
  match r.groups.get? name with
  | some s => pure s
  | none => make [name]

/-- The set of the first name takes in that of the second, and the set of its
negative that of the negative of the second. Gives the numbers of the two. -/
def join (r : SharedRelation) (a b : String) : Sharing (Nat × Nat) := do
  let group ← r.group a
  let negatives ← r.group (← ofExcept (toggleSign a))
  absorb group (← r.group b)
  absorb negatives (← r.group (← ofExcept (toggleSign b)))
  pure (group, negatives)

def add (r : SharedRelation) (a b : String) : Sharing SharedRelation := do
  let before := r.view (← get)
  if (before.aliases a).contains b then
    if (before.aliases b).contains a then pure r else throw (.assertion "")
  else
    let (group, negatives) ← r.join a b
    let names := (← get).names group
    let groups ← ofExcept (enterGroups group negatives names r.groups)
    let (leaderA, signA) ← ofExcept (before.leader a)
    let (leaderB, _) ← ofExcept (before.leader b)
    write r.canonical ((union before.canonical [leaderA]).filter (· ≠ leaderB))
    let leaders ← ofExcept (enterLeaders leaderA signA names r.leaders)
    pure { r with groups, leaders }

def remove (r : SharedRelation) (name : String) : Sharing SharedRelation := do
  let before := r.view (← get)
  if !before.canonical.contains name then pure r
  else
    let minus ← ofExcept (toggleSign name)
    match before.groups.get? name, before.groups.get? minus with
    | some group, some negatives =>
      let gone := union group negatives
      write r.canonical (before.canonical.filter (· ≠ name))
      pure { r with groups := gone.foldl Table.erase r.groups, leaders := gone.foldl Table.erase r.leaders }
    | _, _ => throw .noEntry

/-- A relation with the same view that shares no set with this one: every name
has a set of its own. -/
def copy (r : SharedRelation) : Sharing SharedRelation := do
  let before := r.view (← get)
  let canonical ← make before.canonical
  let groups ← before.groups.entries.mapM fun e => do pure (e.1, ← make e.2)
  pure { groups := ⟨groups⟩, leaders := before.leaders, canonical }

end SharedRelation
end Modelica
