/-
Alias relations between variables up to sign.

A signed name is a variable, or a variable behind a minus. What holds of two
names holds of the two with their signs changed: when `a` becomes an alias of
`b`, the negative of `a` becomes one of the negative of `b`. Each group of
aliases and its negative are represented by one variable, the one that
represented the first argument of the last `add`.
-/
import Modelica.Table
import Modelica.Fault

namespace Modelica

inductive Sign where
  | plus | minus
deriving Repr, DecidableEq, Inhabited

namespace Sign

def flip : Sign → Sign
  | .plus => .minus
  | .minus => .plus

def toInt : Sign → Int
  | .plus => 1
  | .minus => -1

end Sign

def toggleSign (name : String) : Except Fault String :=
  match name.toList with
  | [] => throw .outOfRange
  | '-' :: rest => pure (String.ofList rest)
  | _ => pure ("-" ++ name)

def splitSign (name : String) : Except Fault (String × Sign) :=
  match name.toList with
  | [] => throw .outOfRange
  | '-' :: rest => pure (String.ofList rest, .minus)
  | _ => pure (name, .plus)

/-- Groups of aliases. Names that are in no group are their own only alias. -/
structure AliasRelation where
  groups : Table String (List String) := {}
  /-- The representative of each grouped name, and the sign between them. -/
  leaders : Table String (String × Sign) := {}
  canonical : List String := []
deriving Repr, Inhabited, DecidableEq

namespace AliasRelation

/-- The elements of both lists, those of the first one in front. -/
def union (xs ys : List String) : List String := xs ++ ys.filter fun y => !xs.contains y

def aliases (r : AliasRelation) (name : String) : List String := (r.groups.get? name).getD [name]

def leader (r : AliasRelation) (name : String) : Except Fault (String × Sign) :=
  match r.leaders.get? name with
  | some l => pure l
  | none => splitSign name

def enterGroups {α : Type} (group negatives : α) : List String → Table String α → Except Fault (Table String α)
  | [], t => pure t
  | v :: rest, t => do
    let minus ← toggleSign v
    enterGroups group negatives rest ((t.insert minus negatives).insert v group)

def enterLeaders (variable_ : String) (sign : Sign) :
    List String → Table String (String × Sign) → Except Fault (Table String (String × Sign))
  | [], t => pure t
  | v :: rest, t => do
    let minus ← toggleSign v
    enterLeaders variable_ sign rest ((t.insert v (variable_, sign)).insert minus (variable_, sign.flip))

def add (r : AliasRelation) (a b : String) : Except Fault AliasRelation := do
  if (r.aliases a).contains b then
    if (r.aliases b).contains a then pure r else throw (.assertion "")
  else
    let minusA ← toggleSign a
    let minusB ← toggleSign b
    let group := union (r.aliases a) (r.aliases b)
    let negatives := union (r.aliases minusA) (r.aliases minusB)
    let groups ← enterGroups group negatives group r.groups
    let (leaderA, signA) ← r.leader a
    let (leaderB, _) ← r.leader b
    let leaders ← enterLeaders leaderA signA group r.leaders
    pure { groups, leaders, canonical := (union r.canonical [leaderA]).filter (· ≠ leaderB) }

/-- Dissolves the group of a representative. Other names are in no group of
their own, and nothing happens. -/
def remove (r : AliasRelation) (name : String) : Except Fault AliasRelation := do
  if !r.canonical.contains name then pure r
  else
    let minus ← toggleSign name
    match r.groups.get? name, r.groups.get? minus with
    | some group, some negatives =>
      let gone := union group negatives
      pure {
        groups := gone.foldl Table.erase r.groups
        leaders := gone.foldl Table.erase r.leaders
        canonical := r.canonical.filter (· ≠ name) }
    | _, _ => throw .noEntry

/-- Each representative with its other aliases. -/
def classes (r : AliasRelation) : List (String × List String) :=
  r.canonical.map fun c => (c, (r.aliases c).filter (· ≠ c))

end AliasRelation
end Modelica
