/-
Looking classes and constants up by dotted names.

A name is looked up in a class and, if it cannot be followed to its end from
there, in the class around it, and so on outwards. The elementary types are
not classes: a look-up that begins with one of them either gives a fresh
stand-in for the type or says so by the fault `elementaryClass`.
-/
import Modelica.Graph.Copy

namespace Modelica

/-- Names with a meaning of their own: the elementary types, and two library
roots that are taken for real numbers. -/
def elementaryNames : List String := ["Real", "Integer", "String", "Boolean", "Modelica", "SI"]

/-- The category of classes that stand for an elementary type. -/
def builtinCategory : String := "__builtin"

/-- The symbol that holds the value in a class of builtin category. -/
def builtinSymbol : String := "__value"

def dottedText (path : List String) : String := String.intercalate "." path

namespace Build

/-- Runs a step, and gives none if it fails in one of the given ways. What the
step has changed stays changed. -/
def attempt {α : Type} (expected : Fault → Bool) (b : Build α) : Build (Option α) := fun g =>
  match b g with
  | .ok a g => .ok (some a) g
  | .error f g => if expected f.root then .ok none g else .error f g

def pathTo : Nat → Id → Build (List String)
  | 0, _ => throw .tooDeep
  | n + 1, id => do
    let r ← referenceAt id
    match r.child with
    | [] => pure [r.name]
    | c :: _ => do pure (r.name :: (← pathTo n c))

def path (reference : Id) : Build (List String) := do pathTo ((← size) + 1) reference

def referenceText (reference : Id) : Build String := do pure (dottedText (← path reference))

def ancestors : Nat → Id → Build (List Id)
  | 0, _ => throw .tooDeep
  | n + 1, id => do
    match (← classAt id).parent with
    | none => pure [id]
    | some p => do pure (id :: (← ancestors n p))

def enclosing (id : Id) : Build (List Id) := do ancestors ((← size) + 1) id

def rootOf (id : Id) : Build Id := do pure ((← enclosing id).getLast?.getD id)

/-- The names from the root down to a class, the root's own left out. A class
that stands in no other has no such path. -/
def fullPath (id : Id) : Build (List (Option String)) := do
  let names ← (← enclosing id).mapM fun c => do pure (← classAt c).name
  match names.dropLast.reverse with
  | [] => throw .outOfRange
  | names => pure names

/-- The dotted path of a class; a class without a name has none. -/
def fullName (id : Id) : Build String := do
  let names ← fullPath id
  match names.mapM fun name => name with
  | some names => pure (dottedText names)
  | none => throw .wrongKind

def follow (id : Id) : List String → Build (Option Id)
  | [] => pure none
  | [name] => do pure ((← classAt id).classes.get? (some name))
  | name :: rest => do
    match (← classAt id).classes.get? (some name) with
    | some c => follow c rest
    | none => pure none

/-- The class that a name denotes in the first of the given scopes from which
all of it can be followed. -/
def searchIn (path : List String) : List Id → Build Id
  | [] => throw (.classNotFound (dottedText path))
  | scope :: outer => do
    match ← follow scope path with
    | some c => pure c
    | none => searchIn path outer

def search (scope : Id) (path : List String) : Build Id := do searchIn path (← enclosing scope)

def builtinClass (scope : Id) (name : String) : Build Id := do
  let name := if name = "Modelica" ∨ name = "SI" then "Real" else name
  let root ← rootOf scope
  let type ← freshReference name
  let value ← freshSymbol 0
  modifySymbol value fun s => { s with name := builtinSymbol, type := .node type }
  freshClass {
    name := some name, category := builtinCategory, parent := some root,
    symbols := Table.empty.insert builtinSymbol value }

def isElementary (path : List String) : Bool := (path.head?).any elementaryNames.contains

/-- The class that a name denotes inside a class, itself and not a copy. -/
def findOriginal (scope : Id) (path : List String) : Build Id := do
  if isElementary path then throw .elementaryClass else search scope path

def findClass (scope : Id) (path : List String) : Build Id := do
  copy (← findOriginal scope path)

/-- A copy of the class that a name denotes, or a stand-in for an elementary
type. -/
def findBase (scope : Id) (path : List String) : Build Id := do
  match path with
  | name :: _ => if elementaryNames.contains name then builtinClass scope name else findClass scope path
  | [] => findClass scope path

/-- The class that a name denotes, itself, or a stand-in for an elementary
type. -/
def findBaseOriginal (scope : Id) (path : List String) : Build Id := do
  match path with
  | name :: _ => if elementaryNames.contains name then builtinClass scope name else search scope path
  | [] => search scope path

inductive TypeForm where
  | reference (id : Id)
  | instanced (id : Id)
  | other

def typeForm (v : Value) : Build TypeForm := do
  match v with
  | .node id =>
    match ← element id with
    | .reference _ => pure (.reference id)
    | .classDef c => pure (if c.role = .instanced then .instanced id else .other)
    | _ => pure .other
  | _ => pure .other

/-- The class that one name denotes, with or without a look outwards. -/
def searchOne (outwards : Bool) (scope : Id) (name : String) : Build (Option Id) := do
  if outwards then attempt (fun f => f matches .classNotFound _) (search scope [name])
  else follow scope [name]

/-- The symbol a dotted name denotes: classes are followed first, then the
types of constants. -/
def findConstantFrom (outwards : Bool) (scope : Id) : List String → Build Id
  | [] => throw .constantNotFound
  | [name] => do
    match (← classAt scope).symbols.get? name with
    | some s => pure s
    | none => throw .constantNotFound
  | name :: rest => do
    let direct ← attempt (fun f => f matches .classNotFound _) (do
      match ← searchOne outwards scope name with
      | some c => findConstantFrom false c rest
      | none => throw (.classNotFound name))
    match direct with
    | some s => pure s
    | none =>
      match (← classAt scope).symbols.get? name with
      | none => throw .constantNotFound
      | some s =>
        if !(← keywordsOf s).contains "constant" then throw .constantNotFound
        match ← typeForm (← symbolAt s).type with
        | .instanced c => findConstantFrom false c rest
        | .reference r => do
          let c ← search scope (← path r)
          findConstantFrom false c rest
        | .other => throw .namedType

def findConstant (scope : Id) (path : List String) : Build Id := findConstantFrom true scope path

/-- Goes through base classes; an elementary one settles the matter. -/
def anyBase (recur : Id → Build Bool) (id : Id) : List Id → Bool → Build Bool
  | [], found => pure found
  | b :: rest, found => do
    let component ← match ← element b with
      | .base c _ _ => pure c
      | _ => throw .noPart
    let r ← attempt (fun f => f matches .elementaryClass) (do
      let c ← findClass id (← path component)
      recur c)
    match r with
    | none => pure true
    | some yes => anyBase recur id rest (found || yes)

def extendsBuiltinTo : Nat → Id → Build Bool
  | 0, _ => throw .tooDeep
  | n + 1, id => do anyBase (extendsBuiltinTo n) id (← classAt id).bases false

/-- Whether a class extends an elementary type, directly or through others. -/
def extendsBuiltin (id : Id) : Build Bool := do extendsBuiltinTo ((← size) + 1) id

end Build
end Modelica
