/-
Connections between connectors, turned into equations.

Variables of connectors that are joined become equal; flow variables of all
connectors that are joined, directly or through others, sum up to zero, with
a minus sign for connectors of the class itself among connectors of its
components. Flow variables that are joined to nothing are zero.
-/
import Modelica.Flat

namespace Modelica

/-- What identifies a flow variable in a set of connections: its name, its
subscripts, and whether it belongs to a component of the class. -/
structure FlowKey where
  name : String
  subscripts : List Value
  inner : Bool
deriving DecidableEq

/-- A group of joined flow variables: each with its reference, in the order
of joining. -/
abbrev FlowGroup := Table FlowKey Id

/-- The groups of joined flow variables, in the order in which their first
variable was joined to anything. -/
structure Flows where
  index : Table FlowKey Nat := {}
  groups : List FlowGroup := []

namespace Flows

/-- The group of a variable; one that was not joined to anything has none. -/
def groupOf (fs : Flows) (k : FlowKey) : FlowGroup :=
  ((fs.index.get? k).bind fun i => fs.groups[i]?).getD {}

/-- The group that joining two variables makes: that of the left one goes on,
followed by that of the right one. -/
def merged (fs : Flows) (left : FlowKey) (leftRef : Id) (right : FlowKey) (rightRef : Id) : FlowGroup :=
  (((fs.groupOf left).insertAll (fs.groupOf right)).insert left leftRef).insert right rightRef

/-- The number of the group of a variable, or the next free one. -/
def number (fs : Flows) (k : FlowKey) : Nat := (fs.index.get? k).getD fs.groups.length

def join (fs : Flows) (left : FlowKey) (leftRef : Id) (right : FlowKey) (rightRef : Id) : Flows :=
  let group := fs.merged left leftRef right rightRef
  let n := fs.number left
  { index := group.keys.foldl (fun index k => index.insert k n) fs.index
    groups := if n < fs.groups.length then fs.groups.set n group else fs.groups ++ [group] }

/-- The groups, each once, in the order of their first variables. -/
def ordered (fs : Flows) : List FlowGroup :=
  fs.index.values.eraseDups.filterMap fun i => fs.groups[i]?

end Flows

namespace Build

def subscriptKey : Value → Value
  | .bool b => .int (if b then 1 else 0)
  | .real (.finite s m e) =>
    if 0 ≤ e then .int ((if s then -1 else 1) * (m * Nat.pow 2 e.toNat : Nat))
    else if m % Nat.pow 2 (-e).toNat = 0 then .int ((if s then -1 else 1) * (m / Nat.pow 2 (-e).toNat : Nat))
    else .real (.finite s m e)
  | v => v

def literalSubscripts (indices : List (List Value)) : Build (List Value) := do
  let found ← indices.flatten.mapM fun v => match v with
    | .null => pure []
    | .node id => do
      match ← element id with
      | .primary v => pure [subscriptKey v]
      | _ => throw .noPart
    | _ => throw .noPart
  pure found.flatten

/-- The flattened class of a connector, or the class of another symbol. -/
def connectorClass (flat symbol : Id) : Build Id := do
  let s ← symbolAt symbol
  match s.connector with
  | some c => pure c
  | none =>
    match ← typeForm s.type with
    | .reference r => do findClass flat (← path r)
    | _ => throw .noPart

def typeName (v : Value) : Build String := do
  match ← typeForm v with
  | .reference r => do pure (← referenceAt r).name
  | _ => throw .noPart

def typeText (v : Value) : Build String := do
  match v with
  | .text s => pure s
  | _ =>
    match ← typeForm v with
    | .reference r => referenceText r
    | _ => throw .noPart

def bothReal (left right : Value) : Build Bool := do
  if (← typeName left) = "Real" then pure ((← typeName right) == "Real") else pure false

def wordsText (words : List String) : String :=
  "[" ++ String.intercalate ", " (words.map fun w => "'" ++ w ++ "'") ++ "]"

structure Connection where
  left : Id
  right : Id
  leftInner : Option Bool
  rightInner : Option Bool

/-- Two connected symbols that are no connectors are simply equal. -/
def connectElementary (flat : Id) (k : Connection) (left right : Id) : Build Unit := do
  let l := (← symbolAt left).type
  let r := (← symbolAt right).type
  if !(← bothReal l r) then
    warn ("Connector class " ++ (← typeText l) ++ " or " ++ (← typeText r) ++
      " not defined.  Assuming it to be an elementary type.")
  let e ← alloc (.equation (.node k.left) (.node k.right) "")
  modifyClass flat fun c => { c with equations := c.equations ++ [e] }

def memberReference (connector : Id) (name : String) (member : Symbol) : Build Id := do
  let r ← referenceAt connector
  match ← typeForm member.type with
  | .reference t => do
    alloc (.reference { name, indices := r.indices ++ (← referenceAt t).indices, child := [] })
  | _ => throw .noPart

def innerFlag : Option Bool → Build Bool
  | some b => pure b
  | none => throw .noPart

/-- What connecting has found so far. -/
structure Connecting where
  flows : Flows := {}
  free : Table String Id := {}

def connectVariable (flat : Id) (k : Connection) (st : Connecting) (symbol : Id) : Build Connecting := do
  let member ← symbolAt symbol
  let leftName := (← referenceAt k.left).name ++ "." ++ member.name
  let rightName := (← referenceAt k.right).name ++ "." ++ member.name
  let left ← memberReference k.left leftName member
  let right ← memberReference k.right rightName member
  let words ← wordsAt member.keywords
  match words with
  | [] => equate left right
  | first :: _ =>
    if first = "input" ∨ first = "output" then equate left right
    else if words = ["flow"] then
      let leftSubscripts ← literalSubscripts (← referenceAt left).indices
      let leftKey := ⟨leftName, leftSubscripts, ← innerFlag k.leftInner⟩
      let rightSubscripts ← literalSubscripts (← referenceAt right).indices
      let rightKey := ⟨rightName, rightSubscripts, ← innerFlag k.rightInner⟩
      pure {
        flows := st.flows.join leftKey left rightKey right
        free := (st.free.erase leftName).erase rightName }
    else if first = "constant" ∨ first = "parameter" then pure st
    else throw (.unsupportedKeywords (wordsText words))
where
  equate (left right : Id) : Build Connecting := do
    let e ← alloc (.equation (.node left) (.node right) "")
    modifyClass flat fun c => { c with equations := c.equations ++ [e] }
    pure st

def symbolNamed (flat reference : Id) : Build Id := do
  match (← classAt flat).symbols.get? (← referenceAt reference).name with
  | some s => pure s
  | none => throw .noEntry

/-- Both sides of a connection have to be symbols of the flat class. -/
def checkResolved (k : Connection) : Build Unit := do
  for side in [k.left, k.right] do
    if !(← referenceAt side).child.isEmpty then
      throw (.unresolvedConnector (← referenceText side) (← referenceText k.left) (← referenceText k.right))

/-- Turns one connection into equations and sets of flow variables. -/
def connect (flat : Id) (k : Connection) (st : Connecting) : Build Connecting := do
  checkResolved k
  let left ← symbolNamed flat k.left
  let right ← symbolNamed flat k.right
  let classes ← attempt (fun f => f matches .elementaryClass) (do
    let l ← connectorClass flat left
    discard (connectorClass flat right)
    pure l)
  match classes with
  | none =>
    connectElementary flat k left right
    pure st
  | some l =>
    let flatLeft ← flattenClass l
    (← classAt flatLeft).symbols.values.foldlM (connectVariable flat k) st

def sumOf : List Id → Build (Option Id)
  | [] => pure none
  | [e] => pure (some e)
  | e :: rest => do
    match ← sumOf rest with
    | some s => do pure (some (← alloc (.expression (.text "+") [.node e, .node s])))
    | none => pure (some e)

/-- A connector of the class itself counts with a minus sign, unless there
are no others. -/
def signed (group : FlowGroup) : Build (List Id) := do
  if group.keys.all fun k => !k.inner then pure group.values
  else group.entries.mapM fun e => do
    if e.1.inner then pure e.2 else alloc (.expression (.text "-") [.node e.2])

def equateToZero (flat : Id) (left : Id) : Build Unit := do
  let nought ← primary (.int 0)
  let e ← alloc (.equation (.node left) (.node nought) "")
  modifyClass flat fun c => { c with equations := c.equations ++ [e] }

def balance (flat : Id) (group : FlowGroup) : Build Unit := do
  match ← sumOf (← signed group) with
  | some s => equateToZero flat s
  | none => pure ()

def addFlow (t : Table String Id) (s : Id) : Build (Table String Id) := do
  if (← keywordsOf s).contains "flow" then pure (t.insert (← symbolAt s).name s) else pure t

def flowSymbols (flat : Id) : Build (Table String Id) := do
  (← classAt flat).symbols.values.foldlM addFlow {}

/-- An equation that is no connection stays. -/
def expandEquation (flat : Id) (st : Connecting) (e : Id) : Build Connecting := do
  match ← element e with
  | .connect l r _ li ri => connect flat ⟨l, r, li, ri⟩ st
  | _ =>
    modifyClass flat fun c => { c with equations := c.equations ++ [e] }
    pure st

/-- The pass over the equations of a flat class. -/
def joining (flat : Id) : Build Connecting := do
  let free ← flowSymbols flat
  let written := (← classAt flat).equations
  modifyClass flat fun c => { c with equations := [] }
  written.foldlM (expandEquation flat) { free : Connecting }

def dropConnectors (flat : Id) : Build Unit := do
  let kept ← (← classAt flat).symbols.entries.filterM fun e => do
    pure (← symbolAt e.2).connector.isNone
  modifyClass flat fun c => { c with symbols := ⟨kept⟩ }

/-- What follows on that pass. -/
def balancing (flat : Id) (st : Connecting) : Build Unit := do
  st.flows.ordered.forM (balance flat)
  st.free.values.forM (equateToZero flat)
  dropConnectors flat

/-- Replaces the connect clauses of a flat class by equations and removes the
connectors themselves. -/
def expandConnections (flat : Id) : Build Unit := do balancing flat (← joining flat)

end Build
end Modelica
