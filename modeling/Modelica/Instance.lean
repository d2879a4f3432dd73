/-
Instances: classes with their base classes merged in and the types of their
components expanded, modifications passed down to where they apply.

`inherit` merges base classes, depth first and in order, the class's own
content last. `instantiate` does that, lets redeclarations take effect, hands
the remaining modifications to nested classes and symbols, and instantiates
these in turn. A modification that names neither is a fault
(`targetNotFound`).
-/
import Modelica.Lookup

namespace Modelica.Build

def appendArguments (modification : Id) (args : List Id) : Build Unit := do
  setArguments modification ((← argumentsAt modification) ++ args)

def baseAt (id : Id) : Build (Id × Id × Visibility) := do
  match ← element id with
  | .base c m v => pure (c, m, v)
  | _ => throw .noPart

def environmentOf (cls : Id) : Build Id := do
  match (← classAt cls).environment with
  | some e => pure e
  | none => throw .noPart

/-! ### Base classes -/

/-- Adds the content of `other` to a class. -/
def absorb (cls other : Id) : Build Unit := do
  let k ← classAt other
  modifyClass cls (·.absorb k)
  match (← classAt cls).remarks, k.remarks with
  | some mine, some theirs => appendArguments mine (← argumentsAt theirs)
  | _, _ => pure ()

def limitVisibility (cls : Id) (limit : Visibility) : Build Unit := do
  for s in (← classAt cls).symbols.values do
    modifySymbol s fun sym =>
      if sym.visibility.rank > limit.rank then { sym with visibility := limit } else sym

/-- Merges the class `found` into `cls`. -/
def mergeBase (recur : Id → Option Id → Option Id → Build Id) (cls found : Id) (modification parent : Option Id)
    (visibility : Visibility) : Build Unit := do
  let merged ← recur found modification parent
  absorb cls merged
  appendArguments (← environmentOf cls) (← argumentsAt (← environmentOf merged))
  limitVisibility cls visibility

/-- Merges one base class of `orig` into `cls`. -/
def inheritFrom (recur : Id → Option Id → Option Id → Build Id) (orig cls base : Id) : Build Unit := do
  let (component, modification, visibility) ← baseAt base
  let found ← findBase orig (← path component)
  let name ← fullName found
  if name = (← fullName orig) then throw (.extendsItself name)
  let k ← classAt found
  if k.category = builtinCategory then
    if (← classAt orig).bases.length > 1 then throw .mixedBuiltin
    modifyClass cls fun c => { c with category := builtinCategory }
  mergeBase recur cls found (some modification) k.parent visibility

def renewEnvironment (cls : Id) : Build Unit := do
  let fresh ← freshModification
  modifyClass cls fun c => { c with environment := some fresh }

/-- In a class of builtin category the modifications belong to the symbol
that holds the value. -/
def shiftToBuiltin (cls : Id) : Build Unit := do
  let c ← classAt cls
  if c.category = builtinCategory then
    match c.symbols.get? builtinSymbol with
    | none => throw .noEntry
    | some s =>
      let env ← environmentOf cls
      match (← symbolAt s).modification with
      | some m => appendArguments m (← argumentsAt env)
      | none => modifySymbol s fun sym => { sym with modification := some env }
      renewEnvironment cls

def inheritTo : Nat → Id → Option Id → Option Id → Build Id
  | 0, _, _, _ => throw .tooDeep
  | n + 1, orig, modification, parent => do
    let c ← classAt orig
    let remarks ← freshModification
    let fresh ← freshModification
    let environment := if c.role = .instanced then c.environment else some fresh
    let cls ← alloc (.classDef {
      role := .instanced, name := c.name, category := c.category, remarks := some remarks, parent,
      environment, declaration := c.declaration })
    for base in c.bases do
      inheritFrom (inheritTo n) orig cls base
    absorb cls orig
    match modification with
    | some m => appendArguments (← environmentOf cls) (← argumentsAt m)
    | none => pure ()
    shiftToBuiltin cls
    pure cls

/-- The class with its base classes merged in, as an instance that stands in
`parent` and has the arguments of `modification` to pass on. -/
def inherit (orig : Id) (modification parent : Option Id) : Build Id := do
  inheritTo ((← size) + 1) orig modification parent

/-! ### Arguments -/

/-- The parts of an argument: its value, its scope, whether it redeclares. -/
def argumentAt (id : Id) : Build (Id × Option Id × Bool) := do
  match ← element id with
  | .argument v scope redeclare _ => pure (v, scope, redeclare)
  | _ => throw .noPart

/-- The component and the modifications of an argument that modifies an
element. -/
def elementModification? (arg : Id) : Build (Option (Id × List Value)) := do
  let (v, _, _) ← argumentAt arg
  match ← element v with
  | .elementModification c ms => pure (some (c, ms))
  | _ => pure none

/-- Whether an argument modifies the element of the given name. -/
def modifies (name : Option String) (arg : Id) : Build Bool := do
  match ← elementModification? arg with
  | some (c, _) => do pure (some (← referenceAt c).name == name)
  | none => pure false

/-- Takes the arguments for the given name out of those a class has to pass
on. -/
def takeArguments (cls : Id) (name : Option String) : Build (List Id) := do
  let args ← argumentsAt (← environmentOf cls)
  let taken ← args.filterM (modifies name)
  let rest := args.filter fun a => !taken.contains a
  setArguments (← environmentOf cls) rest
  pure taken

def nestedArguments (v : Value) : Build (List Id) := do
  match v with
  | .node id => argumentsAt id
  | _ => throw .noPart

def valueArgument (scope : Option Id) (v : Value) : Build Id := do
  let component ← freshReference "value"
  let change ← alloc (.elementModification component [v])
  alloc (.argument change scope false none)

def isModification (v : Value) : Build Bool := do
  match v with
  | .node id => do pure ((← element id) matches .modification _)
  | _ => pure false

/-- The component and the modifications of an argument on a symbol, which
must not have subscripts. -/
def plainModification (arg : Id) : Build (Id × List Value) := do
  match ← elementModification? arg with
  | none => throw .noPart
  | some (c, ms) =>
    if (← referenceAt c).indices != [[.null]] then throw .subscriptedModifier
    pure (c, ms)

/-- The arguments on the attributes of a symbol of elementary type: nested
ones, and values as settings of the attribute `value`. -/
def attributeArguments (arg : Id) : Build (List Id) := do
  let (_, scope, _) ← argumentAt arg
  let (_, ms) ← plainModification arg
  let parts ← ms.mapM fun v => do
    if ← isModification v then nestedArguments v else (do pure [← valueArgument scope v])
  pure parts.flatten

/-- Drops the first name of the component an argument modifies. -/
def descend (arg : Id) : Build Id := do
  let (v, _, _) ← argumentAt arg
  let (c, ms) ← plainModification arg
  match (← referenceAt c).child with
  | [] => throw .outOfRange
  | child :: _ =>
    store v (.elementModification child ms)
    pure arg

def giveArguments (symbol : Id) (args : List Id) : Build Unit := do
  let fresh ← alloc (.modification args)
  match (← symbolAt symbol).modification with
  | some m => appendArguments m args
  | none => modifySymbol symbol fun s => { s with modification := some fresh }

/-- Arguments without a scope are written in the given class. -/
def setScope (scope : Id) (arg : Id) : Build Unit := do
  match ← element arg with
  | .argument v none redeclare source => store arg (.argument v (some scope) redeclare source)
  | _ => pure ()

/-! ### Redeclarations -/

/-- Whether two classes have their name from one declaration. Names of one
letter are the same wherever they come from. -/
def sameName (a b : ClassDef) : Bool :=
  a.declaration == b.declaration ||
    (a.name == b.name && (a.name.elim true fun n => n.length ≤ 1))

/-- Puts another class in the place of a nested class, and instantiates the
symbols that had the old one for a type again. -/
def redeclareClass (recur : Id → Option Id → Option Id → Build Id) (cls scope : Id)
    (name : String) (component : Id) : Build Unit := do
  match (← classAt cls).classes.get? (some name) with
  | none => throw .noEntry
  | some old =>
    let new ← findClass scope (← path component)
    modifyClass cls fun c => { c with classes := c.classes.insert (some name) new }
    for s in (← classAt cls).symbols.values do
      match ← typeForm (← symbolAt s).type with
      | .instanced t =>
        if sameName (← classAt t) (← classAt old) then
          let type ← recur new (← symbolAt s).modification (← classAt new).parent
          modifySymbol s fun sym => { sym with type := .node type }
      | _ => pure ()

/-- Gives the symbols of a class the types of the redeclared ones. -/
def redeclareSymbols (cls : Id) (symbols : List Id) : Build Unit := do
  for s in symbols do
    let new ← symbolAt s
    match (← classAt cls).symbols.get? new.name with
    | none => throw .noEntry
    | some old => modifySymbol old fun sym => { sym with type := new.type }

def redeclare (recur : Id → Option Id → Option Id → Build Id) (cls arg : Id) : Build Unit := do
  let (v, scope, isRedeclaration) ← argumentAt arg
  if isRedeclaration then
    match ← element v with
    | .shortClass name _ component _ => redeclareClass recur cls (scope.getD cls) name component
    | .clause c => redeclareSymbols cls c.symbols
    | _ => throw .unknownRedeclaration

/-- Lets all redeclarations of a class take effect and forgets them. -/
def redeclareAll (recur : Id → Option Id → Option Id → Build Id) (cls : Id) : Build Unit := do
  for arg in ← argumentsAt (← environmentOf cls) do
    redeclare recur cls arg
  let env ← environmentOf cls
  let rest ← (← argumentsAt env).filterM fun a => do pure !(← argumentAt a).2.2
  setArguments env rest

/-! ### Nested classes and symbols -/

/-- Instantiates a nested class with the arguments that name it. -/
def instantiateClass (recur : Id → Option Id → Option Id → Build Id) (cls : Id)
    (name : Option String) (nested : Id) : Build Unit := do
  let modification ← freshModification
  for arg in ← takeArguments cls name do
    match ← elementModification? arg with
    | some (_, ms) =>
      for v in ms do
        appendArguments modification (← nestedArguments v)
    | none => pure ()
  let new ← recur nested (some modification) (some cls)
  modifyClass cls fun c => { c with classes := c.classes.insert name new }

def modifiedComponent (arg : Id) : Build Id := do
  let (v, _, _) ← argumentAt arg
  match ← element v with
  | .elementModification c _ => pure c
  | .shortClass _ _ c _ => pure c
  | _ => throw .noPart

def checkTargets (cls : Id) : Build Unit := do
  for arg in ← argumentsAt (← environmentOf cls) do
    let name := (← referenceAt (← modifiedComponent arg)).name
    if !(← classAt cls).symbols.contains name then
      throw (.targetNotFound name (← fullName cls))

def symbolClass (cls symbol : Id) : Build (Option Id) := do
  match ← typeForm (← symbolAt symbol).type with
  | .instanced c => pure (some c)
  | .reference r =>
    attempt (fun f => f matches .elementaryClass) (do findClass cls (← path r))
  | .other => throw .noPart

/-- Instantiates the type of a symbol. -/
def instantiateType (recur : Id → Option Id → Option Id → Build Id) (orig : Id) (name : String)
    (symbol type : Id) : Build Unit := do
  let instanceType ← tryCatch
    (do recur type (← symbolAt symbol).modification (← classAt type).parent)
    (fun f => do throw (.inComponent ((← fullName orig) ++ "." ++ name) f))
  modifySymbol symbol fun s => { s with type := .node instanceType, modification := none }

/-- Passes the arguments for a symbol on and instantiates its type. -/
def instantiateSymbol (recur : Id → Option Id → Option Id → Build Id) (orig cls : Id)
    (name : String) (symbol : Id) : Build Unit := do
  match ← symbolClass cls symbol with
  | none =>
    let args ← (← takeArguments cls (some name)).mapM attributeArguments
    giveArguments symbol args.flatten
  | some type =>
    let taken ← takeArguments cls (some name)
    let builtin ← extendsBuiltin type
    let args ← taken.mapM fun arg => do
      if builtin then attributeArguments arg else (do pure [← descend arg])
    giveArguments symbol args.flatten
    match (← symbolAt symbol).modification with
    | some m => (← argumentsAt m).forM (setScope cls)
    | none => pure ()
    instantiateType recur orig name symbol type

def instantiateTo : Nat → Id → Option Id → Option Id → Build Id
  | 0, _, _, _ => throw .tooDeep
  | n + 1, orig, modification, parent => do
    let cls ← inherit orig modification parent
    redeclareAll (instantiateTo n) cls
    for (name, nested) in (← classAt cls).classes.entries do
      instantiateClass (instantiateTo n) cls name nested
    checkTargets cls
    for (name, symbol) in (← classAt cls).symbols.entries do
      instantiateSymbol (instantiateTo n) orig cls name symbol
    pure cls

/-- The instance of a class that stands in `parent`, with the arguments of
`modification` applied to it. -/
def instantiate (orig : Id) (modification parent : Option Id) : Build Id := do
  instantiateTo ((← size) + 1) orig modification parent

end Modelica.Build
