/-
Flat classes: one class with the components of all levels under their dotted
names, and the equations and statements of all levels.

`flattenSymbols` goes through an instance level by level. On each level the
modifications written there are applied (`applyModifications`), references
get the dotted name of what they denote (`flattenReferences`), and calls of
functions the full name of the function (`scopeCalls`), which is then
flattened too. `pullConstants` enters constants that are referred to by a
path, and runs before.
-/
import Modelica.Instance

namespace Modelica

/-! ### Constants -/

/-- What is known while constants are pulled: for each class around this
place the constants found for it, and the depth of references. -/
structure ConstantSearch where
  around : List (Id × Table String Id) := []
  depth : Nat := 0

def noConstant : Fault → Bool
  | .noEntry | .classNotFound _ | .elementaryClass | .constantNotFound => true
  | _ => false

def ConstantSearch.enterReference (id : Id) (r : Reference) : StateT ConstantSearch Build Unit := do
  let st ← get
  set { st with depth := st.depth + 1 }
  if st.depth = 0 ∧ !r.child.isEmpty then
    match st.around with
    | [] => throw .outOfRange
    | (cls, found) :: outer =>
      let path ← Build.path id
      match ← Build.attempt noConstant (Build.findConstant cls path) with
      | some s => modify fun st => { st with around := (cls, found.insert (dottedText path) s) :: outer }
      | none => pure ()

def ConstantSearch.visitor : Visitor ConstantSearch where
  enter id := do
    match ← Build.element id with
    | .reference r => ConstantSearch.enterReference id r
    | .classDef c =>
      match c.role with
      | .instanced => modify fun st => { st with around := (id, {}) :: st.around }
      | .declared => throw (.assertion "All classes should have been replaced by instance classes.")
      | .tree => pure ()
    | _ => pure ()
  exit id := do
    match ← Build.element id with
    | .reference _ => modify fun st => { st with depth := st.depth - 1 }
    | .classDef c =>
      if c.role = .instanced then
        match (← get).around with
        | (cls, found) :: outer =>
          Build.modifyClass cls fun c => { c with symbols := c.symbols.insertAll found }
          modify fun st => { st with around := outer }
        | [] => pure ()
    | _ => pure ()

/-- Enters the constants that an instance refers to by a path of classes,
under that path. -/
def Build.pullConstants (cls : Id) : Build Unit := do
  discard (ConstantSearch.visitor.run cls {})

/-! ### Modifications of symbols -/

namespace Build

/-- Whether an argument is written in the given class, or nowhere in
particular. -/
def appliesIn (scope arg : Id) : Build Bool := do
  match (← argumentAt arg).2.1 with
  | none => pure true
  | some s =>
    let theirs ← fullPath s
    pure (theirs == (← fullPath scope))

def applyArgument (symbol arg : Id) : Build Unit := do
  match ← elementModification? arg with
  | none =>
    throw (.assertion "Found redeclaration modification which should already have been handled.")
  | some (c, ms) =>
    let name := (← referenceAt c).name
    match Attribute.ofText? name with
    | none => throw (.unknownProperty name)
    | some a =>
      match ms with
      | [] => throw .outOfRange
      | v :: _ => modifySymbol symbol fun s => s.setAttribute a v

/-- Applies the arguments of a symbol that are written in the given class, in
order, and keeps the others. -/
def modifySymbolIn (scope symbol modification : Id) : Build Unit := do
  let args ← argumentsAt modification
  let applied ← args.filterM (appliesIn scope)
  let kept ← args.filterM fun a => do pure !(← appliesIn scope a)
  applied.forM (applyArgument symbol)
  setArguments modification kept

/-- The modification of a symbol is used up as far as it is written in the
given class. Only symbols of elementary type have one left. -/
def applyToSymbol (scope symbol : Id) : Build Unit := do
  let s ← symbolAt symbol
  match ← typeForm s.type with
  | .reference _ =>
    match s.modification with
    | none => pure ()
    | some m =>
      if !(← argumentsAt m).isEmpty then modifySymbolIn scope symbol m
      if (← argumentsAt m).isEmpty then
        modifySymbol symbol fun s => { s with modification := none }
  | _ =>
    if s.modification.isSome then
      throw (.assertion "Found symbol modification on non-elementary type in instance tree.")

def modificationVisitor (scope : Id) : Visitor Unit where
  exit id := do
    match ← element id with
    | .symbol _ => applyToSymbol scope id
    | .classDef c =>
      match c.role, c.environment with
      | .instanced, some e =>
        if !(← argumentsAt e).isEmpty then
          throw (.assertion "Found unhandled modification on instance class.")
      | _, _ => pure ()
    | _ => pure ()

/-- Applies the modifications written in `scope` to the symbols of a class. -/
def applyModifications (cls scope : Id) : Build Unit := (modificationVisitor scope).run cls ()

end Build

/-! ### References -/

/-- Where a visit to references is: their depth, the depth below which they
are left alone, and the number of arguments with a scope around this place. -/
structure ReferenceSearch where
  depth : Nat := 0
  cutoff : Option Nat := none
  inArguments : Nat := 0

namespace ReferenceSearch

/-- The subscripts along a reference, from its second name on. -/
def laterIndices : Nat → List Id → Build (List (List Value))
  | 0, _ => throw .tooDeep
  | n + 1, child =>
    match child with
    | [] => pure []
    | c :: _ => do
      let r ← Build.referenceAt c
      pure (r.indices ++ (← laterIndices n r.child))

/-- Replaces a reference by the dotted name of a symbol, or leaves it alone
together with everything inside it. -/
def enterReference (container : Id) (stem : String) (id : Id) :
    StateT ReferenceSearch Build Unit := do
  modify fun st => { st with depth := st.depth + 1 }
  let st ← get
  if st.cutoff.all fun c => st.depth ≤ c then
    let name := stem ++ dottedText (← Build.path id)
    if (← Build.classAt container).symbols.contains name ∧ st.inArguments = 0 then
      let r ← Build.referenceAt id
      let n ← Build.size
      let later ← laterIndices (n + 1) r.child
      Build.store id (.reference { name, indices := r.indices ++ later, child := [] })
    else
      set { st with cutoff := some st.depth }

def exitReference : StateT ReferenceSearch Build Unit := do
  modify fun st =>
    let depth := st.depth - 1
    { st with depth, cutoff := if st.cutoff.any fun c => depth < c then none else st.cutoff }

def visitor (container : Id) (stem : String) : Visitor ReferenceSearch where
  enter id := do
    match ← Build.element id with
    | .reference _ => enterReference container stem id
    | .argument _ (some _) _ _ => modify fun st => { st with inArguments := st.inArguments + 1 }
    | _ => pure ()
  exit id := do
    match ← Build.element id with
    | .reference _ => exitReference
    | .argument _ (some _) _ _ => modify fun st => { st with inArguments := st.inArguments - 1 }
    | _ => pure ()

end ReferenceSearch

/-- A copy of an element in which every outermost reference that, behind the
prefix, names a symbol of the container is a reference to that symbol. -/
def Build.flattenReferences (container : Id) (stem : String) (id : Id) : Build Id := do
  let new ← Build.copy id
  discard ((ReferenceSearch.visitor container stem).run new {})
  pure new

/-! ### Calls -/

/-- Gives a call the full name of its function if that is a class. -/
def scopeCall (scope id : Id) : StateT (Table String Id) Build Unit := do
  match ← Build.element id with
  | .expression (.node op) operands =>
    match ← Build.element op with
    | .reference _ =>
      let path ← Build.path op
      let found ← Build.attempt (fun f => f matches .noEntry | .classNotFound _) (do
        let f ← Build.findClass scope path
        pure (f, ← Build.fullName f))
      match found with
      | some (f, name) =>
        Build.store id (.expression (.text name) operands)
        modify fun t => t.insert name f
      | none => pure ()
    | _ => pure ()
  | _ => pure ()

/-- A copy of an element in which calls of functions of the model have the
function's full name. The functions are added to those in the table. -/
def Build.scopeCalls (scope id : Id) (functions : Table String Id) : Build (Id × Table String Id) := do
  let new ← Build.copy id
  let visitor : Visitor (Table String Id) := { exit := scopeCall scope }
  let functions ← visitor.run new functions
  pure (new, functions)

/-! ### Symbols -/

namespace Build

/-- Scopes the calls in a list of elements, collecting their functions. -/
def scopeAll (scope : Id) : List Id → Table String Id → Build (List Id × Table String Id)
  | [], functions => pure ([], functions)
  | e :: rest, functions => do
    let (new, functions) ← scopeCalls scope e functions
    let (news, functions) ← scopeAll scope rest functions
    pure (new :: news, functions)

/-- Inputs and outputs of components are ordinary symbols of the whole. -/
def stripCausality (symbol : Id) : Build Unit := do
  let s ← symbolAt symbol
  let words ← wordsAt s.keywords
  store s.keywords (.keywords ((words.erase "input").erase "output"))

/-- A symbol of a type derived from an elementary one takes over what the
type says about its value. -/
def adoptBuiltin (symbol type : Id) : Build Unit := do
  match (← classAt type).symbols.get? builtinSymbol with
  | none => throw .noEntry
  | some v =>
    let value ← symbolAt v
    match (← symbolAt symbol).modification, value.modification with
    | some m, some theirs => appendArguments m (← argumentsAt theirs)
    | some _, none => throw .noPart
    | none, theirs => modifySymbol symbol fun s => { s with modification := theirs }
    modifySymbol symbol fun s =>
      { Attribute.all.foldl (fun s a => s.setAttribute a (value.attribute a)) s with type := value.type }

/-- Marks on which side of a connection a component of the class stands,
rather than the class itself. -/
def markInner (flat written : Id) : Build Unit := do
  match ← element flat, ← element written with
  | .connect l r c li ri, .connect wl wr _ _ _ =>
    let left := !(← referenceAt wl).child.isEmpty
    let right := !(← referenceAt wr).child.isEmpty
    store flat (.connect l r c (some (li.getD left)) (some (ri.getD right)))
  | _, _ => pure ()

/-- Adds a symbol of an instance, and what it consists of, to a flat class. -/
def flattenSymbol (flatten : Id → String → Build Id) (flattenClass : Id → Build Id) (flat : Id)
    (stem : String) (name : String) (symbol : Id) : Build Unit := do
  let fullName := stem ++ name
  modifySymbol symbol fun s => { s with name := fullName }
  if !stem.isEmpty then stripCausality symbol
  let enter := modifyClass flat fun c => { c with symbols := c.symbols.insert fullName symbol }
  match ← typeForm (← symbolAt symbol).type with
  | .reference _ => enter
  | .instanced type =>
    let t ← classAt type
    if t.category = builtinCategory then
      enter
      adoptBuiltin symbol type
    else
      let sub ← flatten type fullName
      let dimensions := (← symbolAt symbol).dimensions
      for s in (← classAt sub).symbols.values do
        modifySymbol s fun k => { k with dimensions := dimensions ++ k.dimensions }
      let k ← classAt sub
      modifyClass flat (·.absorb k)
      if t.category = "connector" then
        let connector ← flattenClass type
        enter
        modifySymbol symbol fun s =>
          { s with connector := some connector, type := (t.name.elim .null .text) }
  | .other => throw .noPart

/-- Flattens one function, which gives what it calls to the flat class. -/
def pullFunction (flattenClass : Id → Build Id) (flat : Id) (entry : String × Id) : Build (String × Id) := do
  let new ← flattenClass entry.2
  let k ← classAt new
  modifyClass flat fun c => { c with functions := c.functions.insertAll k.functions }
  modifyClass new fun c => { c with functions := {} }
  pure (entry.1, new)

/-- Flattens the functions that were called and adds them to a flat class,
the functions they call in front of them. -/
def pullFunctions (flattenClass : Id → Build Id) (flat : Id) (functions : Table String Id) : Build Unit := do
  let pulled ← functions.entries.mapM (pullFunction flattenClass flat)
  modifyClass flat fun c => { c with functions := c.functions.insertAll ⟨pulled⟩ }

/-- A symbol is replaced by its copy. -/
def renewSymbol (flat : Id) (stem name : String) (symbol : Id) : Build Unit := do
  let new ← flattenReferences flat stem symbol
  modifyClass flat fun k => { k with symbols := k.symbols.insert name new }

/-- An equation of a level is copied, then entered in the flat class. -/
def flattenEquation (cls flat : Id) (stem : String) (equation : Id) (functions : Table String Id) :
    Build (Table String Id) := do
  let (named, functions) ← scopeCalls cls equation functions
  let new ← flattenReferences flat stem named
  modifyClass flat fun k => { k with equations := k.equations ++ [new] }
  markInner new equation
  pure functions

/-- The initial equations and the statements of a level are copied, then entered in the flat class. -/
def flattenStatements (flattenClass : Id → Build Id) (cls flat : Id) (stem : String) (c : ClassDef)
    (functions : Table String Id) : Build Id := do
  let (initialEquations, functions) ← scopeAll cls c.initialEquations functions
  let (statements, functions) ← scopeAll cls c.statements functions
  let (initialStatements, functions) ← scopeAll cls c.initialStatements functions
  let initialEquations ← initialEquations.mapM (flattenReferences flat stem)
  modifyClass flat fun k => { k with initialEquations := k.initialEquations ++ initialEquations }
  let statements ← statements.mapM (flattenReferences flat stem)
  modifyClass flat fun k => { k with statements := k.statements ++ statements }
  let initialStatements ← initialStatements.mapM (flattenReferences flat stem)
  modifyClass flat fun k => { k with initialStatements := k.initialStatements ++ initialStatements }
  pullFunctions flattenClass flat functions
  pure flat

/-- Flattens the symbols of an instance that stands at `instanceName` in the
whole. -/
def flattenLevel (flatten : Id → String → Build Id) (flattenClass : Id → Build Id) (cls : Id)
    (instanceName : String) : Build Id := do
  let c ← classAt cls
  let flat ← alloc (.classDef {
    name := c.name, category := c.category, remarks := c.remarks, declaration := c.declaration })
  let stem := if instanceName.isEmpty then "" else instanceName ++ "."
  for (name, symbol) in c.symbols.entries do
    flattenSymbol flatten flattenClass flat stem name symbol
  applyModifications flat cls
  for (name, symbol) in (← classAt flat).symbols.entries do
    renewSymbol flat stem name symbol
  let c ← classAt cls
  let mut functions : Table String Id := {}
  for equation in c.equations do
    functions ← flattenEquation cls flat stem equation functions
  flattenStatements flattenClass cls flat stem c functions

mutual

def flattenSymbolsTo : Nat → Id → String → Build Id
  | 0, _, _ => throw .tooDeep
  | n + 1, cls, instanceName => flattenLevel (flattenSymbolsTo n) (flattenClassTo n) cls instanceName

def flattenClassTo : Nat → Id → Build Id
  | 0, _ => throw .tooDeep
  | n + 1, orig => do
    let cls ← instantiate orig none (← classAt orig).parent
    pullConstants cls
    flattenSymbolsTo n cls ""

end

def flattenSymbols (cls : Id) : Build Id := do flattenSymbolsTo ((← size) + 1) cls ""

def flattenClass (orig : Id) : Build Id := do flattenClassTo ((← size) + 1) orig

end Build
end Modelica
