/-
Copies of elements with all they hold.

Within one copy an element that is reached twice is copied once. Two kinds of
links lead out of what is copied and are kept: the class in which a copied
class stands, and the scope of an argument. A class that stands in a class
under copy therefore keeps its old surroundings: its copy belongs to the
class that was copied, not to the copy.

A copy remembers its source, and a copy of a copy is made from the source as
it is then.
-/
import Modelica.Graph
import Std.Data.TreeMap

namespace Modelica

abbrev Copied := Std.TreeMap Id Id

abbrev Copying := StateT Copied Build

namespace Copying

def copied? (id : Id) : Copying (Option Id) := do pure ((← get).get? id)

def record (id new : Id) : Copying Unit := modify fun m => m.insert id new

mutual

def value (f : Id → Copying Id) : Value → Copying Value
  | .node id => do pure (.node (← f id))
  | .list items => do pure (.list (← values f items))
  | v => pure v

def values (f : Id → Copying Id) : List Value → Copying (List Value)
  | [] => pure []
  | v :: rest => do
    let v ← value f v
    pure (v :: (← values f rest))

end

def option (f : Id → Copying Id) : Option Id → Copying (Option Id)
  | none => pure none
  | some id => do pure (some (← f id))

def table {κ : Type} (f : Id → Copying Id) (t : Table κ Id) : Copying (Table κ Id) := do
  pure ⟨← t.entries.mapM fun e => do pure (e.1, ← f e.2)⟩

def symbol (f : Id → Copying Id) (s : Symbol) : Copying Symbol := do
  let type ← value f s.type
  let keywords ← f s.keywords
  let dimensions ← s.dimensions.mapM (values f)
  let start ← value f s.start
  let min ← value f s.min
  let max ← value f s.max
  let nominal ← value f s.nominal
  let val ← value f s.value
  let fixed ← value f s.fixed
  let unit ← value f s.unit
  let modification ← option f s.modification
  let connector ← option f s.connector
  pure { s with type, keywords, dimensions, start, min, max, nominal, value := val, fixed, unit,
                modification, connector }

def classDef (f : Id → Copying Id) (c : ClassDef) : Copying ClassDef := do
  let imports ← c.imports.mapM f
  let bases ← c.bases.mapM f
  let classes ← table f c.classes
  let symbols ← table f c.symbols
  let functions ← table f c.functions
  let initialEquations ← c.initialEquations.mapM f
  let equations ← c.equations.mapM f
  let initialStatements ← c.initialStatements.mapM f
  let statements ← c.statements.mapM f
  let remarks ← option f c.remarks
  let parent ← option f c.parent
  let environment ← option f c.environment
  pure { c with imports, bases, classes, symbols, functions, initialEquations, equations,
                initialStatements, statements, remarks, parent, environment }

def content (f : Id → Copying Id) : Element → Copying Element
  | .primary v => do pure (.primary (← value f v))
  | .array vs => do pure (.array (← values f vs))
  | .slice a b c => do
    let a ← value f a
    let b ← value f b
    pure (.slice a b (← value f c))
  | .reference r => do
    let indices ← r.indices.mapM (values f)
    pure (.reference { r with indices, child := ← r.child.mapM f })
  | .expression op vs => do
    let op ← value f op
    pure (.expression op (← values f vs))
  | .conditional cs vs => do
    let cs ← values f cs
    pure (.conditional cs (← values f vs))
  | .equation l r c => do
    let l ← value f l
    pure (.equation l (← value f r) c)
  | .branch form cs bs c => do
    let cs ← values f cs
    pure (.branch form cs (← bs.mapM fun b => b.mapM f) c)
  | .iterator name v => do pure (.iterator name (← value f v))
  | .loopEquation is body c => do
    let is ← is.mapM f
    pure (.loopEquation is (← body.mapM f) c)
  | .connect l r c li ri => do
    let l ← f l
    pure (.connect l (← f r) c li ri)
  | .assignment ts v c => do
    let ts ← ts.mapM f
    pure (.assignment ts (← value f v) c)
  | .loopStatement is body c => do
    let is ← is.mapM f
    pure (.loopStatement is (← body.mapM f) c)
  | .call name vs c => do pure (.call name (← values f vs) c)
  | .symbol s => do pure (.symbol (← symbol f s))
  | .clause c => do
    let keywords ← f c.keywords
    let type ← f c.type
    let dimensions ← c.dimensions.mapM (values f)
    pure (.clause { keywords, type, dimensions, symbols := ← c.symbols.mapM f })
  | .importAs c name => do pure (.importAs (← f c) name)
  | .elementModification c vs => do
    let c ← f c
    pure (.elementModification c (← values f vs))
  | .shortClass name category c m => do
    let c ← f c
    pure (.shortClass name category c (← f m))
  | .modification args => do pure (.modification (← args.mapM f))
  | .argument v scope redeclare source => do pure (.argument (← f v) scope redeclare source)
  | .base c m vis => do
    let c ← f c
    pure (.base c (← f m) vis)
  | .classDef c => do pure (.classDef (← classDef f c))
  | .keywords ws => pure (.keywords ws)

/-- A copy of an element that has none yet, with its content. -/
def whole (f : Id → Copying Id) (id : Id) : Copying Id := do
  match ← copied? id with
  | some new => pure new
  | none =>
    let e ← Build.element id
    let new ← Build.alloc e
    record id new
    let e ← content f e
    Build.store new e
    record id new
    pure new

def recorded (id new : Id) : Copying Id := do
  if new ≠ id then record id new
  pure new

/-- The copy of a class, which remembers its source. -/
def markedClass (f : Id → Copying Id) (id source : Id) : Copying Id := do
  let new ← whole f source
  Build.modifyClass source fun c => { c with source := some source }
  Build.modifyClass new fun c => { c with source := some source }
  recorded id new

/-- The copy of a class or of an argument through its source. -/
def viaSource (f : Id → Copying Id) (id source : Id) : Copying Id := do
  match ← Build.element source with
  | .classDef c =>
    match c.parent with
    | some p => record p p
    | none => pure ()
    markedClass f id source
  | .argument v scope redeclare _ =>
    let new ← whole f source
    Build.store source (.argument v scope redeclare (some source))
    match ← Build.element new with
    | .argument v _ redeclare _ => Build.store new (.argument v scope redeclare (some source))
    | _ => pure ()
    recorded id new
  | _ => whole f id

def copy : Nat → Id → Copying Id
  | 0, _ => throw .tooDeep
  | n + 1, id => do
    match ← copied? id with
    | some new => pure new
    | none =>
      match ← Build.element id with
      | .classDef c => viaSource (copy n) id (c.source.getD id)
      | .argument _ _ _ source => viaSource (copy n) id (source.getD id)
      | _ => whole (copy n) id

end Copying

def Build.copy (id : Id) : Build Id := do
  let n ← Build.size
  let (new, _) ← (Copying.copy (2 * n + 2) id).run {}
  pure new

end Modelica
