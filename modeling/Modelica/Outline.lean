/-
Outlines: what an element holds, written out as a tree.

An outline forgets addresses and sharing; two graphs that look alike from an
element have the same outline there. Fields stand under their names and in
the order in which they are visited. `Outline.fresh` gives the fields of an
element of each kind about which nothing has been said yet.
-/
import Modelica.Graph

namespace Modelica

inductive Outline where
  | null
  | bool (b : Bool)
  | int (i : Int)
  | real (x : Binary64)
  | text (s : String)
  | list (items : List Outline)
  | table (entries : List (Option String × Outline))
  | node (kind : String) (fields : List (String × Outline))
deriving Inhabited, BEq

def ClassRole.kind : ClassRole → String
  | .tree => "Tree"
  | .declared => "Class"
  | .instanced => "InstanceClass"

def BranchForm.kind : BranchForm → String
  | .ifEquation => "IfEquation"
  | .whenEquation => "WhenEquation"
  | .ifStatement => "IfStatement"
  | .whenStatement => "WhenStatement"

def Element.kind : Element → String
  | .primary _ => "Primary"
  | .array _ => "Array"
  | .slice .. => "Slice"
  | .reference _ => "ComponentRef"
  | .expression .. => "Expression"
  | .conditional .. => "IfExpression"
  | .equation .. => "Equation"
  | .branch form .. => form.kind
  | .iterator .. => "ForIndex"
  | .loopEquation .. => "ForEquation"
  | .connect .. => "ConnectClause"
  | .assignment .. => "AssignmentStatement"
  | .loopStatement .. => "ForStatement"
  | .call .. => "Function"
  | .symbol _ => "Symbol"
  | .clause _ => "ComponentClause"
  | .importAs .. => "ImportAsClause"
  | .elementModification .. => "ElementModification"
  | .shortClass .. => "ShortClassDefinition"
  | .modification _ => "ClassModification"
  | .argument .. => "ClassModificationArgument"
  | .base .. => "ExtendsClause"
  | .classDef c => c.role.kind
  | .keywords _ => "Keywords"

def Element.name? : Element → Option String
  | .reference r => some r.name
  | .iterator name _ => some name
  | .call name _ _ => some name
  | .symbol s => some s.name
  | .importAs _ name => some name
  | .shortClass name _ _ _ => some name
  | .classDef c => c.name
  | _ => none

namespace Graph

mutual

def outlineValue (f : Id → Except Fault Outline) : Value → Except Fault Outline
  | .null => pure .null
  | .bool b => pure (.bool b)
  | .int i => pure (.int i)
  | .real x => pure (.real x)
  | .text s => pure (.text s)
  | .node id => f id
  | .list items => do pure (.list (← outlineValues f items))

def outlineValues (f : Id → Except Fault Outline) : List Value → Except Fault (List Outline)
  | [] => pure []
  | v :: rest => do
    let o ← outlineValue f v
    pure (o :: (← outlineValues f rest))

end

def outlineRows (f : Id → Except Fault Outline) (rows : List (List Value)) : Except Fault Outline := do
  pure (.list (← rows.mapM fun row => do pure (.list (← outlineValues f row))))

def outlineIds (f : Id → Except Fault Outline) (ids : List Id) : Except Fault Outline := do
  pure (.list (← ids.mapM f))

def outlineOption (f : Id → Except Fault Outline) (absent : Outline) : Option Id → Except Fault Outline
  | none => pure absent
  | some id => f id

def outlineTable {κ : Type} (key : κ → Option String) (f : Id → Except Fault Outline) (t : Table κ Id) :
    Except Fault Outline := do
  pure (.table (← t.entries.mapM fun e => do pure (key e.1, ← f e.2)))

def symbolFields (f : Id → Except Fault Outline) (s : Symbol) : Except Fault (List (String × Outline)) := do
  let type ← outlineValue f s.type
  let keywords ← f s.keywords
  let dimensions ← outlineRows f s.dimensions
  let start ← outlineValue f s.start
  let min ← outlineValue f s.min
  let max ← outlineValue f s.max
  let nominal ← outlineValue f s.nominal
  let value ← outlineValue f s.value
  let fixed ← outlineValue f s.fixed
  let unit ← outlineValue f s.unit
  let modification ← outlineOption f .null s.modification
  let connector ← match s.connector with
    | none => pure []
    | some id => do pure [("__connector_type", ← f id)]
  pure ([("name", .text s.name), ("type", type), ("prefixes", keywords), ("redeclare", .bool s.redeclare),
    ("final", .bool s.isFinal), ("inner", .bool s.inner), ("outer", .bool s.outer),
    ("dimensions", dimensions), ("comment", .text s.comment), ("start", start), ("min", min),
    ("max", max), ("nominal", nominal), ("value", value), ("fixed", fixed), ("unit", unit),
    ("id", .int s.id), ("order", .int s.order), ("visibility", .text s.visibility.text),
    ("class_modification", modification)] ++ connector)

def classFields (f : Id → Except Fault Outline) (c : ClassDef) : Except Fault (List (String × Outline)) := do
  let imports ← outlineIds f c.imports
  let bases ← outlineIds f c.bases
  let classes ← outlineTable id f c.classes
  let symbols ← outlineTable some f c.symbols
  let functions ← outlineTable some f c.functions
  let initialEquations ← outlineIds f c.initialEquations
  let equations ← outlineIds f c.equations
  let initialStatements ← outlineIds f c.initialStatements
  let statements ← outlineIds f c.statements
  let remarks ← outlineOption f (.list []) c.remarks
  let environment ← match c.environment with
    | none => pure []
    | some id => do pure [("modification_environment", ← f id)]
  pure ([("name", c.name.elim .null .text), ("imports", imports), ("extends", bases),
    ("encapsulated", .bool c.encapsulated), ("partial", .bool c.isPartial), ("final", .bool c.isFinal),
    ("type", .text c.category), ("comment", .text c.comment), ("classes", classes),
    ("symbols", symbols), ("functions", functions), ("initial_equations", initialEquations),
    ("equations", equations), ("initial_statements", initialStatements), ("statements", statements),
    ("annotation", remarks)] ++ environment)

/-- The fields of an element, each given by `f` where it is an element. -/
def fields (f : Id → Except Fault Outline) : Element → Except Fault (List (String × Outline))
  | .primary v => do pure [("value", ← outlineValue f v)]
  | .array vs => do pure [("values", .list (← outlineValues f vs))]
  | .slice a b c => do
    pure [("start", ← outlineValue f a), ("stop", ← outlineValue f b), ("step", ← outlineValue f c)]
  | .reference r => do
    pure [("name", .text r.name), ("indices", ← outlineRows f r.indices), ("child", ← outlineIds f r.child)]
  | .expression op vs => do
    pure [("operator", ← outlineValue f op), ("operands", .list (← outlineValues f vs))]
  | .conditional cs vs => do
    pure [("conditions", .list (← outlineValues f cs)), ("expressions", .list (← outlineValues f vs))]
  | .equation l r c => do
    pure [("left", ← outlineValue f l), ("right", ← outlineValue f r), ("comment", .text c)]
  | .branch _ cs bs c => do
    pure [("conditions", .list (← outlineValues f cs)), ("blocks", .list (← bs.mapM (outlineIds f))),
      ("comment", .text c)]
  | .iterator name v => do pure [("name", .text name), ("expression", ← outlineValue f v)]
  | .loopEquation is body c => do
    pure [("indices", ← outlineIds f is), ("equations", ← outlineIds f body),
      ("comment", c.elim .null .text)]
  | .connect l r c li ri => do
    pure ([("left", ← f l), ("right", ← f r), ("comment", .text c)] ++
      (li.map fun b => ("__left_inner", .bool b)).toList ++
      (ri.map fun b => ("__right_inner", .bool b)).toList)
  | .assignment ts v c => do
    pure [("left", ← outlineIds f ts), ("right", ← outlineValue f v), ("comment", .text c)]
  | .loopStatement is body c => do
    pure [("indices", ← outlineIds f is), ("statements", ← outlineIds f body), ("comment", .text c)]
  | .call name vs c => do
    pure [("name", .text name), ("arguments", .list (← outlineValues f vs)), ("comment", .text c)]
  | .symbol s => symbolFields f s
  | .clause c => do
    pure [("prefixes", ← f c.keywords), ("type", ← f c.type), ("dimensions", ← outlineRows f c.dimensions),
      ("comment", .list []), ("symbol_list", ← outlineIds f c.symbols)]
  | .importAs c name => do pure [("component", ← f c), ("name", .text name)]
  | .elementModification c vs => do
    pure [("component", ← f c), ("modifications", .list (← outlineValues f vs))]
  | .shortClass name category c m => do
    pure [("name", .text name), ("type", .text category), ("component", ← f c), ("class_modification", ← f m)]
  | .modification args => do pure [("arguments", ← outlineIds f args)]
  | .argument v _ redeclare _ => do pure [("value", ← f v), ("redeclare", .bool redeclare)]
  | .base c m vis => do
    pure [("component", ← f c), ("class_modification", ← f m), ("visibility", .text vis.text)]
  | .classDef c => classFields f c
  | .keywords _ => pure []

/-- The outline of an element. The first argument bounds the depth. -/
def outlineTo (g : Graph) : Nat → Id → Except Fault Outline
  | 0, _ => throw .tooDeep
  | n + 1, id =>
    match g.get? id with
    | none => throw .noPart
    | some (.keywords words) => pure (.list (words.map .text))
    | some e => do pure (.node e.kind (← fields (g.outlineTo n) e))

/-- The outline of an element; an element that holds itself has none. -/
def outline (g : Graph) (id : Id) : Except Fault Outline := g.outlineTo (g.size + 1) id

end Graph

namespace Build

def outline (id : Id) : Build Outline := fun g =>
  match g.outline id with
  | .ok o => .ok o g
  | .error f => .error f g

end Build

namespace Outline

def emptyReference : Outline :=
  .node "ComponentRef" [("name", .text ""), ("indices", .list [.list [.null]]), ("child", .list [])]

def emptyModification : Outline := .node "ClassModification" [("arguments", .list [])]

def primary (v : Outline) : Outline := .node "Primary" [("value", v)]

def branchFields : List (String × Outline) :=
  [("conditions", .list []), ("blocks", .list []), ("comment", .text "")]

def classFields : List (String × Outline) :=
  [("name", .null), ("imports", .list []), ("extends", .list []), ("encapsulated", .bool false),
   ("partial", .bool false), ("final", .bool false), ("type", .text ""), ("comment", .text ""),
   ("classes", .table []), ("symbols", .table []), ("functions", .table []),
   ("initial_equations", .list []), ("equations", .list []), ("initial_statements", .list []),
   ("statements", .list []), ("annotation", .list [])]

/-- The fields of an element of each kind about which nothing has been said. -/
def fresh : List (String × List (String × Outline)) := [
  ("Primary", [("value", .null)]),
  ("Array", [("values", .list [])]),
  ("Slice", [("start", primary .null), ("stop", primary .null), ("step", primary (.int 1))]),
  ("ComponentRef", [("name", .text ""), ("indices", .list [.list [.null]]), ("child", .list [])]),
  ("Expression", [("operator", .null), ("operands", .list [])]),
  ("IfExpression", [("conditions", .list []), ("expressions", .list [])]),
  ("Equation", [("left", .null), ("right", .null), ("comment", .text "")]),
  ("IfEquation", branchFields),
  ("WhenEquation", branchFields),
  ("ForIndex", [("name", .text ""), ("expression", .null)]),
  ("ForEquation", [("indices", .list []), ("equations", .list []), ("comment", .null)]),
  ("ConnectClause", [("left", emptyReference), ("right", emptyReference), ("comment", .text "")]),
  ("AssignmentStatement", [("left", .list []), ("right", .null), ("comment", .text "")]),
  ("IfStatement", branchFields),
  ("WhenStatement", branchFields),
  ("ForStatement", [("indices", .list []), ("statements", .list []), ("comment", .text "")]),
  ("Function", [("name", .text ""), ("arguments", .list []), ("comment", .text "")]),
  ("Symbol", [("name", .text ""), ("type", emptyReference), ("prefixes", .list []),
    ("redeclare", .bool false), ("final", .bool false), ("inner", .bool false), ("outer", .bool false),
    ("dimensions", .list [.list [primary .null]]), ("comment", .text ""), ("start", primary .null),
    ("min", primary .null), ("max", primary .null), ("nominal", primary .null), ("value", primary .null),
    ("fixed", primary (.bool false)), ("unit", primary (.text "")), ("id", .int 0), ("order", .int 0),
    ("visibility", .text "private"), ("class_modification", .null)]),
  ("ComponentClause", [("prefixes", .list []), ("type", emptyReference),
    ("dimensions", .list [.list [primary .null]]), ("comment", .list []), ("symbol_list", .list [])]),
  ("EquationSection", [("initial", .bool false), ("equations", .list [])]),
  ("AlgorithmSection", [("initial", .bool false), ("statements", .list [])]),
  ("ImportAsClause", [("component", emptyReference), ("name", .text "")]),
  ("ImportFromClause", [("component", emptyReference), ("symbols", .list [])]),
  ("ElementModification", [("component", emptyReference), ("modifications", .list [])]),
  ("ShortClassDefinition", [("name", .text ""), ("type", .text ""), ("component", emptyReference),
    ("class_modification", emptyModification)]),
  ("ElementReplaceable", []),
  ("ClassModification", [("arguments", .list [])]),
  ("ClassModificationArgument", [("value", .list []), ("redeclare", .bool false)]),
  ("ExtendsClause", [("component", .null), ("class_modification", .null), ("visibility", .text "private")]),
  ("Class", classFields),
  ("InstanceClass", classFields ++ [("modification_environment", emptyModification)]),
  ("Tree", classFields)]

def fresh? (kind : String) : Option (List (String × Outline)) :=
  (fresh.find? fun e => e.1 == kind).map (·.2)

def unlisted (kind : String) : List String :=
  if kind = "Class" ∨ kind = "InstanceClass" ∨ kind = "Tree" then ["parent"]
  else if kind = "ClassModificationArgument" then ["scope"]
  else []

/-- The fields that can be given when an element of a kind is made. The
environment of an instance cannot: it starts out empty. -/
def givable (kind : String) (fields : List (String × Outline)) : List String :=
  (fields.map (·.1)).filter (fun f => f ≠ "modification_environment") ++ unlisted kind

/-- An element of the given kind about which only the given fields are known. -/
def make (kind : String) (given : List (String × Outline)) : Except Fault Outline :=
  match fresh? kind with
  | none => throw .noPart
  | some fields =>
    if given.all fun g => (givable kind fields).contains g.1 then
      pure (.node kind (fields.map fun f => (f.1, (given.lookup f.1).getD f.2)))
    else throw .noEntry

end Outline
end Modelica
