/-
The element graph of a written model.

The text is gone through from left to right. Components are entered into the
class around them as soon as their name is read; their type, keywords and
dimensions are those of the clause that is open at that moment, and a
modification is given to the symbol that is open when it ends. A component
redeclared inside a modification opens a clause and a symbol of its own and
leaves none open, which later parts of the text get to see.

Constructs for which a model has no element are a fault where an element of
them is asked for.
-/
import Modelica.Syntax
import Modelica.Graph.Copy
import Modelica.Graph.Number

namespace Modelica

structure Reading where
  classes : List Id
  clause : Option Id := none
  symbol : Option Id := none
  count : Nat := 0
  inExtends : Bool := false

abbrev Read := StateT Reading Build

namespace Read

/-- An element that has to be there. -/
def need (v : Option Value) : Read Value :=
  match v with
  | some v => pure v
  | none => throw .noEntry

def currentClass : Read Id := do
  match (← get).classes with
  | c :: _ => pure c
  | [] => throw .noPart

def openSymbol : Read Id := do
  let st ← get
  let id ← Build.freshSymbol st.count
  set { st with symbol := some id, count := st.count + 1 }
  pure id

/-- The last character of a text and its first are its quotes. -/
def unquoted (text : String) : String := String.ofList ((text.toList.drop 1).dropLast)

def chain : List (String × List (List Value)) → Read (Option Id)
  | [] => pure none
  | (name, indices) :: rest => do
    let child ← chain rest
    pure (some (← Build.alloc (.reference { name, indices, child := child.toList })))

inductive ArgumentValue where
  | value (v : Value)
  | function
  | other

/-- The operands of a call: its arguments by position. A call has to have
some arguments, and none of them may be a function. -/
def operands (items : List ArgumentValue) : Read (List Value) := do
  if items.isEmpty then throw .noPart
  let found ← items.mapM fun a => match a with
    | .value v => pure [v]
    | .function => throw .noPart
    | .other => pure []
  pure found.flatten

/-- One value stands for itself, any other number of them is a list. -/
def grouped : List Value → Value
  | [v] => v
  | vs => .list vs

def node (e : Element) : Read (Option Value) := do pure (some (.node (← Build.alloc e)))

/-! ### Expressions -/

mutual

/-- The value of an expression; none if there is no element for it. -/
def expr? : Syntax.Expr → Read (Option Value)
  | .number text =>
    match numberValue? text with
    | some v => node (.primary v)
    | none => throw .badValue
  | .string text => node (.primary (.text (unquoted text)))
  | .boolean b => node (.primary (.bool b))
  | .ref path => do
    let parts ← refParts path
    pure ((← chain parts).map .node)
  | .call path args => do
    let parts ← refParts path
    let function ← need ((← chain parts).map .node)
    let items ← arguments args
    node (.expression function (← operands items))
  | .der args => do
    let items ← arguments args
    node (.expression (.text "der") (← operands items))
  | .initial args => do
    discard (arguments args)
    pure none
  | .tuple items => do
    let vs ← exprs items
    pure (some (grouped vs))
  | .matrix rows => do
    exprRows rows
    pure none
  | .array args => do
    let items ← arguments args
    node (.array (← operands items))
  | .last => pure none
  | .neg e => do
    let v ← expr? e
    node (.expression (.text "-") [← need v])
  | .not e => do
    let v ← expr? e
    node (.expression (.text "not") [← need v])
  | .binary op l r => do
    let l ← expr? l
    -- the operands of a power are looked at only when both have been read
    if op = .pow ∨ op = .elemPow then
      let r ← expr? r
      let l ← need l
      node (.expression (.text op.text) [l, ← need r])
    else
      let l ← need l
      let r ← expr? r
      node (.expression (.text op.text) [l, ← need r])
  | .range items => do
    let vs ← exprs items
    match vs with
    | [start, stop] => do
      let step ← Build.primary (.int 1)
      node (.slice start stop (.node step))
    | [start, stop, step] => node (.slice start stop step)
    | _ => pure none
  | .conditional items otherwise => do
    let vs ← alternatives items
    let last ← expr? otherwise
    node (.conditional (vs.map (·.1)) (vs.map (·.2) ++ [← need last]))
  | .whole => do
    let start ← Build.primary .null
    let stop ← Build.primary .null
    let step ← Build.primary (.int 1)
    node (.slice (.node start) (.node stop) (.node step))

def exprs : List Syntax.Expr → Read (List Value)
  | [] => pure []
  | e :: rest => do
    let v ← expr? e
    let v ← need v
    pure (v :: (← exprs rest))

def exprRows : List (List Syntax.Expr) → Read Unit
  | [] => pure ()
  | row :: rest => do
    discard (exprs row)
    exprRows rest

def alternatives : List Syntax.Alternative → Read (List (Value × Value))
  | [] => pure []
  | a :: rest => do
    let v ← alternative a
    pure (v :: (← alternatives rest))

def alternative : Syntax.Alternative → Read (Value × Value)
  | .mk condition value => do
    let c ← expr? condition
    let c ← need c
    let v ← expr? value
    pure (c, ← need v)

def refParts : List Syntax.RefPart → Read (List (String × List (List Value)))
  | [] => pure []
  | part :: rest => do
    let p ← refPart part
    pure (p :: (← refParts rest))

def refPart : Syntax.RefPart → Read (String × List (List Value))
  | .mk name subs => do
    let vs ← exprs subs
    pure (name, if vs.isEmpty then [[.null]] else [vs])

def arguments : List Syntax.Arg → Read (List ArgumentValue)
  | [] => pure []
  | a :: rest => do
    let v ← argument a
    pure (v :: (← arguments rest))

def argument : Syntax.Arg → Read ArgumentValue
  | .value e => do
    let v ← expr? e
    pure (.value (← need v))
  | .function _ args => do
    discard (arguments args)
    pure .function
  | .named _ a => do
    discard (argument a)
    pure .other
  | .ranging _ e => do
    let v ← expr? e
    discard (need v)
    pure .other
  | .iterator _ => throw .noEntry

end

def expr (e : Syntax.Expr) : Read Value := do need (← expr? e)

def reference (path : Syntax.Reference) : Read Id := do
  let parts ← refParts path
  match ← chain parts with
  | some id => pure id
  | none => throw .noEntry

def typeReference (names : List String) : Read Reference := do
  match ← chain (names.map fun n => (n, [[.null]])) with
  | some id => Build.referenceAt id
  | none => throw .noEntry

/-! ### Modifications -/

/-- A clause with the given keywords, which becomes the open one. -/
def openClause (keywords : String) : Read Id := do
  let words ← Build.alloc (.keywords (if keywords.isEmpty then [] else [keywords]))
  let type ← Build.freshReference ""
  let dimension ← Build.primary .null
  let id ← Build.alloc (.clause { keywords := words, type, dimensions := [[.node dimension]] })
  modify fun st => { st with clause := some id }
  pure id

def openComponent : Read Id := do
  let id ← openSymbol
  match (← get).clause with
  | some c =>
    let k ← Build.clauseAt c
    Build.store c (.clause { k with symbols := k.symbols ++ [id] })
  | none => throw .noPart
  pure id

/-- Names the open symbol, gives it what the open clause says, and enters it
into the class unless this is inside an extends clause. -/
def declare (name : String) : Read Unit := do
  let st ← get
  match st.symbol, st.clause with
  | some s, some c =>
    let k ← Build.clauseAt c
    Build.modifySymbol s fun sym =>
      { sym with name, dimensions := k.dimensions, keywords := k.keywords, type := .node k.type }
    if !st.inExtends then
      let owner ← currentClass
      let cls ← Build.classAt owner
      if cls.symbols.contains name then throw (.alreadyDefined name)
      Build.modifyClass owner fun cls => { cls with symbols := cls.symbols.insert name s }
  | _, _ => throw .noPart

def openedSymbol : Read Id := do
  match (← get).symbol with
  | some s => pure s
  | none => throw .noPart

def modification? : Value → Read (Option Id)
  | .node id => do
    match ← Build.element id with
    | .modification _ => pure (some id)
    | _ => pure none
  | _ => pure none

/-- Gives a modification to the open symbol. A value becomes an argument that
sets the attribute `value`. -/
def modifyOpened (v : Value) : Read Unit := do
  match ← modification? v with
  | some id =>
    let s ← openedSymbol
    Build.modifySymbol s fun sym => { sym with modification := some id }
  | none =>
    let component ← Build.freshReference "value"
    let change ← Build.alloc (.elementModification component [v])
    let arg ← Build.alloc (.argument change none false none)
    let s ← openedSymbol
    match (← Build.symbolAt s).modification with
    | none =>
      let m ← Build.alloc (.modification [arg])
      Build.modifySymbol s fun sym => { sym with modification := some m }
    | some m => Build.setArguments m ((← Build.argumentsAt m) ++ [arg])

def closeSymbol (id : Id) (comment : String) : Read Unit := do
  Build.modifySymbol id fun sym => { sym with comment }
  modify fun st => { st with symbol := none }

def fillType (clause : Id) (type : Reference) : Read Unit := do
  Build.store (← Build.clauseAt clause).type (.reference type)

mutual

def classModification : Syntax.ClassModification → Read Id
  | .mk items => do
    let ids ← modificationArguments items
    Build.alloc (.modification ids)

def modificationArguments : List Syntax.Argument → Read (List Id)
  | [] => pure []
  | a :: rest => do
    let id ← modificationArgument a
    pure (id :: (← modificationArguments rest))

def modificationArgument : Syntax.Argument → Read Id
  | .modify component ch _ => do
    if (← get).symbol.isNone then discard openSymbol
    let target ← reference component
    let vs ← change ch
    let value ← Build.alloc (.elementModification target vs)
    Build.alloc (.argument value none false none)
  | .replaceable target limit => do
    let value ← redeclared target
    constraint limit
    Build.alloc (.argument value none false none)
  | .redeclare target => do
    let value ← redeclared target
    Build.alloc (.argument value none true none)
  | .redeclareReplaceable target limit => do
    discard (redeclared target)
    constraint limit
    throw .noEntry

def change : Syntax.Change → Read (List Value)
  | .none => pure []
  | .value e => do pure [← expr e]
  | .nested m value => do
    let id ← classModification m
    match value with
    | none => pure [.node id]
    | some e => do pure [.node id, ← expr e]

def constraint : Syntax.Constraint → Read Unit
  | .none => pure ()
  | .bare _ => pure ()
  | .modified _ m => discard (classModification m)

def redeclared : Syntax.Redeclared → Read Id
  | .shortClass category name base subs m note => do
    let component ← reference base
    discard (exprs subs)
    discard (optionalModification m)
    discard (comment note)
    let modification ← Build.freshModification
    Build.alloc (.shortClass name category component modification)
  | .enumeration _ _ items note => do
    enumLiterals items
    discard (comment note)
    throw .noEntry
  | .component keywords type d note => do
    let id ← openClause keywords
    let type ← typeReference type
    let sym ← openComponent
    declaration d
    let text ← comment note
    closeSymbol sym text
    fillType id type
    pure id

def enumLiterals : List Syntax.EnumLiteral → Read Unit
  | [] => pure ()
  | l :: rest => do
    enumLiteral l
    enumLiterals rest

def enumLiteral : Syntax.EnumLiteral → Read Unit
  | .mk _ note => discard (comment note)

def declaration : Syntax.Declaration → Read Unit
  | .mk name subs ch => do
    declare name
    let subs ← exprs subs
    let vs ← change ch
    if !subs.isEmpty then
      let s ← openedSymbol
      Build.modifySymbol s fun sym => { sym with dimensions := [subs] }
    vs.forM modifyOpened

def optionalModification : Syntax.OptionalModification → Read (Option Id)
  | .none => pure none
  | .some m => do pure (some (← classModification m))

/-- The text of a comment; its annotation is gone through as well. -/
def comment : Syntax.Comment → Read String
  | .mk strings note => do
    discard (optionalModification note)
    pure (Syntax.commentText strings)

end

/-! ### Equations and statements -/

def iterator (it : Syntax.Iterator) : Read Id := do
  match it.range with
  | some e => do Build.alloc (.iterator it.name (← expr e))
  | none => throw .noEntry

/-- A block without a condition comes last and always applies. -/
def conditions (cs : List (Option Value)) : List Value :=
  cs.map fun c => c.getD (.bool true)

def setComment (id : Id) (text : String) : Read Unit := do
  let e ← Build.element id
  Build.store id (match e with
    | .equation l r _ => .equation l r text
    | .branch form cs bs _ => .branch form cs bs text
    | .loopEquation is body _ => .loopEquation is body (some text)
    | .loopStatement is body _ => .loopStatement is body text
    | .connect l r _ li ri => .connect l r text li ri
    | .assignment ts v _ => .assignment ts v text
    | .call name vs _ => .call name vs text
    | e => e)

mutual

def equation : Syntax.Equation → Read Id
  | .mk body note => do
    let id ← equationBody body
    let text ← comment note
    setComment id text
    pure id

def equationBody : Syntax.EquationBody → Read Id
  | .simple l r => do
    let l ← expr l
    let r ← expr r
    Build.alloc (.equation l r "")
  | .branch branches => do
    let bs ← equationBranches branches
    Build.alloc (.branch .ifEquation (conditions (bs.map (·.1))) (bs.map (·.2)) "")
  | .when branches => do
    let bs ← equationBranches branches
    Build.alloc (.branch .whenEquation (conditions (bs.map (·.1))) (bs.map (·.2)) "")
  | .loop iterators body => do
    let is ← iterators.mapM iterator
    let es ← equations body
    Build.alloc (.loopEquation is es none)
  | .connect l r => do
    let l ← reference l
    let r ← reference r
    Build.alloc (.connect l r "" none none)
  | .call name args => do
    let items ← arguments args
    Build.alloc (.call name (← operands items) "")

def equationBranches : List Syntax.EquationBranch → Read (List (Option Value × List Id))
  | [] => pure []
  | b :: rest => do
    let b ← equationBranch b
    pure (b :: (← equationBranches rest))

def equationBranch : Syntax.EquationBranch → Read (Option Value × List Id)
  | .mk condition body => do
    let c ← condition.mapM expr
    pure (c, ← equations body)

def equations : List Syntax.Equation → Read (List Id)
  | [] => pure []
  | e :: rest => do
    let id ← equation e
    pure (id :: (← equations rest))

end

mutual

def statement : Syntax.Statement → Read Id
  | .mk body note => do
    let id? ← statementBody body
    let text ← comment note
    match id? with
    | some id =>
      setComment id text
      pure id
    | none => throw .noEntry

def statementBody : Syntax.StatementBody → Read (Option Id)
  | .assign target e => do
    let t ← reference target
    let v ← expr e
    pure (some (← Build.alloc (.assignment [t] v "")))
  | .call target args => do
    discard (reference target)
    discard (arguments args)
    throw .noEntry
  | .assignAll targets function args => do
    let ts ← targets.mapM reference
    let f ← reference function
    let items ← arguments args
    let value ← Build.alloc (.expression (.node f) (← operands items))
    pure (some (← Build.alloc (.assignment ts (.node value) "")))
  | .leave => pure none
  | .finish => pure none
  | .branch branches => do
    let bs ← statementBranches branches
    pure (some (← Build.alloc (.branch .ifStatement (conditions (bs.map (·.1))) (bs.map (·.2)) "")))
  | .when branches => do
    discard (statementBranches branches)
    throw .noPart
  | .loop iterators body => do
    let is ← iterators.mapM iterator
    let ss ← statements body
    pure (some (← Build.alloc (.loopStatement is ss "")))
  | .whileLoop condition body => do
    discard (expr condition)
    discard (statements body)
    pure none

def statementBranches : List Syntax.StatementBranch → Read (List (Option Value × List Id))
  | [] => pure []
  | b :: rest => do
    let b ← statementBranch b
    pure (b :: (← statementBranches rest))

def statementBranch : Syntax.StatementBranch → Read (Option Value × List Id)
  | .mk condition body => do
    let c ← condition.mapM expr
    pure (c, ← statements body)

def statements : List Syntax.Statement → Read (List Id)
  | [] => pure []
  | s :: rest => do
    let id ← statement s
    pure (id :: (← statements rest))

end

/-! ### Classes -/

def component (c : Syntax.Component) : Read Unit := do
  let sym ← openComponent
  declaration c.declaration
  discard (c.condition.mapM expr)
  let text ← comment c.comment
  closeSymbol sym text

def sameNamed (symbol : Id) : Read Id := do
  let cls ← Build.classAt (← currentClass)
  match cls.symbols.get? (← Build.symbolAt symbol).name with
  | some s => pure s
  | none => throw .noEntry

/-- The symbols of the open clause but the first get a type, keywords and
dimensions of their own. -/
def separate (type : Id) (symbol : Id) : Read Unit := do
  let s ← sameNamed symbol
  let words ← Build.alloc (.keywords (← Build.keywordsOf s))
  let type ← Build.copy type
  Build.modifySymbol s fun sym => { sym with keywords := words, type := .node type }

def openedSymbols : Read (List Id) := do
  match (← get).clause with
  | some c => do pure (← Build.clauseAt c).symbols
  | none => pure []

/-- Subscripts behind the type are the dimensions of the clause and of its symbols. -/
def setDimensions (clause : Id) (symbols : List Id) (subs : List Value) : Read Unit := do
  if !subs.isEmpty then
    let k ← Build.clauseAt clause
    Build.store clause (.clause { k with dimensions := [subs] })
    symbols.forM fun symbol => do
      let s ← sameNamed symbol
      Build.modifySymbol s fun sym => { sym with dimensions := [subs] }

def clause (c : Syntax.Clause) : Read Id := do
  let id ← openClause c.keywords
  let type ← typeReference c.type
  let subs ← exprs c.subscripts
  c.components.forM component
  fillType id type
  let symbols ← openedSymbols
  setDimensions id symbols subs
  let k ← Build.clauseAt id
  (symbols.drop 1).forM (separate k.type)
  pure id

/-- The elements of a class to which a section gives its visibility. -/
inductive Member where
  | clause (id : Id)
  | base (id : Id)
  | other

def Member.setVisibility (visibility : Visibility) : Member → Read Unit
  | .clause id => do
    (← Build.clauseAt id).symbols.forM fun s =>
      Build.modifySymbol s fun sym => { sym with visibility }
  | .base id => do
    match ← Build.element id with
    | .base c m _ => Build.store id (.base c m visibility)
    | _ => pure ()
  | .other => pure ()

def importClause (form : Syntax.ImportForm) (path : Syntax.Reference) (note : Syntax.Comment) :
    Read Member := do
  let component ← reference path
  match form with
  | .alias name =>
    discard (comment note)
    let id ← Build.alloc (.importAs component name)
    Build.modifyClass (← currentClass) fun c => { c with imports := c.imports ++ [id] }
    pure .other
  | .some _ => throw .wrongKind
  | _ =>
    discard (comment note)
    throw .noEntry

/-- The modification that is given, or one that changes nothing. -/
def orFresh : Option Id → Read Id
  | some m => pure m
  | none => Build.freshModification

def addBase (path : Id) (m : Option Id) : Read Id := do
  let m ← orFresh m
  let id ← Build.alloc (.base path m .hidden)
  Build.modifyClass (← currentClass) fun c => { c with bases := c.bases ++ [id] }
  pure id

def extendsClause (path : Syntax.Reference) (m note : Syntax.OptionalModification) : Read Member := do
  modify fun st => { st with inExtends := true }
  let component ← reference path
  let m ← optionalModification m
  discard (optionalModification note)
  let id ← addBase component m
  modify fun st => { st with inExtends := false }
  pure (.base id)

def external (e : Syntax.External) : Read Unit := do
  discard (e.result.mapM reference)
  match e.call with
  | some (_, items) => discard (exprs items)
  | none => pure ()
  discard (optionalModification e.remarks)

inductive SectionContent where
  | exposed (members : List Member)
  | guarded (members : List Member)
  | equations (initial : Bool) (ids : List Id)
  | statements (initial : Bool) (ids : List Id)

/-- The last list of members among the sections that `pick` selects. -/
def lastMembers (pick : SectionContent → Option (List Member)) (sections : List SectionContent) :
    List Member :=
  ((sections.filterMap pick).getLast?).getD []

/-- Gives the members of a class their visibility and the class its equations
and statements. Of several public sections the last one makes its members
visible, and of several protected ones the last one protects its members. -/
def assemble (first : List Member) (sections : List SectionContent) : Read Unit := do
  first.forM (Member.setVisibility .hidden)
  let exposed := lastMembers (fun | .exposed ms => some ms | _ => none) sections
  exposed.forM (Member.setVisibility .exposed)
  let guarded := lastMembers (fun | .guarded ms => some ms | _ => none) sections
  guarded.forM (Member.setVisibility .guarded)
  let owner ← currentClass
  sections.forM fun s => match s with
    | .equations true ids =>
      Build.modifyClass owner fun c => { c with initialEquations := c.initialEquations ++ ids }
    | .equations false ids =>
      Build.modifyClass owner fun c => { c with equations := c.equations ++ ids }
    | .statements true ids =>
      Build.modifyClass owner fun c => { c with initialStatements := c.initialStatements ++ ids }
    | .statements false ids =>
      Build.modifyClass owner fun c => { c with statements := c.statements ++ ids }
    | _ => pure ()

mutual

def classDefinition : Syntax.ClassDef → Read Id
  | .mk encapsulated isPartial category body => do
    let id ← Build.freshClass { encapsulated, isPartial, category }
    modify fun st => { st with classes := id :: st.classes }
    classBody body
    modify fun st => { st with classes := st.classes.drop 1 }
    let name := (← Build.classAt id).name
    Build.modifyClass (← currentClass) fun c => { c with classes := c.classes.insert name id }
    pure id

def classBody : Syntax.ClassBody → Read Unit
  | .composition name strings content => do
    composition content
    Build.modifyClass (← currentClass) fun c =>
      { c with name := some name, comment := Syntax.commentText strings }
  | .base name path m note => do
    let component ← reference path
    let m ← optionalModification m
    let text ← comment note
    Build.modifyClass (← currentClass) fun c => { c with name := some name, comment := text }
    discard (addBase component m)
  | .enumeration _ items note => do
    enumLiterals items
    discard (comment note)
  | .derivative _ _ _ note => discard (comment note)
  | .extending _ m _ content => do
    discard (optionalModification m)
    composition content

def composition : Syntax.Composition → Read Unit
  | .mk items parts ext note => do
    let first ← elements items
    let contents ← classSections parts
    discard (ext.mapM external)
    let remarks ← optionalModification note
    assemble first contents
    match remarks with
    | some a => Build.modifyClass (← currentClass) fun c => { c with remarks := some a }
    | none => pure ()

def classSections : List Syntax.Section → Read (List SectionContent)
  | [] => pure []
  | s :: rest => do
    let c ← classSection s
    pure (c :: (← classSections rest))

def classSection : Syntax.Section → Read SectionContent
  | .publicElements items => do pure (.exposed (← elements items))
  | .protectedElements items => do pure (.guarded (← elements items))
  | .equations initial es => do pure (.equations initial (← equations es))
  | .algorithm initial ss => do pure (.statements initial (← statements ss))

def elements : List Syntax.Element → Read (List Member)
  | [] => pure []
  | e :: rest => do
    let m ← element e
    pure (m :: (← elements rest))

def element : Syntax.Element → Read Member
  | .importClause form path note => importClause form path note
  | .extendsClause path m note => extendsClause path m note
  | .classElement definition => do
    discard (classDefinition definition)
    pure .other
  | .componentElement c => do pure (.clause (← clause c))
  | .replaceableClass definition limit note => do
    discard (classDefinition definition)
    constraint limit
    discard (comment note)
    pure .other
  | .replaceableComponent c limit note => do
    let id ← clause c
    constraint limit
    discard (comment note)
    pure (.clause id)

end

def fileClass (isFinal : Bool) (definition : Syntax.ClassDef) : Read (Option String × Id) := do
  let id ← classDefinition definition
  Build.modifyClass id fun c => { c with isFinal }
  pure ((← Build.classAt id).name, id)

/-- The path of the package a file belongs to, and its classes by name. -/
def file (f : Syntax.File) : Read (List String × Table (Option String) Id) := do
  discard (f.within.mapM reference)
  let classes ← f.classes.mapM fun c => fileClass c.1 c.2
  pure ((f.within.getD []).map Syntax.RefPart.name, Table.ofList classes)

end Read

namespace Build

/-- Makes every class below `id` stand in the class that holds it. -/
def linkParents : Nat → Id → Build Unit
  | 0, _ => throw .tooDeep
  | n + 1, id => do
    let c ← classAt id
    for child in c.classes.values do
      modifyClass child fun k => { k with parent := some id }
      linkParents n child

def linkAll (root : Id) : Build Unit := do linkParents ((← size) + 1) root

/-- The packages on a path, each holding the next; gives the innermost. -/
def packages : List String → Id → Build Id
  | [], at_ => pure at_
  | name :: rest, at_ => do
    let p ← freshClass { name := some name, category := "package" }
    modifyClass at_ fun c => { c with classes := c.classes.insert (some name) p }
    packages rest p

def treeOf (f : Syntax.File) : Build Id := do
  let dummy ← freshClass {}
  let (path, classes) ← (Read.file f).run' { classes := [dummy] }
  let root ← freshClass { role := .tree }
  let owner ← packages path root
  modifyClass owner fun c => { c with classes := c.classes.insertAll classes }
  linkAll root
  pure root

end Build
end Modelica
