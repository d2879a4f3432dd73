/-
The written form of a model: expressions, modifications, equations,
statements and classes as they stand in the text, parentheses included.

Everything keeps the order of the text. Names and numbers are kept as they
are spelled, texts with their quotes.
-/
namespace Modelica.Syntax

/-! ## Expressions -/

/-- Binary operators; those of the form `elem…` work element by element. -/
inductive BinaryOp where
  | pow | elemPow
  | mul | div | elemMul | elemDiv
  | add | sub | elemAdd | elemSub
  | lt | le | gt | ge | eq | ne
  | and | or
deriving Repr, DecidableEq, Inhabited

def BinaryOp.text : BinaryOp → String
  | .pow => "^" | .elemPow => ".^"
  | .mul => "*" | .div => "/" | .elemMul => ".*" | .elemDiv => "./"
  | .add => "+" | .sub => "-" | .elemAdd => ".+" | .elemSub => ".-"
  | .lt => "<" | .le => "<=" | .gt => ">" | .ge => ">=" | .eq => "==" | .ne => "<>"
  | .and => "and" | .or => "or"

mutual

inductive Expr where
  | number (text : String)
  | string (text : String)
  | boolean (value : Bool)
  | ref (path : List RefPart)
  | call (function : List RefPart) (arguments : List Arg)
  | der (arguments : List Arg)
  | initial (arguments : List Arg)
  | tuple (items : List Expr)
  | matrix (rows : List (List Expr))
  | array (items : List Arg)
  /-- The last index of an axis. -/
  | last
  | neg (operand : Expr)
  | not (operand : Expr)
  | binary (op : BinaryOp) (left right : Expr)
  /-- Start and stop, and a step if there is one. -/
  | range (items : List Expr)
  /-- Values under their conditions, and the one that is left when none holds. -/
  | conditional (alternatives : List Alternative) (otherwise : Expr)
  /-- The subscript that takes a whole axis. -/
  | whole

/-- A part of a dotted reference with its subscripts, if any. -/
inductive RefPart where
  | mk (name : String) (subscripts : List Expr)

inductive Alternative where
  | mk (condition value : Expr)

inductive Arg where
  | value (e : Expr)
  | function (name : String) (arguments : List Arg)
  | named (name : String) (value : Arg)
  | ranging (name : String) (range : Expr)
  | iterator (name : String)

end

instance : Inhabited Expr := ⟨.last⟩

abbrev Reference := List RefPart

def RefPart.name : RefPart → String
  | .mk name _ => name

def RefPart.subscripts : RefPart → List Expr
  | .mk _ subscripts => subscripts

structure Iterator where
  name : String
  range : Option Expr
deriving Inhabited

/-! ## Modifications -/

mutual

inductive ClassModification where
  | mk (arguments : List Argument)

inductive Argument where
  | modify (component : Reference) (change : Change) (comment : List String)
  | replaceable (target : Redeclared) (constraint : Constraint)
  | redeclare (target : Redeclared)
  | redeclareReplaceable (target : Redeclared) (constraint : Constraint)

inductive Change where
  | none
  | value (e : Expr)
  | nested (m : ClassModification) (value : Option Expr)

inductive Constraint where
  | none
  | bare (name : String)
  | modified (name : String) (m : ClassModification)

inductive Redeclared where
  | shortClass (category name : String) (base : Reference) (subscripts : List Expr)
      (modification : OptionalModification) (comment : Comment)
  | enumeration (category name : String) (literals : List EnumLiteral) (comment : Comment)
  | component (keywords : String) (type : List String) (declaration : Declaration) (comment : Comment)

inductive Declaration where
  | mk (name : String) (subscripts : List Expr) (change : Change)

inductive OptionalModification where
  | none
  | some (m : ClassModification)

inductive Comment where
  | mk (strings : List String) (remarks : OptionalModification)

inductive EnumLiteral where
  | mk (name : String) (comment : Comment)

end

instance : Inhabited ClassModification := ⟨.mk []⟩
instance : Inhabited Comment := ⟨.mk [] .none⟩

/-- The text of a comment: what stands between its first and last quote. -/
def commentText (strings : List String) : String :=
  String.ofList (((String.intercalate "+" strings).toList.drop 1).dropLast)

def Comment.text : Comment → String
  | .mk strings _ => commentText strings

/-! ## Equations and statements -/

mutual

inductive Equation where
  | mk (body : EquationBody) (comment : Comment)

inductive EquationBody where
  | simple (left right : Expr)
  | branch (branches : List EquationBranch)
  | when (branches : List EquationBranch)
  | loop (iterators : List Iterator) (body : List Equation)
  | connect (left right : Reference)
  | call (name : String) (arguments : List Arg)

/-- A block of equations; the last block of a branch may have no condition. -/
inductive EquationBranch where
  | mk (condition : Option Expr) (body : List Equation)

end

mutual

inductive Statement where
  | mk (body : StatementBody) (comment : Comment)

inductive StatementBody where
  | assign (target : Reference) (value : Expr)
  | call (target : Reference) (arguments : List Arg)
  | assignAll (targets : List Reference) (function : Reference) (arguments : List Arg)
  | leave
  | finish
  | branch (branches : List StatementBranch)
  | when (branches : List StatementBranch)
  | loop (iterators : List Iterator) (body : List Statement)
  | whileLoop (condition : Expr) (body : List Statement)

inductive StatementBranch where
  | mk (condition : Option Expr) (body : List Statement)

end

/-! ## Classes -/

structure Component where
  declaration : Declaration
  condition : Option Expr
  comment : Comment

/-- Components declared together. The keywords are joined without blanks. -/
structure Clause where
  keywords : String
  type : List String
  subscripts : List Expr
  components : List Component

inductive ImportForm where
  | alias (name : String)
  | whole
  | all
  | some (names : List String)

structure External where
  language : Option String
  result : Option Reference
  call : Option (String × List Expr)
  remarks : OptionalModification

mutual

inductive ClassDef where
  | mk (encapsulated : Bool) (isPartial : Bool) (category : String) (body : ClassBody)

inductive ClassBody where
  | composition (name : String) (comment : List String) (content : Composition)
  | base (name : String) (base : Reference) (modification : OptionalModification) (comment : Comment)
  | enumeration (name : String) (literals : List EnumLiteral) (comment : Comment)
  | derivative (name : String) (function : String) (symbols : List String) (comment : Comment)
  | extending (name : String) (modification : OptionalModification) (comment : List String) (content : Composition)

inductive Composition where
  | mk (elements : List Element) (sections : List Section) (external : Option External)
      (remarks : OptionalModification)

inductive Section where
  | publicElements (elements : List Element)
  | protectedElements (elements : List Element)
  | equations (initial : Bool) (equations : List Equation)
  | algorithm (initial : Bool) (statements : List Statement)

inductive Element where
  | importClause (form : ImportForm) (path : Reference) (comment : Comment)
  | extendsClause (path : Reference) (modification : OptionalModification) (remarks : OptionalModification)
  | classElement (definition : ClassDef)
  | componentElement (clause : Clause)
  | replaceableClass (definition : ClassDef) (constraint : Constraint) (comment : Comment)
  | replaceableComponent (clause : Clause) (constraint : Constraint) (comment : Comment)

end

/-- A file: the package it belongs to, if it says so, and its classes, each
with whether it is final. -/
structure File where
  within : Option Reference
  classes : List (Bool × ClassDef)

end Modelica.Syntax
