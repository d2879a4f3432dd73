/-
Elements of models: classes, symbols, references, expressions, equations,
statements and modifications.

An element may be reached on several ways (a declaration that two classes
inherit, the type that the components of one clause share), and a change to
it is seen on all of them. So elements refer to each other by `Id`, and a
`Graph` holds them. `Value` is what an element can hold in a place that is
open to more than one kind of thing.
-/
import Modelica.Table
import Modelica.Decimal.Layout

namespace Modelica

abbrev Id := Nat

inductive Value where
  | null
  | bool (b : Bool)
  | int (i : Int)
  | real (x : Binary64)
  | text (s : String)
  | node (id : Id)
  | list (items : List Value)
deriving Repr, Inhabited

namespace Value

mutual

def same : Value → Value → Bool
  | .null, .null => true
  | .bool a, .bool b => a == b
  | .int a, .int b => a == b
  | .real a, .real b => a == b
  | .text a, .text b => a == b
  | .node a, .node b => a == b
  | .list as, .list bs => sameAll as bs
  | _, _ => false

def sameAll : List Value → List Value → Bool
  | [], [] => true
  | a :: as, b :: bs => same a b && sameAll as bs
  | _, _ => false

end

mutual

theorem same_iff : ∀ a b : Value, same a b = true ↔ a = b
  | .list as, .list bs => by simpa [same] using sameAll_iff as bs
  | .null, b | .bool _, b | .int _, b | .real _, b | .text _, b | .node _, b => by cases b <;> simp [same]
  | .list _, .null | .list _, .bool _ | .list _, .int _ | .list _, .real _ | .list _, .text _
  | .list _, .node _ => by simp [same]

theorem sameAll_iff : ∀ as bs : List Value, sameAll as bs = true ↔ as = bs
  | [], bs => by cases bs <;> simp [sameAll]
  | a :: as, [] => by simp [sameAll]
  | a :: as, b :: bs => by simp [sameAll, same_iff a b, sameAll_iff as bs]

end

instance : DecidableEq Value := fun a b => decidable_of_iff _ (same_iff a b)

def word : Value → String
  | .null => "None"
  | .bool b => if b then "True" else "False"
  | .int i => toString i
  | .real x => x.text
  | .text s => s
  | _ => ""

def isSet : Value → Bool
  | .null => false
  | .bool b => b
  | .int i => i != 0
  | .real x => !x.isZero
  | .text s => !s.isEmpty
  | .node _ => true
  | .list items => !items.isEmpty

end Value

inductive Visibility where
  | hidden
  | guarded
  | exposed
deriving Repr, DecidableEq, Inhabited

namespace Visibility

def rank : Visibility → Nat
  | .hidden => 0
  | .guarded => 1
  | .exposed => 2

def text : Visibility → String
  | .hidden => "private"
  | .guarded => "protected"
  | .exposed => "public"

end Visibility

/-- A dotted reference: a name, its subscripts, and the rest behind the
point, if any. No subscripts are one list that holds `null`. -/
structure Reference where
  name : String := ""
  indices : List (List Value) := [[.null]]
  child : List Id := []
deriving Repr, DecidableEq, Inhabited

inductive BranchForm where
  | ifEquation | whenEquation | ifStatement | whenStatement
deriving Repr, DecidableEq, Inhabited

inductive Attribute where
  | value | min | max | start | fixed | nominal | unit
deriving Repr, DecidableEq, Inhabited

def Attribute.all : List Attribute := [.value, .min, .max, .start, .fixed, .nominal, .unit]

def Attribute.text : Attribute → String
  | .value => "value" | .min => "min" | .max => "max" | .start => "start"
  | .fixed => "fixed" | .nominal => "nominal" | .unit => "unit"

def Attribute.ofText? (s : String) : Option Attribute := Attribute.all.find? fun a => a.text == s

structure Symbol where
  name : String := ""
  /-- A reference, an instance, or the name of a connector class. -/
  type : Value
  /-- The list of keywords, an element of its own since the components of a
  clause may share it. -/
  keywords : Id
  redeclare : Bool := false
  isFinal : Bool := false
  inner : Bool := false
  outer : Bool := false
  dimensions : List (List Value)
  comment : String := ""
  start : Value
  min : Value
  max : Value
  nominal : Value
  value : Value
  fixed : Value
  unit : Value
  id : Int := 0
  order : Nat := 0
  visibility : Visibility := .hidden
  modification : Option Id := none
  connector : Option Id := none
deriving Repr, DecidableEq, Inhabited

def Symbol.attribute (s : Symbol) : Attribute → Value
  | .value => s.value | .min => s.min | .max => s.max | .start => s.start
  | .fixed => s.fixed | .nominal => s.nominal | .unit => s.unit

def Symbol.setAttribute (s : Symbol) (a : Attribute) (v : Value) : Symbol :=
  match a with
  | .value => { s with value := v }
  | .min => { s with min := v }
  | .max => { s with max := v }
  | .start => { s with start := v }
  | .fixed => { s with fixed := v }
  | .nominal => { s with nominal := v }
  | .unit => { s with unit := v }

structure Clause where
  keywords : Id
  type : Id
  dimensions : List (List Value)
  symbols : List Id := []
deriving Repr, DecidableEq, Inhabited

/-- A class is the root of a tree of classes, a class as declared, or an
instance, whose base classes have been merged into it. -/
inductive ClassRole where
  | tree | declared | instanced
deriving Repr, DecidableEq, Inhabited

structure ClassDef where
  role : ClassRole := .declared
  name : Option String := none
  imports : List Id := []
  bases : List Id := []
  encapsulated : Bool := false
  isPartial : Bool := false
  isFinal : Bool := false
  category : String := ""
  comment : String := ""
  classes : Table (Option String) Id := {}
  symbols : Table String Id := {}
  functions : Table String Id := {}
  initialEquations : List Id := []
  equations : List Id := []
  initialStatements : List Id := []
  statements : List Id := []
  remarks : Option Id := none
  parent : Option Id := none
  environment : Option Id := none
  /-- The declaration this class descends from by copying or instantiation. -/
  declaration : Id := 0
  /-- The class of which this one was made by copying. A copy of this class is
  a copy of that one. -/
  source : Option Id := none
deriving Repr, DecidableEq, Inhabited

/-- A class with the content of another one: entries by name, the later one
winning, and everything else at the end. -/
def ClassDef.absorb (c k : ClassDef) : ClassDef :=
  { c with
    classes := c.classes.insertAll k.classes
    symbols := c.symbols.insertAll k.symbols
    equations := c.equations ++ k.equations
    initialEquations := c.initialEquations ++ k.initialEquations
    statements := c.statements ++ k.statements
    initialStatements := c.initialStatements ++ k.initialStatements
    functions := c.functions.insertAll k.functions }

inductive Element where
  | primary (value : Value)
  | array (values : List Value)
  | slice (start stop step : Value)
  | reference (r : Reference)
  | expression (operator : Value) (operands : List Value)
  | conditional (conditions values : List Value)
  | equation (left right : Value) (comment : String)
  | branch (form : BranchForm) (conditions : List Value) (blocks : List (List Id)) (comment : String)
  | iterator (name : String) (range : Value)
  | loopEquation (iterators body : List Id) (comment : Option String)
  | connect (left right : Id) (comment : String) (leftInner rightInner : Option Bool)
  | assignment (targets : List Id) (value : Value) (comment : String)
  | loopStatement (iterators body : List Id) (comment : String)
  | call (name : String) (arguments : List Value) (comment : String)
  | symbol (s : Symbol)
  | clause (c : Clause)
  | importAs (component : Id) (name : String)
  | elementModification (component : Id) (modifications : List Value)
  | shortClass (name category : String) (component modification : Id)
  | modification (arguments : List Id)
  /-- An argument of a modification. Its scope is the class it is written in.
  As with classes, a copy of a copy is made from its source. -/
  | argument (value : Id) (scope : Option Id) (redeclare : Bool) (source : Option Id)
  | base (component modification : Id) (visibility : Visibility)
  | classDef (c : ClassDef)
  | keywords (words : List String)
deriving Repr, DecidableEq, Inhabited

end Modelica
