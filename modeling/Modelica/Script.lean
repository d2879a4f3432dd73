/-
Scripts: models as program text for a solver of differential equations.

A script declares, for each model, its symbols by role (states, variables,
constants, parameters, inputs, outputs), gives initial values to those that
need one, and lists the equations as terms that are to be zero.
-/
import Modelica.Table

namespace Modelica

/-- A symbol of a model, by its identifier, with the text of its initial
value. -/
structure Declared where
  identifier : String
  initial : String
deriving Repr, DecidableEq, Inhabited

structure ModelScript where
  name : String
  states : List Declared := []
  algebraics : List String := []
  constants : List Declared := []
  parameters : List Declared := []
  inputs : List Declared := []
  outputs : List String := []
  equations : List String := []
deriving Repr, DecidableEq, Inhabited

abbrev Script := List ModelScript

namespace Script

/-- Names that scripts must not use for symbols. -/
def reserved : List String := [
  "__class__", "__class_getitem__", "__contains__", "__delattr__", "__delitem__", "__dir__", "__doc__",
  "__eq__", "__format__", "__ge__", "__getattribute__", "__getitem__", "__getstate__", "__gt__",
  "__hash__", "__init__", "__init_subclass__", "__ior__", "__iter__", "__le__", "__len__", "__lt__",
  "__ne__", "__new__", "__or__", "__reduce__", "__reduce_ex__", "__repr__", "__reversed__", "__ror__",
  "__setattr__", "__setitem__", "__sizeof__", "__str__", "__subclasshook__", "clear", "copy", "fromkeys",
  "get", "items", "keys", "pop", "popitem", "setdefault", "update", "values", "psi"]

/-- Appends underscores until the name is free. No two reserved names differ
by underscores at the end, so that the first one is enough. -/
def unreserved (name : String) : String :=
  if reserved.contains name then name ++ "_" else name

/-- The identifier of a symbol with the given dotted name: double underscores
in place of the points. -/
def identifier (name : String) : String :=
  unreserved (String.ofList (name.toList.flatMap fun c => if c = '.' then ['_', '_'] else [c]))

def pointed : List Char → List Char
  | '_' :: '_' :: cs => '.' :: pointed cs
  | c :: cs => c :: pointed cs
  | [] => []

/-- The name that an identifier shows: points again in place of the double
underscores. -/
def shownNames (identifiers : String) : String := String.ofList (pointed identifiers.toList)

def listed (identifiers : List String) : String := String.intercalate ", " identifiers

/-- The line that introduces symbols of a role, if there are any. -/
def introduction (maker : String) (identifiers : String) : String :=
  if identifiers.isEmpty then ""
  else identifiers ++ " = " ++ maker ++ "('" ++ shownNames identifiers ++ "')\n        "

/-- The declaration of the symbols of a role, without initial values. -/
def roleText (title maker field : String) (identifiers : List String) : String :=
  let names := listed identifiers
  "        # " ++ title ++ "\n        " ++ introduction maker names ++
    "self." ++ field ++ " = sympy.Matrix([" ++ names ++ "])\n"

def initialsText (field : String) (declared : List Declared) : String :=
  "        self." ++ field ++ "0 = \x7b\n            " ++
    String.join (declared.map fun d => d.identifier ++ " : " ++ d.initial ++ ",\n            ") ++ "\x7d\n"

def declaredText (title maker field : String) (declared : List Declared) : String :=
  roleText title maker field (declared.map Declared.identifier) ++ initialsText field declared

/-- The maker of symbols that depend on time, and that of the others. -/
def dynamicMaker : String := "mech.dynamicsymbols"
def staticMaker : String := "sympy.symbols"

def equationsText (equations : List String) : String :=
  "        # equations\n        self.eqs = [\n            " ++
    String.join (equations.map fun e => e ++ ",\n            ") ++ "]\n"

def modelText (m : ModelScript) : String :=
  "\n\nclass " ++ m.name ++ "(OdeModel):\n\n    def __init__(self):\n\n        super(" ++ m.name ++
    ", self).__init__()\n\n" ++
    declaredText "states" dynamicMaker "x" m.states ++ "\n" ++
    roleText "variables" dynamicMaker "v" m.algebraics ++ "\n" ++
    declaredText "constants" staticMaker "c" m.constants ++ "\n" ++
    declaredText "parameters" staticMaker "p" m.parameters ++ "\n" ++
    declaredText "inputs" dynamicMaker "u" m.inputs ++ "\n" ++
    roleText "outputs" dynamicMaker "y" m.outputs ++ "\n" ++
    equationsText m.equations ++ "\n        self.compute_fg()"

def header : String :=
  "\n# do not edit, generated by pymoca\n\n" ++
    "from __future__ import print_function, division\n" ++
    "import sympy\n" ++
    "import sympy.physics.mechanics as mech\n" ++
    "from pymoca.backends.sympy.runtime import OdeModel\n" ++
    "from sympy import sin, cos, tan"

def text (s : Script) : String :=
  header ++ String.join (s.map fun m => "\n" ++ modelText m)

end Script
end Modelica
