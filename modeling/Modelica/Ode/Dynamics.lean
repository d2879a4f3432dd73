/-
Systems of differential equations, from the scripts of models.

The unknowns of a model are the derivatives of its states, its variables and
its outputs; the equations are solved for them. What remains is a system: the
derivatives of the states and the outputs as formulas of states, inputs,
parameters and constants.
-/
import Modelica.Script
import Modelica.Script.Term
import Modelica.Element
import Modelica.Ode.Linear

namespace Modelica.Ode

open Script (Term Operator)

inductive Operand where
  | number (q : Rat)
  | truth (b : Bool)
  | nothing
  | formula (f : Formula)
deriving Repr, Inhabited

abbrev Names := Table String Atom

namespace Operand

def number? : Operand → Option Rat
  | .number q => some q
  | .truth b => some (if b then 1 else 0)
  | _ => none

/-- An operand next to a formula. Truth values have no place there. -/
def formula? : Operand → Except Fault Formula
  | .number q => pure (Formula.constant q)
  | .formula f => pure f
  | _ => throw .wrongKind

def power (q : Rat) (n : Int) : Option Rat :=
  if 0 ≤ n then some (q ^ n.toNat) else if q = 0 then none else some (1 / q ^ n.natAbs)

def numbers (op : Operator) (a b : Rat) : Except Fault Operand :=
  match op with
  | .plus => pure (.number (a + b))
  | .minus => pure (.number (a - b))
  | .times => pure (.number (a * b))
  | .divided => if b = 0 then throw .divisionByZero else pure (.number (a / b))
  | .power =>
    if b.den = 1 then
      match power a b.num with
      | some q => pure (.number q)
      | none => throw .divisionByZero
    else match (Formula.constant a).pow? (Formula.constant b) with
      | some f => pure (.formula f)
      | none => throw .divisionByZero

def formulas (op : Operator) (f g : Formula) : Except Fault Operand :=
  match op with
  | .plus => pure (.formula (f.add g))
  | .minus => pure (.formula (f.sub g))
  | .times => pure (.formula (f.mul g))
  | .divided =>
    match f.div? g with
    | some h => pure (.formula h)
    | none => throw .divisionByZero
  | .power =>
    match f.pow? g with
    | some h => pure (.formula h)
    | none => throw .divisionByZero

def binary (op : Operator) (a b : Operand) : Except Fault Operand :=
  match a.number?, b.number? with
  | some p, some q => numbers op p q
  | _, _ => do formulas op (← a.formula?) (← b.formula?)

def signed (negative : Bool) (a : Operand) : Except Fault Operand :=
  match a.number? with
  | some q => pure (.number (if negative then -q else q))
  | none => do
    let f ← a.formula?
    pure (.formula (if negative then f.neg else f))

/-- Differentiation by time. -/
def byTime : Direction
  | .dynamic s => Formula.ofAtom (.rate s)
  | _ => Formula.constant 0

def rate : Operand → Except Fault Operand
  | .formula f =>
    match f.derivative byTime with
    | some g => pure (.formula g)
    | none => throw .nonlinear
  | _ => throw .noPart

/-- Functions that cannot be applied to symbols. -/
def numericFunctions : List String := ["max", "min", "sum", "round", "int", "float", "len"]

def function? : String → Option Fn
  | "sin" => some .sin
  | "cos" => some .cos
  | "tan" => some .tan
  | "abs" => some .abs
  | _ => none

def call (names : Names) (f : String) (args : List Operand) : Except Fault Operand :=
  if names.contains f then throw .wrongKind
  else match function? f, args with
    | some g, [a] => do pure (.formula (Formula.call g (← a.formula?)))
    | some _, _ => throw .wrongKind
    | none, _ => if numericFunctions.contains f then throw .wrongKind else throw .unboundName

end Operand

def decimalRat (digits : Nat) (exponent : Int) : Rat :=
  if 0 ≤ exponent then ((digits * Nat.pow 10 exponent.toNat : Nat) : Rat)
  else mkRat digits (Nat.pow 10 exponent.natAbs)

mutual

def operand (names : Names) : Term → Except Fault Operand
  | .name s =>
    match names.get? s with
    | some a => pure (.formula (Formula.ofAtom a))
    | none =>
      if s = "True" then pure (.truth true)
      else if s = "False" then pure (.truth false)
      else if s = "None" then pure .nothing
      else if (Operand.function? s).isSome ∨ Operand.numericFunctions.contains s then throw .wrongKind
      else throw .unboundName
  | .whole n => pure (.number n)
  | .decimal d e => pure (.number (decimalRat d e))
  | .sign negative t => do (← operand names t).signed negative
  | .binary op l r => do
    let a ← operand names l
    let b ← operand names r
    Operand.binary op a b
  | .call f args =>
    if !names.contains f ∧ (Operand.function? f).isNone ∧ !Operand.numericFunctions.contains f then
      throw .unboundName
    else do Operand.call names f (← operands names args)
  | .rate t => do (← operand names t).rate

def operands (names : Names) : List Term → Except Fault (List Operand)
  | [] => pure []
  | t :: ts => do
    let a ← operand names t
    pure (a :: (← operands names ts))

end

def givenValue (names : Names) : Term → Except Fault Value
  | .whole n => pure (.int n)
  | .decimal d e => pure (.real (Binary64.ofDecimal false d e))
  | t => do
    match ← operand names t with
    | .truth b => pure (.bool b)
    | .nothing => pure .null
    | .number q => pure (.real (Binary64.ofRatio (decide (q.num < 0)) q.num.natAbs q.den))
    | .formula _ => throw .wrongKind

abbrev Givens := List (Atom × Value)

structure Dynamics where
  states : List Atom
  algebraics : List Atom
  constants : List Atom
  parameters : List Atom
  inputs : List Atom
  outputs : List Atom
  stateValues : Givens
  constantValues : Givens
  parameterValues : Givens
  inputValues : Givens
  rates : List Formula
  measures : List Formula
deriving Inhabited

namespace Dynamics

def namesOf (make : String → Atom) (identifiers : List String) : List (String × Atom) :=
  identifiers.map fun i => (i, make (Script.shownNames i))

def bind (names : Names) (new : List (String × Atom)) : Names := names.insertAll ⟨new⟩

def givens (names : Names) : List (Atom × Term) → Except Fault Givens
  | [] => pure []
  | (a, t) :: rest => do
    let v ← givenValue names t
    let others ← givens names rest
    -- A later entry for the same symbol keeps the place of the first one.
    pure ((a, (others.find? fun e => e.1.key = a.key).elim v (·.2)) ::
      others.filter fun e => e.1.key ≠ a.key)

def readTerms (texts : List String) : Except Fault (List Term) :=
  texts.mapM fun s => match Term.read s with
    | some t => pure t
    | none => throw .unreadable

def readInitials (declared : List Declared) : Except Fault (List Term) :=
  readTerms (declared.map Declared.initial)

def checkNames (m : ModelScript) : Except Fault Unit :=
  let identifiers := m.name :: m.states.map Declared.identifier ++ m.algebraics ++
    m.constants.map Declared.identifier ++ m.parameters.map Declared.identifier ++
    m.inputs.map Declared.identifier ++ m.outputs
  if identifiers.all Script.isIdentifier then pure () else throw .unreadable

def hasDuplicates : List Atom → Bool
  | [] => false
  | a :: rest => rest.any (fun b => b.key == a.key) || hasDuplicates rest

def rateOf : Atom → Atom
  | .dynamic s => .rate s
  | a => a

def unbalancedText (states algebraics equations : Nat) : String :=
  "# states: " ++ toString states ++ " + # variables: " ++ toString algebraics ++
    " != # equations " ++ toString equations

def equationPoly : Operand → Except Fault Poly
  | .number q => pure (Poly.constant q)
  | .formula f => pure f.numer
  | _ => throw .wrongKind

def valueOf (solution : List (Atom × Formula)) (a : Atom) : Formula :=
  ((solution.find? fun e => e.1.key = a.key).map (·.2)).getD (Formula.ofAtom a)

/-- Solves for the unknowns and, where the equations are linear in them, for
the outputs. -/
def solution? (unknowns outputs : List Atom) (equations : List Poly) :
    Except Fault (Option (List (Atom × Formula))) :=
  match equations.mapM (rowOf (unknowns ++ outputs)) with
  | .ok rows => pure (solve (unknowns ++ outputs) rows)
  | .error _ => do pure (solve unknowns (← equations.mapM (rowOf unknowns)))

/-- Solves the equations of a model for the derivatives and the outputs. -/
def solved (states algebraics outputs : List Atom) (equations : List Operand) :
    Except Fault (List Formula × List Formula) := do
  if states.length + algebraics.length ≠ equations.length then
    throw (.unbalanced (unbalancedText states.length algebraics.length equations.length))
  let unknowns := states.map rateOf ++ algebraics
  if hasDuplicates (unknowns ++ outputs) then throw .badValue
  let polys ← equations.mapM equationPoly
  match ← solution? unknowns outputs polys with
  | none => throw .outOfRange
  | some solution =>
    pure (states.map fun s => valueOf solution (rateOf s), outputs.map (valueOf solution))

/-- The system of a model. All of the script is read before any of it is
evaluated; then its parts are evaluated in order. -/
def ofScript (m : ModelScript) : Except Fault Dynamics := do
  checkNames m
  let stateTerms ← readInitials m.states
  let constantTerms ← readInitials m.constants
  let parameterTerms ← readInitials m.parameters
  let inputTerms ← readInitials m.inputs
  let equationTerms ← readTerms m.equations
  let states := namesOf .dynamic (m.states.map Declared.identifier)
  let names := bind {} states
  let stateValues ← givens names ((states.map (·.2)).zip stateTerms)
  let algebraics := namesOf .dynamic m.algebraics
  let names := bind names algebraics
  let constants := namesOf .static (m.constants.map Declared.identifier)
  let names := bind names constants
  let constantValues ← givens names ((constants.map (·.2)).zip constantTerms)
  let parameters := namesOf .static (m.parameters.map Declared.identifier)
  let names := bind names parameters
  let parameterValues ← givens names ((parameters.map (·.2)).zip parameterTerms)
  let inputs := namesOf .dynamic (m.inputs.map Declared.identifier)
  let names := bind names inputs
  let inputValues ← givens names ((inputs.map (·.2)).zip inputTerms)
  let outputs := namesOf .dynamic m.outputs
  let names := bind names outputs
  let equations ← equationTerms.mapM (operand names)
  let (rates, measures) ← solved (states.map (·.2)) (algebraics.map (·.2)) (outputs.map (·.2)) equations
  pure {
    states := states.map (·.2), algebraics := algebraics.map (·.2), constants := constants.map (·.2),
    parameters := parameters.map (·.2), inputs := inputs.map (·.2), outputs := outputs.map (·.2),
    stateValues, constantValues, parameterValues, inputValues, rates, measures }

def ofScriptNamed (script : Script) (name : String) : Except Fault Dynamics :=
  match script.reverse.find? fun m => m.name == name with
  | some m => ofScript m
  | none => throw .noEntry

end Dynamics
end Modelica.Ode
