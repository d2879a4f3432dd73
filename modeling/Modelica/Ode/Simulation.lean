/-
Linearizing and simulating systems.

Derivatives by states and inputs are taken of the formulas and evaluated at a
point. A simulation goes forward in equal steps of time; each step is divided
into ever more parts until a finer division no longer changes its result.
-/
import Modelica.Ode.Dynamics
import Modelica.Decimal.Layout

namespace Modelica.Ode

def valueFloat : Value → Except Fault Float
  | .int i => pure (Binary64.ofInt i).toFloat
  | .real x => pure x.toFloat
  | .bool b => pure (if b then 1 else 0)
  | _ => throw .wrongKind

/-- A number in a report, with `k` significant digits; zero has no sign. -/
def numberText (k : Nat) (x : Float) : String :=
  let b := Binary64.ofFloat x
  if b.isZero then "0" else b.general k

namespace Dynamics

def floats (givens : Givens) : Except Fault Point :=
  givens.mapM fun (a, v) => do pure (a, ← valueFloat v)

def valuesOf (symbols : List Atom) (givens : Givens) : Except Fault (List Float) := do
  let p ← floats givens
  symbols.mapM fun a => match p.get? a with
    | some x => pure x
    | none => throw .wrongKind

def initialState (s : Dynamics) : Except Fault (List Float) := valuesOf s.states s.stateValues

def initialInput (s : Dynamics) : Except Fault (List Float) := valuesOf s.inputs s.inputValues

def assign : List Atom → List Float → Except Fault Point
  | [], _ => pure []
  | _ :: _, [] => throw .outOfRange
  | a :: as, x :: xs => do pure ((a, x) :: (← assign as xs))

/-- The point with the given state and input, and the constants and
parameters of the model. What comes later in this order counts. -/
def point (s : Dynamics) (state input : List Float) : Except Fault Point := do
  let states ← assign s.states state
  let inputs ← assign s.inputs input
  let parameters ← floats s.parameterValues
  let constants ← floats s.constantValues
  pure (constants.reverse ++ parameters.reverse ++ inputs.reverse ++ states.reverse)

def evaluate (p : Point) (f : Formula) : Except Fault Float :=
  match f.value p with
  | some x => pure x
  | none => throw .wrongKind

/-- The derivatives of formulas by symbols, one row for each formula. -/
def jacobian (fs : List Formula) (symbols : List Atom) : Except Fault (List (List Formula)) :=
  fs.mapM fun f => symbols.mapM fun a => match f.derivative (byAtom a) with
    | some d => pure d
    | none => throw .wrongKind

/-- The four derivatives: of the rates and of the measures, by the states and
by the inputs. -/
structure Linear (α : Type) where
  rateByState : α
  rateByInput : α
  measureByState : α
  measureByInput : α

def Linear.toList {α : Type} (l : Linear α) : List α :=
  [l.rateByState, l.rateByInput, l.measureByState, l.measureByInput]

/-- The numbers of rows and columns of the four derivatives. One without
columns or rows has none of both, unless `zeros` asks for its true size. -/
def shapes (s : Dynamics) (zeros : Bool) : Linear (Nat × Nat) :=
  let shape (rows columns : Nat) : Nat × Nat :=
    if zeros ∨ (0 < rows ∧ 0 < columns) then (rows, columns) else (0, 0)
  let nx := s.states.length
  let nu := s.inputs.length
  let ny := s.outputs.length
  ⟨shape nx nx, shape nx nu, shape ny nx, shape ny nu⟩

def linearize (s : Dynamics) (state input : Option (List Float)) :
    Except Fault (Linear (List (List Float))) := do
  let rateByState ← jacobian s.rates s.states
  let measureByState ← jacobian s.measures s.states
  let rateByInput ← jacobian s.rates s.inputs
  let measureByInput ← jacobian s.measures s.inputs
  let x ← match state with
    | some x => pure x
    | none => s.initialState
  let u ← match input with
    | some u => pure u
    | none => s.initialInput
  let p ← s.point x u
  let values (rows : List (List Formula)) : Except Fault (List (List Float)) :=
    (rows.filter fun r => !r.isEmpty).mapM fun r => r.mapM (evaluate p)
  pure ⟨← values rateByState, ← values rateByInput, ← values measureByState, ← values measureByInput⟩

def rightSide (s : Dynamics) (state input : List Float) : Except Fault (List Float × List Float) := do
  let p ← s.point state input
  pure (← s.rates.mapM (evaluate p), ← s.measures.mapM (evaluate p))

/-! ### Simulation -/

/-- `x + h * k`, part by part. -/
def along (x k : List Float) (h : Float) : List Float := List.zipWith (fun a b => a + h * b) x k

def step (f : List Float → Except Fault (List Float)) (h : Float) (x : List Float) :
    Except Fault (List Float) := do
  let k1 ← f x
  let k2 ← f (along x k1 (h / 2))
  let k3 ← f (along x k2 (h / 2))
  let k4 ← f (along x k3 h)
  pure (along (along (along (along x k1 (h / 6)) k2 (h / 3)) k3 (h / 3)) k4 (h / 6))

def steps (f : List Float → Except Fault (List Float)) (h : Float) :
    Nat → List Float → Except Fault (List Float)
  | 0, x => pure x
  | n + 1, x => do steps f h n (← step f h x)

/-- Whether two states agree up to a small part of their size. -/
def agree (x y : List Float) : Bool :=
  (x.zip y).all fun (a, b) => (a - b).abs ≤ 1e-10 * (1e-3 + a.abs)

/-- Divides a step into twice as many parts until that changes nothing. -/
def refine (f : List Float → Except Fault (List Float)) (h : Float) (x : List Float) :
    Nat → Nat → List Float → Except Fault (List Float)
  | 0, _, last => pure last
  | n + 1, divisions, last => do
    let next ← steps f (h / divisions.toFloat) divisions x
    if agree last next then pure next else refine f h x n (2 * divisions) next

def advance (f : List Float → Except Fault (List Float)) (h : Float) (x : List Float) :
    Except Fault (List Float) := do
  let first ← steps f (h / 2) 2 x
  refine f h x 12 4 first

/-- The points of time and the states there, after the ones given. -/
def march (f : List Float → Except Fault (List Float)) (dt until_ : Float) :
    Nat → Float → List Float → Except Fault (List (Float × List Float))
  | 0, _, _ => pure []
  | n + 1, t, x => do
    if t + dt ≤ until_ then
      let x ← advance f dt x
      pure ((t + dt, x) :: (← march f dt until_ n (t + dt) x))
    else pure []

structure Span where
  start : Float
  stop : Float
  step : Float

/-- More steps of time than fit into a span. -/
def Span.limit (s : Span) : Nat :=
  if s.step ≤ 0 then 0 else ((s.stop - s.start) / s.step).toUInt64.toNat + 2

structure Course where
  points : List (Float × List Float)
  input : List Float

def simulate (s : Dynamics) (state input : Option (List Float)) (span : Span) : Except Fault Course := do
  let x ← match state with
    | some x => pure x
    | none => s.initialState
  let u ← match input with
    | some u => pure u
    | none => s.initialInput
  let f (x : List Float) : Except Fault (List Float) := do
    let p ← s.point x u
    s.rates.mapM (evaluate p)
  let later ← march f span.step span.stop span.limit span.start x
  pure ⟨(span.start, x) :: later, u⟩

end Dynamics
end Modelica.Ode
