/-
Formulas: quotients of polynomials with rational coefficients.

The atoms of a formula are the symbols of a model, the derivatives of those
that depend on time, and function values. Polynomials are kept in normal form,
their monomials sorted and without zero coefficients, so that a polynomial is
zero exactly if it is empty.
-/
import Modelica.Decimal.Binary64

namespace Modelica.Ode

inductive Fn where
  | sin | cos | tan | log | abs
deriving Repr, DecidableEq, Inhabited

def Fn.text : Fn → String
  | .sin => "sin" | .cos => "cos" | .tan => "tan" | .log => "log" | .abs => "abs"

inductive Atom where
  | static (name : String)
  | dynamic (name : String)
  | rate (name : String)
  | call (f : Fn) (numerator denominator : List (List (Atom × Nat) × Rat))
  /-- A power whose exponent is no integer: the base and the exponent, each by
  numerator and denominator. -/
  | power (base baseUnder exponent exponentUnder : List (List (Atom × Nat) × Rat))
deriving Repr, Inhabited, BEq

abbrev Monomial := List (Atom × Nat)
abbrev Poly := List (Monomial × Rat)

mutual

def Atom.key : Atom → String
  | .static s => "c " ++ s
  | .dynamic s => "d " ++ s
  | .rate s => "r " ++ s
  | .call f n d => f.text ++ "(" ++ polyKey n ++ ")(" ++ polyKey d ++ ")"
  | .power a b c d =>
    "^(" ++ polyKey a ++ ")(" ++ polyKey b ++ ")(" ++ polyKey c ++ ")(" ++ polyKey d ++ ")"

def monomialKey : List (Atom × Nat) → String
  | [] => ""
  | (a, n) :: rest => a.key ++ "^" ++ toString n ++ "*" ++ monomialKey rest

def polyKey : List (List (Atom × Nat) × Rat) → String
  | [] => ""
  | (m, q) :: rest =>
    toString q.num ++ "/" ++ toString q.den ++ "*" ++ monomialKey m ++ "+" ++ polyKey rest

end

namespace Monomial

def enter (a : Atom) (n : Nat) : Monomial → Monomial
  | [] => [(a, n)]
  | (b, k) :: rest =>
    if a.key = b.key then (b, k + n) :: rest
    else if a.key < b.key then (a, n) :: (b, k) :: rest
    else (b, k) :: enter a n rest

def mul (m k : Monomial) : Monomial := m.foldl (fun acc p => enter p.1 p.2 acc) k

def degree (a : Atom) (m : Monomial) : Nat :=
  ((m.find? fun p => p.1.key = a.key).map (·.2)).getD 0

def lower (a : Atom) (n : Nat) (m : Monomial) : Monomial :=
  (m.map fun p => if p.1.key = a.key then (p.1, p.2 - n) else p).filter fun p => p.2 ≠ 0

def meet (m k : Monomial) : Monomial :=
  (m.map fun p => (p.1, min p.2 (degree p.1 k))).filter fun p => p.2 ≠ 0

def divide (m k : Monomial) : Monomial := k.foldl (fun acc p => lower p.1 p.2 acc) m

end Monomial

namespace Poly

def zero : Poly := []

def constant (q : Rat) : Poly := if q = 0 then [] else [([], q)]

def ofAtom (a : Atom) : Poly := [([(a, 1)], 1)]

def isZero (p : Poly) : Bool := p.isEmpty

def constant? : Poly → Option Rat
  | [] => some 0
  | [([], q)] => some q
  | _ => none

def enter (m : Monomial) (q : Rat) : Poly → Poly
  | [] => [(m, q)]
  | (k, r) :: rest =>
    if monomialKey m = monomialKey k then
      if r + q = 0 then rest else (k, r + q) :: rest
    else if monomialKey m < monomialKey k then (m, q) :: (k, r) :: rest
    else (k, r) :: enter m q rest

def add (p q : Poly) : Poly := p.foldl (fun acc t => enter t.1 t.2 acc) q

def scale (c : Rat) (p : Poly) : Poly :=
  if c = 0 then [] else p.map fun t => (t.1, c * t.2)

def neg (p : Poly) : Poly := scale (-1) p

def sub (p q : Poly) : Poly := add p (neg q)

def mul (p q : Poly) : Poly :=
  p.foldl (fun acc t => q.foldl (fun acc u => enter (Monomial.mul t.1 u.1) (t.2 * u.2) acc) acc) []

def pow (p : Poly) : Nat → Poly
  | 0 => constant 1
  | n + 1 => mul p (pow p n)

def content : Poly → Monomial
  | [] => []
  | t :: rest => rest.foldl (fun m u => Monomial.meet m u.1) t.1

def divideMonomial (m : Monomial) (p : Poly) : Poly :=
  if m.isEmpty then p
  else p.foldl (fun acc t => enter (Monomial.divide t.1 m) t.2 acc) []

end Poly

structure Formula where
  numer : Poly
  denom : Poly
deriving Repr, Inhabited, BEq

namespace Formula

/-- Cancels what divides both polynomials by sight: monomials, and the leading
coefficient of the lower one. -/
def reduce (f : Formula) : Formula :=
  if f.numer.isZero then ⟨[], Poly.constant 1⟩
  else
    let m := Monomial.meet f.numer.content f.denom.content
    let numer := f.numer.divideMonomial m
    let denom := f.denom.divideMonomial m
    match denom with
    | [] => ⟨numer, denom⟩
    | (_, c) :: _ => ⟨numer.scale (1 / c), denom.scale (1 / c)⟩

def ofPoly (p : Poly) : Formula := ⟨p, Poly.constant 1⟩

def constant (q : Rat) : Formula := ofPoly (Poly.constant q)

def ofAtom (a : Atom) : Formula := ofPoly (Poly.ofAtom a)

def isZero (f : Formula) : Bool := f.numer.isZero

def add (f g : Formula) : Formula :=
  if polyKey f.denom = polyKey g.denom then reduce ⟨f.numer.add g.numer, f.denom⟩
  else reduce ⟨(f.numer.mul g.denom).add (g.numer.mul f.denom), f.denom.mul g.denom⟩

def neg (f : Formula) : Formula := ⟨f.numer.neg, f.denom⟩

def sub (f g : Formula) : Formula := add f g.neg

def mul (f g : Formula) : Formula := reduce ⟨f.numer.mul g.numer, f.denom.mul g.denom⟩

/-- The quotient; none by zero. -/
def div? (f g : Formula) : Option Formula :=
  if g.isZero then none else some (reduce ⟨f.numer.mul g.denom, f.denom.mul g.numer⟩)

def constant? (f : Formula) : Option Rat := do
  let a ← f.numer.constant?
  let b ← f.denom.constant?
  if b = 0 then none else some (a / b)

/-- The power; none is a negative power of zero. -/
def pow? (f g : Formula) : Option Formula :=
  match g.constant? with
  | some q =>
    if q.den = 1 then
      if 0 ≤ q.num then some (reduce ⟨f.numer.pow q.num.natAbs, f.denom.pow q.num.natAbs⟩)
      else if f.isZero then none
      else some (reduce ⟨f.denom.pow q.num.natAbs, f.numer.pow q.num.natAbs⟩)
    else some (ofAtom (.power f.numer f.denom g.numer g.denom))
  | none => some (ofAtom (.power f.numer f.denom g.numer g.denom))

def call (f : Fn) (g : Formula) : Formula :=
  if g.isZero ∧ f = .cos then constant 1
  else if g.isZero ∧ f ≠ .log then constant 0
  else ofAtom (.call f g.numer g.denom)

def slope (f : Fn) (g : Formula) : Option Formula :=
  match f with
  | .sin => some (call .cos g)
  | .cos => some (call .sin g).neg
  | .tan => some ((constant 1).add ((call .tan g).mul (call .tan g)))
  | .log => (constant 1).div? g
  | .abs => none

end Formula

/-- The derivative of symbols: what is given to differentiate by. -/
abbrev Direction := Atom → Formula

mutual

/-- The derivative of an atom; none where it cannot be written down. -/
def Atom.derivative (d : Direction) : Atom → Option Formula
  | .static s => some (d (.static s))
  | .dynamic s => some (d (.dynamic s))
  | .rate s => some (d (.rate s))
  | .call f n u => do
    let inner ← quotientDerivative n u (← polyDerivative d n) (← polyDerivative d u)
    if inner.isZero then some inner
    else
      let outer ← Formula.slope f ⟨n, u⟩
      some (outer.mul inner)
  | .power b bu e eu => do
    let base ← quotientDerivative b bu (← polyDerivative d b) (← polyDerivative d bu)
    let exponent ← quotientDerivative e eu (← polyDerivative d e) (← polyDerivative d eu)
    let whole := Formula.ofAtom (.power b bu e eu)
    let first ← if base.isZero then some base else do
      let ratio ← base.div? ⟨b, bu⟩
      some ((ratio.mul ⟨e, eu⟩).mul whole)
    let second := if exponent.isZero then exponent else
      (exponent.mul (Formula.call .log ⟨b, bu⟩)).mul whole
    some (first.add second)

/-- The derivative of a product of powers, each factor in turn. -/
def monomialDerivative (d : Direction) : List (Atom × Nat) → Option Formula
  | [] => some (Formula.constant 0)
  | (a, n) :: rest => do
    let da ← Atom.derivative d a
    let dr ← monomialDerivative d rest
    let left := (Formula.ofPoly [(if n ≤ 1 then [] else [(a, n - 1)], (n : Rat))]).mul da
    let first := left.mul (Formula.ofPoly [(rest, 1)])
    let second := (Formula.ofPoly [([(a, n)], 1)]).mul dr
    some (first.add second)

def polyDerivative (d : Direction) : List (List (Atom × Nat) × Rat) → Option Formula
  | [] => some (Formula.constant 0)
  | (m, q) :: rest => do
    let dm ← monomialDerivative d m
    let dr ← polyDerivative d rest
    some ((dm.mul (Formula.constant q)).add dr)

/-- The derivative of a quotient, from the derivatives of its parts. -/
def quotientDerivative (numer denom : List (List (Atom × Nat) × Rat)) (dNumer dDenom : Formula) :
    Option Formula :=
  let top := (dNumer.mul (Formula.ofPoly denom)).sub (dDenom.mul (Formula.ofPoly numer))
  top.div? (Formula.ofPoly (Poly.mul denom denom))

end

def Formula.derivative (d : Direction) (f : Formula) : Option Formula := do
  quotientDerivative f.numer f.denom (← polyDerivative d f.numer) (← polyDerivative d f.denom)

/-- Differentiation by one symbol, all others being constant. -/
def byAtom (a : Atom) : Direction := fun b =>
  Formula.constant (if a.key = b.key then 1 else 0)

/-! ### Values -/

abbrev Point := List (Atom × Float)

def Point.get? (p : Point) (a : Atom) : Option Float :=
  (p.find? fun e => e.1.key = a.key).map (·.2)

def ratToFloat (q : Rat) : Float := (Binary64.ofRatio (decide (q.num < 0)) q.num.natAbs q.den).toFloat

def Fn.value : Fn → Float → Float
  | .sin, x => x.sin
  | .cos, x => x.cos
  | .tan, x => x.tan
  | .log, x => x.log
  | .abs, x => x.abs

def powFloat (x : Float) : Nat → Float
  | 0 => 1
  | 1 => x
  | n + 1 => x * powFloat x n

mutual

/-- The value of an atom; none if it depends on a symbol without a value. -/
def Atom.value (p : Point) : Atom → Option Float
  | .static s => p.get? (.static s)
  | .dynamic s => p.get? (.dynamic s)
  | .rate s => p.get? (.rate s)
  | .call f n u => do
    let a ← polyValue p n
    let b ← polyValue p u
    some (f.value (a / b))
  | .power b bu e eu => do
    let base ← polyValue p b
    let baseUnder ← polyValue p bu
    let exponent ← polyValue p e
    let exponentUnder ← polyValue p eu
    some ((base / baseUnder).pow (exponent / exponentUnder))

def monomialValue (p : Point) : List (Atom × Nat) → Option Float
  | [] => some 1
  | (a, n) :: rest => do
    let x ← Atom.value p a
    let y ← monomialValue p rest
    some (powFloat x n * y)

def polyValue (p : Point) : List (List (Atom × Nat) × Rat) → Option Float
  | [] => some 0
  | (m, q) :: rest => do
    let x ← monomialValue p m
    let y ← polyValue p rest
    some (ratToFloat q * x + y)

end

def Formula.value (p : Point) (f : Formula) : Option Float := do
  let a ← polyValue p f.numer
  let b ← polyValue p f.denom
  some (a / b)

end Modelica.Ode
