/-
Systems of equations that are linear in their unknowns.

`solve` brings a system into reduced form, taking the unknowns in the order
given, and expresses each unknown that it can by those that stay free. A
system with an equation that says nothing about the unknowns and is not
trivial has no solution.
-/
import Modelica.Ode.Formula
import Modelica.Fault

namespace Modelica.Ode

/-- An equation: the coefficients of the unknowns, in their order, and the
rest. It says that the sum is zero. -/
structure Row where
  coefficients : List Poly
  rest : Poly
deriving Repr, Inhabited

namespace Row

def scale (p : Poly) (r : Row) : Row := ⟨r.coefficients.map p.mul, p.mul r.rest⟩

def sub (r s : Row) : Row := ⟨List.zipWith Poly.sub r.coefficients s.coefficients, r.rest.sub s.rest⟩

def isTrivial (r : Row) : Bool := r.coefficients.all Poly.isZero && r.rest.isZero

def isContradiction (r : Row) : Bool := r.coefficients.all Poly.isZero && !r.rest.isZero

def coefficient (r : Row) (column : Nat) : Poly := (r.coefficients[column]?).getD []

/-- Cancels the monomial that divides the whole row, and makes its first
coefficient one. -/
def reduce (r : Row) : Row :=
  let polys := (r.rest :: r.coefficients).filter fun p => !p.isZero
  match polys with
  | [] => r
  | p :: ps =>
    let m := ps.foldl (fun m q => Monomial.meet m q.content) p.content
    let c := match p with
      | (_, q) :: _ => 1 / q
      | [] => 1
    ⟨r.coefficients.map fun p => (p.divideMonomial m).scale c, (r.rest.divideMonomial m).scale c⟩

/-- Takes the unknown of a column out of a row by means of another one. -/
def eliminate (column : Nat) (pivot r : Row) : Row :=
  if (r.coefficient column).isZero then r
  else ((r.scale (pivot.coefficient column)).sub (pivot.scale (r.coefficient column))).reduce

end Row

def extract {α : Type} (p : α → Bool) : List α → Option (α × List α)
  | [] => none
  | x :: xs => if p x then some (x, xs) else (extract p xs).map fun (y, ys) => (y, x :: ys)

/-- Goes through the columns. The rows that were used already, each with its
column, come first, then those that are left. -/
def reduceColumns : List Nat → List (Nat × Row) → List Row → List (Nat × Row) × List Row
  | [], used, left => (used, left)
  | c :: columns, used, left =>
    match extract (fun r => !(r.coefficient c).isZero) left with
    | none => reduceColumns columns used left
    | some (pivot, left) =>
      let used := used.map fun u => (u.1, Row.eliminate c pivot u.2)
      reduceColumns columns (used ++ [(c, pivot)]) (left.map (Row.eliminate c pivot))

def rowValue (unknowns : List Atom) (column : Nat) (r : Row) : Formula :=
  let others := (unknowns.zip r.coefficients).mapIdx fun i (a, p) =>
    if i = column then [] else p.mul (Poly.ofAtom a)
  Formula.reduce ⟨(others.foldl Poly.add r.rest).neg, r.coefficient column⟩

/-- The unknowns that the rows determine, with their values. None if the rows
contradict each other, or if they all are trivial. -/
def solve (unknowns : List Atom) (rows : List Row) : Option (List (Atom × Formula)) :=
  let rows := (rows.filter fun r => !r.isTrivial).map Row.reduce
  let (used, left) := reduceColumns (List.range unknowns.length) [] rows
  if used.isEmpty ∨ left.any Row.isContradiction then none
  else some (used.filterMap fun (c, r) => (unknowns[c]?).map fun a => (a, rowValue unknowns c r))

mutual

def Atom.mentions (as : List Atom) : Atom → Bool
  | .call f n u =>
    as.any (fun a => a.key == Atom.key (.call f n u)) || polyMentions as n || polyMentions as u
  | .power b bu e eu =>
    polyMentions as b || polyMentions as bu || polyMentions as e || polyMentions as eu
  | .static s => as.any fun a => a.key == Atom.key (.static s)
  | .dynamic s => as.any fun a => a.key == Atom.key (.dynamic s)
  | .rate s => as.any fun a => a.key == Atom.key (.rate s)

def monomialMentions (as : List Atom) : List (Atom × Nat) → Bool
  | [] => false
  | (a, _) :: rest => Atom.mentions as a || monomialMentions as rest

def polyMentions (as : List Atom) : List (List (Atom × Nat) × Rat) → Bool
  | [] => false
  | (m, _) :: rest => monomialMentions as m || polyMentions as rest

end

def enterTerm (unknowns : List Atom) (t : Monomial × Rat) (r : Row) : Except Fault Row :=
  match unknowns.findIdx? fun a => Monomial.degree a t.1 ≠ 0 with
  | none =>
    if monomialMentions unknowns t.1 then throw .nonlinear
    else pure { r with rest := r.rest.enter t.1 t.2 }
  | some i => do
    let a := (unknowns[i]?).getD (.static "")
    let m := Monomial.lower a 1 t.1
    if monomialMentions unknowns m then throw .nonlinear
    else pure { r with coefficients := r.coefficients.modify i fun p => p.enter m t.2 }

/-- The row of the equation that says that a polynomial is zero. -/
def rowOf (unknowns : List Atom) (p : Poly) : Except Fault Row :=
  p.foldlM (fun r t => enterTerm unknowns t r) ⟨unknowns.map fun _ => [], []⟩

end Modelica.Ode
