/-
Double-precision numbers as exact values `± significand * 2 ^ exponent`.

`ofRatio` rounds a quotient of naturals to the nearest double, a tie to the
even significand, and `ofDecimal` does so for `digits * 10 ^ exponent`.
Nothing here uses machine arithmetic; `toFloat` and `ofFloat` join the exact
values to machine numbers for the parts that compute with them.
-/
namespace Modelica

/-- A double. A finite one is canonical: its significand is below `2 ^ 53`,
and at least `2 ^ 52` unless the exponent is the least one, `-1074`. -/
inductive Binary64 where
  | finite (negative : Bool) (significand : Nat) (exponent : Int)
  | infinite (negative : Bool)
  | nan
deriving Repr, DecidableEq, Inhabited

namespace Binary64

def zero : Binary64 := .finite false 0 (-1074)

/-- `n * 2 ^ (-e) / d` as a pair of naturals. -/
def scaled (n d : Nat) (e : Int) : Nat × Nat :=
  if 0 ≤ e then (n, d * Nat.pow 2 e.toNat) else (n * Nat.pow 2 (-e).toNat, d)

/-- The exponent that gives `n / d` a significand of 53 bits, or `-1074`. -/
def unitExponent (n d : Nat) : Int :=
  let e : Int := (n.log2 : Int) - d.log2 - 52
  let (a, b) := scaled n d e
  max (if a / b < Nat.pow 2 52 then e - 1 else e) (-1074)

/-- The quotient of naturals nearest to `a / b`, a tie to the even one. -/
def roundDiv (a b : Nat) : Nat :=
  let q := a / b
  let r := a % b
  if 2 * r > b ∨ (2 * r = b ∧ q % 2 = 1) then q + 1 else q

def ofRatio (negative : Bool) (n d : Nat) : Binary64 :=
  if n = 0 then .finite negative 0 (-1074) else
    let e := unitExponent n d
    let (a, b) := scaled n d e
    let q := roundDiv a b
    let (q, e) := if q = Nat.pow 2 53 then (Nat.pow 2 52, e + 1) else (q, e)
    if e > 971 then .infinite negative else .finite negative q e

def decimalLength (n : Nat) : Nat := if n = 0 then 0 else (Nat.toDigits 10 n).length

/-- `digits * 10 ^ exponent`, correctly rounded. Exponents far outside the
range of doubles are settled by size alone. -/
def ofDecimal (negative : Bool) (digits : Nat) (exponent : Int) : Binary64 :=
  let size : Int := (decimalLength digits : Int) + exponent
  if digits = 0 ∨ size < -340 then .finite negative 0 (-1074)
  else if size > 320 then .infinite negative
  else if 0 ≤ exponent then ofRatio negative (digits * Nat.pow 10 exponent.toNat) 1
  else ofRatio negative digits (Nat.pow 10 (-exponent).toNat)

def ofInt (i : Int) : Binary64 := ofRatio (decide (i < 0)) i.natAbs 1

def isZero : Binary64 → Bool
  | .finite _ m _ => m = 0
  | _ => false

def toFloat : Binary64 → Float
  | .finite s m e =>
    let x := (Float.ofNat m).scaleB e
    if s then -x else x
  | .infinite s => if s then -(1.0 / 0.0) else 1.0 / 0.0
  | .nan => 0.0 / 0.0

def ofFloat (x : Float) : Binary64 :=
  let bits := x.toBits.toNat
  let negative := decide (bits / Nat.pow 2 63 = 1)
  let biased : Nat := bits / Nat.pow 2 52 % 2048
  let fraction : Nat := bits % Nat.pow 2 52
  if biased = 2047 then
    if fraction = 0 then .infinite negative else .nan
  else if biased = 0 then .finite negative fraction (-1074)
  else .finite negative (Nat.pow 2 52 + fraction) ((biased : Int) - 1075)

end Binary64
end Modelica
