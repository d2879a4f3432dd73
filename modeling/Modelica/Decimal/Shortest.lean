/-
Decimal digits of exact binary values.

`shortest m e` is the decimal with the fewest digits among those that round
to `m * 2 ^ e`, and of these the nearest to it; `nearest k m e` is the
decimal of `k` digits nearest to it. Both test the two neighbours of the
value on a decimal grid in exact arithmetic.
-/
import Modelica.Decimal.Binary64

namespace Modelica.Decimal

structure Digits where
  digits : Nat
  exponent : Int
deriving Repr, DecidableEq

/-- `2 ^ e` as a quotient of naturals. -/
def pow2 (e : Int) : Nat × Nat :=
  if 0 ≤ e then (Nat.pow 2 e.toNat, 1) else (1, Nat.pow 2 (-e).toNat)

/-- `10 ^ e` as a quotient of naturals. -/
def pow10 (e : Int) : Nat × Nat :=
  if 0 ≤ e then (Nat.pow 10 e.toNat, 1) else (1, Nat.pow 10 (-e).toNat)

/-- `n / d < 10 ^ p`. -/
def belowPow10 (n d : Nat) (p : Int) : Bool :=
  let (a, b) := pow10 p
  decide (n * b < a * d)

def firstAbove (n d : Nat) : Nat → Int → Int
  | 0, p => p
  | k + 1, p => if belowPow10 n d p then p else firstAbove n d k (p + 1)

/-- The least `p` with `n / d < 10 ^ p`, for positive `n` and `d`. -/
def magnitude (n d : Nat) : Int :=
  let guess := ((n.log2 : Int) - d.log2 - 1) * 30103 / 100000 - 1
  firstAbove n d 6 guess

/-- The floor of `n / d` on the grid of multiples of `10 ^ p`. -/
def floorOn (n d : Nat) (p : Int) : Nat :=
  let (a, b) := pow10 p
  n * b / (d * a)

def trim : Nat → Digits → Digits
  | 0, x => x
  | k + 1, x =>
    if x.digits ≠ 0 ∧ x.digits % 10 = 0 then trim k ⟨x.digits / 10, x.exponent + 1⟩ else x

/-- The value interval that rounds to a double: its ends over a common
denominator, and whether the ends themselves belong to it. -/
structure Interval where
  lo : Nat
  mid : Nat
  hi : Nat
  denominator : Nat
  closed : Bool

/-- The reals that round to `m * 2 ^ e`: half a unit on either side, a
quarter below a power of two, the ends included for an even significand. -/
def Interval.ofBinary (m : Nat) (e : Int) : Interval :=
  let (a, b) := pow2 (e - 2)
  let below := if m = Nat.pow 2 52 ∧ -1074 < e then 1 else 2
  ⟨(4 * m - below) * a, 4 * m * a, (4 * m + 2) * a, b, m % 2 = 0⟩

/-- `c * 10 ^ p` lies in the interval. -/
def Interval.holds (i : Interval) (c : Nat) (p : Int) : Bool :=
  let (a, b) := pow10 p
  let x := c * a * i.denominator
  if i.closed then decide (i.lo * b ≤ x ∧ x ≤ i.hi * b) else decide (i.lo * b < x ∧ x < i.hi * b)

/-- The distance of `c * 10 ^ p` from the middle, up to a common factor. -/
def Interval.distance (i : Interval) (c : Nat) (p : Int) : Nat :=
  let (a, b) := pow10 p
  ((c * a * i.denominator : Int) - i.mid * b).natAbs

/-- The neighbour of the middle on the grid `10 ^ p` that lies in the
interval, the nearer of two, the even one in a tie. -/
def Interval.hit? (i : Interval) (p : Int) : Option Nat :=
  let c := floorOn i.mid i.denominator p
  match i.holds c p, i.holds (c + 1) p with
  | true, true =>
    let dl := i.distance c p
    let dh := i.distance (c + 1) p
    some (if dl < dh ∨ (dl = dh ∧ c % 2 = 0) then c else c + 1)
  | true, false => some c
  | false, true => some (c + 1)
  | false, false => none

def Interval.search (i : Interval) (p : Int) : Nat → Digits
  | 0 => ⟨floorOn i.mid i.denominator p, p⟩
  | k + 1 =>
    match i.hit? p with
    | some c => ⟨c, p⟩
    | none => i.search (p - 1) k

def shortest (m : Nat) (e : Int) : Digits :=
  if m = 0 then ⟨0, 0⟩ else
    let i := Interval.ofBinary m e
    trim 400 (i.search (magnitude i.mid i.denominator - 1) 17)

/-- The decimal of `k` digits nearest to `m * 2 ^ e`, a tie to the even
digit, without trailing zeros. -/
def nearest (k : Nat) (m : Nat) (e : Int) : Digits :=
  if m = 0 then ⟨0, 0⟩ else
    let (a, b) := pow2 e
    let p := magnitude (m * a) b - k
    let (c, d) := pow10 p
    trim 400 ⟨Binary64.roundDiv (m * a * d) (b * c), p⟩

end Modelica.Decimal
