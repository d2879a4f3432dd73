/-
How a decimal number is laid out as text: positional for moderate exponents,
with an exponent mark otherwise.

A `Layout` is a rule; `Layout.value` writes the numbers of model texts and
`Layout.general k` the numbers of reports, with `k` significant digits.
-/
import Modelica.Decimal.Shortest

namespace Modelica.Decimal

/-- Positional notation is used for numbers whose leading digit stands for
`10 ^ x` with `-4 ≤ x` and `x < positionalBelow`. -/
structure Layout where
  positionalBelow : Int
  /-- Whether a whole number keeps `.0` in positional notation. -/
  pointZero : Bool
  infinity : String
  nan : String

def Digits.text (x : Digits) : String := String.ofList (Nat.toDigits 10 x.digits)

def Digits.leading (x : Digits) : Int := x.exponent + (Nat.toDigits 10 x.digits).length - 1

def zeros (n : Nat) : String := String.ofList (List.replicate n '0')

def exponentText (x : Int) : String :=
  let ds := String.ofList (Nat.toDigits 10 x.natAbs)
  (if x < 0 then "-" else "+") ++ (if x.natAbs < 10 then "0" ++ ds else ds)

def Layout.unsigned (l : Layout) (x : Digits) : String :=
  let ds := x.text.toList
  let lead := x.leading
  if -4 ≤ lead ∧ lead < l.positionalBelow then
    if lead < 0 then
      "0." ++ zeros (-lead - 1).toNat ++ String.ofList ds
    else
      let whole := ds.take (lead.toNat + 1)
      let pad := zeros (lead.toNat + 1 - ds.length)
      let fraction := ds.drop (lead.toNat + 1)
      String.ofList whole ++ pad ++
        (if fraction.isEmpty then (if l.pointZero then ".0" else "") else "." ++ String.ofList fraction)
  else
    let rest := ds.drop 1
    String.ofList (ds.take 1) ++ (if rest.isEmpty then "" else "." ++ String.ofList rest) ++
      "e" ++ exponentText lead

def Layout.write (l : Layout) (digitsOf : Nat → Int → Digits) : Binary64 → String
  | .finite s m e => (if s then "-" else "") ++ l.unsigned (digitsOf m e)
  | .infinite s => (if s then "-" else "") ++ l.infinity
  | .nan => l.nan

/-- Numbers in model texts: positional below `10 ^ 16`, `.0` kept. -/
def Layout.value : Layout := ⟨16, true, "inf", "nan"⟩

/-- Numbers in object notation, where infinity is spelled out. -/
def Layout.object : Layout := ⟨16, true, "Infinity", "NaN"⟩

def Layout.general (k : Nat) : Layout := ⟨k, false, "inf", "nan"⟩

end Modelica.Decimal

namespace Modelica.Binary64

open Decimal

def text (x : Binary64) : String := Layout.value.write shortest x

def general (k : Nat) (x : Binary64) : String := (Layout.general k).write (nearest k) x

end Modelica.Binary64
