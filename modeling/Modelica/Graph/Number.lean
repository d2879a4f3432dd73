/-
The value of a number as it is written: an integer when it has digits only,
a double otherwise.
-/
import Modelica.Element

namespace Modelica

def digitsValue (cs : List Char) : Nat := cs.foldl (fun n c => 10 * n + (c.toNat - '0'.toNat)) 0

/-- The value of digits, with the point `-shift` places before their end, and of an exponent behind them. -/
def scaled? (digits : Nat) (shift : Int) : List Char → Option Binary64
  | [] => some (.ofDecimal false digits shift)
  | e :: more =>
    if e = 'e' ∨ e = 'E' then
      let (negative, ds) := match more with
        | '-' :: ds => (true, ds)
        | '+' :: ds => (false, ds)
        | ds => (false, ds)
      if ds.isEmpty || !ds.all Char.isDigit then none
      else
        let x : Int := digitsValue ds
        some (.ofDecimal false digits (shift + (if negative then -x else x)))
    else none

/-- The value of `digits [. digits] [e [sign] digits]`; none for other texts. -/
def decimal? (cs : List Char) : Option Binary64 :=
  let whole := cs.takeWhile Char.isDigit
  let rest := cs.dropWhile Char.isDigit
  let (fraction, rest) := match rest with
    | '.' :: more => (more.takeWhile Char.isDigit, more.dropWhile Char.isDigit)
    | _ => ([], rest)
  if whole.isEmpty && fraction.isEmpty then none
  else scaled? (digitsValue (whole ++ fraction)) (-(fraction.length : Int)) rest

def numberValue? (text : String) : Option Value :=
  let cs := text.toList
  if cs.all Char.isDigit ∧ cs ≠ [] ∧ cs.length ≤ 4300 then some (.int (digitsValue cs))
  else (decimal? cs).map .real

end Modelica
