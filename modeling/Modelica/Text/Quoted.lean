/-
Quoted texts.

`Quoted.object` writes a text between double quotes in printable ASCII only:
every other character is given by the UTF-16 units it has. `Quoted.literal`
keeps what can be seen, and prefers single quotes.
-/
import Modelica.Text.Printable

namespace Modelica.Text.Quoted

/-- The hexadecimal digits of a number, filled up with zeros. -/
def hex (width n : Nat) : String :=
  let ds := Nat.toDigits 16 n
  String.ofList (List.replicate (width - ds.length) '0' ++ ds)

def units (c : Char) : List Nat :=
  if c.toNat < 0x10000 then [c.toNat]
  else [0xd800 + (c.toNat - 0x10000) / 0x400, 0xdc00 + (c.toNat - 0x10000) % 0x400]

def objectChar (c : Char) : String :=
  if c = '"' then "\\\""
  else if c = '\\' then "\\\\"
  else if c = '\n' then "\\n"
  else if c = '\r' then "\\r"
  else if c = '\t' then "\\t"
  else if c.toNat = 12 then "\\f"
  else if c.toNat = 8 then "\\b"
  else if 32 ≤ c.toNat ∧ c.toNat ≤ 126 then c.toString
  else String.join ((units c).map fun u => "\\u" ++ hex 4 u)

def object (s : String) : String := "\"" ++ String.join (s.toList.map objectChar) ++ "\""

def literalChar (quote c : Char) : String :=
  if c = quote ∨ c = '\\' then "\\" ++ c.toString
  else if c = '\n' then "\\n"
  else if c = '\r' then "\\r"
  else if c = '\t' then "\\t"
  else if isPrintable c then c.toString
  else if c.toNat < 0x100 then "\\x" ++ hex 2 c.toNat
  else if c.toNat < 0x10000 then "\\u" ++ hex 4 c.toNat
  else "\\U" ++ hex 8 c.toNat

/-- A text as a literal: in single quotes, unless it has single quotes and no
double ones. -/
def literal (s : String) : String :=
  let quote := if s.contains '\'' && !s.contains '"' then '"' else '\''
  quote.toString ++ String.join (s.toList.map (literalChar quote)) ++ quote.toString

end Modelica.Text.Quoted
