/-
The terms of scripts, read from their text.

Powers bind tighter than a sign in front of them, signs tighter than products
and quotients, and these tighter than sums and differences. Powers associate
to the right, all else to the left.
-/
namespace Modelica.Script

inductive Operator where
  | plus | minus | times | divided | power
deriving Repr, DecidableEq, Inhabited

inductive Term where
  | name (s : String)
  | whole (n : Nat)
  /-- `digits * 10 ^ exponent`. -/
  | decimal (digits : Nat) (exponent : Int)
  | sign (negative : Bool) (t : Term)
  | binary (op : Operator) (left right : Term)
  | call (function : String) (arguments : List Term)
  | rate (t : Term)
deriving Repr, Inhabited

namespace Term

/-! ### Tokens -/

inductive Part where
  | name (s : String)
  | whole (n : Nat)
  | decimal (digits : Nat) (exponent : Int)
  | symbol (s : String)
deriving Repr, DecidableEq, Inhabited

def isNameStart (c : Char) : Bool := c.isAlpha || c == '_' || 127 < c.toNat

def isNameChar (c : Char) : Bool := isNameStart c || c.isDigit

def natOf (digits : List Char) : Nat :=
  digits.foldl (fun n c => 10 * n + (c.toNat - '0'.toNat)) 0

/-- The exponent behind the digits of a number, and what follows it. -/
def exponentPart (cs : List Char) : Option (Int × List Char) :=
  match cs with
  | e :: '-' :: rest =>
    if (e = 'e' ∨ e = 'E') ∧ (rest.head?.any Char.isDigit) then
      some (-(natOf (rest.takeWhile Char.isDigit) : Int), rest.dropWhile Char.isDigit)
    else none
  | e :: '+' :: rest =>
    if (e = 'e' ∨ e = 'E') ∧ (rest.head?.any Char.isDigit) then
      some ((natOf (rest.takeWhile Char.isDigit) : Int), rest.dropWhile Char.isDigit)
    else none
  | e :: rest =>
    if (e = 'e' ∨ e = 'E') ∧ (rest.head?.any Char.isDigit) then
      some ((natOf (rest.takeWhile Char.isDigit) : Int), rest.dropWhile Char.isDigit)
    else none
  | [] => none

def numberPart (cs : List Char) : Part × List Char :=
  let before := cs.takeWhile Char.isDigit
  let rest := cs.dropWhile Char.isDigit
  let (fraction, rest, pointed) := match rest with
    | '.' :: more => (more.takeWhile Char.isDigit, more.dropWhile Char.isDigit, true)
    | _ => ([], rest, false)
  let digits := natOf (before ++ fraction)
  match exponentPart rest with
  | some (e, rest) => (.decimal digits (e - fraction.length), rest)
  | none =>
    if pointed then (.decimal digits (-(fraction.length : Int)), rest) else (.whole digits, rest)

/-- The tokens of a text; none if it has a character that cannot stand in a
term. The first argument bounds their number. -/
def partsTo : Nat → List Char → Option (List Part)
  | 0, _ => none
  | _ + 1, [] => some []
  | n + 1, c :: cs =>
    if c = ' ' then partsTo n cs
    else if isNameStart c then do
      let rest ← partsTo n (cs.dropWhile isNameChar)
      some (.name (String.ofList (c :: cs.takeWhile isNameChar)) :: rest)
    else if c.isDigit ∨ (c = '.' ∧ cs.head?.any Char.isDigit) then do
      let (p, rest) := numberPart (c :: cs)
      let rest ← partsTo n rest
      some (p :: rest)
    else if c = '*' ∧ cs.head? = some '*' then do
      let rest ← partsTo n (cs.drop 1)
      some (.symbol "**" :: rest)
    else if ['+', '-', '*', '/', '(', ')', ',', '.'].contains c then do
      let rest ← partsTo n cs
      some (.symbol c.toString :: rest)
    else none

def parts (s : String) : Option (List Part) := partsTo (s.length + 1) s.toList

/-! ### Reading -/

/-- Words with a meaning in the language of scripts, which cannot be names. -/
def keywords : List String := [
  "and", "as", "assert", "async", "await", "break", "class", "continue", "def", "del", "elif", "else",
  "except", "finally", "for", "from", "global", "if", "import", "in", "is", "lambda", "nonlocal", "not",
  "or", "pass", "raise", "return", "try", "while", "with", "yield"]

abbrev Reader := List Part → Option (Term × List Part)

/-- Operands joined by operators of one strength, from the left. -/
def chain (operator : Part → Option Operator) (operand : Reader) : Nat → Term → Reader
  | 0, _, _ => none
  | _ + 1, left, [] => some (left, [])
  | n + 1, left, p :: rest =>
    match operator p with
    | none => some (left, p :: rest)
    | some op => do
      let (right, rest) ← operand rest
      chain operator operand n (.binary op left right) rest

def additive : Part → Option Operator
  | .symbol s => if s = "+" then some .plus else if s = "-" then some .minus else none
  | _ => none

def multiplicative : Part → Option Operator
  | .symbol s => if s = "*" then some .times else if s = "/" then some .divided else none
  | _ => none

def arguments (sum : Reader) : Nat → List Part → Option (List Term × List Part)
  | 0, _ => none
  | n + 1, ps => do
    let (t, rest) ← sum ps
    match rest with
    | .symbol s :: rest =>
      if s = ")" then some ([t], rest)
      else if s = "," then do
        let (ts, rest) ← arguments sum n rest
        some (t :: ts, rest)
      else none
    | _ => none

/-- What is written behind a term to differentiate it by time. -/
def rateMark : List Part :=
  [.symbol ".", .name "diff", .symbol "(", .name "self", .symbol ".", .name "t", .symbol ")"]

def rates : Nat → Term → List Part → Term × List Part
  | 0, t, ps => (t, ps)
  | n + 1, t, ps =>
    if ps.take rateMark.length = rateMark then rates n (.rate t) (ps.drop rateMark.length) else (t, ps)

def atom (sum : Reader) (n : Nat) : Reader
  | .whole k :: rest => some (.whole k, rest)
  | .decimal d e :: rest => some (.decimal d e, rest)
  | .name f :: .symbol s :: rest =>
    if keywords.contains f then none
    else if s = "(" then
      match rest with
      | .symbol ")" :: rest => some (.call f [], rest)
      | _ => do
        let (ts, rest) ← arguments sum n rest
        some (.call f ts, rest)
    else some (.name f, .symbol s :: rest)
  | .name s :: rest => if keywords.contains s then none else some (.name s, rest)
  | .symbol "(" :: rest => do
    let (t, rest) ← sum rest
    match rest with
    | .symbol ")" :: rest => some (t, rest)
    | _ => none
  | _ => none

mutual

def sumTo : Nat → Reader
  | 0, _ => none
  | n + 1, ps => do
    let (left, rest) ← productTo n ps
    chain additive (productTo n) n left rest

def productTo : Nat → Reader
  | 0, _ => none
  | n + 1, ps => do
    let (left, rest) ← factorTo n ps
    chain multiplicative (factorTo n) n left rest

def factorTo : Nat → Reader
  | 0, _ => none
  | n + 1, .symbol s :: rest =>
    if s = "-" ∨ s = "+" then do
      let (t, rest) ← factorTo n rest
      some (.sign (s = "-") t, rest)
    else powerTo n (.symbol s :: rest)
  | n + 1, ps => powerTo n ps

def powerTo : Nat → Reader
  | 0, _ => none
  | n + 1, ps => do
    let (t, rest) ← atom (sumTo n) n ps
    let (base, rest) := rates n t rest
    match rest with
    | .symbol "**" :: rest => do
      let (exponent, rest) ← factorTo n rest
      some (.binary .power base exponent, rest)
    | _ => some (base, rest)

end

def read (s : String) : Option Term := do
  let ps ← parts s
  match sumTo (6 * (ps.length + 2)) ps with
  | some (t, []) => some t
  | _ => none

end Term

def isIdentifier (s : String) : Bool :=
  match s.toList with
  | [] => false
  | c :: cs =>
    Term.isNameStart c && cs.all Term.isNameChar && !Term.keywords.contains s &&
      !(["True", "False", "None"].contains s)

end Modelica.Script
