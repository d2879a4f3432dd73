/-
Data read from object notation.

Numbers with a fraction or an exponent are doubles, others integers. Infinite
numbers and undefined ones may be written by name. When a group has two
members of one name, the later one counts, in the place of the first.
-/
import Modelica.Data
import Modelica.Table

namespace Modelica.Data

def isSpace (c : Char) : Bool := c = ' ' ∨ c = '\t' ∨ c = '\n' ∨ c = '\r'

def skip (cs : List Char) : List Char := cs.dropWhile isSpace

def hexValue? (c : Char) : Option Nat :=
  if '0' ≤ c ∧ c ≤ '9' then some (c.toNat - '0'.toNat)
  else if 'a' ≤ c ∧ c ≤ 'f' then some (c.toNat - 'a'.toNat + 10)
  else if 'A' ≤ c ∧ c ≤ 'F' then some (c.toNat - 'A'.toNat + 10)
  else none

def unit? : List Char → Option (Nat × List Char)
  | a :: b :: c :: d :: rest => do
    let a ← hexValue? a
    let b ← hexValue? b
    let c ← hexValue? c
    let d ← hexValue? d
    some (((a * 16 + b) * 16 + c) * 16 + d, rest)
  | _ => none

def unicode? (cs : List Char) : Option (Char × List Char) := do
  let (high, rest) ← unit? cs
  match rest with
  | '\\' :: 'u' :: more =>
    match unit? more with
    | some (low, after) =>
      if 0xd800 ≤ high ∧ high < 0xdc00 ∧ 0xdc00 ≤ low ∧ low < 0xe000 then
        some (Char.ofNat (0x10000 + (high - 0xd800) * 0x400 + (low - 0xdc00)), after)
      else some (Char.ofNat high, rest)
    | none => some (Char.ofNat high, rest)
  | _ => some (Char.ofNat high, rest)

/-- What a letter behind a backslash stands for. -/
def escape? : Char → Option Char
  | '"' => some '"'
  | '\\' => some '\\'
  | '/' => some '/'
  | 'b' => some (Char.ofNat 8)
  | 'f' => some (Char.ofNat 12)
  | 'n' => some '\n'
  | 'r' => some '\r'
  | 't' => some '\t'
  | _ => none

def textRest : Nat → List Char → Option (List Char × List Char)
  | 0, _ => none
  | _ + 1, [] => none
  | n + 1, c :: cs =>
    if c = '"' then some ([], cs)
    else if c = '\\' then
      match cs with
      | 'u' :: rest => do
        let (d, rest) ← unicode? rest
        let (s, rest) ← textRest n rest
        some (d :: s, rest)
      | d :: rest => do
        let d ← escape? d
        let (s, rest) ← textRest n rest
        some (d :: s, rest)
      | [] => none
    else if c.toNat < 32 then none
    else do
      let (s, rest) ← textRest n cs
      some (c :: s, rest)

def text? (cs : List Char) : Option (String × List Char) := do
  let (s, rest) ← textRest (cs.length + 1) cs
  some (String.ofList s, rest)

def natOf (digits : List Char) : Nat :=
  digits.foldl (fun n c => 10 * n + (c.toNat - '0'.toNat)) 0

def wholeDigits : List Char → Option (List Char × List Char)
  | '0' :: rest => some (['0'], rest)
  | cs =>
    let ds := cs.takeWhile Char.isDigit
    if ds.isEmpty then none else some (ds, cs.dropWhile Char.isDigit)

def fractionDigits (cs : List Char) : List Char × List Char :=
  match cs with
  | '.' :: rest =>
    let ds := rest.takeWhile Char.isDigit
    if ds.isEmpty then ([], cs) else (ds, rest.dropWhile Char.isDigit)
  | _ => ([], cs)

def exponent? (cs : List Char) : Option (Int × List Char) :=
  match cs with
  | e :: rest =>
    if e = 'e' ∨ e = 'E' then
      let (negative, rest) := match rest with
        | '-' :: more => (true, more)
        | '+' :: more => (false, more)
        | more => (false, more)
      let ds := rest.takeWhile Char.isDigit
      if ds.isEmpty then none
      else some (if negative then -(natOf ds : Int) else natOf ds, rest.dropWhile Char.isDigit)
    else none
  | [] => none

def number? (cs : List Char) : Option (Data × List Char) := do
  let (negative, cs) := match cs with
    | '-' :: rest => (true, rest)
    | _ => (false, cs)
  let (before, rest) ← wholeDigits cs
  let (fraction, rest) := fractionDigits rest
  let digits := natOf (before ++ fraction)
  match exponent? rest with
  | some (e, rest) => some (.number (Binary64.ofDecimal negative digits (e - fraction.length)), rest)
  | none =>
    if fraction.isEmpty then some (.whole (if negative then -(digits : Int) else digits), rest)
    else some (.number (Binary64.ofDecimal negative digits (-(fraction.length : Int))), rest)

def scalar? (cs : List Char) : Option (Data × List Char) :=
  let named : List (String × Data) := [
    ("null", .null), ("true", .flag true), ("false", .flag false), ("NaN", .number .nan),
    ("Infinity", .number (.infinite false)), ("-Infinity", .number (.infinite true))]
  match named.find? fun e => e.1.toList.isPrefixOf cs with
  | some (name, d) => some (d, cs.drop name.length)
  | none => number? cs

abbrev DataReader := List Char → Option (Data × List Char)

def items (value : DataReader) : Nat → List Char → Option (List Data × List Char)
  | 0, _ => none
  | n + 1, cs => do
    let (d, rest) ← value (skip cs)
    match skip rest with
    | ',' :: rest => do
      let (ds, rest) ← items value n rest
      some (d :: ds, rest)
    | ']' :: rest => some ([d], rest)
    | _ => none

def members (value : DataReader) : Nat → List Char → Option (List (String × Data) × List Char)
  | 0, _ => none
  | n + 1, cs =>
    match skip cs with
    | '"' :: rest => do
      let (name, rest) ← text? rest
      match skip rest with
      | ':' :: rest => do
        let (d, rest) ← value (skip rest)
        match skip rest with
        | ',' :: rest => do
          let (ms, rest) ← members value n rest
          some ((name, d) :: ms, rest)
        | c :: rest => if c.toNat = 0x7d then some ([(name, d)], rest) else none
        | [] => none
      | _ => none
    | _ => none

def valueTo : Nat → DataReader
  | 0, _ => none
  | n + 1, cs =>
    match cs with
    | '"' :: rest => do
      let (s, rest) ← text? rest
      some (.text s, rest)
    | '[' :: rest =>
      match skip rest with
      | ']' :: rest => some (.list [], rest)
      | _ => do
        let (ds, rest) ← items (valueTo n) (rest.length + 1) rest
        some (.list ds, rest)
    | c :: rest =>
      if c.toNat = 0x7b then
        match skip rest with
        | d :: more =>
          if d.toNat = 0x7d then some (.group [], more)
          else do
            let (ms, rest) ← members (valueTo n) (rest.length + 1) rest
            some (.group (Table.ofList ms).entries, rest)
        | [] => none
      else scalar? cs
    | [] => none

def read (s : String) : Option Data := do
  let (d, rest) ← valueTo (s.length + 1) (skip s.toList)
  if (skip rest).isEmpty then some d else none

end Modelica.Data
