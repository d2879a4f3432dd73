/-
Blanks and lines of texts.

Blanks are the white space of Unicode together with the four separators below
the space. Lines may end in a line feed, a carriage return or both; in texts
that were read from files all of these are line feeds (`unifyLines`).
-/
namespace Modelica.Text

/-- Blanks above the characters of one byte. -/
def wideBlanks : List (Nat × Nat) :=
  [(0x1680, 0x1680), (0x2000, 0x200a), (0x2028, 0x2029), (0x202f, 0x202f), (0x205f, 0x205f),
   (0x3000, 0x3000)]

def isBlank (c : Char) : Bool :=
  let n := c.toNat
  n = 32 ∨ (9 ≤ n ∧ n ≤ 13) ∨ (0x1c ≤ n ∧ n ≤ 0x1f) ∨ n = 0x85 ∨ n = 0xa0 ∨
    wideBlanks.any fun r => r.1 ≤ n ∧ n ≤ r.2

/-- Takes the characters with a property away from both ends. -/
def trimBy (p : Char → Bool) (s : String) : String :=
  String.ofList (((s.toList.dropWhile p).reverse.dropWhile p).reverse)

def trim (s : String) : String := trimBy isBlank s

def trimRight (s : String) : String := String.ofList ((s.toList.reverse.dropWhile isBlank).reverse)

def cutAt {α : Type} (p : α → Bool) : List α → List (List α)
  | [] => [[]]
  | x :: xs =>
    match p x, cutAt p xs with
    | true, parts => [] :: parts
    | false, [] => [[x]]
    | false, part :: parts => (x :: part) :: parts

def words (s : String) : List String :=
  ((cutAt isBlank s.toList).filter fun w => !w.isEmpty).map String.ofList

/-- Makes every line end in a line feed alone. -/
def unifyEnds : List Char → List Char
  | [] => []
  | '\r' :: '\n' :: rest => '\n' :: unifyEnds rest
  | '\r' :: rest => '\n' :: unifyEnds rest
  | c :: rest => c :: unifyEnds rest

def unifyLines (s : String) : String := String.ofList (unifyEnds s.toList)

/-- The lines of a text, without their ends. A text that ends in a line feed
has no further line behind it. -/
def lines (s : String) : List String :=
  let parts := (cutAt (· == '\n') s.toList).map String.ofList
  if parts.getLast? = some "" then parts.dropLast else parts

end Modelica.Text
