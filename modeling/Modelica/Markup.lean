/-
Markup: trees of tagged elements with attributes, and their text.

`Markup.text` writes one tag on a line, indented by its depth, in ASCII. In
attributes the characters with a meaning of their own, the blanks other than
the space, and all that is not ASCII are written as references; control
characters cannot be written at all (`isWritable`).
-/
namespace Modelica

inductive Markup where
  | element (tag : String) (attributes : List (String × String)) (children : List Markup)
deriving Repr, Inhabited

namespace Markup

def isWritable (c : Char) : Bool :=
  let n := c.toNat
  n = 9 ∨ n = 10 ∨ n = 13 ∨ (32 ≤ n ∧ n ≠ 0xfffe ∧ n ≠ 0xffff)

def attributeChar (c : Char) : String :=
  if c = '&' then "&amp;"
  else if c = '<' then "&lt;"
  else if c = '>' then "&gt;"
  else if c = '"' then "&quot;"
  else if c = '\t' ∨ c = '\n' ∨ c = '\r' ∨ 127 < c.toNat then "&#" ++ toString c.toNat ++ ";"
  else c.toString

def attributeText (a : String × String) : String :=
  " " ++ a.1 ++ "=\"" ++ String.join (a.2.toList.map attributeChar) ++ "\""

/-- The blanks in front of a tag: two for each element around it, but no more
than sixty. -/
def margin (depth : Nat) : String := String.ofList (List.replicate (min (2 * depth) 60) ' ')

mutual

/-- The lines of an element that stands inside `depth` others. -/
def textAt (depth : Nat) : Markup → String
  | .element tag attributes children =>
    let start := margin depth ++ "<" ++ tag ++ String.join (attributes.map attributeText)
    match children with
    | [] => start ++ "/>\n"
    | c :: cs =>
      start ++ ">\n" ++ textAt (depth + 1) c ++ textsAt (depth + 1) cs ++
        margin depth ++ "</" ++ tag ++ ">\n"

def textsAt (depth : Nat) : List Markup → String
  | [] => ""
  | m :: rest => textAt depth m ++ textsAt depth rest

end

def text (m : Markup) : String := m.textAt 0

end Markup
end Modelica
