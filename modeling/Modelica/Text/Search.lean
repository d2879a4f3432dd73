/-
Texts inside texts.

`afterFirst?` and `beforeLast?` cut a text at the first and at the last place
where another one occurs in it.
-/
namespace Modelica.Text

def beginsWith (start s : String) : Bool := start.toList.isPrefixOf s.toList

def afterStart? (start s : String) : Option String :=
  if beginsWith start s then some (String.ofList (s.toList.drop start.length)) else none

def beforeEnd? (stop s : String) : Option String :=
  if stop.toList.isSuffixOf s.toList then
    some (String.ofList (s.toList.take (s.length - stop.length)))
  else none

def afterFirstIn? (part : List Char) : List Char → Option (List Char)
  | [] => if part.isEmpty then some [] else none
  | c :: cs =>
    if part.isPrefixOf (c :: cs) then some ((c :: cs).drop part.length) else afterFirstIn? part cs

def afterFirst? (part s : String) : Option String :=
  (afterFirstIn? part.toList s.toList).map String.ofList

def beforeLast? (part s : String) : Option String :=
  (afterFirstIn? part.toList.reverse s.toList.reverse).map fun cs => String.ofList cs.reverse

def occursIn (part s : String) : Bool := (afterFirst? part s).isSome

def replaceFirst (c : Char) (new : List Char) : List Char → List Char
  | [] => []
  | d :: ds => if d = c then new ++ ds else d :: replaceFirst c new ds

end Modelica.Text
