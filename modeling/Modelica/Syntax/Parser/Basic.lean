/-
Reading tokens from left to right without going back.

A parser takes tokens off the front of the list. When it meets a token that
nothing it could read next begins with, it stops there: a failure is the list
of tokens that starts with the offending one, empty at the end of the text.
-/
import Modelica.Token

namespace Modelica.Syntax

/-- A reader of tokens. Its failure is the tokens from the offending one on. -/
abbrev Parser := StateT (List Token) (Except (List Token))

namespace Parser

variable {α : Type}

def stop : Parser α := fun ts => .error ts

def peek : Parser (Option Token) := fun ts => .ok (ts.head?, ts)

def peekSecond : Parser (Option Token) := fun ts => .ok ((ts.drop 1).head?, ts)

def sees (word : String) : Parser Bool := fun ts => .ok (ts.head?.any (·.is word), ts)

/-- Whether the next token is one of the given keywords or signs. -/
def seesAny (words : List String) : Parser Bool := fun ts =>
  .ok (ts.head?.any fun t => words.any fun w => t.is w, ts)

def seesTerminal (terminal : Terminal) : Parser Bool := fun ts =>
  .ok (ts.head?.any (·.terminal == terminal), ts)

def literal (word : String) : Parser Unit := fun ts =>
  match ts with
  | t :: rest => if t.is word then .ok ((), rest) else .error ts
  | [] => .error ts

/-- Takes the given keyword or sign if it is next, and says whether it was. -/
def accept (word : String) : Parser Bool := fun ts =>
  match ts with
  | t :: rest => if t.is word then .ok (true, rest) else .ok (false, ts)
  | [] => .ok (false, ts)

def acceptAny (words : List String) : Parser (Option String) := fun ts =>
  match ts with
  | t :: rest => if words.any (fun w => t.is w) then .ok (some t.text, rest) else .ok (none, ts)
  | [] => .ok (none, ts)

def terminal (k : Terminal) : Parser String := fun ts =>
  match ts with
  | t :: rest => if t.terminal == k then .ok (t.text, rest) else .error ts
  | [] => .error ts

def ident : Parser String := terminal .ident

def repeatAux (more : List Token → Bool) (p : Parser α) : Nat → Parser (List α)
  | 0 => pure []
  | k + 1 => fun ts =>
    if more ts then (do
      let a ← p
      let rest ← repeatAux more p k
      pure (a :: rest)) ts
    else .ok ([], ts)

def repeatWhile (more : List Token → Bool) (p : Parser α) : Parser (List α) := fun ts =>
  repeatAux more p ts.length ts

/-- Reads `p` again after each `separator`. -/
def moreAfter (separator : String) (p : Parser α) : Parser (List α) :=
  repeatWhile (fun ts => ts.head?.any (·.is separator)) (do literal separator; p)

def separated (separator : String) (p : Parser α) : Parser (List α) := do
  let first ← p
  let rest ← moreAfter separator p
  pure (first :: rest)

end Parser
end Modelica.Syntax
