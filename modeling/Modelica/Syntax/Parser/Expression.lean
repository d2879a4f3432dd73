/-
Reading expressions.

Operators bind by level, all of them to the left: unary minus tightest, then
products, sums, relations, `not`, `and`, `or`. A power joins two primaries
and takes no further power. What follows `not` reaches down to relations,
even as the right operand of a tighter operator.
-/
import Modelica.Syntax
import Modelica.Syntax.Parser.Basic

namespace Modelica.Syntax

def BinaryOp.joiners : List (String × BinaryOp × Nat) := [
  ("*", .mul, 7), ("/", .div, 7), (".*", .elemMul, 7), ("./", .elemDiv, 7),
  ("+", .add, 6), ("-", .sub, 6), (".+", .elemAdd, 6), (".-", .elemSub, 6),
  ("<", .lt, 5), ("<=", .le, 5), (">", .gt, 5), (">=", .ge, 5), ("==", .eq, 5), ("<>", .ne, 5),
  ("and", .and, 3), ("or", .or, 2)]

def BinaryOp.ofToken? (t : Token) : Option (BinaryOp × Nat) :=
  (BinaryOp.joiners.find? fun e => t.is e.1).map (·.2)

namespace Parser

/-- The operator at the front if it binds at least as tightly as `level`. -/
def joinerAt? (level : Nat) : Parser (Option (BinaryOp × Nat)) := fun ts =>
  .ok ((ts.head?.bind BinaryOp.ofToken?).filter fun o => decide (level ≤ o.2), ts)

def dotted : Parser (List String) := separated "." ident

/-- A dotted name that may begin with a point, as it is written. -/
def qualifiedName : Parser String := do
  let rooted ← accept "."
  let names ← dotted
  pure ((if rooted then "." else "") ++ String.intercalate "." names)

/-- Whether a comma and a further iterator follow, rather than a comma and an
argument: behind the comma stands a name, and behind the name what may come
after an iterator. -/
def isBeforeIterator : List Token → Bool
  | comma :: name :: next :: _ =>
    comma.is "," && name.terminal == .ident &&
      [",", "for", "in", ")", "\x7d"].any fun word => next.is word
  | _ => false

mutual

def expression : Nat → Parser Expr
  | 0 => stop
  | n + 1 => do
    if ← accept "if" then
      let condition ← expression n
      literal "then"
      let value ← expression n
      let others ← repeatWhile (fun ts => ts.head?.any (·.is "elseif")) (do
        literal "elseif"
        let c ← expression n
        literal "then"
        let v ← expression n
        pure (Alternative.mk c v))
      literal "else"
      let otherwise ← expression n
      pure (.conditional (.mk condition value :: others) otherwise)
    else
      simpleExpression n

def simpleExpression : Nat → Parser Expr
  | 0 => stop
  | n + 1 => do
    let start ← operation n 0
    if ← accept ":" then
      let stop ← operation n 0
      if ← accept ":" then
        let step ← operation n 0
        pure (.range [start, stop, step])
      else
        pure (.range [start, stop])
    else
      pure start

/-- An expression whose operators bind at least as tightly as `level`. -/
def operation : Nat → Nat → Parser Expr
  | 0, _ => stop
  | n + 1, level => do
    let first ← operand n
    operators n level first

/-- What an operator may be applied to: a power or a signed operand. -/
def operand : Nat → Parser Expr
  | 0 => stop
  | n + 1 => do
    if ← accept "-" then (do pure (.neg (← operation n 9)))
    else if ← accept "not" then (do pure (.not (← operation n 4)))
    else power n

/-- Operators and their right operands after the left operand `left`. -/
def operators : Nat → Nat → Expr → Parser Expr
  | 0, _, _ => stop
  | n + 1, level, left => do
    match ← joinerAt? level with
    | some (op, strength) =>
      literal op.text
      let right ← operation n (strength + 1)
      operators n level (.binary op left right)
    | none => pure left

def power : Nat → Parser Expr
  | 0 => stop
  | n + 1 => do
    let base ← primary n
    if ← accept "^" then (do pure (.binary .pow base (← primary n)))
    else if ← accept ".^" then (do pure (.binary .elemPow base (← primary n)))
    else pure base

def primary : Nat → Parser Expr
  | 0 => stop
  | n + 1 => do
    if ← seesTerminal .number then (do pure (.number (← terminal .number)))
    else if ← seesTerminal .string then (do pure (.string (← terminal .string)))
    else if ← accept "false" then pure (.boolean false)
    else if ← accept "true" then pure (.boolean true)
    else if ← accept "der" then (do pure (.der (← callArguments n)))
    else if ← accept "initial" then (do pure (.initial (← callArguments n)))
    else if ← accept "end" then pure .last
    else if ← accept "(" then
      let items ← groupItems n
      literal ")"
      pure (.tuple items)
    else if ← accept "[" then
      let rows ← separated ";" (separated "," (expression n))
      literal "]"
      pure (.matrix rows)
    else if ← accept "\x7b" then
      let items ← arguments n
      literal "\x7d"
      pure (.array items)
    else
      let path ← reference n
      if ← sees "(" then (do pure (.call path (← callArguments n)))
      else pure (.ref path)

/-- The expressions in parentheses; the first may be left out. -/
def groupItems : Nat → Parser (List Expr)
  | 0 => stop
  | n + 1 => do
    if ← sees ")" then pure []
    else if ← sees "," then moreAfter "," (expression n)
    else separated "," (expression n)

def reference : Nat → Parser Reference
  | 0 => stop
  | n + 1 => separated "." (do
      let name ← ident
      pure (.mk name (← subscripts n)))

def subscripts : Nat → Parser (List Expr)
  | 0 => stop
  | n + 1 => do
    if ← accept "[" then
      let items ← separated "," (do
        if ← accept ":" then pure .whole else expression n)
      literal "]"
      pure items
    else pure []

def callArguments : Nat → Parser (List Arg)
  | 0 => stop
  | n + 1 => do
    literal "("
    if ← accept ")" then pure []
    else
      let items ← arguments n
      literal ")"
      pure items

/-- Arguments by position, with iterators between them, or by name. -/
def arguments : Nat → Parser (List Arg)
  | 0 => stop
  | n + 1 => fun ts =>
    match ts with
    | a :: b :: _ =>
      if a.terminal == .ident && b.is "=" then namedArguments n ts else positional n ts
    | _ => positional n ts

def positional : Nat → Parser (List Arg)
  | 0 => stop
  | n + 1 => do
    let first ← argument n
    let rest ← repeatWhile (fun ts => ts.head?.any fun t => t.is "," || t.is "for") (do
      if ← accept "," then (do pure [← argument n])
      else
        literal "for"
        let firstIterator ← iterator n
        let others ← repeatWhile isBeforeIterator (do literal ","; iterator n)
        pure (firstIterator :: others))
    pure (first :: rest.flatten)

def iterator : Nat → Parser Arg
  | 0 => stop
  | n + 1 => do
    let name ← ident
    if ← accept "in" then (do pure (.ranging name (← expression n))) else pure (.iterator name)

def namedArguments : Nat → Parser (List Arg)
  | 0 => stop
  | n + 1 => separated "," (do
      let name ← ident
      literal "="
      pure (.named name (← argument n)))

def argument : Nat → Parser Arg
  | 0 => stop
  | n + 1 => do
    if ← accept "function" then
      let name ← qualifiedName
      literal "("
      let items ← if ← sees ")" then pure [] else namedArguments n
      literal ")"
      pure (.function name items)
    else (do pure (.value (← expression n)))

end

def iterators (n : Nat) : Parser (List Iterator) :=
  separated "," (do
    let name ← ident
    if ← accept "in" then (do pure ⟨name, some (← expression n)⟩) else pure ⟨name, none⟩)

def steps (k : Nat) : Nat := 12 * k + 12

end Parser
end Modelica.Syntax
