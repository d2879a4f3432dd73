/-
Reading equations and statements.

An equation may begin with a word that also closes a block: `end` is an
expression of its own, and so is a call of `initial`, a word that may also
begin the next section of a class. The token behind the word decides. A call of a function may stand alone as an equation; it begins
like the left side of an equation, so the left side is read first.
-/
import Modelica.Syntax.Parser.Modification

namespace Modelica.Syntax.Parser

/-- The signs that can follow an expression of one token on the left side of
an equation. -/
def afterPrimary : List String := [
  "^", ".^", "*", "/", ".*", "./", "+", "-", ".+", ".-", "<", "<=", ">", ">=", "==", "<>", "and", "or",
  ":", "="]

def equationWords : List String := [
  "if", "for", "connect", "when", ".", "false", "true", "der", "(", "[", "\x7b", "-", "not"]

/-- Whether an equation begins here. No section can begin inside the blocks
of an equation (`nested`), so there `initial` begins a call. -/
def startsEquation (nested : Bool) : List Token → Bool
  | a :: b :: _ =>
    a.terminal == .ident || a.terminal == .number || a.terminal == .string ||
      equationWords.any (fun w => a.is w) || (a.is "initial" && (nested || b.is "(")) ||
      (a.is "end" && afterPrimary.any fun w => b.is w)
  | [a] =>
    a.terminal == .ident || a.terminal == .number || a.terminal == .string ||
      equationWords.any (fun w => a.is w) || (a.is "initial" && nested)
  | [] => false

def startsStatement : List Token → Bool
  | a :: _ =>
    a.terminal == .ident || ["(", "break", "return", "if", "for", "while", "when"].any fun w => a.is w
  | [] => false

def plainName? (path : Reference) : Option String :=
  if path.all fun p => p.subscripts.isEmpty then some (String.intercalate "." (path.map RefPart.name))
  else none

/-- The call that an equation consists of, when its first token is a name and
the whole expression is the call of a name without subscripts. -/
def callEquation? (first : Option Token) : Expr → Option EquationBody
  | .call path arguments =>
    if first.any fun t => t.terminal == .ident then
      (plainName? path).map fun name => .call name arguments
    else none
  | _ => none

def equationOrCall (n : Nat) : Parser EquationBody := do
  let first ← peek
  let left ← simpleExpression n
  if ← accept "=" then (do pure (.simple left (← expression n)))
  else (callEquation? first left).elim stop pure

mutual

def equations : Nat → Bool → Parser (List Equation)
  | 0, _ => stop
  | n + 1, nested => repeatWhile (startsEquation nested) (do
      let e ← equation n
      literal ";"
      pure e)

def equation : Nat → Parser Equation
  | 0 => stop
  | n + 1 => do
    let body ← equationBody n
    pure (.mk body (← comment n))

def equationBody : Nat → Parser EquationBody
  | 0 => stop
  | n + 1 => do
    if ← accept "if" then
      let condition ← expression n
      literal "then"
      let body ← equations n true
      let others ← equationBranches n "elseif"
      let otherwise ← if ← accept "else" then (do pure [.mk none (← equations n true)]) else pure []
      literal "end"
      literal "if"
      pure (.branch (.mk (some condition) body :: (others ++ otherwise)))
    else if ← accept "for" then
      let indices ← iterators n
      literal "loop"
      let body ← equations n true
      literal "end"
      literal "for"
      pure (.loop indices body)
    else if ← accept "connect" then
      literal "("
      let left ← reference n
      literal ","
      let right ← reference n
      literal ")"
      pure (.connect left right)
    else if ← accept "when" then
      let condition ← expression n
      literal "then"
      let body ← equations n true
      let others ← equationBranches n "elsewhen"
      literal "end"
      literal "when"
      pure (.when (.mk (some condition) body :: others))
    else if ← sees "." then
      let name ← qualifiedName
      pure (.call name (← callArguments n))
    else equationOrCall n

def equationBranches : Nat → String → Parser (List EquationBranch)
  | 0, _ => stop
  | n + 1, word => repeatWhile (fun ts => ts.head?.any (·.is word)) (do
      literal word
      let condition ← expression n
      literal "then"
      pure (.mk (some condition) (← equations n true)))

end

mutual

def statements : Nat → Parser (List Statement)
  | 0 => stop
  | n + 1 => repeatWhile startsStatement (do
      let s ← statement n
      literal ";"
      pure s)

def statement : Nat → Parser Statement
  | 0 => stop
  | n + 1 => do
    let body ← statementBody n
    pure (.mk body (← comment n))

def statementBody : Nat → Parser StatementBody
  | 0 => stop
  | n + 1 => do
    if ← accept "(" then
      let targets ← separated "," (reference n)
      literal ")"
      literal ":="
      let function ← reference n
      pure (.assignAll targets function (← callArguments n))
    else if ← accept "break" then pure .leave
    else if ← accept "return" then pure .finish
    else if ← accept "if" then
      let condition ← expression n
      literal "then"
      let body ← statements n
      let others ← statementBranches n "elseif"
      let otherwise ← if ← accept "else" then (do pure [.mk none (← statements n)]) else pure []
      literal "end"
      literal "if"
      pure (.branch (.mk (some condition) body :: (others ++ otherwise)))
    else if ← accept "for" then
      let indices ← iterators n
      literal "loop"
      let body ← statements n
      literal "end"
      literal "for"
      pure (.loop indices body)
    else if ← accept "while" then
      let condition ← expression n
      literal "loop"
      let body ← statements n
      literal "end"
      literal "while"
      pure (.whileLoop condition body)
    else if ← accept "when" then
      let condition ← expression n
      literal "then"
      let body ← statements n
      let others ← statementBranches n "elsewhen"
      literal "end"
      literal "when"
      pure (.when (.mk (some condition) body :: others))
    else
      let target ← reference n
      if ← accept ":=" then (do pure (.assign target (← expression n)))
      else (do pure (.call target (← callArguments n)))

def statementBranches : Nat → String → Parser (List StatementBranch)
  | 0, _ => stop
  | n + 1, word => repeatWhile (fun ts => ts.head?.any (·.is word)) (do
      literal word
      let condition ← expression n
      literal "then"
      pure (.mk (some condition) (← statements n)))

end

end Modelica.Syntax.Parser
