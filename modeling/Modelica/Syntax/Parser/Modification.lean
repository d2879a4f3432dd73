/-
Reading modifications, declarations and comments, which may hold one another
to any depth: a comment may end in an annotation, an annotation is a
modification, and a modification may redeclare a component with a comment.
-/
import Modelica.Syntax.Parser.Expression

namespace Modelica.Syntax.Parser

/-- The words a class definition can begin with, `partial` included. -/
def classWords : List String := [
  "partial", "class", "model", "operator", "record", "block", "expandable", "connector", "type",
  "package", "pure", "impure", "function"]

/-- The category of a class, its words joined without blanks. -/
def category : Parser String := do
  if ← accept "operator" then
    if ← accept "record" then pure "operatorrecord"
    else if ← accept "function" then pure "operatorfunction"
    else pure "operator"
  else if ← accept "expandable" then
    literal "connector"
    pure "expandableconnector"
  else match ← acceptAny ["pure", "impure"] with
    | some purity =>
      let operator ← accept "operator"
      literal "function"
      pure (purity ++ (if operator then "operator" else "") ++ "function")
    | none =>
      match ← acceptAny ["class", "model", "record", "block", "connector", "type", "package", "function"] with
      | some word => pure word
      | none => stop

def keywords : Parser String := do
  let a ← acceptAny ["flow", "stream"]
  let b ← acceptAny ["discrete", "parameter", "constant"]
  let c ← acceptAny ["input", "output"]
  pure (a.getD "" ++ b.getD "" ++ c.getD "")

/-- Texts joined by plus signs, or none. -/
def stringComment : Parser (List String) := do
  if ← seesTerminal .string then separated "+" (terminal .string) else pure []

mutual

def classModification : Nat → Parser ClassModification
  | 0 => stop
  | n + 1 => do
    literal "("
    if ← accept ")" then pure (.mk [])
    else
      let items ← separated "," (modificationArgument n)
      literal ")"
      pure (.mk items)

def modificationArgument : Nat → Parser Argument
  | 0 => stop
  | n + 1 => do
    if ← accept "redeclare" then
      discard (accept "each")
      discard (accept "final")
      if ← accept "replaceable" then
        let target ← redeclared n
        pure (.redeclareReplaceable target (← constraint n))
      else (do pure (.redeclare (← redeclared n)))
    else
      discard (accept "each")
      discard (accept "final")
      if ← accept "replaceable" then
        let target ← redeclared n
        pure (.replaceable target (← constraint n))
      else
        let component ← reference n
        let change ← change n
        pure (.modify component change (← stringComment))

def change : Nat → Parser Change
  | 0 => stop
  | n + 1 => do
    if ← sees "(" then
      let m ← classModification n
      if ← accept "=" then (do pure (.nested m (some (← expression n)))) else pure (.nested m none)
    else if ← accept "=" then (do pure (.value (← expression n)))
    else if ← accept ":=" then (do pure (.value (← expression n)))
    else pure .none

def constraint : Nat → Parser Constraint
  | 0 => stop
  | n + 1 => do
    if ← accept "constrainedby" then
      let name ← qualifiedName
      if ← sees "(" then (do pure (.modified name (← classModification n))) else pure (.bare name)
    else pure .none

def redeclared : Nat → Parser Redeclared
  | 0 => stop
  | n + 1 => do
    if ← seesAny classWords then
      discard (accept "partial")
      let kind ← category
      let name ← ident
      literal "="
      if ← accept "enumeration" then
        let items ← enumeration n
        pure (.enumeration kind name items (← comment n))
      else
        discard keywords
        let base ← reference n
        let subs ← subscripts n
        let m ← optionalModification n
        pure (.shortClass kind name base subs m (← comment n))
    else
      let words ← keywords
      let type ← dotted
      let d ← declaration n
      pure (.component words type d (← comment n))

/-- The literals of an enumeration in parentheses; a colon leaves them open. -/
def enumeration : Nat → Parser (List EnumLiteral)
  | 0 => stop
  | n + 1 => do
    literal "("
    if ← accept ":" then
      literal ")"
      pure []
    else if ← accept ")" then pure []
    else
      let items ← separated "," (do
        let name ← ident
        pure (.mk name (← comment n)))
      literal ")"
      pure items

def declaration : Nat → Parser Declaration
  | 0 => stop
  | n + 1 => do
    let name ← ident
    let subs ← subscripts n
    pure (.mk name subs (← change n))

def optionalModification : Nat → Parser OptionalModification
  | 0 => stop
  | n + 1 => do
    if ← sees "(" then (do pure (.some (← classModification n))) else pure .none

def remarks : Nat → Parser OptionalModification
  | 0 => stop
  | n + 1 => do
    if ← accept "annotation" then (do pure (.some (← classModification n))) else pure .none

def comment : Nat → Parser Comment
  | 0 => stop
  | n + 1 => do
    let strings ← stringComment
    pure (.mk strings (← remarks n))

end

end Modelica.Syntax.Parser
