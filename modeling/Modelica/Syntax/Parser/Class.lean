/-
Reading classes and whole files.

A file ends where no further class begins: what stands behind the last class
is not looked at (`parse`).
-/
import Modelica.Syntax.Parser.Equation

namespace Modelica.Syntax.Parser

/-- The words an element of a class can begin with, names apart. -/
def elementWords : List String := classWords ++ [
  "encapsulated", "import", "extends", "redeclare", "final", "inner", "outer", "replaceable", "flow",
  "stream", "discrete", "parameter", "constant", "input", "output"]

def startsElement : List Token → Bool
  | a :: _ => a.terminal == .ident || elementWords.any fun w => a.is w
  | [] => false

def startsSection : List Token → Bool
  | a :: _ => ["public", "protected", "equation", "algorithm", "initial"].any fun w => a.is w
  | [] => false

/-- A dotted reference in an import, up to a point that a name follows. -/
def importPath (n : Nat) : Parser Reference := do
  let first ← ident
  let subs ← subscripts n
  let rest ← repeatWhile
    (fun ts => match ts with
      | a :: b :: _ => a.is "." && !(b.is "*" || b.is "\x7b")
      | [a] => a.is "."
      | [] => false)
    (do
      literal "."
      let name ← ident
      pure (.mk name (← subscripts n)))
  pure (.mk first subs :: rest)

def importClause (n : Nat) : Parser Element := do
  literal "import"
  let second ← peekSecond
  if (← seesTerminal .ident) && second.any (·.is "=") then
    let name ← ident
    literal "="
    let path ← reference n
    pure (.importClause (.alias name) path (← comment n))
  else
    let path ← importPath n
    if ← accept "." then
      if ← accept "*" then
        pure (.importClause .all path (← comment n))
      else
        literal "\x7b"
        let names ← separated "," ident
        literal "\x7d"
        pure (.importClause (.some names) path (← comment n))
    else
      pure (.importClause .whole path (← comment n))

def clause (n : Nat) : Parser Clause := do
  let words ← keywords
  let type ← dotted
  let subs ← subscripts n
  let components ← separated "," (do
    let d ← declaration n
    let condition ← if ← accept "if" then (do pure (some (← expression n))) else pure none
    pure (Component.mk d condition (← comment n)))
  pure ⟨words, type, subs, components⟩

/-- The function an external call names, after the result it is given to. -/
def externalTarget (path : Reference) : Parser (Option Reference × String) := do
  if ← accept "=" then (do pure (some path, ← ident))
  else match path with
    | [.mk name []] => pure (none, name)
    | _ => stop

def externalCall (n : Nat) : Parser (Option Reference × Option (String × List Expr)) := do
  if ← seesTerminal .ident then
    let path ← reference n
    let (result, function) ← externalTarget path
    literal "("
    let items ← if ← sees ")" then pure [] else separated "," (expression n)
    literal ")"
    pure (result, some (function, items))
  else pure (none, none)

def language : Parser (Option String) := do
  if ← seesTerminal .string then (do pure (some (← terminal .string))) else pure none

def external (n : Nat) : Parser (Option External) := do
  if ← accept "external" then
    let lang ← language
    let (result, call) ← externalCall n
    let note ← remarks n
    literal ";"
    pure (some ⟨lang, result, call, note⟩)
  else pure none

mutual

def classDefinition : Nat → Parser ClassDef
  | 0 => stop
  | n + 1 => do
    let encapsulated ← accept "encapsulated"
    let isPartial ← accept "partial"
    let kind ← category
    pure (.mk encapsulated isPartial kind (← classBody n))

def classBody : Nat → Parser ClassBody
  | 0 => stop
  | n + 1 => do
    if ← accept "extends" then
      let name ← ident
      let m ← optionalModification n
      let strings ← stringComment
      let content ← composition n
      literal "end"
      discard ident
      pure (.extending name m strings content)
    else
      let name ← ident
      if ← accept "=" then
        if ← accept "enumeration" then
          let items ← enumeration n
          pure (.enumeration name items (← comment n))
        else if ← accept "der" then
          literal "("
          let function ← qualifiedName
          literal ","
          let symbols ← separated "," ident
          literal ")"
          pure (.derivative name function symbols (← comment n))
        else
          discard keywords
          let base ← reference n
          let m ← optionalModification n
          pure (.base name base m (← comment n))
      else
        let strings ← stringComment
        let content ← composition n
        literal "end"
        discard ident
        pure (.composition name strings content)

def composition : Nat → Parser Composition
  | 0 => stop
  | n + 1 => do
    let first ← elements n
    let parts ← repeatWhile startsSection (classSection n)
    let ext ← external n
    let note ← remarks n
    match note with
    | .some _ => literal ";"
    | .none => pure ()
    pure (.mk first parts ext note)

def classSection : Nat → Parser Section
  | 0 => stop
  | n + 1 => do
    if ← accept "public" then (do pure (.publicElements (← elements n)))
    else if ← accept "protected" then (do pure (.protectedElements (← elements n)))
    else
      let initial ← accept "initial"
      if ← accept "equation" then (do pure (.equations initial (← equations n false)))
      else
        literal "algorithm"
        pure (.algorithm initial (← statements n))

def elements : Nat → Parser (List Element)
  | 0 => stop
  | n + 1 => repeatWhile startsElement (do
      let e ← element n
      literal ";"
      pure e)

def element : Nat → Parser Element
  | 0 => stop
  | n + 1 => do
    if ← sees "import" then importClause n
    else if ← accept "extends" then
      let path ← reference n
      let m ← optionalModification n
      pure (.extendsClause path m (← remarks n))
    else
      discard (accept "redeclare")
      discard (accept "final")
      discard (accept "inner")
      discard (accept "outer")
      if ← accept "replaceable" then
        if ← seesAny ("encapsulated" :: classWords) then
          let definition ← classDefinition n
          let limit ← constraint n
          let note ← match limit with
            | .none => pure (Comment.mk [] .none)
            | _ => comment n
          pure (.replaceableClass definition limit note)
        else
          let c ← clause n
          let limit ← constraint n
          let note ← match limit with
            | .none => pure (Comment.mk [] .none)
            | _ => comment n
          pure (.replaceableComponent c limit note)
      else if ← seesAny ("encapsulated" :: classWords) then
        (do pure (.classElement (← classDefinition n)))
      else (do pure (.componentElement (← clause n)))

end

def startsClass : List Token → Bool
  | a :: _ => ("final" :: "encapsulated" :: classWords).any fun w => a.is w
  | [] => false

def withinClause (n : Nat) : Parser (Option Reference) := do
  if ← accept "within" then
    if ← accept ";" then pure none
    else
      let path ← reference n
      literal ";"
      pure (some path)
  else pure none

def file (n : Nat) : Parser File := do
  let within ← withinClause n
  let classes ← repeatWhile startsClass (do
    let isFinal ← accept "final"
    let definition ← classDefinition n
    literal ";"
    pure (isFinal, definition))
  pure ⟨within, classes⟩

end Modelica.Syntax.Parser

namespace Modelica.Syntax

/-- Reads a file from its tokens and gives the tokens behind it. The failure
is the tokens from the offending one on. -/
def parse (tokens : List Token) : Except (List Token) (File × List Token) :=
  Parser.file (Parser.steps tokens.length) tokens

end Modelica.Syntax
