/-
Settings files: sections in brackets, with lines `name = value` or
`name : value` in them.

Names do not depend on case. Lines that are indented deeper than the line of
a value continue it. What the section `DEFAULT` sets holds in every section.
In a value, `%(name)s` stands for another value of the same section and `%%`
for a percent sign.
-/
import Modelica.Fault
import Modelica.Table
import Modelica.Text.Search
import Modelica.Text.Blank

namespace Modelica

structure Settings where
  sections : Table String (Table String String) := {}
deriving Repr, Inhabited

namespace Settings

def defaultSection : String := "DEFAULT"

structure Reading where
  sections : Table String (Table String (List String)) := {}
  current? : Option String := none
  name? : Option String := none
  indent : Nat := 0
  /-- A line made no sense. -/
  spoilt : Bool := false
deriving Inhabited

namespace Reading

/-- The section and the name of the value that can be continued. -/
def pending? (r : Reading) : Option (String × String) :=
  match r.current?, r.name? with
  | some s, some n => if n.isEmpty then none else some (s, n)
  | _, _ => none

def values (r : Reading) (title : String) : Table String (List String) :=
  (r.sections.get? title).getD {}

def put (r : Reading) (title name : String) (lines : List String) : Reading :=
  { r with sections := r.sections.insert title ((r.values title).insert name lines) }

def continued (r : Reading) (line : String) : Reading :=
  match r.pending? with
  | some (s, n) => r.put s n ((((r.values s).get? n).getD []) ++ [line])
  | none => r

/-- Begins a section. Only the section of defaults may be begun twice. -/
def enter (r : Reading) (name : String) : Except Fault Reading :=
  if r.sections.contains name then
    if name = defaultSection then pure { r with current? := some name, name? := none }
    else throw (.settings .repeatedSection)
  else
    pure { r with sections := r.sections.insert name {}, current? := some name, name? := none }

def add (r : Reading) (title name value : String) : Except Fault Reading :=
  if (r.values title).contains name then throw (.settings .repeatedOption)
  else pure { (r.put title name [value]) with name? := some name, spoilt := r.spoilt || name.isEmpty }

end Reading

def header? (line : String) : Option String := do
  let rest ← Text.afterStart? "[" line
  let name ← Text.beforeLast? "]" rest
  if name.isEmpty then none else some name

def isDelimiter (c : Char) : Bool := c = '=' ∨ c = ':'

def option? (line : String) : Option (String × String) :=
  match line.toList.dropWhile (!isDelimiter ·) with
  | [] => none
  | _ :: value =>
    let name := String.ofList (line.toList.takeWhile (!isDelimiter ·))
    some ((Text.trimRight name).toLower, Text.trim (String.ofList value))

def Reading.line (r : Reading) (text : String) : Except Fault Reading :=
  let content := Text.trim text
  let indent := (text.toList.takeWhile Text.isBlank).length
  if Text.beginsWith "#" content || Text.beginsWith ";" content then pure r
  else if content.isEmpty then pure (r.continued "")
  else if r.pending?.isSome && r.indent < indent then pure (r.continued content)
  else
    let r := { r with indent }
    match header? content, r.current?, option? content with
    | some name, _, _ => r.enter name
    | none, none, _ => throw (.settings .noHeader)
    | none, some _, none => pure { r with spoilt := true }
    | none, some s, some (name, value) => r.add s name value

def read (text : String) : Except Fault Settings := do
  let r ← (Text.lines text).foldlM Reading.line {}
  if r.spoilt then throw (.settings .malformedLine)
  else pure ⟨r.sections.map fun vs =>
    vs.map fun lines => Text.trimRight (String.intercalate "\n" lines)⟩

def raw? (s : Settings) (title name : String) : Option String :=
  let of (n : String) : Option String := (s.sections.get? n).bind (·.get? name)
  (of title).or (of defaultSection)

inductive Piece where
  | plain (c : Char)
  | reference (name : String)
  | malformed
deriving Repr, DecidableEq, Inhabited

def pieces : Nat → List Char → List Piece
  | 0, _ => []
  | _ + 1, [] => []
  | n + 1, c :: cs =>
    if c ≠ '%' then .plain c :: pieces n cs
    else
      match cs with
      | '%' :: rest => .plain '%' :: pieces n rest
      | '(' :: rest =>
        let name := rest.takeWhile (· ≠ ')')
        match rest.dropWhile (· ≠ ')') with
        | ')' :: 's' :: more =>
          if name.isEmpty then [.malformed]
          else .reference (String.ofList name).toLower :: pieces n more
        | _ => [.malformed]
      | _ => [.malformed]

/-- Fills in the references of a value, and those of the values they stand
for, to a given depth. -/
def expand (lookup : String → Option String) : Nat → String → Except Fault String
  | 0, _ => throw (.settings .deepReference)
  | n + 1, value => do
    let parts ← (pieces (value.length + 1) value.toList).mapM fun
      | .plain c => pure c.toString
      | .malformed => throw (.settings .malformedReference)
      | .reference name =>
        match lookup name with
        | none => throw (.settings .unknownReference)
        | some v => if v.contains '%' then expand lookup n v else pure v
    pure (String.join parts)

/-- How deep references may be nested. -/
def referenceDepth : Nat := 10

def get? (s : Settings) (title name : String) : Except Fault (Option String) :=
  match s.raw? title name with
  | none => pure none
  | some v => do return some (← expand (s.raw? title) referenceDepth v)

def get (s : Settings) (title name : String) : Except Fault String := do
  if !s.sections.contains title then throw (.settings .noSection)
  match ← s.get? title name with
  | some v => pure v
  | none => throw (.settings .noOption)

end Settings
end Modelica
