/-
Where versions can be found: in keywords that were filled in when the sources
were exported, in a version file, from the version control, and in the name of
the folder. A source that has no version to give says so with
`Fault.notApplicable`.
-/
import Modelica.Session
import Modelica.Data.Reader
import Modelica.Release.Version
import Modelica.Text.Digit

namespace Modelica.Release

/-- Makes a date one word: the first blank becomes a `T`, the second one goes. -/
def dateText (s : String) : String :=
  String.ofList (Text.replaceFirst ' ' [] (Text.replaceFirst ' ' ['T'] (Text.trim s).toList))

/-! ### Keywords -/

structure Keywords where
  names : Option String := none
  revision : Option String := none
  date : Option String := none
deriving Repr, DecidableEq, Inhabited

namespace Keywords

/-- What stands between the quotes behind the equals sign of a line. -/
def quoted? : List Char → Option String
  | [] => none
  | c :: cs =>
    let here : Option String :=
      match cs.dropWhile Text.isBlank with
      | '"' :: rest => if c = '=' then Text.beforeLast? "\"" (String.ofList rest) else none
      | _ => none
    here.or (quoted? cs)

def line (k : Keywords) (text : String) : Keywords :=
  let of (name : String) (old : Option String) : Option String :=
    if Text.beginsWith (name ++ " =") (Text.trim text) then (quoted? text.toList).or old else old
  { names := of "git_refnames" k.names, revision := of "git_full" k.revision,
    date := of "git_date" k.date }

def ofText (text : String) : Keywords := (Text.lines text).foldl line {}

def toData (k : Keywords) : Data :=
  .group (List.filterMap id [
    k.names.map fun s => ("refnames", .text s),
    k.revision.map fun s => ("full", .text s),
    k.date.map fun s => ("date", .text s)])

def need : Option String → Work String
  | some s => pure (Text.trim s)
  | none => throw .noEntry

def nameList (names : String) : List String :=
  let inner := Text.trimBy (fun c => c = '(' ∨ c = ')') names
  ((Text.cutAt (· == ',') inner.toList).map fun r => Text.trim (String.ofList r)).eraseDups

/-- The names that may be tags. Tags are marked as such; where none is marked,
names without a digit are left out. -/
def tags (loud : Bool) (refs : List String) : Work (List String) := do
  let marked := (refs.filterMap (Text.afterStart? "tag: ")).eraseDups
  if !marked.isEmpty then pure marked
  else
    let (likely, others) := refs.partition fun r => r.toList.any Text.isDigit
    Work.sayIf loud ("discarding '" ++ String.intercalate "," others ++ "', no digits")
    pure likely

/-- The version that keywords give: the first tag in order that begins as the
tags of versions do. -/
def version (k : Keywords) (tagStart : String) (loud : Bool) : Work Version := do
  if k = {} then throw (.notApplicable "no keywords at all, weird")
  let names ← need k.names
  if Text.beginsWith "$Format" names then
    Work.sayIf loud "keywords are unexpanded, not using"
    throw (.notApplicable "unexpanded keywords, not a git-archive tarball")
  let sorted := (← tags loud (nameList names)).mergeSort fun a b => decide (a ≤ b)
  Work.sayIf loud ("likely tags: " ++ String.intercalate "," sorted)
  match sorted.findSome? (Text.afterStart? tagStart) with
  | some version =>
    Work.sayIf loud ("picking " ++ version)
    pure {
      version, revision := some (← need k.revision), dirty := some false, error := none,
      date := k.date.map dateText }
  | none =>
    Work.sayIf loud "no suitable tags, using unknown + full revision id"
    pure {
      version := "0+unknown", revision := some (← need k.revision), dirty := some false,
      error := some "no suitable tags", date := none }

end Keywords

/-! ### Version control -/

structure Reply where
  output : Option String
  code : Option Int
deriving Repr, DecidableEq, Inhabited

structure Checkout where
  directory : Reply
  describe : Reply
  head : Reply
  count : Reply
  date : Reply
deriving Repr, DecidableEq, Inhabited

def Checkout.absent : Checkout :=
  let failed : Reply := ⟨none, some 128⟩
  ⟨failed, failed, failed, failed, failed⟩

def isHexDigit (c : Char) : Bool := c.isDigit || ('a' ≤ c && c ≤ 'f')

/-- Tag, distance and revision between hyphens. The tag may have hyphens of
its own. -/
def tagged? (s : String) : Option (String × Nat × String) :=
  let parts := Text.cutAt (· == '-') s.toList
  match parts.reverse with
  | ('g' :: revision) :: distance :: rest => do
    let tag := String.intercalate "-" (rest.reverse.map String.ofList)
    let n ← if distance.all Text.isDigit then Text.digitsValue? distance else none
    if tag.isEmpty || tag.contains '\n' || revision.isEmpty || !revision.all isHexDigit then none
    else some (tag, n, String.ofList revision)
  | _ => none

def Reply.need (r : Reply) (reason : String) : Work String :=
  match r.output with
  | some s => pure (Text.trim s)
  | none => throw (.notApplicable reason)

def Reply.number (r : Reply) : Work Int :=
  match r.output with
  | none => throw .wrongKind
  | some s =>
    match Text.integer? s with
    | some n => pure n
    | none => throw .badValue

def Checkout.dated (c : Checkout) (d : Description) : Work Description :=
  match c.date.output with
  | some s => pure { d with date := some (dateText s) }
  | none => throw .noPart

def Checkout.description (c : Checkout) (tagStart root : String) (loud : Bool) : Work Description := do
  if c.directory.code ≠ some 0 then
    Work.sayIf loud ("Directory " ++ root ++ " not under git control")
    throw (.notApplicable "'git rev-parse --git-dir' returned error")
  let described ← c.describe.need "'git describe' failed"
  let long ← c.head.need "'git rev-parse' failed"
  let clean? := Text.beforeEnd? "-dirty" described
  let clean := clean?.getD described
  let d : Description := {
    long := some long, short := some (String.ofList (long.toList.take 7)), error := some none,
    dirty := some clean?.isSome }
  if !clean.contains '-' then c.dated { d with tag := some none, distance := some (← c.count.number) }
  else
    match tagged? clean with
    | none =>
      let message := "unable to parse git-describe output: '" ++ described ++ "'"
      pure { d with error := some (some message) }
    | some (tag, distance, short) =>
      match Text.afterStart? tagStart tag with
      | none =>
        let message := "tag '" ++ tag ++ "' doesn't start with prefix '" ++ tagStart ++ "'"
        Work.sayIf loud message
        pure { d with error := some (some message) }
      | some rest =>
        c.dated { d with tag := some (some rest), distance := some distance, short := some short }

/-! ### Names of folders -/

def baseName (path : String) : String := (pathParts path).getLast?.getD ""

/-- The path in front of the last slash, without slashes at its end unless it
has nothing else. -/
def parent (path : String) : String :=
  let head := path.toList.reverse.dropWhile (· ≠ '/')
  match head.dropWhile (· = '/') with
  | [] => String.ofList head.reverse
  | rest => String.ofList rest.reverse

/-- The version behind the given start in the name of a folder or of one of
the two above it. -/
def folderVersion (start root : String) (loud : Bool) : Work Version := do
  let tried := [root, parent root, parent (parent root)]
  match tried.findSome? fun path => Text.afterStart? start (baseName path) with
  | some version =>
    pure { version, revision := none, dirty := some false, error := none, date := none }
  | none =>
    Work.sayIf loud ("Tried directories " ++ (Data.list (tried.map .text)).literal ++
      " but none started with prefix " ++ start)
    throw (.notApplicable "rootdir doesn't start with parentdir_prefix")

/-! ### Version files -/

def fileStart : String := "version_json = '''\n"

def fileEnd : String := "'''  # END VERSION_JSON"

def fileText (d : Data) : String :=
  "\n# This file was generated by 'versioneer.py' (0.18) from\n" ++
  "# revision-control system data, or from the parent directory name of an\n" ++
  "# unpacked source archive. Distribution tarballs contain a pre-generated copy\n" ++
  "# of this file.\n\nimport json\n\n" ++
  fileStart ++ d.object 1 ++ "\n" ++ fileEnd ++
  "\n\n\ndef get_versions():\n    return json.loads(version_json)\n"

def ofFileText (text : String) : Except Fault Data :=
  match (Text.afterFirst? fileStart text).bind (Text.beforeLast? fileEnd) with
  | none => throw (.notApplicable "no version_json in _version.py")
  | some content =>
    match Data.read content with
    | some d => pure d
    | none => throw .malformedData

def readVersionFile (path : String) : Work Data := do
  match ← Work.textAt? path with
  | none => throw (.notApplicable "unable to read _version.py")
  | some text => Work.ofExcept (ofFileText text)

def member (d : Data) (name : String) : Except Fault Data :=
  match d with
  | .group _ =>
    match d.member? name with
    | some v => pure v
    | none => throw .noEntry
  | _ => throw .wrongKind

def writeVersionFile (path : String) (d : Data) : Work Unit := do
  Work.removeText path
  Work.putText path (fileText d)
  let version ← Work.ofExcept (member d "version")
  Work.say ("set " ++ path ++ " to '" ++ version.message ++ "'")

end Modelica.Release
