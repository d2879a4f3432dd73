/-
The command line of the compiler: its options, and what it does with a folder
of models.

Options may stand anywhere, and end at `--`. A long option may be shortened as
long as only one option begins so. The first mistake is reported.
-/
import Modelica.Folder
import Modelica.Library
import Modelica.Flat.Model
import Modelica.Outline.Brief
import Modelica.Graph.Edit
import Modelica.Text.Search

namespace Modelica.Command

inductive Switch where
  | help
  | folder
  | flattenOnly
  | verbose
deriving Repr, DecidableEq, Inhabited

def Switch.takesValue : Switch → Bool
  | .folder => true
  | _ => false

def letters : List (Char × Switch) :=
  [('h', .help), ('c', .folder), ('f', .flattenOnly), ('v', .verbose)]

def words : List (String × Switch) :=
  [("--casadi", .folder), ("--flatten_only", .flattenOnly), ("--help", .help),
    ("--verbose", .verbose)]

structure Request where
  folder : Option String := none
  flattenOnly : Bool := false
  verbose : Bool := false
  arguments : List String := []
deriving Repr, DecidableEq, Inhabited

inductive Refusal where
  | help
  | wrongCount
  | unknown (name : String)
  | ambiguous (name : String) (candidates : List String)
  | noValue (name : String)
  | needlessValue (name : String)
deriving Repr, DecidableEq, Inhabited

def Refusal.message : Refusal → String
  | .help => ""
  | .wrongCount => "incorrect number of arguments"
  | .unknown n => "no such option: " ++ n
  | .ambiguous n cs => "ambiguous option: " ++ n ++ " (" ++ String.intercalate ", " cs ++ "?)"
  | .noValue n => n ++ " option requires 1 argument"
  | .needlessValue n => n ++ " option does not take a value"

def Request.switch (r : Request) : Switch → Except Refusal Request
  | .help => throw .help
  | .flattenOnly => pure { r with flattenOnly := true }
  | .verbose => pure { r with verbose := true }
  | .folder => pure r

def word (name : String) : Except Refusal (String × Switch) :=
  match words.find? fun w => w.1 = name with
  | some w => pure w
  | none =>
    match words.filter fun w => Text.beginsWith name w.1 with
    | [] => throw (.unknown name)
    | [w] => pure w
    | ws => throw (.ambiguous name (ws.map (·.1)))

/-- Reads letters behind a hyphen. The last one may ask for a value, which is
the rest of the letters or else the next argument: then its name is given. -/
def letterOption (r : Request) : List Char → Except Refusal (Request × Option String)
  | [] => pure (r, none)
  | c :: cs =>
    let name := "-" ++ c.toString
    match letters.find? fun l => l.1 = c with
    | none => throw (.unknown name)
    | some (_, s) =>
      if !s.takesValue then do letterOption (← r.switch s) cs
      else if cs.isEmpty then pure (r, some name)
      else pure ({ r with folder := some (String.ofList cs) }, none)

def wordOption (r : Request) (arg : String) : Except Refusal (Request × Option String) := do
  let (name, s) ← word (String.ofList (arg.toList.takeWhile (· ≠ '=')))
  match Text.afterFirst? "=" arg, s.takesValue with
  | some value, true => pure ({ r with folder := some value }, none)
  | some _, false => throw (.needlessValue name)
  | none, true => pure (r, some name)
  | none, false => do pure (← r.switch s, none)

/-- Reads an argument. If it is an option that waits for its value, the name
of the option is given too. -/
def argument (r : Request) (arg : String) : Except Refusal (Request × Option String) :=
  if Text.beginsWith "--" arg then wordOption r arg
  else if Text.beginsWith "-" arg && arg.length > 1 then letterOption r (arg.toList.drop 1)
  else pure ({ r with arguments := r.arguments ++ [arg] }, none)

def readFrom (r : Request) : List String → Except Refusal Request
  | [] => pure r
  | arg :: rest =>
    if arg = "--" then pure { r with arguments := r.arguments ++ rest }
    else
      match argument r arg with
      | .error e => throw e
      | .ok (r, none) => readFrom r rest
      | .ok (r, some name) =>
        match rest with
        | [] => throw (.noValue name)
        | value :: more => readFrom { r with folder := some value } more

/-- Reads the command line: a folder and the name of a model. -/
def read (args : List String) : Except Refusal (Request × String × String) := do
  let r ← readFrom {} args
  match r.arguments with
  | [folder, model] => pure (r, folder, model)
  | _ => throw .wrongCount

def usage (program : String) : String :=
  "Usage: " ++ program ++ " [options] MODEL_FOLDER MODEL_NAME\n\n"

def helpText (program : String) : String :=
  usage program ++ "Options:\n" ++
  "  -h, --help            show this help message and exit\n" ++
  "  -c CASADI_FOLDER, --casadi=CASADI_FOLDER\n" ++
  "                        CasADi installation folder\n" ++
  "  -f, --flatten_only    \n" ++
  "  -v, --verbose         \n"

structure Outcome where
  exitCode : Nat := 0
  out : String := ""
  err : String := ""
  log : List String := []
deriving Repr, DecidableEq, Inhabited

def Refusal.outcome (program : String) : Refusal → Outcome
  | .help => { out := helpText program }
  | r => { exitCode := 2, err := usage program ++ program ++ ": error: " ++ r.message ++ "\n" }

def models (f : Folder) (path : String) : List (String × String) :=
  match f.locate path with
  | .error _ => []
  | .ok place =>
    (f.walk place).filterMap fun file => do
      let name ← file.getLast?
      let _ ← Text.beforeEnd? ".mo" name
      let text ← (f.readAt file).toOption
      some (name, text)

def load : Option Id → List (String × String) → Build Id
  | none, [] => throw .noPart
  | some root, [] => pure root
  | root?, (name, text) :: rest => do
    Build.warn ("Parsing " ++ name)
    let l ← Build.read text
    match root? with
    | none => load (some l.root) rest
    | some root =>
      Build.extend root l.root
      load (some root) rest

def flatten (files : List (String × String)) (model : String) : Build String := do
  let root ← load none files
  Build.warn "Flattening"
  let flat ← Build.flatten root (Build.splitPath model)
  Build.brief flat

def compile (r : Request) (files : List (String × String)) (model : String) :
    Except Fault Outcome :=
  if !r.flattenOnly then throw .notInstalled
  else
    match (flatten files model).run {} with
    | .ok text g => pure { out := text ++ "\n", log := g.warnings.toList }
    | .error fault _ => throw fault

def run (program : String) (f : Folder) (args : List String) : Except Fault Outcome :=
  match read args with
  | .error r => pure (r.outcome program)
  | .ok (r, path, model) => compile r (models f path) model

end Modelica.Command
