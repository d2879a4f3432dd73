/-
The compiler as a program: it reads the folder it is given and answers the
request of its command line.
-/
import Modelica.Command

namespace Modelica.Command

/-- The texts under a folder, with their paths from `inside`. What is neither
a folder nor a readable text is passed over. -/
partial def readFolder (path inside : String) : IO (List (String × String)) := do
  let mut found := []
  for entry in ← (← IO.FS.realPath path).readDir do
    let outer := path ++ "/" ++ entry.fileName
    let inner := inside ++ "/" ++ entry.fileName
    if ← entry.path.isDir then found := found ++ (← readFolder outer inner)
    else
      try found := found ++ [(inner, ← IO.FS.readFile outer)]
      catch _ => pure ()
  pure found

def openFolder (path : String) : IO Folder := do
  try pure (Folder.ofTexts (← readFolder path "."))
  catch _ => pure {}

def program : String := "modelica"

def Outcome.print (o : Outcome) : IO UInt32 := do
  o.log.forM (IO.eprintln ·)
  IO.print o.out
  IO.eprint o.err
  pure o.exitCode.toUInt32

end Modelica.Command

open Modelica in
def main (args : List String) : IO UInt32 := do
  match Command.read args with
  | .error r => (r.outcome Command.program).print
  | .ok (r, path, model) =>
    match Command.compile r (Command.models (← Command.openFolder path) ".") model with
    | .ok o => o.print
    | .error f =>
      IO.eprintln f.root.message
      pure 1
