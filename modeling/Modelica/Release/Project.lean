/-
The version of a project, and the commands that report it and put it into
builds and distributions.

The sources of versions are asked in order, and the first one that applies
gives the version: keywords, version file, version control, name of the folder
(`findVersion`).
-/
import Modelica.Release.Source
import Modelica.Release.Config

namespace Modelica.Release

structure Project where
  root : String
  name : String
  package : String
  checkout : Checkout := .absent
deriving Repr, Inhabited

def requireProject : Work Unit := do
  let f ← Work.folder
  if f.has "setup.py" || f.has "versioneer.py" then pure () else throw .noProject

def settingsFile : String := "setup.cfg"

def readConfig : Work Config := do Work.ofExcept (Config.read (← Work.textAt settingsFile))

def joined (base path : String) : String :=
  if Text.beginsWith "/" path then path
  else if base.isEmpty || base.toList.getLast? == some '/' then base ++ path
  else base ++ "/" ++ path

namespace Project

def readKeywords (path : String) : Work Keywords := do
  return Keywords.ofText ((← Work.textAt? path).getD "")

def fromKeywords (file tagStart : String) (loud : Bool) : Work Data := do
  let v ← (← readKeywords file).version tagStart loud
  Work.sayIf loud ("got version from expanded keyword " ++ v.toData.literal)
  pure v.toData

def fromFile (p : Project) (file : String) (loud : Bool) : Work Data := do
  let d ← readVersionFile file
  Work.sayIf loud ("got version from file " ++ joined p.root file ++ " " ++ d.message)
  pure d

def fromCheckout (p : Project) (style tagStart : String) (loud : Bool) : Work Data := do
  let d ← p.checkout.description tagStart p.root loud
  let v ← Work.ofExcept (d.render style)
  Work.sayIf loud ("got version from VCS " ++ v.toData.literal)
  pure v.toData

def fromFolder (p : Project) (start : String) (loud : Bool) : Work Data := do
  if start.isEmpty then throw (.notApplicable "")
  let v ← folderVersion start p.root loud
  Work.sayIf loud ("got version from parentdir " ++ v.toData.literal)
  pure v.toData

def unknown : Version :=
  { version := "0+unknown", revision := none, dirty := none,
    error := some "unable to compute version", date := none }

def search (p : Project) (c : Config) (file tagStart : String) (loud : Bool) : Work Data :=
  Work.orElseIfNotApplicable (fromKeywords file tagStart loud) <|
  Work.orElseIfNotApplicable (p.fromFile file loud) <|
  Work.orElseIfNotApplicable (p.fromCheckout c.style tagStart loud) <|
  Work.orElseIfNotApplicable (p.fromFolder (c.folderStart.getD "") loud) <| do
    Work.sayIf loud "unable to compute version"
    pure unknown.toData

def findVersion (p : Project) (loud : Bool) : Work Data := do
  requireProject
  let c ← readConfig
  if c.control ≠ "git" then throw (.assertion ("unrecognized VCS '" ++ c.control ++ "'"))
  match c.sourceFile, c.tagStart with
  | none, _ => throw (.assertion "please set versioneer.versionfile_source")
  | some _, none => throw (.assertion "please set versioneer.tag_prefix")
  | some file, some tagStart => p.search c file tagStart (loud || c.isVerbose)

def report (p : Project) : Work Unit := do
  let d ← p.findVersion true
  let of (name : String) : String := ((d.member? name).getD .null).message
  Work.say ("Version: " ++ (← Work.ofExcept (member d "version")).message)
  Work.say (" full-revisionid: " ++ of "full-revisionid")
  Work.say (" dirty: " ++ of "dirty")
  Work.say (" date: " ++ of "date")
  let error ← Work.ofExcept (member d "error")
  if error.isSet then Work.say (" error: " ++ error.message) else pure ()

def copyPackage (p : Project) (target : Place) : Work Unit := do
  let f ← Work.folder
  let place := pathParts p.package
  let modules := (f.namesAt place).filter fun n => (Text.beforeEnd? ".py" n).isSome
  let copy (g : Folder) (name : String) : Folder :=
    match f.files.get? (place ++ [name]) with
    | some text => g.writeAt (target ++ place ++ [name]) text
    | none => g
  modify fun s => { s with folder := modules.foldl copy f }

def updateVersionFile (path : String) (d : Data) : Work Unit := do
  Work.say ("UPDATING " ++ path)
  writeVersionFile path d

/-- Builds the package, with the version in it if the settings say where. -/
def build (p : Project) : Work Unit := do
  requireProject
  let c ← readConfig
  let d ← p.findVersion false
  p.copyPackage ["build", "lib"]
  match c.buildFile with
  | none | some "" => pure ()
  | some file => updateVersionFile (joined "build/lib" file) d

/-- The number of a distribution; one without a version has noughts. -/
def distributionNumber (version : Data) : String :=
  if version.isSet then version.message else "0.0.0"

def distribute (p : Project) : Work Unit := do
  let d ← p.findVersion false
  let base := p.name ++ "-" ++ distributionNumber (← Work.ofExcept (member d "version"))
  let c ← readConfig
  p.copyPackage [base]
  match c.sourceFile with
  | none => throw .wrongKind
  | some file => updateVersionFile (joined base file) d

end Project
end Modelica.Release
