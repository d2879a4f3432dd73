/-
Setting a project up: its version file, the lists of files that have to
mention it, and a check of its setup script.
-/
import Modelica.Release.Project

namespace Modelica.Release.Setup

def settingsComplaint : String :=
  "\nsetup.cfg is missing the necessary Versioneer configuration. You need\n" ++
  "a section like:\n\n" ++
  " [versioneer]\n VCS = git\n style = pep440\n" ++
  " versionfile_source = src/myproject/_version.py\n" ++
  " versionfile_build = myproject/_version.py\n tag_prefix =\n" ++
  " parentdir_prefix = myproject-\n\n" ++
  "You will also need to edit your setup.py to use the results:\n\n" ++
  " import versioneer\n setup(version=versioneer.get_version(),\n" ++
  "       cmdclass=versioneer.get_cmdclass(), ...)\n\n" ++
  "Please read the docstring in ./versioneer.py for configuration instructions,\n" ++
  "edit setup.cfg, and re-run the installer or 'python versioneer.py setup'.\n"

def sampleSettings : String :=
  "\n# See the docstring in versioneer.py for instructions. Note that you must\n" ++
  "# re-run 'versioneer.py setup' after changing this section, and commit the\n" ++
  "# resulting files.\n\n" ++
  "[versioneer]\n#VCS = git\n#style = pep440\n#versionfile_source =\n#versionfile_build =\n" ++
  "#tag_prefix =\n#parentdir_prefix =\n\n"

def packageLines : String :=
  "\nfrom ._version import get_versions\n__version__ = get_versions()['version']\n" ++
  "del get_versions\n"

/-- A new version file: keywords that are filled in when the sources are
exported. -/
def newFileText : String :=
  "git_refnames = \"$Format:%d$\"\ngit_full = \"$Format:%H$\"\ngit_date = \"$Format:%ci$\"\n"

def createFile (c : Config) : Work String := do
  Work.say (" creating " ++ (Data.ofText? c.sourceFile).message)
  match c.sourceFile with
  | none => throw .wrongKind
  | some file =>
    Work.putText file ""
    if c.control ≠ "git" then throw .noEntry
    Work.putText file newFileText
    pure file

/-- Makes the package beside the version file know its version. -/
def extendPackage (file : String) : Work Unit := do
  let path := joined (parent file) "__init__.py"
  if (← Work.folder).has path then
    let old := (← Work.textAt? path).getD ""
    if Text.occursIn packageLines old then Work.say (" " ++ path ++ " unmodified")
    else
      Work.say (" appending to " ++ path)
      Work.addText path packageLines
  else Work.say (" " ++ path ++ " doesn't exist, ok")

def manifest : String := "MANIFEST.in"

def included (text : String) : List String :=
  (Text.lines text).flatMap fun line =>
    if Text.beginsWith "include " line then (Text.words line).drop 1 else []

/-- Makes the manifest include the files that distributions need. -/
def extendManifest (file : String) : Work Unit := do
  let present := included ((← Work.textAt? manifest).getD "")
  if present.contains "versioneer.py" then Work.say " 'versioneer.py' already in MANIFEST.in"
  else
    Work.say " appending 'versioneer.py' to MANIFEST.in"
    Work.addText manifest "include versioneer.py\n"
  if present.contains file then Work.say " versionfile_source already in MANIFEST.in"
  else
    Work.say (" appending versionfile_source ('" ++ file ++ "') to MANIFEST.in")
    Work.addText manifest ("include " ++ file ++ "\n")

def attributes : String := ".gitattributes"

/-- Marks the version file as one whose keywords are filled in. -/
def markFile (file : String) : Work Unit := do
  let text := (← Work.textAt? attributes).getD ""
  let marked := (Text.lines text).any fun line =>
    Text.beginsWith file (Text.trim line) && ((Text.words line).drop 1).contains "export-subst"
  if marked then pure () else Work.addText attributes (file ++ " export-subst\n")

/-- Complains about settings that are incomplete, after adding a sample where
there are none at all. -/
def reject (sample : Bool) : Work Nat := do
  if sample then
    Work.complain "Adding sample versioneer config to setup.cfg"
    Work.addText settingsFile sampleSettings
  Work.complain settingsComplaint
  pure 1

def install : Work Nat := do
  requireProject
  let config : Except Fault Config ← tryCatch (Except.ok <$> readConfig) (pure ∘ Except.error)
  match config with
  | .error (.settings .noSection) | .error .missingFile | .error .isFolder => reject true
  | .error (.settings .noOption) => reject false
  | .error f => throw f
  | .ok c =>
    let file ← createFile c
    extendPackage file
    extendManifest file
    markFile file
    pure 0

/-! ### The setup script -/

def missingItems : List String := [
  "", "Your setup.py appears to be missing some important items",
  "(but I might be wrong). Please make sure it has something", "roughly like the following:", "",
  " import versioneer", " setup( version=versioneer.get_version(),",
  "        cmdclass=versioneer.get_cmdclass(),  ...)", ""]

def oldItems : List String := [
  "You should remove lines like 'versioneer.VCS = ' and",
  "'versioneer.versionfile_source = ' . This configuration",
  "now lives in setup.cfg, and should be removed from setup.py", ""]

def check : Work Nat := do
  let lines := Text.lines (← Work.textAt "setup.py")
  let mentions (s : String) : Bool := lines.any (Text.occursIn s)
  let complete :=
    ["import versioneer", "versioneer.get_cmdclass()", "versioneer.get_version()"].all mentions
  let outdated := ["versioneer.VCS", "versioneer.versionfile_source"].any mentions
  if !complete then missingItems.forM Work.say
  if outdated then oldItems.forM Work.say
  pure ((if complete then 0 else 1) + (if outdated then 1 else 0))

end Modelica.Release.Setup
