/-
How the versions of a project are found, as its settings file says in the
section `versioneer`.
-/
import Modelica.Release.Settings

namespace Modelica.Release

structure Config where
  control : String
  style : String
  sourceFile : Option String
  buildFile : Option String
  tagStart : Option String
  folderStart : Option String
  verbose : Option String
deriving Repr, Inhabited

namespace Config

def sectionName : String := "versioneer"

/-- Two quotes stand for the empty text. -/
def unquoted (s : String) : String := if s = "''" ∨ s = "\"\"" then "" else s

def ofSettings (s : Settings) : Except Fault Config := do
  let control ← s.get sectionName "vcs"
  let style ← s.get? sectionName "style"
  let sourceFile ← s.get? sectionName "versionfile_source"
  let buildFile ← s.get? sectionName "versionfile_build"
  let tagStart ← s.get? sectionName "tag_prefix"
  let folderStart ← s.get? sectionName "parentdir_prefix"
  let verbose ← s.get? sectionName "verbose"
  pure {
    control, style := style.getD "", sourceFile, buildFile, tagStart := tagStart.map unquoted,
    folderStart, verbose }

def read (text : String) : Except Fault Config := do ofSettings (← Settings.read text)

def isVerbose (c : Config) : Bool := (c.verbose.getD "") ≠ ""

end Config
end Modelica.Release
