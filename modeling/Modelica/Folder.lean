/-
Folders of texts, addressed by paths.

A path is followed from the folder itself: an empty part and `.` stay, `..`
goes up, and every part but the last has to be a folder. Nothing outside the
folder can be addressed.
-/
import Modelica.Fault
import Modelica.Table
import Modelica.Text.Blank

namespace Modelica

abbrev Place := List String

structure Folder where
  files : Table Place String := {}
deriving Repr, Inhabited

def pathParts (path : String) : List String := (Text.cutAt (· == '/') path.toList).map String.ofList

namespace Folder

/-- Whether a place is the folder itself or one with files in it. -/
def isFolderAt (f : Folder) (place : Place) : Bool :=
  place.isEmpty || f.files.keys.any fun k => place.isPrefixOf k && place.length < k.length

def follow (f : Folder) (place : Place) (part : String) : Except Fault Place :=
  if !f.isFolderAt place then throw (if f.files.contains place then .notFolder else .missingFile)
  else if part = "" ∨ part = "." then pure place
  else if part = ".." then
    if place.isEmpty then throw .missingFile else pure place.dropLast
  else pure (place ++ [part])

def locate (f : Folder) (path : String) : Except Fault Place :=
  if path.isEmpty || path.toList.head? == some '/' then throw .missingFile
  else (pathParts path).foldlM f.follow []

def has (f : Folder) (path : String) : Bool :=
  match f.locate path with
  | .ok place => f.files.contains place || f.isFolderAt place
  | .error _ => false

def readAt (f : Folder) (place : Place) : Except Fault String :=
  match f.files.get? place with
  | some text => pure (Text.unifyLines text)
  | none => throw (if f.isFolderAt place then .isFolder else .missingFile)

def read (f : Folder) (path : String) : Except Fault String := do f.readAt (← f.locate path)

def writeAt (f : Folder) (place : Place) (text : String) : Folder :=
  ⟨f.files.insert place text⟩

def write (f : Folder) (path text : String) : Except Fault Folder := do
  let place ← f.locate path
  if f.isFolderAt place then throw .isFolder else pure (f.writeAt place text)

def append (f : Folder) (path text : String) : Except Fault Folder := do
  let place ← f.locate path
  if f.isFolderAt place then throw .isFolder
  else pure (f.writeAt place ((f.files.get? place).getD "" ++ text))

def remove (f : Folder) (path : String) : Except Fault Folder := do
  let place ← f.locate path
  if f.files.contains place then pure ⟨f.files.erase place⟩
  else throw (if f.isFolderAt place then .isFolder else .missingFile)

def ofTexts (texts : List (String × String)) : Folder :=
  ⟨Table.ofList (texts.map fun t => ((pathParts t.1).filter fun p => p ≠ "" ∧ p ≠ ".", t.2))⟩

def texts (f : Folder) : List (String × String) :=
  f.files.entries.map fun e => (String.intercalate "/" e.1, e.2)

def namesAt (f : Folder) (place : Place) : List String :=
  f.files.keys.filterMap fun k => if k.dropLast = place then k.getLast? else none

def foldersAt (f : Folder) (place : Place) : List String :=
  (f.files.keys.filterMap fun k =>
    if place.isPrefixOf k && place.length + 1 < k.length then k[place.length]? else none).eraseDups

/-- The places of all files under a place: those of a folder in front of
those of the folders in it. -/
def walkTo (f : Folder) : Nat → Place → List Place
  | 0, _ => []
  | n + 1, place =>
    (f.namesAt place).map (place ++ [·]) ++
      (f.foldersAt place).flatMap fun name => walkTo f n (place ++ [name])

def walk (f : Folder) (place : Place) : List Place :=
  walkTo f ((f.files.keys.map List.length).foldl max 0 + 1) place

end Folder
end Modelica
