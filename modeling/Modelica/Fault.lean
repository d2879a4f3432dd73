/-
What can go wrong, by cause.

`Fault.message` words the faults that carry a message. A fault that arises
while a component is built is reported together with the component, from the
outermost one inwards (`inComponent`).
-/
import Modelica.Token

namespace Modelica

/-- What can be wrong with a settings file. -/
inductive SettingsFault where
  | noSection
  | noOption
  | repeatedSection
  | repeatedOption
  /-- A line in front of the first section. -/
  | noHeader
  | malformedLine
  /-- Values that refer to others in a circle, or nearly so. -/
  | deepReference
  | malformedReference
  | unknownReference
deriving Repr, DecidableEq, Inhabited

inductive Fault where
  /-- The text cannot be continued at this place. -/
  | unexpected (position : Position)
  | classNotFound (reference : String)
  | constantNotFound
  /-- A look-up met one of the elementary types. -/
  | elementaryClass
  | targetNotFound (symbol : String) (owner : String)
  | alreadyDefined (name : String)
  | extendsItself (name : String)
  | mixedBuiltin
  | unknownRedeclaration
  | subscriptedModifier
  | unknownProperty (name : String)
  | unresolvedConnector (which left right : String)
  | unsupportedKeywords (keywords : String)
  /-- A symbol whose type is the mere name of a connector. -/
  | namedType
  /-- A condition of the program itself does not hold. -/
  | assertion (message : String)
  /-- Nothing is stored under this name. -/
  | noEntry
  /-- An element has no such part. -/
  | noPart
  /-- A value of this kind has no place here. -/
  | wrongKind
  | outOfRange
  | badValue
  /-- A class holds or extends itself through others. -/
  | tooDeep
  /-- A symbol that is stored under another name than its own. -/
  | unknownSymbol
  /-- A name without meaning in a script. -/
  | unboundName
  /-- A script that cannot be read. -/
  | unreadable
  | divisionByZero
  /-- An equation in which an unknown does not occur linearly. -/
  | nonlinear
  /-- The unknowns and the equations of a model differ in number. -/
  | unbalanced (message : String)
  | settings (cause : SettingsFault)
  /-- Data that cannot be read. -/
  | malformedData
  | missingFile
  /-- A folder stands where a file should. -/
  | isFolder
  /-- A file stands where a folder should. -/
  | notFolder
  /-- The folder is no project. -/
  | noProject
  /-- A source of versions does not know this one. -/
  | notApplicable (reason : String)
  /-- A part of the program that is not installed. -/
  | notInstalled
  | inComponent (path : String) (cause : Fault)
deriving Repr, DecidableEq, Inhabited

/-- The text of a fault. -/
def Fault.message : Fault → String
  | .classNotFound r => "Could not find class '" ++ r ++ "'"
  | .targetNotFound s c =>
    "Trying to modify symbol " ++ s ++ ", which does not exist in class " ++ c
  | .alreadyDefined n => n ++ " already defined"
  | .extendsItself n => "Cannot extend class '" ++ n ++ "' with itself"
  | .mixedBuiltin =>
    "When extending a built-in class (Real, Integer, ...) you cannot extend other classes as well"
  | .unknownRedeclaration => "Unknown redeclaration type"
  | .subscriptedModifier => "Subscripting modifiers is not allowed."
  | .unknownProperty n => "Trying to set unknown symbol property " ++ n
  | .unresolvedConnector w l r =>
    "Could not resolve " ++ w ++ " in connect clause (" ++ l ++ "*, " ++ r ++ "*)"
  | .unsupportedKeywords ks => "Unsupported connector variable prefixes " ++ ks
  | .namedType => "Unknown object type of symbol type: <class 'str'>"
  | .assertion m => m
  | .unbalanced m => m
  | .notApplicable m => m
  | .inComponent p _ => "Processing failed for symbol \"" ++ p ++ "\""
  | _ => ""

/-- The fault that started a chain of faults. -/
def Fault.root : Fault → Fault
  | .inComponent _ cause => cause.root
  | f => f

end Modelica
