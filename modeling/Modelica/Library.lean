/-
Class trees from texts: reading one text, and merging further ones into it.

Merging goes by name. Where both trees have a class of a name, the first one
keeps its own content and takes over only classes that it lacks.
-/
import Modelica.Token.Lexer
import Modelica.Syntax.Parser.Class
import Modelica.Graph.OfSyntax

namespace Modelica

/-- A class tree, and what was dropped from the text while it was read. -/
structure Loaded where
  root : Id
  dropped : List Dropped

namespace Build

/-- Reads a text. Only what stands in front of the first token that was not
needed is reported as dropped. -/
def read (text : String) : Build Loaded := do
  let lexemes := Lexer.lexemes text
  let tokens := lexemes.filterMap Lexeme.token?
  match Syntax.parse tokens with
  | .error rest =>
    throw (.unexpected ((rest.head?.map Token.position).getD (endOf text)))
  | .ok (file, rest) =>
    let root ← treeOf file
    pure ⟨root, dropped (tokens.length - rest.length) lexemes⟩

/-- Takes over the classes of `other` that the class `id` lacks. -/
def merge : Nat → Id → Id → Build Unit
  | 0, _, _ => throw .tooDeep
  | n + 1, id, other => do
    for (name, theirs) in (← classAt other).classes.entries do
      match (← classAt id).classes.get? name with
      | some mine => merge n mine theirs
      | none => modifyClass id fun c => { c with classes := c.classes.insert name theirs }

def extend (root other : Id) : Build Unit := do
  merge ((← size) + 1) root other
  linkAll root

def extendAll (root : Id) : List String → Build (List Dropped)
  | [] => pure []
  | text :: rest => do
    let l ← read text
    extend root l.root
    pure (l.dropped ++ (← extendAll root rest))

/-- Reads the texts in order and merges them into the first one. -/
def readAll : List String → Build Loaded
  | [] => throw .outOfRange
  | text :: rest => do
    let l ← read text
    let more ← extendAll l.root rest
    pure ⟨l.root, l.dropped ++ more⟩

end Build
end Modelica
