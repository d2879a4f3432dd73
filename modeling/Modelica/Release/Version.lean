/-
Versions, and the ways of writing them.

A `Description` says where a revision stands: the closest tag, the number of
revisions since then, and whether there are further changes. What is not known
is left out, and a style that needs it fails.
-/
import Modelica.Fault
import Modelica.Data
import Modelica.Text.Search

namespace Modelica.Release

structure Version where
  version : String
  revision : Option String
  dirty : Option Bool
  error : Option String
  date : Option String
deriving Repr, DecidableEq, Inhabited

def Version.toData (v : Version) : Data :=
  .group [("version", .text v.version), ("full-revisionid", .ofText? v.revision),
    ("dirty", .ofFlag? v.dirty), ("error", .ofText? v.error), ("date", .ofText? v.date)]

structure Description where
  tag : Option (Option String) := none
  distance : Option Int := none
  short : Option String := none
  long : Option String := none
  dirty : Option Bool := none
  /-- What went wrong; `some none` if nothing did. -/
  error : Option (Option String) := none
  date : Option String := none
deriving Repr, DecidableEq, Inhabited

inductive Style where
  | usual
  | pre
  | post
  | old
  | describe
  | describeLong
deriving Repr, DecidableEq, Inhabited

def Style.ofText? : String → Option Style
  | "" | "default" | "pep440" => some .usual
  | "pep440-pre" => some .pre
  | "pep440-post" => some .post
  | "pep440-old" => some .old
  | "git-describe" => some .describe
  | "git-describe-long" => some .describeLong
  | _ => none

namespace Description

def need {α : Type} : Option α → Except Fault α
  | some a => pure a
  | none => throw .noEntry

/-- What comes between a tag and further parts: only the first mark is a plus. -/
def mark (tag : String) : String := if tag.contains '+' then "." else "+"

def markOf (d : Description) : Except Fault String :=
  match d.tag with
  | some (some tag) => pure (mark tag)
  | some none => throw .wrongKind
  | none => pure (mark "")

def tag? (d : Description) : Except Fault (Option String) := do
  match ← need d.tag with
  | some tag => pure (if tag.isEmpty then none else some tag)
  | none => pure none

/-- Whether the revision is another one than that of the tag. -/
def moved (d : Description) : Except Fault Bool := do
  if (← need d.distance) ≠ 0 then pure true else need d.dirty

def ifDirty (d : Description) (text : String) : Except Fault String := do
  pure (if ← need d.dirty then text else "")

def distanceText (d : Description) : Except Fault String := do return toString (← need d.distance)

def usualText (d : Description) : Except Fault String := do
  match ← d.tag? with
  | some tag =>
    if ← d.moved then
      pure (tag ++ mark tag ++ (← d.distanceText) ++ ".g" ++ (← need d.short) ++ (← d.ifDirty ".dirty"))
    else pure tag
  | none =>
    pure ("0+untagged." ++ (← d.distanceText) ++ ".g" ++ (← need d.short) ++ (← d.ifDirty ".dirty"))

def preText (d : Description) : Except Fault String := do
  match ← d.tag? with
  | some tag =>
    if (← need d.distance) = 0 then pure tag else pure (tag ++ ".post.dev" ++ (← d.distanceText))
  | none => pure ("0.post.dev" ++ (← d.distanceText))

def oldText (d : Description) : Except Fault String := do
  match ← d.tag? with
  | some tag =>
    if ← d.moved then pure (tag ++ ".post" ++ (← d.distanceText) ++ (← d.ifDirty ".dev0"))
    else pure tag
  | none => pure ("0.post" ++ (← d.distanceText) ++ (← d.ifDirty ".dev0"))

def postText (d : Description) : Except Fault String := do
  let text ← d.oldText
  match ← d.tag? with
  | some tag => if ← d.moved then pure (text ++ mark tag ++ "g" ++ (← need d.short)) else pure text
  | none => pure (text ++ "+g" ++ (← need d.short))

/-- Tag, distance and revision; the last two at a tag only if asked for. -/
def describeText (always : Bool) (d : Description) : Except Fault String := do
  let start ← match ← d.tag? with
    | some tag =>
      if always || (← need d.distance) ≠ 0 then
        pure (tag ++ "-" ++ (← d.distanceText) ++ "-g" ++ (← need d.short))
      else pure tag
    | none => need d.short
  pure (start ++ (← d.ifDirty "-dirty"))

def text (d : Description) : Style → Except Fault String
  | .usual => d.usualText
  | .pre => d.preText
  | .post => d.postText
  | .old => d.oldText
  | .describe => d.describeText false
  | .describeLong => d.describeText true

/-- Writes the version of a revision in a style given by name. -/
def render (d : Description) (style : String) : Except Fault Version := do
  let error ← need d.error
  if (error.getD "") ≠ "" then
    pure { version := "unknown", revision := d.long, dirty := none, error, date := none }
  else
    match Style.ofText? style with
    | none => throw .badValue
    | some style =>
      let version ← d.text style
      pure {
        version, revision := some (← need d.long), dirty := some (← need d.dirty), error := none,
        date := d.date }

def toData (d : Description) : Data :=
  .group (List.filterMap id [
    d.tag.map fun t => ("closest-tag", .ofText? t),
    d.distance.map fun n => ("distance", .whole n),
    d.short.map fun s => ("short", .text s),
    d.long.map fun s => ("long", .text s),
    d.dirty.map fun b => ("dirty", .flag b),
    d.error.map fun e => ("error", .ofText? e),
    d.date.map fun s => ("date", .text s)])

end Description
end Modelica.Release
