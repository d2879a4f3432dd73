/-
The visibility that sections give.

When the body of a class has been read, its leading members become hidden, those of the
last public section exposed and those of the last protected section guarded. The members
of all other sections keep the visibility they have (`assemble_shows`). So it is for a
whole class body (`composition_visibility`), whose sections are put together when all of
it has been read. A symbol begins hidden, as the last example of this file shows.
-/
import Modelica.Library
import Modelica.Proofs.Read.Made

namespace Modelica

open Element

/-- The element with the given visibility, if it has one. -/
def Element.showing (v : Visibility) : Element → Element
  | .symbol s => .symbol { s with visibility := v }
  | .base path m _ => .base path m v
  | e => e

theorem Element.showing_showing (v w : Visibility) (e : Element) : (e.showing v).showing w = e.showing w := by
  cases e <;> rfl

theorem Element.isClass_showing (v : Visibility) (e : Element) : (e.showing v).isClass = e.isClass := by
  cases e <;> rfl

namespace Read

open Build Modelica.Graph List

variable {g g1 g' : Graph} {st : Reading} {v : Visibility} {xs ys : List Id} {id : Id} {e : Element}

/-- The elements whose visibility is that of a member. -/
def Member.parts (g : Graph) : Member → List Id
  | .clause id => match g.get? id with
    | some (.clause c) => c.symbols
    | _ => []
  | .base id => match g.get? id with
    | some (.base _ _ _) => [id]
    | _ => []
  | .other => []

/-- The given elements have got the visibility `v`, and all else has stayed. -/
def Shows (v : Visibility) (ids : List Id) (g g' : Graph) : Prop :=
  ∀ id, g'.get? id = if id ∈ ids then (g.get? id).map (showing v) else g.get? id

theorem Shows.nil (g : Graph) : Shows v [] g g := fun _ => rfl

theorem Shows.append (h : Shows v xs g g1) (h' : Shows v ys g1 g') : Shows v (xs ++ ys) g g' := fun id => by
  have htwice : showing v ∘ showing v = showing v := funext (showing_showing v v)
  rw [h' id, h id]
  by_cases hx : id ∈ xs <;> by_cases hy : id ∈ ys <;> simp [hx, hy, htwice]

theorem Shows.set (he : g.get? id = some e) : Shows v [id] g (g.set id (e.showing v)) := fun a => by
  by_cases ha : a = id
  · subst ha
    simp [get?_set he _, he]
  · rw [get?_set_other g _ ha, if_neg (by simpa using ha)]

theorem Shows.parts (h : Shows v xs g g') (m : Member) : m.parts g' = m.parts g := by
  cases m with
  | other => rfl
  | clause id | base id =>
    rw [Member.parts, Member.parts, h id]
    split_ifs
    · rcases g.get? id with _ | e
      · rfl
      · cases e <;> rfl
    · rfl

/-- What holds before a loop and is carried on by its steps holds after the loop. -/
theorem forM_yields {α : Type} {f : α → Read Unit} {R : List α → Graph → Graph → Prop} (hnil : ∀ g, R [] g g)
    (hcons : ∀ a l g, Yields ((f a).run st) g fun r g1 => r.2 = st ∧ ∀ g', R l g1 g' → R (a :: l) g g') (l : List α)
    (g : Graph) : Yields ((l.forM f).run st) g fun r g' => r.2 = st ∧ R l g g' := by
  induction l generalizing g with
  | nil => exact ⟨rfl, hnil g⟩
  | cons a l ih =>
    refine ends_bind.2 ((hcons a l g).imp ?_)
    rintro ⟨_, _⟩ g1 ⟨rfl, h1⟩
    exact (ih g1).imp fun r g' hr => ⟨hr.1, h1 g' hr.2⟩

theorem setVisibility_yields (m : Member) (g : Graph) :
    Yields ((m.setVisibility v).run st) g fun r g' => r.2 = st ∧ Shows v (m.parts g) g g' := by
  cases m with
  | clause id =>
    refine ends_bind.2 (ends_run_lift.2 (ends_bind.2 (ends_element_of (fun e he => ?_) trivial)))
    cases e with
    | clause c =>
      rw [Member.parts, he]
      refine forM_yields Shows.nil (fun s l g => ends_run_lift.2 (ends_modifySymbol_of (fun sym hsym => ?_) trivial)) _ g
      exact ⟨rfl, fun g' h => (Shows.set hsym).append h⟩
    | _ => trivial
  | base id =>
    refine ends_bind.2 (ends_run_lift.2 (ends_element_of (fun e he => ?_) trivial))
    rw [Member.parts, he]
    cases e with
    | base path m w => exact ⟨rfl, Shows.set he⟩
    | _ => exact ⟨rfl, .nil g⟩
  | other => exact ⟨rfl, .nil g⟩

theorem setVisibility_forM_yields (ms : List Member) (g : Graph) :
    Yields ((ms.forM (Member.setVisibility v)).run st) g fun r g' => r.2 = st ∧ Shows v (ms.flatMap (Member.parts g)) g g' :=
  forM_yields (R := fun ms g g' => Shows v (ms.flatMap (Member.parts g)) g g') Shows.nil
    (fun m _ g => (setVisibility_yields m g).imp fun _ _ hr => ⟨hr.1, fun _ h =>
      hr.2.append (funext hr.2.parts ▸ h)⟩) ms g

/-- Only classes have changed. -/
def EditsClasses (g g' : Graph) : Prop := ∀ id e, g.get? id = some e → e.isClass = false → g'.get? id = some e

theorem modifyClass_yields (cls : Id) (f : ClassDef → ClassDef) (g : Graph) :
    Yields ((liftM (modifyClass cls f) : Read Unit).run st) g fun r g1 =>
      r.2 = st ∧ ∀ g', EditsClasses g1 g' → EditsClasses g g' := by
  refine ends_run_lift.2 (ends_modifyClass_of (fun c hc => ⟨rfl, fun g' h id e he hclass => h id e ?_ hclass⟩) trivial)
  rwa [get?_set_other g _ ?_]
  rintro rfl
  cases hc.symm.trans he
  cases hclass

theorem currentClass_yields (st : Reading) (g : Graph) :
    Yields (currentClass.run st) g fun r g' => r.2 = st ∧ g' = g := by
  simp only [currentClass, StateT.run_bind, StateT.run_get, pure_bind]
  split
  · exact ⟨rfl, rfl⟩
  · trivial

def SectionContent.exposed? : SectionContent → Option (List Member)
  | .exposed ms => some ms
  | _ => none

def SectionContent.guarded? : SectionContent → Option (List Member)
  | .guarded ms => some ms
  | _ => none

/-- What becomes of an element when the sections of a class are put together. Of several public sections only
the last one makes its members visible, and of several protected ones only the last one protects them. -/
def shown (g : Graph) (first : List Member) (sections : List SectionContent) (id : Id) (e : Element) : Element :=
  if id ∈ (lastMembers SectionContent.guarded? sections).flatMap (Member.parts g) then e.showing .guarded
  else if id ∈ (lastMembers SectionContent.exposed? sections).flatMap (Member.parts g) then e.showing .exposed
  else if id ∈ first.flatMap (Member.parts g) then e.showing .hidden
  else e

theorem isClass_shown (first : List Member) (sections : List SectionContent) (he : e.isClass = false) :
    (shown g first sections id e).isClass = false := by
  rw [shown]
  split_ifs <;> simp [Element.isClass_showing, he]

theorem assemble_shows (first : List Member) (sections : List SectionContent) (st : Reading) (g : Graph) :
    Yields ((assemble first sections).run st) g fun _ g' => ∀ id e, g.get? id = some e → e.isClass = false →
      g'.get? id = some (shown g first sections id e) := by
  refine ends_bind.2 ((setVisibility_forM_yields first g).imp ?_)
  rintro ⟨_, _⟩ g1 ⟨rfl, h1⟩
  refine ends_bind.2 ((setVisibility_forM_yields (lastMembers SectionContent.exposed? sections) g1).imp ?_)
  rintro ⟨_, _⟩ g2 ⟨rfl, h2⟩
  refine ends_bind.2 ((setVisibility_forM_yields (lastMembers SectionContent.guarded? sections) g2).imp ?_)
  rintro ⟨_, st⟩ g3 ⟨rfl, h3⟩
  have hparts : Member.parts g1 = Member.parts g := funext h1.parts
  rw [hparts] at h2
  rw [(funext h2.parts).trans hparts] at h3
  have hshown : ∀ id e, g.get? id = some e → g3.get? id = some (shown g first sections id e) := fun id e he => by
    rw [h3 id, h2 id, h1 id, he, shown]
    split_ifs <;> simp [Element.showing_showing]
  -- What is left to do edits the class only, so it shows nothing and hides nothing.
  refine ends_bind.2 ((currentClass_yields st g3).imp ?_)
  rintro ⟨owner, st⟩ g4 ⟨rfl, rfl⟩
  refine (forM_yields (R := fun _ => EditsClasses) (fun _ _ _ he _ => he) (fun s l g => ?_) sections g4).imp
    fun r g' hr id e he hclass => hr.2 id _ (hshown id e he) (isClass_shown first sections hclass)
  split
  iterate 4 exact modifyClass_yields owner _ g
  exact ⟨rfl, fun _ h => h⟩

/-! ### Class bodies -/

/-- What an element of a class body is read into. -/
def Member.Of : Syntax.Element → Member → Prop
  | .componentElement _, .clause _ | .replaceableComponent _ _ _, .clause _ | .extendsClause _ _ _, .base _ => True
  | .importClause _ _ _, .other | .classElement _, .other | .replaceableClass _ _ _, .other => True
  | _, _ => False

/-- What a section is read into: something of its kind, with a member for each element. -/
def SectionContent.Of : Syntax.Section → SectionContent → Prop
  | .publicElements items, .exposed ms | .protectedElements items, .guarded ms => Forall₂ Member.Of items ms
  | .equations initial _, .equations initial' _ | .algorithm initial _, .statements initial' _ => initial' = initial
  | _, _ => False

/-- A step may do anything if all that follows does well after it. -/
theorem yields_after {α β : Type} {x : Read α} {f : α → Read β} {Q} (h : ∀ a st g, Yields ((f a).run st) g Q) :
    Yields ((x >>= f).run st) g Q :=
  ends_bind.2 (yields_iff.2 fun r g' _ => h r.1 r.2 g')

theorem element_yields (e : Syntax.Element) (st : Reading) (g : Graph) :
    Yields ((element e).run st) g fun r _ => Member.Of e r.1 := by
  cases e with
  | importClause form path note =>
    rw [element, importClause]
    refine yields_after fun _ _ _ => ?_
    cases form with
    | «alias» name =>
      iterate 4 refine yields_after fun _ _ _ => ?_
      trivial
    | some names => trivial
    | whole | all => exact yields_after fun _ _ _ => trivial
  | extendsClause path m note =>
    rw [element, extendsClause]
    iterate 6 refine yields_after fun _ _ _ => ?_
    trivial
  | classElement definition | componentElement c =>
    rw [element]
    exact yields_after fun _ _ _ => trivial
  | replaceableClass definition limit note | replaceableComponent c limit note =>
    rw [element]
    iterate 3 refine yields_after fun _ _ _ => ?_
    trivial

theorem elements_yields (items : List Syntax.Element) (st : Reading) (g : Graph) :
    Yields ((elements items).run st) g fun r _ => Forall₂ Member.Of items r.1 := by
  induction items generalizing st g with
  | nil => exact .nil
  | cons e rest ih =>
    rw [elements]
    refine ends_bind.2 ((element_yields e st g).imp fun r g1 hm => ends_bind.2 ((ih r.2 g1).imp fun _ _ hms => ?_))
    exact .cons hm hms

theorem classSection_yields (s : Syntax.Section) (st : Reading) (g : Graph) :
    Yields ((classSection s).run st) g fun r _ => SectionContent.Of s r.1 := by
  cases s with
  | publicElements items | protectedElements items =>
    rw [classSection]
    exact ends_bind.2 ((elements_yields items st g).imp fun _ _ h => h)
  | equations | algorithm =>
    rw [classSection]
    exact yields_after fun _ _ _ => rfl

theorem classSections_yields (parts : List Syntax.Section) (st : Reading) (g : Graph) :
    Yields ((classSections parts).run st) g fun r _ => Forall₂ SectionContent.Of parts r.1 := by
  induction parts generalizing st g with
  | nil => exact .nil
  | cons s rest ih =>
    rw [classSections]
    refine ends_bind.2 ((classSection_yields s st g).imp fun r g1 hc => ends_bind.2 ((ih r.2 g1).imp fun _ _ hcs => ?_))
    exact .cons hc hcs

/-- A class body is gone through, and its sections are not put together yet. -/
def body (items : List Syntax.Element) (parts : List Syntax.Section) (ext : Option Syntax.External)
    (note : Syntax.OptionalModification) : Read (List Member × List SectionContent × Option Id) := do
  let first ← elements items
  let contents ← classSections parts
  discard (ext.mapM external)
  let remarks ← optionalModification note
  pure (first, contents, remarks)

theorem composition_eq_body (items parts ext note) : composition (.mk items parts ext note) = (do
    let r ← body items parts ext note
    assemble r.1 r.2.1
    r.2.2.elim (pure ()) fun a => do
      Build.modifyClass (← currentClass) fun c => { c with remarks := some a }) := by
  simp only [composition, body, bind_assoc, pure_bind]
  refine bind_congr fun first => bind_congr fun contents => bind_congr fun _ => bind_congr fun remarks => ?_
  cases remarks <;> rfl

theorem body_yields (items parts ext note) (st : Reading) (g : Graph) :
    Yields ((body items parts ext note).run st) g fun r _ =>
      Forall₂ Member.Of items r.1.1 ∧ Forall₂ SectionContent.Of parts r.1.2.1 := by
  refine ends_bind.2 ((elements_yields items st g).imp fun r g1 hfirst => ends_bind.2 ?_)
  refine (classSections_yields parts r.2 g1).imp fun _ _ hcontents => ?_
  iterate 2 refine yields_after fun _ _ _ => ?_
  exact ⟨hfirst, hcontents⟩

/-- **A class body gives visibility to what is in its last sections.** When all of it has been read, with
something of its kind for each section, the members of the last public section and those of the last protected
one become visible and protected, the leading members become hidden, and nothing else changes but the class. -/
theorem composition_visibility (items parts ext note) (st : Reading) (g : Graph) :
    Yields ((composition (.mk items parts ext note)).run st) g fun _ g' => ∃ first contents remarks st₁ g₁,
      (body items parts ext note).run st g = .ok ((first, contents, remarks), st₁) g₁ ∧
      Forall₂ Member.Of items first ∧ Forall₂ SectionContent.Of parts contents ∧
      ∀ id e, g₁.get? id = some e → e.isClass = false → g'.get? id = some (shown g₁ first contents id e) := by
  rw [composition_eq_body]
  refine ends_bind.2 (yields_iff.2 ?_)
  rintro ⟨⟨first, contents, remarks⟩, st₁⟩ g₁ hbody
  obtain ⟨hfirst, hcontents⟩ := yields_iff.1 (body_yields items parts ext note st g) _ g₁ hbody
  refine ends_bind.2 ((assemble_shows first contents st₁ g₁).imp fun r g2 hshown => ?_)
  cases remarks with
  | none => exact ⟨first, contents, none, st₁, g₁, hbody, hfirst, hcontents, hshown⟩
  | some a =>
    refine ends_bind.2 ((currentClass_yields r.2 g2).imp ?_)
    rintro ⟨owner, st⟩ g3 ⟨rfl, rfl⟩
    refine (modifyClass_yields owner _ g3).imp fun _ g' hr => ?_
    have hedits : EditsClasses g3 g' := hr.2 g' fun _ _ he _ => he
    exact ⟨first, contents, some a, st₁, g₁, hbody, hfirst, hcontents, fun id e he hclass =>
      hedits id _ (hshown id e he hclass) (isClass_shown first contents hclass)⟩

/-- Two public sections of one component each. -/
@[irreducible] def publicText : String := "model M public Real x; public Real y; end M;"

example : Runs (do let _ ← Build.read publicText; pure ((← symbolAt 17).visibility, (← symbolAt 33).visibility)) {} fun v _ =>
    v = (.hidden, .exposed) := by decide +kernel

end Read
end Modelica
