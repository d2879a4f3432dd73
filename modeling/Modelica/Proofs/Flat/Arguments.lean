/-
Arguments on the attributes of a symbol.

A symbol of elementary type carries the arguments on its attributes until the
class each of them is written in is flattened. `Pends` reads them off, and
`applyToSymbol_pends` says what one level does: the arguments written there, and
those written nowhere in particular, are applied in their order, and the others
wait.
-/
import Modelica.Proofs.Flat.Passes

namespace Modelica

open List Element

/-- An argument on an attribute: the path of the class it is written in, what it
sets, and to which value. -/
structure Setting where
  scope : Option (List (Option String))
  field : Attribute
  value : Value

/-- Whether an argument takes effect in the class of the given path. -/
def Setting.appliesIn (path : List (Option String)) (x : Setting) : Bool := x.scope.all (· == path)

namespace Symbol

/-- The attributes are set one after the other. -/
def setAll (s : Symbol) (xs : List Setting) : Symbol := xs.foldl (fun s x => s.setAttribute x.field x.value) s

variable (s : Symbol) (a : Attribute) (v : Value) (xs : List Setting)

@[simp] theorem setAttribute_type : (s.setAttribute a v).type = s.type := by cases a <;> rfl
@[simp] theorem setAttribute_keywords : (s.setAttribute a v).keywords = s.keywords := by cases a <;> rfl
@[simp] theorem setAttribute_dimensions : (s.setAttribute a v).dimensions = s.dimensions := by cases a <;> rfl
@[simp] theorem setAttribute_modification : (s.setAttribute a v).modification = s.modification := by cases a <;> rfl

theorem setAll_induction {P : Symbol → Prop} (hs : P s) (hset : ∀ t a v, P t → P (t.setAttribute a v)) :
    P (s.setAll xs) := by
  induction xs generalizing s with
  | nil => exact hs
  | cons x xs ih => exact ih _ (hset s x.field x.value hs)

@[simp] theorem setAll_type : (s.setAll xs).type = s.type :=
  setAll_induction (P := fun t => t.type = s.type) s xs rfl fun _ _ _ h => by rw [setAttribute_type, h]

@[simp] theorem setAll_modification : (s.setAll xs).modification = s.modification :=
  setAll_induction (P := fun t => t.modification = s.modification) s xs rfl fun _ _ _ h => by
    rw [setAttribute_modification, h]

end Symbol

namespace Graph

/-- A class and those around it, up to the root. -/
inductive Ancestry (g : Graph) : Id → List (Id × ClassDef) → Prop
  | root {id : Id} {c : ClassDef} : g.get? id = some (.classDef c) → c.parent = none → Ancestry g id [(id, c)]
  | inside {id outer : Id} {c : ClassDef} {around : List (Id × ClassDef)} : g.get? id = some (.classDef c) →
      c.parent = some outer → Ancestry g outer around → Ancestry g id ((id, c) :: around)

/-- The path of a class, from the root down. -/
def HasPath (g : Graph) (cls : Id) (path : List (Option String)) : Prop :=
  ∃ around, g.Ancestry cls around ∧ around.length ≤ g.size ∧
    (around.map (·.2.name)).dropLast.reverse = path ∧ path ≠ []

theorem set_set (g : Graph) (id : Id) (e e' : Element) : (g.set id e).set id e' = g.set id e' := by
  simp [set]

/-- What an argument of a modification sets. -/
def Sets (g : Graph) (arg : Id) (x : Setting) : Prop :=
  ∃ v scope redeclare source c vs r, g.get? arg = some (.argument v scope redeclare source) ∧
    Option.Rel g.HasPath scope x.scope ∧ g.get? v = some (.elementModification c (x.value :: vs)) ∧
    g.get? c = some (.reference r) ∧ Attribute.ofText? r.name = some x.field

/-- The arguments that wait in a modification, if there is one. -/
def Pends (g : Graph) (modification : Option Id) (xs : List Setting) : Prop :=
  modification = none ∧ xs = [] ∨
    ∃ m args, modification = some m ∧ g.get? m = some (.modification args) ∧ Forall₂ g.Sets args xs

end Graph

/-- Elements that are changed in place when an instance is flattened. -/
def Element.isMutable : Element → Bool
  | .symbol _ | .modification _ | .keywords _ => true
  | _ => false

namespace Graph

/-- Everything is kept but for elements that are changed in place. -/
structure Fixes (g g' : Graph) : Prop where
  size_le : g.size ≤ g'.size
  get? : ∀ {id : Id} {e : Element}, g.get? id = some e → e.isMutable = false → g'.get? id = some e

theorem KeepsBut.fixes {changed g g'} (h : KeepsBut changed isMutable g g') :
    g.Fixes g' := ⟨h.base.size_le, h.get?⟩

namespace Fixes

variable {g g' : Graph}

theorem isReference (h : g.Fixes g') {id} (hr : g.IsReference id) : g'.IsReference id := by
  obtain ⟨r, hr⟩ := hr
  exact ⟨r, h.get? hr rfl⟩

theorem ancestry (h : g.Fixes g') {cls around} (ha : g.Ancestry cls around) : g'.Ancestry cls around := by
  induction ha with
  | root hc hparent => exact .root (h.get? hc rfl) hparent
  | inside hc hparent _ ih => exact .inside (h.get? hc rfl) hparent ih

theorem hasPath (h : g.Fixes g') {cls path} (hp : g.HasPath cls path) : g'.HasPath cls path := by
  obtain ⟨around, ha, hlen, hpath⟩ := hp
  exact ⟨around, h.ancestry ha, hlen.trans h.size_le, hpath⟩

theorem sets (h : g.Fixes g') {arg x} (hx : g.Sets arg x) : g'.Sets arg x := by
  obtain ⟨v, scope, redeclare, source, c, vs, r, harg, hscope, hv, hc, hr⟩ := hx
  refine ⟨v, scope, redeclare, source, c, vs, r, h.get? harg rfl, ?_, h.get? hv rfl, h.get? hc rfl, hr⟩
  generalize x.scope = path at hscope ⊢
  cases hscope with
  | some hp => exact .some (h.hasPath hp)
  | none => exact .none

end Fixes
end Graph

namespace Build

open Modelica.Graph

variable {g : Graph} {cls symbol : Id} {path : List (Option String)} {F : Fault → Graph → Prop}

variable {around : List (Id × ClassDef)} {Q : List (Option String) → Graph → Prop} {arg m : Id} {x : Setting}
  {s : Symbol} {args : List Id} {xs : List Setting}

theorem ends_ancestors (h : g.Ancestry cls around) {n} (hn : around.length ≤ n) {Q} :
    Ends (ancestors n cls) g Q F ↔ Q (around.map (·.1)) g := by
  induction h generalizing n Q with
  | root hc hparent =>
    obtain _ | n := n
    · simp at hn
    simp [ancestors, ends_classAt hc, hparent]
  | inside hc hparent _ ih =>
    obtain _ | n := n
    · simp at hn
    simp [ancestors, ends_classAt hc, hparent, ih (by simpa using hn)]

theorem ends_names (h : g.Ancestry cls around) :
    Ends ((around.map (·.1)).mapM fun c => do pure (← classAt c).name) g Q F ↔ Q (around.map (·.2.name)) g := by
  induction h generalizing Q with
  | root hc _ => simp [ends_classAt hc]
  | inside hc _ _ ih => simp only [map_cons, mapM_cons, ends_bind, ends_classAt hc, ends_pure, ih]

theorem ends_fullPath (h : g.HasPath cls path) : Ends (fullPath cls) g Q F ↔ Q path g := by
  obtain ⟨around, ha, hlen, hpath, hne⟩ := h
  simp only [fullPath, enclosing, ends_bind, ends_size, ends_ancestors ha (Nat.le_succ_of_le hlen), ends_names ha, hpath,
    ends_pure]

theorem ends_appliesIn (hx : g.Sets arg x) (hpath : x.scope ≠ none → g.HasPath cls path) {Q} :
    Ends (appliesIn cls arg) g Q F ↔ Q (x.appliesIn path) g := by
  obtain ⟨v, scope, redeclare, source, c, vs, r, harg, hscope, _⟩ := hx
  simp only [appliesIn, argumentAt, ends_bind, ends_element harg, ends_pure, Setting.appliesIn]
  generalize x.scope = there at hscope hpath
  cases hscope with
  | none => exact ends_pure
  | some hp =>
    simp [ends_fullPath hp, ends_fullPath (hpath (by simp))]

theorem runs_filterM {β γ : Type} {R l xs} {f : β → Build Bool} {p : γ → Bool}
    (hl : Forall₂ R l xs) (hf : ∀ b, ∀ x ∈ xs, R b x → Runs (f b) g fun r g' => r = p x ∧ g' = g) :
    Runs (l.filterM f) g fun kept g' => g' = g ∧ Forall₂ R kept (xs.filter p) := by
  suffices hs : ∀ done, Runs (l.filterAuxM f done) g fun r g' => g' = g ∧ ∃ kept, r = kept.reverse ++ done ∧
      Forall₂ R kept (xs.filter p) by
    refine ends_bind.2 ((hs []).imp ?_)
    rintro r _ ⟨rfl, kept, rfl, hkept⟩
    refine ⟨rfl, ?_⟩
    rw [append_nil, reverse_reverse]
    exact hkept
  induction hl with
  | nil => exact fun done => ⟨rfl, [], rfl, .nil⟩
  | @cons b x l xs hb _ ih =>
    intro done
    rw [filterAuxM, Runs, ends_bind]
    refine (hf b x (.head _) hb).imp ?_
    rintro r _ ⟨rfl, rfl⟩
    refine (ih (fun b' x' hx' => hf b' x' (.tail _ hx')) (cond (p x) (b :: done) done)).imp ?_
    rintro r _ ⟨rfl, kept, rfl, hkept⟩
    rw [filter_cons]
    cases p x with
    | true => exact ⟨rfl, b :: kept, by simp, .cons hb hkept⟩
    | false => exact ⟨rfl, kept, rfl, hkept⟩

theorem applyArgument_runs (hx : g.Sets arg x) (hs : g.SymbolAt symbol s) :
    Runs (applyArgument symbol arg) g fun _ g' => g' = g.set symbol (.symbol (s.setAttribute x.field x.value)) := by
  obtain ⟨v, scope, redeclare, source, c, vs, r, harg, _, hv, hc, hr⟩ := hx
  simp [applyArgument, elementModification?, argumentAt, ends_element harg, ends_element hv, ends_referenceAt hc, hr, ends_modifySymbol hs]

theorem KeepsBut.setSymbol (hs : g.SymbolAt symbol s) (s' : Symbol) :
    KeepsBut (· = symbol) isMutable g (g.set symbol (.symbol s')) := by
  refine ⟨(ExtendsBut.refl (p := (· = symbol)) g).set (.inl rfl) _, ?_, fun _ => rfl⟩
  rintro id e rfl he
  cases hs.symm.trans he
  rfl

theorem applyArguments_runs (hx : Forall₂ g.Sets args xs) (hs : g.SymbolAt symbol s) :
    Runs (args.forM (applyArgument symbol)) g fun _ g' => g' = g.set symbol (.symbol (s.setAll xs)) := by
  induction args generalizing xs s g with
  | nil =>
    cases hx with
    | nil => exact (set_get? hs).symm
  | cons arg args ih =>
    cases hx with
    | @cons _ x _ xs harg hargs =>
      refine ends_bind.2 ((applyArgument_runs harg hs).imp ?_)
      rintro _ _ rfl
      have hkeep := KeepsBut.setSymbol hs (s.setAttribute x.field x.value)
      refine (ih (hargs.imp fun _ _ => hkeep.fixes.sets) (get?_set hs _)).imp ?_
      rintro _ _ rfl
      exact set_set g symbol _ _

theorem modifySymbolIn_runs (hs : g.SymbolAt symbol s) (hm : g.get? m = some (.modification args))
    (hx : Forall₂ g.Sets args xs) (hpath : ∀ x ∈ xs, x.scope ≠ none → g.HasPath cls path) :
    Runs (modifySymbolIn cls symbol m) g fun _ g' => ∃ kept,
      g' = (g.set symbol (.symbol (s.setAll (xs.filter (·.appliesIn path))))).set m (.modification kept) ∧
      Forall₂ g.Sets kept (xs.filter (!·.appliesIn path)) := by
  have happlies : ∀ arg, ∀ x ∈ xs, g.Sets arg x →
      Runs (appliesIn cls arg) g fun r g' => r = x.appliesIn path ∧ g' = g :=
    fun arg x hmem h => (ends_appliesIn h (hpath x hmem)).2 ⟨rfl, rfl⟩
  simp only [modifySymbolIn, ends_bind, ends_argumentsAt hm]
  refine (runs_filterM hx happlies).imp ?_
  rintro applied _ ⟨rfl, happlied⟩
  refine (runs_filterM (p := (!·.appliesIn path)) hx fun arg x hmem h => ?_).imp ?_
  · rw [Runs, ends_bind]
    refine (happlies arg x hmem h).imp ?_
    rintro r _ ⟨rfl, rfl⟩
    exact ⟨rfl, rfl⟩
  · rintro kept _ ⟨rfl, hkept⟩
    refine (applyArguments_runs happlied hs).imp ?_
    rintro _ _ rfl
    exact ⟨kept, rfl, hkept⟩

theorem dropModification_runs {changed g1} (hg : KeepsBut changed isMutable g g1)
    (hsize : g1.size = g.size) (hchanged : changed symbol) (hs : g1.SymbolAt symbol s)
    (hsm : s.modification = some m) (hm : g1.get? m = some (.modification args)) (hx : Forall₂ g.Sets args xs) :
    Runs (do
      if (← argumentsAt m).isEmpty then
        modifySymbol symbol fun s => { s with modification := none }) g1 fun _ g' =>
      g'.size = g.size ∧ KeepsBut changed isMutable g g' ∧
      g'.SymbolAt symbol { s with modification := if xs.isEmpty then none else some m } ∧
      g'.Pends (some m) xs := by
  simp only [Runs, ends_bind, ends_argumentsAt hm]
  cases hx with
  | nil =>
    have hne : m ≠ symbol := fun h => by
      rw [h, hs] at hm
      cases hm
    simp only [isEmpty_nil, if_true, ends_modifySymbol hs]
    refine ⟨by rw [size_set, hsize], ⟨hg.base.set (.inl hchanged) _, hg.ofKind, hg.references⟩,
      get?_set hs _, .inr ⟨m, [], rfl, ?_, .nil⟩⟩
    rw [get?_set_other g1 _ hne, hm]
  | cons harg hrest =>
    simp only [isEmpty_cons, Bool.false_eq_true, if_false, ends_pure]
    refine ⟨hsize, hg, by rwa [← hsm], .inr ⟨m, _, rfl, hm, ?_⟩⟩
    exact .cons (hg.fixes.sets harg) (hrest.imp fun _ _ => hg.fixes.sets)

/-- What one level does to a symbol of elementary type: the arguments that take
effect in the class are applied, and the others wait. -/
theorem applyToSymbol_pends {t} (hs : g.SymbolAt symbol s) (ht : s.type = .node t)
    (hr : g.IsReference t) (hx : g.Pends s.modification xs) (hpath : ∀ x ∈ xs, x.scope ≠ none → g.HasPath cls path) :
    Runs (applyToSymbol cls symbol) g fun _ g' => g'.size = g.size ∧
      KeepsBut (fun id => id = symbol ∨ s.modification = some id) isMutable g g' ∧
      g'.get? symbol = some (.symbol { s.setAll (xs.filter (·.appliesIn path)) with
        modification := if (xs.filter (!·.appliesIn path)).isEmpty then none else s.modification }) ∧
      g'.Pends s.modification (xs.filter (!·.appliesIn path)) := by
  simp only [applyToSymbol, ends_bind, ends_symbolAt hs, ends_typeForm ht hr]
  rcases hx with ⟨hm, rfl⟩ | ⟨m, args, hm, hargs, hsets⟩
  · simp only [hm, ends_pure]
    refine ⟨trivial, ⟨ExtendsBut.refl g, fun id e hid he => ?_, fun _ => rfl⟩, ?_, .inl ⟨rfl, rfl⟩⟩
    · rcases hid with rfl | hid
      · cases hs.symm.trans he
        rfl
      · cases hid
    · rw [hs, ← hm]
      rfl
  · have hkinds : ∀ id e, id = symbol ∨ some m = some id → g.get? id = some e → e.isMutable = true := by
      rintro id e (rfl | hid) he
      · cases hs.symm.trans he
        rfl
      · cases hid
        cases hargs.symm.trans he
        rfl
    have hsame : KeepsBut (fun id => id = symbol ∨ some m = some id) isMutable g g :=
      ⟨ExtendsBut.refl g, hkinds, fun _ => rfl⟩
    simp only [hm, ends_bind, ends_argumentsAt hargs]
    cases hsets with
    | nil =>
      simp only [isEmpty_nil, Bool.not_true, Bool.false_eq_true, if_false]
      exact dropModification_runs hsame rfl (.inl rfl) hs hm hargs .nil
    | cons harg hrest =>
      simp only [isEmpty_cons, Bool.not_false, if_true, ends_bind]
      refine (modifySymbolIn_runs hs hargs (.cons harg hrest) hpath).imp ?_
      rintro _ _ ⟨kept, rfl, hkept⟩
      have hne : symbol ≠ m := fun h => by
        rw [h] at hs
        cases hs.symm.trans hargs
      refine ends_bind.1 (dropModification_runs
        ⟨(hsame.base.set (.inl (.inl rfl)) _).set (.inl (.inr rfl)) _, hkinds, fun _ => rfl⟩ (by simp) (.inl rfl) ?_ ?_ ?_
        hkept)
      · exact (get?_set_other _ _ hne).trans (get?_set hs _)
      · rw [Symbol.setAll_modification, hm]
      · rw [get?_set_self]
        rw [size_set]
        exact get?_lt hargs

end Build

end Modelica
