/-
Copies of classes.

Unlike the copy of an expression, that of a class may run into what has been
copied before, keeps the class around it, and leaves a mark on its source. Still
nothing else happens to the elements that were there (`Preserves`), and the
symbols of the copy are new (`copy_ends`). The class around a class is copied to
itself, so what is needed is that it is a class (`Housed`). What is copied is the
source of a class, whatever the class itself has become (`copy_follows_source`);
where the source holds no classes and no arguments, all it holds (`copy_class_runs`).
-/
import Modelica.Library
import Modelica.Proofs.Graph.Copy
import Modelica.Proofs.Graph.Yield

namespace Modelica

open List Element StateT Option

namespace Graph

variable {g g' g1 : Graph} {id : Id} {e : Element} {c : ClassDef}

def IsClass (g : Graph) (id : Id) : Prop := ∃ c, g.get? id = some (.classDef c)

theorem isClass_iff {e} (he : g.get? id = some e) : g.IsClass id ↔ e.isClass = true := by
  rw [IsClass, he]
  cases e <;> simp [isClass]

/-- Each class stands in a class, if in anything, and is the copy of a class, if
of anything. -/
structure Housed (g : Graph) : Prop where
  parent : ∀ id c p, g.get? id = some (.classDef c) → c.parent = some p → g.IsClass p
  source : ∀ id c s, g.get? id = some (.classDef c) → c.source = some s → g.IsClass s

instance decidableIsClass (g : Graph) (id : Id) : Decidable (g.IsClass id) :=
  decidable_of_iff ((g.get? id).any Element.isClass = true) (by
    cases he : g.get? id with
    | none => simp [IsClass, he]
    | some e => rw [isClass_iff he, Option.any_some])

/-- The class around a class and its source, as far as there are any. -/
def housesOf : Element → List Id
  | .classDef c => c.parent.toList ++ c.source.toList
  | _ => []

instance decidableHoused (g : Graph) : Decidable g.Housed :=
  decidable_of_iff (∀ e ∈ g.elements, ∀ p ∈ housesOf e, g.IsClass p) (by
    constructor
    · intro h
      exact ⟨fun _ _ p hc hp => h _ (Array.mem_of_getElem? hc) p (by simp [housesOf, hp]),
        fun _ _ s hc hs => h _ (Array.mem_of_getElem? hc) s (by simp [housesOf, hs])⟩
    · rintro ⟨hparent, hsource⟩ e he p hp
      obtain ⟨id, hid⟩ := Array.mem_iff_getElem?.1 he
      cases e with
      | classDef c =>
        rcases mem_append.1 hp with hp | hp
        · exact hparent id c p hid (Option.mem_toList.1 hp)
        · exact hsource id c p hid (Option.mem_toList.1 hp)
      | _ => cases hp)

/-- Nothing changes but the marks that copying leaves. -/
structure Preserves (g g' : Graph) : Prop where
  size_le : g.size ≤ g'.size
  unsourced : ∀ id < g.size, (g'.get? id).map Element.unsourced = (g.get? id).map Element.unsourced

namespace Preserves

theorem refl (g : Graph) : g.Preserves g := ⟨le_rfl, fun _ _ => rfl⟩

variable (h : g.Preserves g')

include h

theorem add (e : Element) : g.Preserves (g'.add e).1 := by
  refine ⟨by simpa using Nat.le_succ_of_le h.size_le, fun id hid => ?_⟩
  rw [get?_add_of_lt g' e (hid.trans_le h.size_le), h.unsourced id hid]

theorem set (hid : g.size ≤ id) (e : Element) : g.Preserves (g'.set id e) := by
  refine ⟨by simpa using h.size_le, fun other hother => ?_⟩
  rw [get?_set_other g' e (hother.trans_le hid).ne, h.unsourced other hother]

theorem setMark (he : g'.get? id = some e) {e'} (hsame : e'.unsourced = e.unsourced) :
    g.Preserves (g'.set id e') := by
  refine ⟨by simpa using h.size_le, fun other hother => ?_⟩
  by_cases ho : other = id
  · subst ho
    rw [get?_set he e', ← h.unsourced other hother, he, map_some, map_some, hsame]
  · rw [get?_set_other g' e' ho, h.unsourced other hother]

theorem get?_some (he : g.get? id = some e) : ∃ e', g'.get? id = some e' ∧ e'.unsourced = e.unsourced := by
  have hsame := h.unsourced id (get?_lt he)
  rw [he, map_some] at hsame
  exact map_eq_some_iff.1 hsame

theorem classDef (hc : g.ClassAt id c) : ∃ source, g'.ClassAt id { c with source } := by
  obtain ⟨e, he, hsame⟩ := h.get?_some hc
  cases e with
  | classDef c' =>
    simp only [Element.unsourced, Element.classDef.injEq] at hsame
    refine ⟨c'.source, he.trans ?_⟩
    cases c'
    cases c
    simp_all
  | _ => simp [Element.unsourced] at hsame

theorem isClass (hc : g.IsClass id) : g'.IsClass id := by
  obtain ⟨c, hc⟩ := hc
  obtain ⟨source, hc'⟩ := h.classDef hc
  exact ⟨_, hc'⟩

end Preserves

/-- No element becomes a class, and no class something else. -/
structure Sorts (g g' : Graph) : Prop where
  size_le : g.size ≤ g'.size
  isClass : ∀ id < g.size, g'.IsClass id ↔ g.IsClass id

namespace Sorts

variable {e' : Element}

theorem refl (g : Graph) : g.Sorts g := ⟨le_rfl, fun _ _ => Iff.rfl⟩

theorem trans (h : g.Sorts g1) (h' : g1.Sorts g') : g.Sorts g' :=
  ⟨h.size_le.trans h'.size_le, fun id hid =>
    (h'.isClass id (hid.trans_le h.size_le)).trans (h.isClass id hid)⟩

theorem add (g : Graph) (e : Element) : g.Sorts (g.add e).1 :=
  ⟨by simp, fun id hid => by rw [IsClass, IsClass, get?_add_of_lt g e hid]⟩

theorem set (h : g.Sorts g') (hsame : ∀ e, g'.get? id = some e → e'.isClass = e.isClass) : g.Sorts (g'.set id e') := by
  refine h.trans ⟨by simp, fun a ha => ?_⟩
  by_cases heq : a = id
  · subst heq
    obtain ⟨e, he⟩ : ∃ e, g'.get? a = some e := ⟨_, Array.getElem?_eq_getElem ha⟩
    rw [isClass_iff he, isClass_iff (get?_set_self g' e' ha), hsame e he]
  · rw [IsClass, IsClass, get?_set_other g' e' heq]

theorem replace (he : g.get? id = some e) (hsame : e'.isClass = e.isClass) : g.Sorts (g.set id e') :=
  (refl g).set fun e0 he0 => by rw [hsame, some.inj (he.symm.trans he0)]

end Sorts

/-- An address that is not taken, or taken by a class. -/
def Free (g : Graph) (id : Id) : Prop := g.size ≤ id ∨ g.IsClass id

/-- Some class is of the category `s`. -/
def HasCategory (g : Graph) (s : String) : Prop := ∃ c, .classDef c ∈ g.elements ∧ c.category = s

def categoryOf : Element → Option String
  | .classDef c => some c.category
  | _ => none

instance decidableHasCategory (g : Graph) (s : String) : Decidable (g.HasCategory s) :=
  decidable_of_iff (∃ e ∈ g.elements, categoryOf e = some s) (by
    constructor
    · rintro ⟨e, he, hs⟩
      cases e with
      | classDef c => exact ⟨c, he, some.inj hs⟩
      | _ => cases hs
    · rintro ⟨c, hc, rfl⟩
      exact ⟨_, hc, rfl⟩)

/-- A graph that has come of another one by copying. -/
structure Copies (g0 g : Graph) : Prop where
  kept : g0.Preserves g
  parents : ∀ id c p, g.get? id = some (.classDef c) → c.parent = some p → g0.IsClass p
  sources : ∀ id c s, g.get? id = some (.classDef c) → c.source = some s → g.IsClass s
  categories : ∀ id c, g.get? id = some (.classDef c) → g0.HasCategory c.category

namespace Copies

variable {g0 : Graph}

theorem refl (h : g.Housed) :
    g.Copies g := ⟨.refl g, h.parent, h.source, fun _ c hc => ⟨c, Array.mem_of_getElem? hc, rfl⟩⟩

theorem housed (h : g0.Copies g) : g.Housed :=
  ⟨fun id c p hc hp => h.kept.isClass (h.parents id c p hc hp), h.sources⟩

theorem add (h : g0.Copies g) (he : g.get? id = some e) : g0.Copies (g.add e).1 := by
  have hclass : ∀ {a}, g.IsClass a → (g.add e).1.IsClass a := fun ⟨c, hc⟩ =>
    ⟨c, by rw [get?_add_of_lt g e (get?_lt hc), hc]⟩
  have hback : ∀ {a c}, (g.add e).1.get? a = some (.classDef c) → ∃ b, g.ClassAt b c := fun {a c} hc => by
    rw [get?_add] at hc
    split at hc
    · exact ⟨id, he.trans hc⟩
    · exact ⟨a, hc⟩
  refine ⟨h.kept.add e, fun a c p hc hp => ?_, fun a c s hc hs => ?_, fun a c hc => ?_⟩ <;> obtain ⟨b, hb⟩ := hback hc
  · exact h.parents b c p hb hp
  · exact hclass (h.sources b c s hb hs)
  · exact h.categories b c hb

/-- An element may be replaced, a class by a class that stands in the same class. -/
theorem set (h : g0.Copies g) {e'} (hkept : g0.Preserves (g.set id e')) (hsorts : g.Sorts (g.set id e'))
    (hparent : ∀ c p, e' = .classDef c → c.parent = some p → g0.IsClass p)
    (hsource : ∀ c s, e' = .classDef c → c.source = some s → g.IsClass s)
    (hcategory : ∀ c, e' = .classDef c → g0.HasCategory c.category) : g0.Copies (g.set id e') := by
  have hback : ∀ {a c}, (g.set id e').get? a = some (.classDef c) → e' = .classDef c ∨ g.get? a = some (.classDef c) :=
    fun {a c} hc => by
      by_cases heq : a = id
      · subst heq
        have hlt := get?_lt hc
        rw [size_set] at hlt
        rw [get?_set_self g e' hlt] at hc
        exact .inl (some.inj hc)
      · exact .inr (by rwa [get?_set_other g e' heq] at hc)
  refine ⟨hkept, fun a c p hc hp => ?_, fun a c s hc hs => ?_, fun a c hc => (hback hc).elim (hcategory c) (h.categories a c)⟩
  · exact (hback hc).elim (fun he => hparent c p he hp) fun hc => h.parents a c p hc hp
  · obtain ⟨k, hk⟩ : g.IsClass s := (hback hc).elim (fun he => hsource c s he hs) fun hc => h.sources a c s hc hs
    exact (hsorts.isClass s (get?_lt hk)).2 ⟨k, hk⟩

end Copies

/-- At `new` is what the class `c` comes to by copying, with a mark of its source. What it links to is new, or a
class. -/
def Mirrors (g0 g : Graph) (source : Id) (c : ClassDef) (new : Id) : Prop :=
  ∃ c', g.ClassAt new { c' with source := some source } ∧ (classDef c).Corresponds (fun _ l' => g0.Free l') True (.classDef c')

/-- At `new` is the class `k` with other addresses in it and a mark of its source, and under these addresses
is an image of all that hangs at `k`. -/
def MirrorsWhole (g0 g : Graph) (source : Id) (k : ClassDef) (new : Id) : Prop :=
  ∃ s φ, (∀ l ∈ k.children, s l) ∧ g0.Pictures s φ g ∧
    g.ClassAt new { k.relink φ with parent := k.parent, source := some source }

/-- If there is a class at `new`, its symbols are not among those of `g0`, or it stands
in itself. -/
def Renews (g0 g : Graph) (new : Id) : Prop :=
  ∀ c, g.get? new = some (.classDef c) → (∀ y ∈ c.symbols.values, g0.Free y) ∨ c.parent = some new

end Graph

/-! ### What copying does on the way -/

theorem Element.Corresponds.of_classDef {R} {e : Element} {c'} (h : e.Corresponds R True (.classDef c')) :
    ∃ c, e = .classDef c ∧ c'.parent = c.parent ∧ c'.source = c.source ∧ c'.category = c.category := by
  have hplace := h.place trivial
  cases e with
  | classDef c =>
    simp only [place?, some.injEq, Prod.mk.injEq] at hplace
    have hcontent := Element.classDef.inj (@h.content (fun _ => 0) (fun _ => 0) fun _ _ _ => rfl)
    have hcategory := congrArg ClassDef.category hcontent
    exact ⟨c, rfl, hplace.2, h.source, hcategory⟩
  | _ => cases hplace

theorem Element.Corresponds.symbols_free {g0 : Graph} {e : Element} {c'}
    (h : e.Corresponds (fun _ l' => g0.Free l') True (.classDef c')) : ∀ y ∈ c'.symbols.values, g0.Free y := fun _ hy =>
  (h.related_of_mem (by simp [links, children, ClassDef.children, hy])).choose_spec

theorem Graph.Mirrors.renews {g0 g : Graph} {source c new} (h : g0.Mirrors g source c new) : g0.Renews g new := by
  obtain ⟨c', hc', hcontent⟩ := h
  intro k hk
  cases hc'.symm.trans hk
  exact .inl hcontent.symbols_free

/-- All copies are new or classes that were there. -/
structure Copied.Fits (g0 : Graph) (m : Copied) (g : Graph) : Prop where
  copies : g0.Copies g
  free : ∀ a b : Id, m[a]? = some b → g0.Free b

theorem Copied.Fits.empty {g : Graph} (hg : g.Housed) : Copied.Fits g {} g := ⟨.refl hg, fun a b hab => by simp at hab⟩

theorem Copied.Fits.record {g0 g} {m : Copied} (h : m.Fits g0 g) {new} (hnew : g0.Free new) (id : Id) :
    Copied.Fits g0 (m.insert id new) g := by
  refine ⟨h.copies, fun a b hab => ?_⟩
  rw [Copied.getElem?_record] at hab
  split at hab
  · cases hab
    exact hnew
  · exact h.free a b hab

namespace Copying

open Build Modelica.Graph

variable {α : Type} {g0 g : Graph} {kept : List Id} {m : Copied} {id : Id}

variable {f : Id → Copying Id} {c : ClassDef} {source : Id}

/-- A copying step that fails has done no harm, and has found nothing at an address
or gone too deep. -/
def Fails (g0 : Graph) (f : Fault) (g : Graph) : Prop := g0.Copies g ∧ (f.root = .noPart ∨ f.root = .tooDeep)

theorem Fails.not_elementary {f} (h : Fails g0 f g) : f.root ≠ .elementaryClass := by
  rcases h.2 with h | h <;> simp [h]

/-- `kept` lists elements that are their own copies and stay so. -/
def Safe (g0 : Graph) (kept : List Id) (x : Copying α) (P : α → Prop) : Prop :=
  ∀ m g, Copied.Fits g0 m g → (∀ a ∈ kept, m[a]? = some a) →
    Ends (x.run m) g (fun r g' => r.2.Fits g0 g' ∧ (∀ a ∈ kept, r.2[a]? = some a) ∧ g.Sorts g' ∧ P r.1) (Fails g0)

theorem Safe.imp {x} {P P' : α → Prop} (h : Safe g0 kept x P) (hP : ∀ a, P a → P' a) : Safe g0 kept x P' :=
  fun m g hm hk => (h m g hm hk).imp (fun r _ hr => ⟨hr.1, hr.2.1, hr.2.2.1, hP r.1 hr.2.2.2⟩) fun _ _ h => h

theorem safe_composes (g0 : Graph) (kept : List Id) : Composes fun _ x (P : Unit → _ → Prop) => Safe g0 kept x (P ()) where
  imp hx hP := hx.imp (hP ())
  pure ha m g hm hk := ⟨hm, hk, .refl g, ha ()⟩
  bind hx hf m g hm hk := by
    rw [run_bind, ends_bind]
    refine (hx m g hm hk).imp (fun r g1 hr => ?_) fun _ _ h => h
    refine (hf r.1 r.2 g1 hr.1 hr.2.1).imp (fun r' g2 hr' => ?_) fun _ _ h => h
    exact ⟨hr'.1, hr'.2.1, hr.2.2.1.trans hr'.2.2.1, hr'.2.2.2 hr.2.2.2⟩

/-- What a function that copies elements has to do: the result is new or a class,
and elements to be kept are kept. -/
def Duplicates (g0 : Graph) (f : Id → Copying Id) : Prop :=
  ∀ kept id, Safe g0 kept (f id) fun new => g0.Free new ∧ (id ∈ kept → new = id)

theorem content_safe (hf : Duplicates g0 f) (e : Element) (hp : ∀ c p, e = .classDef c → c.parent = some p → p ∈ kept) :
    Safe g0 kept (content f e) fun e' => e.Corresponds (fun _ l' => g0.Free l') True e' := by
  have hlinks : Relates (fun _ x (P : Unit → _ → Prop) => Safe g0 kept x (P ())) (fun _ _ l' => g0.Free l')
      (fun _ => True) f := fun l _ => (hf kept l).imp fun _ h => h.1
  refine content_matches (safe_composes g0 kept) hlinks True e (fun _ _ => trivial) fun c p hc hcp => ?_
  exact (hf kept p).imp fun _ h _ => h.2 (hp c p hc hcp)

/-- What copying one element comes to, besides what holds of every copying step. -/
structure Renewed (g0 : Graph) (kept : List Id) (m : Copied) (g : Graph) (id new : Id) (m' : Copied) (g' : Graph) :
    Prop where
  fits : m'.Fits g0 g'
  keeps : ∀ a ∈ kept, m'[a]? = some a
  sorts : g.Sorts g'
  free : g0.Free new
  same : id ∈ kept → new = id
  content : m[id]? = none → ∀ e, g.get? id = some e →
    ∃ e', g'.get? new = some e' ∧ e.Corresponds (fun _ l' => g0.Free l') True e'

theorem Renewed.symbols {new m' g' e c'} (h : Renewed g0 kept m g id new m' g') (hid : m[id]? = none)
    (he : g.get? id = some e) (hc : g'.ClassAt new c') : ∀ y ∈ c'.symbols.values, g0.Free y := by
  obtain ⟨_, he', hsame⟩ := h.content hid e he
  cases he'.symm.trans hc
  exact hsame.symbols_free

theorem not_mem_kept (hk : ∀ a ∈ kept, m[a]? = some a) (hid : m[id]? = none) : id ∉ kept := fun hmem => by
  rw [hk id hmem] at hid
  cases hid

theorem record_kept (hk : ∀ a ∈ kept, m[a]? = some a) (hid : id ∉ kept) (new : Id) :
    ∀ a ∈ kept, (m.insert id new)[a]? = some a := fun a ha => by
  rw [Copied.getElem?_record, if_neg (by rintro rfl; exact hid ha), hk a ha]

/-- The copy of an element with its content. The class around a class has to be
kept. -/
theorem whole_renewed (hf : Duplicates g0 f) (hm : Copied.Fits g0 m g) (hk : ∀ a ∈ kept, m[a]? = some a)
    (hp : ∀ c p, g.ClassAt id c → c.parent = some p → p ∈ kept) :
    Ends ((whole f id).run m) g (fun r g' => Renewed g0 kept m g id r.1 r.2 g') (Fails g0) := by
  simp only [whole, copied?, run_bind, run_get, ends_bind, ends_pure, run_pure]
  cases hid : m.get? id with
  | some new =>
    exact ⟨hm, hk, .refl g, hm.free id new hid, fun hmem => some.inj (hid.symm.trans (hk id hmem)), fun hnone => by
      rw [show m[id]? = some new from hid] at hnone
      cases hnone⟩
  | none =>
    have hnot := not_mem_kept hk hid
    simp only [run_bind, run_lift, ends_bind, ends_pure]
    refine ends_element_of (fun e he => ?_) ⟨hm.copies, by decide⟩
    have hsize := hm.copies.kept.size_le
    have hfree : g0.Free g.size := .inl hsize
    have hself : (g.add e).1.get? g.size = some e := get?_add_self g e
    have hm1 := Copied.Fits.record ⟨hm.copies.add he, hm.free⟩ hfree id
    have hk1 := record_kept hk hnot g.size
    have hcontent := content_safe hf e (fun c p hc hcp => hp c p (he.trans (congrArg some hc)) hcp) _ _ hm1 hk1
    simp only [ends_alloc, record, run_modify, ends_pure]
    refine hcontent.imp ?_ fun _ _ hfail => hfail
    rintro ⟨e', m2⟩ g2 ⟨hm2, hk2, hsorts, hsame⟩
    simp only [ends_store]
    -- The place of the copy has held an element of its kind all the time.
    have hclass : e'.isClass = e.isClass := by rw [← e'.isSome_place?, hsame.place trivial, e.isSome_place?]
    have hsorts2 : g2.Sorts (g2.set g.size e') := (Sorts.refl g2).set fun e2 he2 => by
      have hiff := hsorts.isClass _ (get?_lt hself)
      rw [isClass_iff he2, isClass_iff hself] at hiff
      rw [hclass, Bool.eq_iff_iff, hiff]
    have hmoved := (Sorts.add g e).trans hsorts
    have hcopies : g0.Copies (g2.set g.size e') := by
      refine hm2.copies.set (hm2.copies.kept.set hsize e') hsorts2 ?_ ?_ ?_
      · rintro c' p rfl hcp
        obtain ⟨c, rfl, hparent, -⟩ := hsame.of_classDef
        exact hm.copies.parents id c p he (hparent ▸ hcp)
      · rintro c' s rfl hcs
        obtain ⟨c, rfl, -, hsource, -⟩ := hsame.of_classDef
        obtain ⟨k, hk⟩ := hm.copies.sources id c s he (hsource ▸ hcs)
        exact (hmoved.isClass s (get?_lt hk)).2 ⟨k, hk⟩
      · rintro c' rfl
        obtain ⟨c, rfl, -, -, hcategory⟩ := hsame.of_classDef
        exact hcategory ▸ hm.copies.categories id c he
    refine ⟨Copied.Fits.record ⟨hcopies, hm2.free⟩ hfree id, record_kept hk2 hnot _, hmoved.trans hsorts2, hfree,
      fun hmem => absurd hmem hnot, fun _ e0 he0 => ?_⟩
    cases he.symm.trans he0
    exact ⟨e', get?_set_self g2 e' ((get?_lt hself).trans_le hsorts.size_le), hsame⟩

theorem setSource_fits (h : Copied.Fits g0 m g) (hc : g.ClassAt id c) (hsource : g.IsClass source) :
    Copied.Fits g0 m (g.set id (.classDef { c with source := some source })) ∧
      g.Sorts (g.set id (.classDef { c with source := some source })) := by
  have hsorts : g.Sorts (g.set id (.classDef { c with source := some source })) := .replace hc rfl
  refine ⟨⟨h.copies.set (h.copies.kept.setMark hc rfl) hsorts ?_ ?_ ?_, h.free⟩, hsorts⟩
  · rintro _ p ⟨⟩ hp
    exact h.copies.parents id c p hc hp
  · rintro _ s ⟨⟩ hs
    exact some.inj hs ▸ hsource
  · rintro _ ⟨⟩
    exact h.copies.categories id c hc

theorem ends_recorded {new Q F} : Ends ((recorded id new).run m) g Q F ↔ Q (new, if new ≠ id then m.insert id new else m) g := by
  rw [recorded]
  split <;> rfl

theorem markedClass_safe (hf : Duplicates g0 f) (hm : Copied.Fits g0 m g) (around : List Id)
    (hk : ∀ a ∈ around ++ kept, m[a]? = some a) (hid : id ∉ kept) (hc : g.ClassAt source c)
    (hp : ∀ p, c.parent = some p → p ∈ around) :
    Ends ((markedClass f id source).run m) g (fun r g' => r.2.Fits g0 g' ∧ (∀ a ∈ kept, r.2[a]? = some a) ∧ g.Sorts g' ∧
        g0.Free r.1 ∧ (source ∈ around → r.1 = source) ∧ (m[source]? = none → g0.Mirrors g' source c r.1))
      (Fails g0) := by
  simp only [markedClass, run_bind, run_lift, ends_bind, ends_pure]
  refine (whole_renewed hf hm hk fun c' p hc' hcp => ?_).imp ?_ fun _ _ hfail => hfail
  · cases hc.symm.trans hc'
    exact mem_append_left _ (hp p hcp)
  rintro ⟨new, m2⟩ g2 h2
  have hkeeps : ∀ a ∈ kept, m2[a]? = some a := fun a ha => h2.keeps a (mem_append_right _ ha)
  refine ends_modifyClass_of (fun k hk2 => ?_) ⟨h2.fits.copies, by decide⟩
  obtain ⟨hfits, hsorts⟩ := setSource_fits h2.fits hk2 ⟨k, hk2⟩
  refine ends_modifyClass_of (fun k' hk' => ?_) ⟨hfits.copies, by decide⟩
  obtain ⟨hfits', hsorts'⟩ := setSource_fits hfits hk' ((hsorts.isClass source (get?_lt hk2)).2 ⟨k, hk2⟩)
  have hmoved := (h2.sorts.trans hsorts).trans hsorts'
  have hsame : source ∈ around → new = source := fun hmem => h2.same (mem_append_left _ hmem)
  have hnew : m[source]? = none → g0.Mirrors ((g2.set source (.classDef { k with source := some source })).set new
      (.classDef { k' with source := some source })) source c new := fun hsource => by
    obtain ⟨e', he', hcontent⟩ := h2.content hsource _ hc
    by_cases heq : new = source
    · rw [heq] at hk' he' ⊢
      cases (get?_set hk2 _).symm.trans hk'
      cases hk2.symm.trans he'
      exact ⟨k, get?_set hk' _, hcontent⟩
    · cases ((get?_set_other _ _ heq).symm.trans hk').symm.trans he'
      exact ⟨k', get?_set hk' _, hcontent⟩
  rw [ends_recorded]
  split
  · exact ⟨hfits'.record h2.free id, record_kept hkeeps hid new, hmoved, h2.free, hsame, hnew⟩
  · exact ⟨hfits', hkeeps, hmoved, h2.free, hsame, hnew⟩

/-- What copying an element comes to that has not been copied before. If nothing has,
the symbols of a class are new, unless it is its own copy, which it can only be if it
stands in itself. -/
structure Made (g0 : Graph) (kept : List Id) (m : Copied) (g : Graph) (new : Id) (m' : Copied) (g' : Graph) : Prop where
  fits : m'.Fits g0 g'
  keeps : ∀ a ∈ kept, m'[a]? = some a
  sorts : g.Sorts g'
  free : g0.Free new
  renews : (∀ a : Id, m[a]? = none) → g0.Renews g' new

section

variable (hf : Duplicates g0 f) (hm : Copied.Fits g0 m g) (hk : ∀ a ∈ kept, m[a]? = some a) (hid : m[id]? = none)

include hf hm hk hid

theorem viaSource_class (hc : g.ClassAt source c) :
    Ends ((viaSource f id source).run m) g (fun r g' => Made g0 kept m g r.1 r.2 g' ∧
      ((∀ a : Id, m[a]? = none) → c.parent = some source ∨ g0.Mirrors g' source c r.1)) (Fails g0) := by
  have hnot := not_mem_kept hk hid
  simp only [viaSource]
  rw [ends_lift_bind, ends_element hc]
  simp only
  split
  · next p hparent =>
    have hrecord : (record p p).run m = pure ((), m.insert p p) := rfl
    rw [run_bind, hrecord, pure_bind]
    have hp : g0.IsClass p := hm.copies.parents source c p hc hparent
    have hk' : ∀ a ∈ [p] ++ kept, (m.insert p p)[a]? = some a := fun a ha => by
      rw [Copied.getElem?_record]
      split
      · next heq => rw [heq]
      · next hne => exact hk a (by simpa [Ne.symm hne] using ha)
    refine (markedClass_safe hf (hm.record (.inr hp) p) [p] hk' hnot hc fun q hq => ?_).imp ?_ fun _ _ h => h
    · rw [hparent] at hq
      simp [some.inj hq]
    · rintro r g' ⟨hfits, hkeeps, hsorts, hnew, hsame, hcopy⟩
      by_cases heq : p = source
      · -- The class stands in itself: so it did, and so it does.
        subst heq
        refine ⟨⟨hfits, hkeeps, hsorts, hnew, fun hnone c' hc' => ?_⟩, fun _ => .inl hparent⟩
        obtain ⟨c0, hc0⟩ := hp
        obtain ⟨_, hc1⟩ := hm.copies.kept.classDef hc0
        obtain ⟨_, hc2⟩ := hfits.copies.kept.classDef hc0
        rw [hsame (by simp)] at hc'
        cases hc.symm.trans hc1
        cases hc2.symm.trans hc'
        exact .inr (by rw [hsame (by simp)]; exact hparent)
      · have hcopy := fun hnone : ∀ a : Id, m[a]? = none => hcopy (by rw [Copied.getElem?_record, if_neg heq, hnone])
        exact ⟨⟨hfits, hkeeps, hsorts, hnew, fun hnone => (hcopy hnone).renews⟩, fun hnone => .inr (hcopy hnone)⟩
  · next hparent =>
    refine (markedClass_safe hf hm [] hk hnot hc fun q hq => ?_).imp ?_ fun _ _ h => h
    · cases hparent.symm.trans hq
    · rintro r g' ⟨hfits, hkeeps, hsorts, hnew, -, hcopy⟩
      exact ⟨⟨hfits, hkeeps, hsorts, hnew, fun hnone => (hcopy (hnone source)).renews⟩, fun hnone => .inr (hcopy (hnone source))⟩

theorem viaSource_argument {v} {scope mark : Option Id} {redeclare}
    (he : g.get? source = some (.argument v scope redeclare mark)) :
    Ends ((viaSource f id source).run m) g (fun r g' => Made g0 kept m g r.1 r.2 g') (Fails g0) := by
  have hnot := not_mem_kept hk hid
  have hclass : ¬ g.IsClass source := by simp [IsClass, he]
  simp only [viaSource, run_bind, run_lift, ends_bind, ends_pure, ends_element he]
  refine (whole_renewed hf hm hk fun c p hc => absurd ⟨c, hc⟩ hclass).imp ?_ fun _ _ hfail => hfail
  rintro ⟨new, m2⟩ g2 h2
  rw [ends_store]
  have hsorts : g2.Sorts (g2.set source (.argument v scope redeclare (some source))) := (Sorts.refl g2).set fun e2 he2 => by
    have hiff := h2.sorts.isClass source (get?_lt he)
    rw [isClass_iff he2, isClass_iff he] at hiff
    rw [Bool.eq_iff_iff, hiff]
    rfl
  have hcopies : g0.Copies (g2.set source (.argument v scope redeclare (some source))) := by
    refine h2.fits.copies.set ⟨by simpa using h2.fits.copies.kept.size_le, fun a ha => ?_⟩ hsorts (by rintro _ _ ⟨⟩)
      (by rintro _ _ ⟨⟩) (by rintro _ ⟨⟩)
    by_cases heq : a = source
    · subst heq
      rw [get?_set_self _ _ (ha.trans_le h2.fits.copies.kept.size_le), ← hm.copies.kept.unsourced a ha, he]
      rfl
    · rw [get?_set_other _ _ heq, h2.fits.copies.kept.unsourced a ha]
  have hmoved := h2.sorts.trans hsorts
  have hrenews : (∀ a : Id, m[a]? = none) → g0.Renews (g2.set source (.argument v scope redeclare (some source))) new :=
    fun hnone c hc => .inl (by
      by_cases heq : new = source
      · rw [heq, get?_set_self _ _ ((get?_lt he).trans_le h2.sorts.size_le)] at hc
        cases hc
      · rw [get?_set_other _ _ heq] at hc
        exact h2.symbols (hnone source) he hc)
  refine ends_element_of (fun e he' => ?_) ⟨hcopies, by decide⟩
  have hdone : ∀ g' : Graph, g0.Copies g' → g.Sorts g' → ((∀ a : Id, m[a]? = none) → g0.Renews g' new) →
      Ends ((recorded id new).run m2) g' (fun r g' => Made g0 kept m g r.1 r.2 g') (Fails g0) := fun g' hg' hs' hr' => by
    rw [ends_recorded]
    split
    · exact ⟨Copied.Fits.record ⟨hg', h2.fits.free⟩ h2.free id, record_kept h2.keeps hnot new, hs', h2.free, hr'⟩
    · exact ⟨⟨hg', h2.fits.free⟩, h2.keeps, hs', h2.free, hr'⟩
  cases e with
  | argument v' scope' redeclare' mark' =>
    have hsize : g0.size ≤ new := h2.free.elim (fun h => h) fun hclass => by
      obtain ⟨c, hc⟩ := hcopies.kept.isClass hclass
      cases he'.symm.trans hc
    have hsorts' := Sorts.replace he' (show (argument v' scope redeclare' (some source)).isClass = _ from rfl)
    simp only [run_bind, run_lift, ends_bind, ends_pure, ends_store]
    refine hdone _ (hcopies.set (hcopies.kept.set hsize _) hsorts' ?_ ?_ ?_) (hmoved.trans hsorts') fun _ c hc => ?_
    · rintro _ _ ⟨⟩
    · rintro _ _ ⟨⟩
    · rintro _ ⟨⟩
    · rw [get?_set he' _] at hc
      cases hc
  | _ => exact hdone _ hcopies hmoved hrenews

end

theorem source_isClass (h : g0.Copies g) (hc : g.ClassAt id c) : g.IsClass (c.source.getD id) := by
  cases hs : c.source with
  | none => exact ⟨c, hc⟩
  | some s => exact h.sources id c s hc hs

theorem copy_made {n} (hf : Duplicates g0 (copy n)) (hm : Copied.Fits g0 m g) (hk : ∀ a ∈ kept, m[a]? = some a)
    (hid : m[id]? = none) : Ends ((copy (n + 1) id).run m) g (fun r g' => Made g0 kept m g r.1 r.2 g') (Fails g0) := by
  simp only [copy, copied?, run_bind, run_get, run_pure, ends_bind, ends_pure,
    show Std.TreeMap.get? m id = none from hid, run_lift]
  refine ends_element_of (fun e he => ?_) ⟨hm.copies, by decide⟩
  have hwhole : e.isClass = false → Ends ((whole (copy n) id).run m) g (fun r g' => Made g0 kept m g r.1 r.2 g') (Fails g0) :=
    fun hno => (whole_renewed hf hm hk fun c _ hc => by cases he.symm.trans hc; cases hno).imp (fun _ _ h =>
      ⟨h.fits, h.keeps, h.sorts, h.free, fun hnone _ hc => .inl (h.symbols (hnone id) he hc)⟩) fun _ _ h => h
  cases e with
  | classDef c =>
    obtain ⟨k, hk'⟩ := source_isClass hm.copies he
    exact (viaSource_class hf hm hk hid hk').imp (fun _ _ h => h.1) fun _ _ h => h
  | argument v scope redeclare source =>
    -- The source of an argument may be anything; only a class and an argument count as one.
    cases hs : g.get? (source.getD id) with
    | none =>
      simp only [viaSource, ends_lift_bind]
      refine ends_element_of (fun e he' => ?_) ⟨hm.copies, by decide⟩
      cases hs.symm.trans he'
    | some e =>
      cases e with
      | classDef c => exact (viaSource_class hf hm hk hid hs).imp (fun _ _ h => h.1) fun _ _ h => h
      | argument v' scope' redeclare' mark => exact viaSource_argument hf hm hk hid hs
      | _ =>
        simp only [viaSource, ends_lift_bind, ends_element hs]
        exact hwhole rfl
  | _ => exact hwhole rfl

theorem copy_duplicates (n : Nat) : Duplicates g0 (copy n) := by
  induction n with
  | zero => exact fun _ _ m g hm _ => ⟨hm.copies, by decide⟩
  | succ n ih =>
    intro kept id m g hm hk
    cases hid : m[id]? with
    | some new =>
      simp only [copy, copied?, run_bind, run_get, run_pure, ends_bind, ends_pure,
        show Std.TreeMap.get? m id = some new from hid]
      exact ⟨hm, hk, .refl g, hm.free id new hid, fun hmem => some.inj (hid.symm.trans (hk id hmem))⟩
    | none =>
      refine (copy_made ih hm hk hid).imp (fun r g' h => ?_) fun _ _ h => h
      exact ⟨h.fits, h.keeps, h.sorts, h.free, fun hmem => absurd hmem (not_mem_kept hk hid)⟩

theorem ends_copy {Q F} (hc : g.ClassAt id c) : Ends (Build.copy id) g Q F ↔
    Ends ((viaSource (copy (2 * g.size + 1)) id (c.source.getD id)).run {}) g (fun r => Q r.1) F := by
  simp only [Build.copy, copy, copied?, run_bind, run_get, run_pure, ends_bind, ends_pure, ends_size,
    show Std.TreeMap.get? ({} : Copied) id = none by simp, run_lift, ends_element hc]

/-- The class that is copied counts only in what is recorded at the end. -/
theorem ends_viaSource (hc : g.ClassAt source c) (id other : Id) {Q : Id → Graph → Prop} {F} :
    Ends ((viaSource f id source).run m) g (fun r => Q r.1) F ↔
      Ends ((viaSource f other source).run m) g (fun r => Q r.1) F := by
  simp only [viaSource, markedClass, ends_lift_bind, ends_element hc]
  cases c.parent <;> simp only [run_bind, run_lift, ends_bind, ends_pure, ends_recorded]

/-- What `whole` and the marks after it come to for a class that is recorded nowhere. -/
theorem ends_markedClass {Q : Id → Graph → Prop} {F} (hk : g.ClassAt source k) (hm : m[source]? = none) :
    Ends ((markedClass f id source).run m) g (fun r => Q r.1) F ↔
      Ends ((content f (.classDef k)).run (m.insert source g.size)) (g.add (.classDef k)).1 (fun r g2 =>
        Ends (do
          store g.size r.1
          modifyClass source fun c => { c with source := some source }
          modifyClass g.size fun c => { c with source := some source }) g2 (fun _ g' => Q g.size g') F) F := by
  simp only [markedClass, whole, copied?, record, run_bind, run_get, run_pure, pure_bind, Std.TreeMap.get?_eq_getElem?, hm,
    run_lift, ends_bind, ends_pure, run_modify, ends_element hk, ends_alloc, ends_recorded]

/-- The record with which the copy of a class begins: the class around it is its own copy. -/
def around (parent : Option Id) : Copied := parent.elim {} fun p => ({} : Copied).insert p p

theorem getElem?_around (parent : Option Id) (a : Id) : (around parent)[a]? = if parent = some a then some a else none := by
  cases parent with
  | none => simp [around]
  | some p =>
    rw [around, Option.elim_some, Copied.getElem?_record]
    by_cases hp : p = a <;> simp [hp]

theorem underway_around (parent : Option Id) (hp : ∀ p, parent = some p → p < g.size) :
    Copied.Underway g (around parent) (around parent) g := by
  have hself : ∀ a b : Id, (around parent)[a]? = some b → parent = some a ∧ a = b := fun a b hb => by
    simpa [getElem?_around] using hb
  refine ⟨.refl g, Copied.le_refl _, fun a b hb => ?_, fun a a' b hb hb' => ?_⟩
  · obtain ⟨hparent, rfl⟩ := hself a b hb
    exact hp a hparent
  · rw [(hself a b hb).2, (hself a' b hb').2]

theorem ends_viaSource_around {Q F} (hk : g.ClassAt source k) : Ends ((viaSource f id source).run {}) g Q F ↔
    Ends ((markedClass f id source).run (around k.parent)) g Q F := by
  simp only [viaSource, ends_lift_bind, ends_element hk]
  cases k.parent <;> rfl

end Copying

/-- Copying an element leaves all that was there as it is, up to the marks on the
sources. If the copy is a class, its symbols are new, unless it stands in itself. -/
theorem Build.copy_ends {g} (hg : g.Housed) (id : Id) :
    Ends (copy id) g (fun new g' => g.Copies g' ∧ g.Renews g' new) (Copying.Fails g) := by
  simp only [copy, ends_bind, ends_size]
  exact (Copying.copy_made (Copying.copy_duplicates _) (.empty hg) (forall_mem_nil _) (by simp)).imp
    (fun _ _ h => ⟨h.fits.copies, h.renews (by simp)⟩) fun _ _ h => h

namespace Build

open Copying Modelica.Graph

/-- A class that holds no classes and no arguments is copied with all it holds. -/
theorem copy_class_runs {g : Graph} {id : Id} {c k : ClassDef} (hg : g.Housed) (hc : g.ClassAt id c)
    (hk : g.ClassAt (c.source.getD id) k) (hself : k.parent ≠ some (c.source.getD id))
    (ht : ∀ l ∈ k.children, ∃ d, g.Tree (fun _ e => e.hasSource = false) d l) :
    Runs (copy id) g fun new g' => g.MirrorsWhole g' (c.source.getD id) k new := by
  refine (ends_copy hc).2 ?_
  generalize c.source.getD id = source at *
  have hm : (around k.parent)[source]? = none := by rw [getElem?_around, if_neg hself]
  have hu := underway_around k.parent fun p hp => by
    obtain ⟨_, hclass⟩ := hg.parent source k p hk hp
    exact get?_lt hclass
  have htree : ∀ l ∈ k.children, g.Tree (fun _ e => e.hasSource = false) (2 * g.size + 1) l := fun l hl => by
    obtain ⟨d, hd⟩ := ht l hl
    exact hd.bounded.mono (by omega)
  refine (ends_viaSource_around hk).2 ((ends_markedClass (Q := fun new g' => g.MirrorsWhole g' source k new) hk hm).2 ?_)
  refine (makes_classContent (fun p hp => by rw [getElem?_around, if_pos hp]) htree _ _ (Underway.add hu hm (.classDef k))).imp ?_
  rintro ⟨e', m2⟩ g2 ⟨hu2, hgrows, hcontent⟩
  obtain ⟨hlinks, rfl⟩ := hcontent m2 (Copied.le_refl _)
  have hlt : source < g.size := get?_lt hk
  have hsize : g.size < g2.size := by
    have := hgrows.base.size_le
    rw [size_add] at this
    omega
  have hk2 := Extends.get?_some hu2.base hk
  simp only [ends_bind, ends_store]
  rw [ends_modifyClass ((get?_set_other _ _ (Nat.ne_of_lt hlt)).trans hk2), ends_modifyClass
    ((get?_set_other _ _ (Nat.ne_of_gt hlt)).trans (get?_set_self _ _ hsize))]
  have hnone : ∀ a d, g.Tree (fun _ e => e.hasSource = false) d a → ((around k.parent).insert source g.size)[a]? = none := by
    intro a d ha
    obtain ⟨e, he⟩ := ha.get?
    have hsource : e.hasSource = false := (ha.element he).1
    rw [Copied.getElem?_record, getElem?_around]
    split_ifs with h1 h2
    · subst h1
      cases he.symm.trans hk
      cases hsource
    · obtain ⟨_, hclass⟩ := hg.parent source k a hk h2
      cases he.symm.trans hclass
      cases hsource
    · rfl
  refine ⟨fun a => (∃ b : Id, m2[a]? = some b) ∧ ∃ d, g.Tree (fun _ e => e.hasSource = false) d a, m2.look,
    fun l hl => ⟨hlinks l hl, ht l hl⟩, hgrows.pictures hu2 (by simp) (fun b hb => ?_) ?_ ?_, ?_⟩
  · rw [size_add] at hb
    have hnew : b ≠ g.size := Nat.ne_of_gt hb
    have hold : b ≠ source := Nat.ne_of_gt (hlt.trans hb)
    rw [get?_set_other _ _ hnew, get?_set_other _ _ hold, get?_set_other _ _ hnew]
  · rintro a ⟨hb, d, ha⟩
    exact ⟨hb, hnone a d ha⟩
  · rintro a e l ⟨-, d, ha⟩ he hl hb
    exact ⟨hb, d - 1, (ha.element he).2.2 l hl⟩
  · exact get?_set_self _ _ (by simpa using hsize)

/-- **A copy is one of the source**, as the source is then. Classes with the same source, which may be one of
them, are copied alike, whatever they have become; and the copy has the content of the source. A source that
holds no classes and no arguments is copied, with all it holds. -/
theorem copy_follows_source {g : Graph} {id : Id} {c k : ClassDef} (hg : g.Housed)
    (hc : g.ClassAt id c) (hk : g.ClassAt (c.source.getD id) k) (hself : k.parent ≠ some (c.source.getD id)) :
    (∀ other d, g.ClassAt other d → d.source.getD other = c.source.getD id → copy other g = copy id g) ∧
      (∀ new g', copy id g = .ok new g' → g.Copies g' ∧ g.Mirrors g' (c.source.getD id) k new) ∧
      ((∀ l ∈ k.children, ∃ d, g.Tree (fun _ e => e.hasSource = false) d l) →
        Runs (copy id) g fun new g' => g.MirrorsWhole g' (c.source.getD id) k new) := by
  refine ⟨fun other d hd hsource => eq_of_ends fun Q F h => ?_, fun new g' hrun => ?_, copy_class_runs hg hc hk hself⟩
  · rw [Copying.ends_copy hc] at h
    rw [Copying.ends_copy hd, hsource]
    exact (Copying.ends_viaSource hk other id).2 h
  · have hmade := Copying.viaSource_class (Copying.copy_duplicates (2 * g.size + 1)) (.empty hg)
      (forall_mem_nil _) (show ({} : Copied)[id]? = none by simp) hk
    have hends := (Copying.ends_copy (Q := fun new g' => g.Copies g' ∧ g.Mirrors g' (c.source.getD id) k new) hc).2
      (hmade.imp (fun _ _ h => ⟨h.1.fits.copies, (h.2 (by simp)).resolve_left hself⟩) fun _ _ h => h)
    simpa [Ends, hrun] using hends

@[irreducible] def renamedText : String := "model A Real x; end A;"

/-- The class `A` is copied, and its copy is renamed. -/
def renamed : Build Id := do
  let _ ← read renamedText
  let new ← copy 1
  modifyClass new fun c => { c with name := "B" }
  pure new

def marked (name : String) (x : Id) : ClassDef :=
  { name, category := "model", symbols := ⟨[("x", x)]⟩, parent := some 18, declaration := 1, source := some 1 }

/-- The class that was renamed after it was copied from `A` is copied like `A`, with all that `A` holds. -/
theorem copy_follows_source_renamed : ∃ other g, renamed {} = .ok other g ∧ copy 1 g = copy other g ∧
    Runs (copy other) g fun new g' => ∃ φ : Id → Id, ∃ c, g'.ClassAt new c ∧ c.name = "A" ∧ c.symbols.entries = [("x", φ 17)] ∧
      ∀ e, g.get? 17 = some e → g'.get? (φ 17) = some (e.rename φ) := by
  have h : Runs renamed {} fun other g => g.Housed ∧ g.ClassAt 1 (marked "A" 17) ∧ g.ClassAt other (marked "B" 20) ∧
      g.Tree (fun _ e => e.hasSource = false) 3 17 := by
    decide +kernel
  obtain ⟨other, g, hrun, hg, hA, hB, htree⟩ := runs_iff.1 h
  obtain ⟨halike, -, hwhole⟩ := copy_follows_source hg hB hA (by simp [marked])
  refine ⟨other, g, hrun, halike 1 _ hA rfl, (hwhole (by simpa [marked, ClassDef.children, Table.values] using ⟨3, htree⟩)).imp ?_⟩
  rintro new g' ⟨s, φ, hs, hpictures, hnew⟩
  refine ⟨φ, _, hnew, rfl, rfl, fun e he => ?_⟩
  obtain ⟨e', he', himage, -⟩ := hpictures.image 17 (hs 17 (.head _))
  cases he.symm.trans he'
  exact himage

end Build
end Modelica
