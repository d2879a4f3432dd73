/-
What the steps that make a flat model leave alone.

A flat model is made beside the classes it is made from, though not from copies
of them alone: constants that are named by a path are taken over as they stand,
and renamed and changed where they stand. `Element.lasting` is the part of an
element that no such step writes. Of a class that is no instance it is
everything but the mark that it was copied.

`Spared n g g'` says that the first `n` elements keep their lasting part on the
way from `g` to `g'`; they are those of the graph in which the work began. `Sparing`
is the frame of the steps for which this holds. Copying is a step that spares
everything (`copy_spares`).
-/
import Modelica.Proofs.Graph.Content
import Modelica.Proofs.Graph.Framing

namespace Modelica

open Element StateT

def Symbol.lasting (s : Symbol) : Symbol :=
  { s with
    name := "", type := .null, dimensions := [], start := .null, min := .null, max := .null, nominal := .null
    value := .null, fixed := .null, unit := .null, visibility := .hidden, modification := none, connector := none }

theorem Symbol.lasting_setAttribute (s : Symbol) (a : Attribute) (v : Value) :
    (s.setAttribute a v).lasting = s.lasting := by
  cases a <;> rfl

theorem Symbol.lasting_foldl (attributes : List Attribute) (f : Attribute → Value) (s : Symbol) :
    (attributes.foldl (fun s a => s.setAttribute a (f a)) s).lasting = s.lasting := by
  induction attributes generalizing s with
  | nil => rfl
  | cons a rest ih => exact (ih (s.setAttribute a (f a))).trans (s.lasting_setAttribute a (f a))

/-- Nothing lasts of an instance. -/
def ClassDef.lasting (c : ClassDef) : ClassDef :=
  if c.role = .instanced then { role := .instanced } else { c with source := none }

/-- The part of an element that stays when a flat model is made. -/
def Element.lasting : Element → Element
  | .reference _ => .reference {}
  | .expression _ operands => .expression .null operands
  | .connect left right comment _ _ => .connect left right comment none none
  | .symbol s => .symbol s.lasting
  | .elementModification _ modifications => .elementModification 0 modifications
  | .modification _ => .modification []
  | .argument value _ redeclare _ => .argument value none redeclare none
  | .classDef c => .classDef c.lasting
  | .keywords _ => .keywords []
  | e => e

def Element.role? : Element → Option ClassRole
  | .classDef c => some c.role
  | _ => none

theorem Element.role?_lasting (e : Element) : e.lasting.role? = e.role? := by
  cases e with
  | classDef c =>
    by_cases h : c.role = .instanced <;> simp [lasting, ClassDef.lasting, role?, h]
  | _ => rfl

theorem Element.role?_eq_of_lasting {e e' : Element} (h : e'.lasting = e.lasting) : e'.role? = e.role? := by
  rw [← role?_lasting, h, role?_lasting]

theorem Element.eq_of_lasting {e' : Element} {c} (hc : c.role ≠ .instanced)
    (h : e'.lasting = (classDef c).lasting) : ∃ source, e' = .classDef { c with source } := by
  cases e' with
  | classDef c' =>
    have hrole : c'.role = c.role := Option.some.inj (role?_eq_of_lasting h)
    have hrest : c'.lasting = c.lasting := classDef.inj h
    rw [ClassDef.lasting, ClassDef.lasting, if_neg (hrole ▸ hc), if_neg hc] at hrest
    have hsame := congrArg (fun k : ClassDef => classDef { k with source := c'.source }) hrest
    exact ⟨c'.source, hsame⟩
  | _ => exact nomatch h

namespace Graph

variable {n : Nat} {g g1 g' : Graph} {id : Id} {e e' : Element}

def IsInstance (g : Graph) (id : Id) : Prop := ∃ c, g.get? id = some (.classDef c) ∧ c.role = .instanced

/-- A class that was made later than the first `n` elements, as were all its functions. -/
def Outside (n : Nat) (g : Graph) (id : Id) : Prop :=
  n ≤ id ∧ ∃ c, g.get? id = some (.classDef c) ∧ c.role ≠ .instanced ∧ ∀ f ∈ c.functions.values, n ≤ f

theorem Outside.functions {c : ClassDef} (h : g.Outside n id) (hc : g.ClassAt id c) :
    ∀ f ∈ c.functions.values, n ≤ f := by
  obtain ⟨-, c', hc', -, hf⟩ := h
  rw [hc, Option.some.injEq, classDef.injEq] at hc'
  exact hc' ▸ hf

/-- The first `n` elements keep their lasting part. Behind them a class stays what it is. -/
structure Spared (n : Nat) (g g' : Graph) : Prop where
  size_le : g.size ≤ g'.size
  kept : ∀ id e, g.get? id = some e → ∃ e', g'.get? id = some e' ∧ e'.role? = e.role? ∧ (id < n → e'.lasting = e.lasting)
  outside : ∀ id, g.Outside n id → g'.Outside n id

namespace Spared

theorem refl (n : Nat) (g : Graph) : g.Spared n g := ⟨le_rfl, fun _ e he => ⟨e, he, rfl, fun _ => rfl⟩, fun _ => id⟩

theorem trans (h : g.Spared n g1) (h' : g1.Spared n g') : g.Spared n g' where
  size_le := h.size_le.trans h'.size_le
  kept id e he := by
    obtain ⟨e1, he1, hrole, hlasting⟩ := h.kept id e he
    obtain ⟨e', he', hrole', hlasting'⟩ := h'.kept id e1 he1
    exact ⟨e', he', hrole'.trans hrole, fun hid => (hlasting' hid).trans (hlasting hid)⟩
  outside id hid := h'.outside id (h.outside id hid)

theorem instanced (h : g.Spared n g') (hid : g.IsInstance id) : g'.IsInstance id := by
  obtain ⟨c, hc, hrole⟩ := hid
  obtain ⟨e', he', hrole', -⟩ := h.kept id _ hc
  cases e' with
  | classDef c' => exact ⟨c', he', (Option.some.inj hrole').trans hrole⟩
  | _ => exact nomatch hrole'

theorem weaken (h : g.Spared g.size g') (n : Nat) : g.Spared n g' where
  size_le := h.size_le
  kept id e he := by
    obtain ⟨e', he', hrole, hlasting⟩ := h.kept id e he
    exact ⟨e', he', hrole, fun _ => hlasting (get?_lt he)⟩
  outside := by
    rintro id ⟨hid, c, hc, hinst, hfunctions⟩
    obtain ⟨e', he', -, hlasting⟩ := h.kept id _ hc
    obtain ⟨source, rfl⟩ := eq_of_lasting hinst (hlasting (get?_lt hc))
    exact ⟨hid, _, he', hinst, hfunctions⟩

theorem get?_of_extends (hsize : g.size ≤ g'.size) (h : ∀ id < g.size, g'.get? id = g.get? id) : g.Spared n g' := by
  have hget : ∀ {id e}, g.get? id = some e → g'.get? id = some e := fun he => (h _ (get?_lt he)).trans he
  refine ⟨hsize, fun id e he => ⟨e, hget he, rfl, fun _ => rfl⟩, ?_⟩
  rintro id ⟨hid, c, hc, hrest⟩
  exact ⟨hid, c, hget hc, hrest⟩

theorem add (n : Nat) (g : Graph) (e : Element) : g.Spared n (g.add e).1 :=
  get?_of_extends (by simp) fun _ hid => get?_add_of_lt g e hid

theorem setNew (h : g.Spared n g') (hid : g.size ≤ id) (e : Element) : g.Spared n (g'.set id e) := by
  have hget : ∀ a e0, g.get? a = some e0 → (g'.set id e).get? a = g'.get? a := fun a e0 he0 =>
    get?_set_other g' e ((get?_lt he0).trans_le hid).ne
  refine ⟨by simpa using h.size_le, fun a e0 he0 => ?_, fun a ha => ?_⟩
  · rw [hget a e0 he0]
    exact h.kept a e0 he0
  · obtain ⟨hna, c, hc, hrest⟩ := h.outside a ha
    obtain ⟨-, c0, hc0, -⟩ := ha
    exact ⟨hna, c, (hget a _ hc0).trans hc, hrest⟩

theorem set (he : g.get? id = some e) (hrole : e'.role? = e.role?) (hlasting : id < n → e'.lasting = e.lasting)
    (houtside : ∀ c, e = .classDef c → c.role ≠ .instanced → (∀ f ∈ c.functions.values, n ≤ f) →
      ∀ c', e' = .classDef c' → ∀ f ∈ c'.functions.values, n ≤ f) :
    g.Spared n (g.set id e') := by
  have hself : (g.set id e').get? id = some e' := get?_set he e'
  refine ⟨by simp, fun a e0 he0 => ?_, ?_⟩
  · by_cases ha : a = id
    · subst ha
      rw [he, Option.some.injEq] at he0
      subst he0
      exact ⟨e', hself, hrole, hlasting⟩
    · exact ⟨e0, (get?_set_other g e' ha).trans he0, rfl, fun _ => rfl⟩
  · rintro a ⟨hna, c, hc, hinst, hfunctions⟩
    by_cases ha : a = id
    · subst ha
      rw [he, Option.some.injEq] at hc
      subst hc
      cases e' with
      | classDef c' =>
        have hsame : c'.role = c.role := Option.some.inj hrole
        exact ⟨hna, c', hself, hsame ▸ hinst, houtside c rfl hinst hfunctions c' rfl⟩
      | _ => exact nomatch hrole
    · exact ⟨hna, c, (get?_set_other g e' ha).trans hc, hinst, hfunctions⟩

/-- A part that is no class may be written as long as its lasting part stays, also
when it was read some steps before. -/
theorem setPart (h : g.Spared n g') (he : g.get? id = some e) (hpart : e.role? = none)
    (hlasting : e'.lasting = e.lasting) : g'.Spared n (g'.set id e') := by
  obtain ⟨e1, he1, hrole1, hlasting1⟩ := h.kept id e he
  have hrole : e'.role? = e1.role? := (Element.role?_eq_of_lasting hlasting).trans hrole1.symm
  refine set he1 hrole (fun hid => hlasting.trans (hlasting1 hid).symm) ?_
  rintro c rfl
  exact nomatch hrole1.trans hpart

end Spared
end Graph

namespace Build

open Modelica.Graph (Spared)

variable {α : Type} {n : Nat} {g : Graph} {id : Id} {P : α → Graph → Prop}

variable {f : ClassDef → ClassDef}

instance : Frame (n ≤ Graph.size ·) (Graph.Spared n) := ⟨.refl n, .trans, fun hn h => hn.trans h.size_le⟩

/-- Whatever the step ends in, the first `n` elements keep their lasting part. -/
abbrev Sparing (n : Nat) (g : Graph) (x : Build α) (P : α → Graph → Prop) : Prop :=
  Framing (n ≤ Graph.size ·) (Graph.Spared n) g x P

/-- The step spares the first `n` elements of every graph. -/
abbrev Spares (n : Nat) (x : Build α) : Prop := Framed (n ≤ Graph.size ·) (Graph.Spared n) x

/-! ### Single steps -/

namespace Framing

variable {x : Build α}

theorem outside {x P Q} (hid : g.Outside n id) (hx : Sparing n g x P)
    (hP : ∀ new g', P new g' → new = id) (hQ : ∀ g', g'.Outside n id → Q id g') : Sparing n g x Q := fun hn =>
  (hx hn).imp (fun new g' ha => ⟨ha.1, hP new g' ha.2 ▸ hQ g' (ha.1.outside id hid)⟩) fun _ _ hf => hf

theorem alloc {e P} (h : n ≤ g.size → P g.size (g.add e).1) : Sparing n g (alloc e) P := fun hn => ⟨.add n g e, h hn⟩

theorem modifySymbol {f} (hf : ∀ s, (f s).lasting = s.lasting) :
    Sparing n g (modifySymbol id f) fun _ _ => True := fun _ =>
  ends_modifySymbol_of (fun s hs => ⟨(Spared.refl n g).setPart hs rfl (congrArg symbol (hf s)), trivial⟩)
    (.refl n g)

end Framing

theorem Framed.alloc (e : Element) : Spares n (alloc e) := fun _ => .alloc fun _ => trivial

theorem Framed.modifySymbol {f} (hf : ∀ s, (f s).lasting = s.lasting) :
    Spares n (modifySymbol id f) := fun _ => .modifySymbol hf

theorem Framing.store {g' e e'} (h : g.Spared n g') (he : g.get? id = some e) (hpart : e.role? = none)
    (hlasting : e'.lasting = e.lasting) : Sparing n g' (store id e') fun _ _ => True := fun _ =>
  ⟨h.setPart he hpart hlasting, trivial⟩

theorem Framing.modifyInstance (hid : g.IsInstance id) (hf : ∀ c, (f c).role = c.role) :
    Sparing n g (modifyClass id f) fun _ _ => True := fun _ => by
  obtain ⟨c, hc, hinst⟩ := hid
  refine (ends_modifyClass hc).2 ⟨.set hc (congrArg some (hf c)) (fun _ => ?_) ?_, trivial⟩
  · simp only [lasting, ClassDef.lasting, hf, hinst]
    rfl
  · rintro _ ⟨⟩ hc
    exact absurd hinst hc

/-- A class that was made on the way may be changed as long as its functions were made on the way. -/
theorem Framing.modifyLater (hid : n ≤ id) (hf : ∀ c, (f c).role = c.role)
    (hfunctions : ∀ c : ClassDef, (∀ k ∈ c.functions.values, n ≤ k) → ∀ k ∈ (f c).functions.values, n ≤ k) :
    Sparing n g (modifyClass id f) fun _ _ => True := fun _ => by
  refine ends_modifyClass_of (fun c hc => ⟨.set hc (congrArg some (hf c)) (fun h => ?_) ?_, trivial⟩) (.refl n g)
  · exact absurd h (Nat.not_lt.2 hid)
  · rintro _ ⟨⟩ _ hc _ ⟨⟩
    exact hfunctions c hc

theorem Framed.markClass (source : Option Id) : Spares n (modifyClass id fun c => { c with source }) := fun g _ => by
  refine ends_modifyClass_of (fun c hc => ⟨.set hc rfl (fun _ => ?_) ?_, trivial⟩) (.refl n g)
  · simp only [lasting, ClassDef.lasting]
  · rintro _ ⟨⟩ _ hc _ ⟨⟩
    exact hc

theorem Framed.freshClass (c : ClassDef) : Spares n (freshClass c) := fun g _ => by
  have hnew : (g.add (.classDef c)).1.ClassAt g.size c := Graph.get?_add_self g (.classDef c)
  simp only [Build.freshClass, ends_bind, ends_alloc, ends_modifyClass hnew, ends_pure, and_true]
  exact (Spared.add n g _).setNew le_rfl _

end Build

/-! ### Visits -/

namespace Visitor

open Build

variable {σ : Type} {n : Nat} {v : Visitor σ}

variable {I : σ → Graph → Prop}

section

variable (henter : ∀ id s g, I s g → Sparing n g ((v.enter id).run s) fun r g' => I r.2 g')
  (hexit : ∀ id s g, I s g → Sparing n g ((v.exit id).run s) fun r g' => I r.2 g')

include henter hexit

/-- A visit spares what its steps spare, as long as these keep `I`. What was visited is there. -/
theorem walk_sparing (k : Nat) {id s g} (h : I s g) :
    Sparing n g ((v.walk k id).run s) fun r g' => I r.2 g' ∧ id < g'.size := by
  induction k generalizing id s g with
  | zero => exact .throw
  | succ k ih =>
    simp only [walk, run_bind, run_lift, bind_assoc, pure_bind]
    refine (henter id s g h).bind fun r g1 _ h1 => .element fun e he => ?_
    have hpart : ∀ c s g, I s g → Sparing n g ((v.walk k c).run s) fun r g' => I r.2 g' := fun c s g h =>
      (ih h).imp fun _ _ h => h.1
    have hparts := Framing.forIn_state (l := e.children) hpart h1
    refine hparts.bind fun r2 g2 hs2 h2 => ?_
    exact fun hn => (hexit id r2.2 g2 h2 hn).imp (fun _ _ ha =>
      ⟨ha.1, ha.2, (Graph.get?_lt he).trans_le (hs2.size_le.trans ha.1.size_le)⟩) fun _ _ hf => hf

theorem run_sparing {id s g} (h : I s g) : Sparing n g (v.run id s) fun _ g' => id < g'.size :=
  .reads .size fun _ => (walk_sparing henter hexit _ h).bind fun _ _ _ h => .pure h.2

end

section

variable (henter : ∀ id s, Spares n ((v.enter id).run s)) (hexit : ∀ id s, Spares n ((v.exit id).run s)) (id : Id)
  (s : σ)

include henter hexit

theorem run_visits (g : Graph) : Sparing n g (v.run id s) fun _ g' => id < g'.size :=
  run_sparing (I := fun _ _ => True) (fun id s g _ => henter id s g) (fun id s g _ => hexit id s g) trivial

theorem run_spares : Spares n (v.run id s) := fun g => (run_visits henter hexit id s g).any

end

end Visitor

/-! ### Copying -/

namespace Copying

open Build
open Modelica.Graph (Spared)

variable {n : Nat} {f : Id → Copying Id} {id source : Id}

theorem spares_composes (n : Nat) : Composes fun _ x (_ : Unit → _ → Prop) => ∀ m, Spares n (x.run m) where
  imp hx _ := hx
  pure _ _ _ := .pure trivial
  bind hx hk m := by
    rw [run_bind]
    exact (hx m).bind fun r => hk r.1 r.2

theorem recorded_spares (id new : Id) (m : Copied) : Spares n ((recorded id new).run m) := by
  rw [recorded]
  split <;> exact .pure _

section

variable (hf : ∀ id m, Spares n ((f id).run m))

include hf

theorem symbol_spares (s : Symbol) (m : Copied) : Spares n ((symbol f s).run m) :=
  symbol_matches (R := fun _ _ _ => True) (L := fun _ => True) (spares_composes n) (fun l _ => hf l) s
    (fun _ _ => trivial) m

theorem content_spares (e : Element) (m : Copied) : Spares n ((content f e).run m) :=
  content_matches (R := fun _ _ _ => True) (L := fun _ => True) (spares_composes n) (fun l _ => hf l) False e
    (fun _ _ => trivial) (fun _ p _ _ => hf p) m

theorem whole_spares (id : Id) (m : Copied) : Spares n ((whole f id).run m) := by
  simp only [whole, copied?, record, run_bind, run_get, run_pure, pure_bind]
  split
  · exact .pure _
  · intro g
    simp only [run_bind, run_lift, bind_assoc, pure_bind, run_modify]
    refine .element fun e _ hn => ?_
    -- The copy is entered before its parts are copied, and written when they are.
    simp only [ends_bind, ends_alloc, ends_store]
    refine (content_spares hf e _ _ (by simpa using Nat.le_succ_of_le hn)).imp ?_ ?_
    · rintro r g1 ⟨hs, -⟩
      exact ⟨((Spared.add n g e).trans hs).setNew le_rfl _, trivial⟩
    · exact fun _ _ hs => (Spared.add n g e).trans hs

theorem viaSource_spares (id source : Id) (m : Copied) : Spares n ((viaSource f id source).run m) := by
  intro g
  simp only [viaSource, run_lift_bind]
  refine .element fun e he => ?_
  cases e with
  | classDef c =>
    have hcopy : ∀ m, Spares n ((markedClass f id source).run m) := by
      intro m
      simp only [markedClass, run_bind, run_lift, bind_assoc, pure_bind]
      refine (whole_spares hf source m).bind fun r => (Framed.markClass _).bind fun _ => (Framed.markClass _).bind fun _ => ?_
      exact recorded_spares id r.1 r.2
    dsimp only
    split <;> exact hcopy _ g
  | argument v scope redeclare old =>
    simp only [run_bind, run_lift, bind_assoc, pure_bind]
    refine (whole_spares hf source m g).bind fun r g1 hs _ => ?_
    refine Framing.bind (.store hs he rfl rfl) fun _ g2 _ _ => ?_
    refine .element fun e2 he2 => ?_
    cases e2 with
    | argument v2 scope2 redeclare2 old2 =>
      simp only [run_lift_bind]
      exact Framing.bind (.store (.refl n g2) he2 rfl rfl) fun _ g3 _ _ => recorded_spares id r.1 r.2 g3
    | _ => exact recorded_spares id r.1 r.2 g2
  | _ => exact whole_spares hf id m g

end

theorem copy_spares (k : Nat) (id : Id) (m : Copied) : Spares n ((copy k id).run m) := by
  induction k generalizing id m with
  | zero => exact .throw
  | succ k ih =>
    simp only [copy, copied?, run_bind, run_get, run_pure, pure_bind]
    split
    · exact .pure _
    · simp only [run_lift_bind]
      refine .reads (.element id) fun e => ?_
      split
      · exact viaSource_spares ih id _ m
      · exact viaSource_spares ih id _ m
      · exact whole_spares ih id m

end Copying

theorem Build.copy_spares {n} (id : Id) : Build.Spares n (Build.copy id) :=
  .reads .size fun _ => (Copying.copy_spares _ id _).bind fun _ => .pure _

instance {n : Nat} : Build.Open (n ≤ Graph.size ·) (Graph.Spared n) where
  part g e _ := .add n g e
  arguments _ h := (Graph.Spared.refl n _).setPart h rfl rfl
  argument _ h := (Graph.Spared.refl n _).setPart h rfl rfl
  change _ h := (Graph.Spared.refl n _).setPart h rfl rfl
  copy := Build.copy_spares

end Modelica
