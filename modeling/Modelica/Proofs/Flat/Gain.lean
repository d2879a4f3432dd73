/-
What becomes of a flat class once it is made.

Connections and values of variables add equations to a flat class and never
take one away; symbols that are connectors leave it (`ClassDef.Grows`).
`Gains flat es g g'` says so, with `es` the equations that were added, and that
all else keeps its lasting part. What spares everything adds nothing
(`Gaining.of_spares`), so that only the steps that write to the flat class need
a lemma of their own. An equation that was added may be read in any later graph
(`Gains.equation`).

`Adding` is about steps that add nothing but equations proper, with what holds
of their result.
-/
import Modelica.Proofs.Flat.Frame
import Modelica.Proofs.Flow.Components
import Modelica.Proofs.Flow.Reading
import Modelica.Proofs.Library.Edit

namespace Modelica

open List Element

/-- A class with more equations, and at most its symbols. -/
structure ClassDef.Grows (es : List Id) (c c' : ClassDef) : Prop where
  role : c'.role = c.role
  classes : c'.classes = c.classes
  functions : c'.functions = c.functions
  symbols : c'.symbols.entries.Sublist c.symbols.entries
  equations : c'.equations = c.equations ++ es

namespace ClassDef.Grows

variable {es es' : List Id} {c c1 c' : ClassDef}

theorem refl (c : ClassDef) : c.Grows [] c := ⟨rfl, rfl, rfl, .refl _, (append_nil _).symm⟩

theorem trans (h : c.Grows es c1) (h' : c1.Grows es' c') : c.Grows (es ++ es') c' where
  role := h'.role.trans h.role
  classes := h'.classes.trans h.classes
  functions := h'.functions.trans h.functions
  symbols := h'.symbols.trans h.symbols
  equations := by rw [h'.equations, h.equations, append_assoc]

theorem of_lasting {e' : Element} (hc : c.role ≠ .instanced) (h : e'.lasting = (classDef c).lasting) :
    ∃ c', e' = .classDef c' ∧ c.Grows [] c' := by
  obtain ⟨source, rfl⟩ := eq_of_lasting hc h
  exact ⟨_, rfl, rfl, rfl, rfl, .refl _, (append_nil _).symm⟩

end ClassDef.Grows

namespace Graph

variable {n : Nat} {flat : Id} {es es' : List Id} {g g1 g' : Graph} {id : Id} {e : Element} {c : ClassDef}

/-- All that is no class keeps its lasting part, and a class stays one. -/
def KeepsParts (g g' : Graph) : Prop :=
  ∀ id e, g.get? id = some e → ∃ e', g'.get? id = some e' ∧ e'.role? = e.role? ∧ (e.role? = none → e'.lasting = e.lasting)

namespace KeepsParts

theorem refl (g : Graph) : g.KeepsParts g := fun _ e he => ⟨e, he, rfl, fun _ => rfl⟩

theorem trans (h : g.KeepsParts g1) (h' : g1.KeepsParts g') : g.KeepsParts g' := fun id e he => by
  obtain ⟨e1, he1, hrole, hlasting⟩ := h id e he
  obtain ⟨e', he', hrole', hlasting'⟩ := h' id e1 he1
  exact ⟨e', he', hrole'.trans hrole, fun hpart => (hlasting' (hrole ▸ hpart)).trans (hlasting hpart)⟩

theorem of_spared (h : g.Spared g.size g') : g.KeepsParts g' := fun id e he => by
  obtain ⟨e', he', hrole, hlasting⟩ := h.kept id e he
  exact ⟨e', he', hrole, fun _ => hlasting (get?_lt he)⟩

theorem setClass {c'} (hc : g.ClassAt id c) (hrole : c'.role = c.role) :
    g.KeepsParts (g.set id (.classDef c')) := fun a e he => by
  by_cases ha : a = id
  · subst ha
    rw [hc, Option.some.injEq] at he
    subst he
    exact ⟨_, get?_set hc _, congrArg some hrole, nofun⟩
  · exact ⟨e, (get?_set_other g _ ha).trans he, rfl, fun _ => rfl⟩

theorem get? (h : g.KeepsParts g') (he : g.get? id = some e) (hpart : e.role? = none)
    (hall : ∀ e' : Element, e'.lasting = e.lasting → e' = e) : g'.get? id = some e := by
  obtain ⟨e', he', -, hlasting⟩ := h id e he
  exact hall e' (hlasting hpart) ▸ he'

theorem equation {l r comment} (h : g.KeepsParts g') (he : g.get? id = some (.equation l r comment)) :
    g'.get? id = some (.equation l r comment) :=
  h.get? he rfl fun e' h => by cases e' <;> cases h; rfl

theorem primary {v} (h : g.KeepsParts g') (he : g.get? id = some (.primary v)) : g'.get? id = some (.primary v) :=
  h.get? he rfl fun e' h => by cases e' <;> cases h; rfl

end KeepsParts

/-- An equation that is no clause of any kind. -/
def IsEquation (g : Graph) (e : Id) : Prop := ∃ l r comment, g.get? e = some (.equation l r comment)

theorem IsEquation.keep {e} (h : g.KeepsParts g') (he : g.IsEquation e) : g'.IsEquation e := by
  obtain ⟨l, r, comment, he⟩ := he
  exact ⟨l, r, comment, h.equation he⟩

theorem EquatedToZero.keep {e left} (h : g.KeepsParts g') (he : g.EquatedToZero e left) : g'.EquatedToZero e left := by
  obtain ⟨z, he, hz⟩ := he
  exact ⟨z, h.equation he, h.primary hz⟩

theorem EquatedToZero.isEquation {e left} (h : g.EquatedToZero e left) : g.IsEquation e := by
  obtain ⟨z, he, -⟩ := h
  exact ⟨_, _, _, he⟩

/-- The class `flat` has got the equations `es`; all else keeps its lasting part. -/
structure Gains (flat : Id) (es : List Id) (g g' : Graph) : Prop where
  size_le : g.size ≤ g'.size
  kept : ∀ id e, g.get? id = some e →
    ∃ e', g'.get? id = some e' ∧ e'.role? = e.role? ∧ (id ≠ flat ∨ e.role? = none → e'.lasting = e.lasting)
  gained : ∀ c, g.get? flat = some (.classDef c) → c.role ≠ .instanced →
    ∃ c', g'.get? flat = some (.classDef c') ∧ c.Grows es c'

namespace Gains

theorem refl (flat : Id) (g : Graph) : g.Gains flat [] g where
  size_le := le_rfl
  kept _ e he := ⟨e, he, rfl, fun _ => rfl⟩
  gained c hc _ := ⟨c, hc, .refl c⟩

theorem trans (h : g.Gains flat es g1) (h' : g1.Gains flat es' g') : g.Gains flat (es ++ es') g' where
  size_le := h.size_le.trans h'.size_le
  kept id e he := by
    obtain ⟨e1, he1, hrole, hlasting⟩ := h.kept id e he
    obtain ⟨e', he', hrole', hlasting'⟩ := h'.kept id e1 he1
    exact ⟨e', he', hrole'.trans hrole, fun hid => (hlasting' (hrole ▸ hid)).trans (hlasting hid)⟩
  gained c hc hinst := by
    obtain ⟨c1, hc1, hgrows⟩ := h.gained c hc hinst
    obtain ⟨c', hc', hgrows'⟩ := h'.gained c1 hc1 (hgrows.role ▸ hinst)
    exact ⟨c', hc', hgrows.trans hgrows'⟩

theorem of_spared (h : g.Spared g.size g') : g.Gains flat [] g' where
  size_le := h.size_le
  kept id e he := by
    obtain ⟨e', he', hrole, hlasting⟩ := h.kept id e he
    exact ⟨e', he', hrole, fun _ => hlasting (get?_lt he)⟩
  gained c hc hinst := by
    obtain ⟨e', he', -, hlasting⟩ := h.kept flat _ hc
    obtain ⟨c', rfl, hgrows⟩ := ClassDef.Grows.of_lasting hinst (hlasting (get?_lt hc))
    exact ⟨c', he', hgrows⟩

theorem set {c'} (hc : g.ClassAt flat c) (hgrows : c.Grows es c') : g.Gains flat es (g.set flat (.classDef c')) := by
  have hself : (g.set flat (.classDef c')).ClassAt flat c' := get?_set hc _
  refine ⟨by simp, fun id e he => ?_, fun c0 hc0 _ => ?_⟩
  · by_cases hid : id = flat
    · subst hid
      rw [hc, Option.some.injEq] at he
      subst he
      exact ⟨_, hself, congrArg some hgrows.role, fun h => h.elim (absurd rfl) nofun⟩
    · exact ⟨e, (get?_set_other g _ hid).trans he, rfl, fun _ => rfl⟩
  · rw [hc, Option.some.injEq, classDef.injEq] at hc0
    subst hc0
    exact ⟨c', hself, hgrows⟩

theorem parts (h : g.Gains flat es g') : g.KeepsParts g' := fun id e he => by
  obtain ⟨e', he', hrole, hlasting⟩ := h.kept id e he
  exact ⟨e', he', hrole, fun hpart => hlasting (.inr hpart)⟩

end Gains

/-- Every class keeps its tables and its equations, but for symbols that leave it. -/
structure Upholds (g g' : Graph) : Prop where
  size_le : g.size ≤ g'.size
  parts : g.KeepsParts g'
  classes : ∀ id c, g.get? id = some (.classDef c) → c.role ≠ .instanced → ∃ c', g'.get? id = some (.classDef c') ∧ c.Grows [] c'

namespace Upholds

theorem refl (g : Graph) : g.Upholds g := ⟨le_rfl, .refl g, fun _ c hc _ => ⟨c, hc, .refl c⟩⟩

theorem trans (h : g.Upholds g1) (h' : g1.Upholds g') : g.Upholds g' where
  size_le := h.size_le.trans h'.size_le
  parts := h.parts.trans h'.parts
  classes id c hc hinst := by
    obtain ⟨c1, hc1, hgrows⟩ := h.classes id c hc hinst
    obtain ⟨c', hc', hgrows'⟩ := h'.classes id c1 hc1 (hgrows.role ▸ hinst)
    exact ⟨c', hc', hgrows.trans hgrows'⟩

theorem of_gains (h : g.Gains flat [] g') : g.Upholds g' where
  size_le := h.size_le
  parts := h.parts
  classes id c hc hinst := by
    by_cases hid : id = flat
    · subst hid
      exact h.gained c hc hinst
    · obtain ⟨e', he', -, hlasting⟩ := h.kept id _ hc
      obtain ⟨c', rfl, hgrows⟩ := ClassDef.Grows.of_lasting hinst (hlasting (.inl hid))
      exact ⟨c', he', hgrows⟩

theorem of_spared (h : g.Spared g.size g') : g.Upholds g' := of_gains (Gains.of_spared h : g.Gains 0 [] g')

theorem of_extends (h : Extends g g') : g.Upholds g' :=
  of_spared (.get?_of_extends h.size_le fun id hid => h.get? id hid nofun)

end Upholds
end Graph

namespace Build

open Modelica.Graph (Gains)

variable {α β γ : Type} {n : Nat} {flat : Id} {g : Graph} {P P' : α → List Id → Graph → Prop}
  {Q : β → List Id → Graph → Prop}

variable {free : Table String Id} {st : Connecting}

/-- Whatever the step ends in, the flat class has got equations. `P` holds of them and the result. -/
def Gaining (flat : Id) (g : Graph) (x : Build α) (P : α → List Id → Graph → Prop) : Prop :=
  Ends x g (fun a g' => ∃ es, g.Gains flat es g' ∧ P a es g') fun _ g' => ∃ es, g.Gains flat es g'

namespace Gaining

variable {x : Build α} {f : α → Build β}

theorem imp (h : Gaining flat g x P) (hP : ∀ a es g', g.Gains flat es g' → P a es g' → P' a es g') :
    Gaining flat g x P' := by
  refine Ends.imp h ?_ fun _ _ hf => hf
  rintro a g' ⟨es, hg, ha⟩
  exact ⟨es, hg, hP a es g' hg ha⟩

theorem yields (h : Gaining flat g x P) : Yields x g fun a g' => ∃ es, g.Gains flat es g' ∧ P a es g' := Ends.yields h

theorem pure {a} (h : P a [] g) : Gaining flat g (Pure.pure a) P := ⟨[], .refl flat g, h⟩

theorem throw {f} : Gaining flat g (throw f : Build α) P := ⟨[], .refl flat g⟩

theorem bind (hx : Gaining flat g x P)
    (hf : ∀ a es g', g.Gains flat es g' → P a es g' → Gaining flat g' (f a) fun b es' g'' => Q b (es ++ es') g'') :
    Gaining flat g (x >>= f) Q := by
  refine ends_bind.2 (Ends.imp hx ?_ fun _ _ hf => hf)
  rintro a g1 ⟨es, hg, ha⟩
  refine Ends.imp (hf a es g1 hg ha) ?_ ?_
  · rintro b g2 ⟨es', hg', hb⟩
    exact ⟨es ++ es', hg.trans hg', hb⟩
  · rintro _ g2 ⟨es', hg'⟩
    exact ⟨es ++ es', hg.trans hg'⟩

theorem reads (hx : Reads x) (hf : ∀ a, Gaining flat g (f a) Q) :
    Gaining flat g (x >>= f) Q := ends_bind.2 (hx.ends hf fun _ _ => ⟨[], .refl flat g⟩)

theorem of_sparing {R} (hx : Sparing g.size g x R) (hR : ∀ a g', R a g' → P a [] g') : Gaining flat g x P :=
  (hx le_rfl).imp (fun a g' h => ⟨[], .of_spared h.1, hR a g' h.2⟩) fun _ _ h => ⟨[], .of_spared h⟩

theorem spares (hx : ∀ n, Spares n x) (hf : ∀ a g', Gaining flat g' (f a) Q) : Gaining flat g (x >>= f) Q := by
  refine bind (P := fun _ es _ => es = []) (of_sparing (hx _ g) fun _ _ _ => rfl) ?_
  rintro a _ g' - rfl
  exact hf a g'

theorem modify {f es} (hf : ∀ c : ClassDef, c.Grows es (f c)) :
    Gaining flat g (modifyClass flat f) fun _ es' _ => es' = es :=
  ends_modifyClass_of (fun c hc => ⟨es, .set hc (hf c), rfl⟩) ⟨[], .refl flat g⟩

theorem append (e : Id) :
    Gaining flat g (modifyClass flat fun c => { c with equations := c.equations ++ [e] }) fun _ es _ => es = [e] :=
  modify fun _ => ⟨rfl, rfl, rfl, .refl _, rfl⟩

theorem equation {l r comment} : Gaining flat g (alloc (.equation l r comment) >>= fun e =>
      modifyClass flat fun c => { c with equations := c.equations ++ [e] })
      fun _ es g' => ∃ e, es = [e] ∧ g'.get? e = some (.equation l r comment) := by
  refine bind (P := fun e es g' => es = [] ∧ g'.get? e = some (.equation l r comment)) ?_ ?_
  · refine of_sparing (.alloc fun _ => ?_) fun e g' h => ⟨rfl, h⟩
    exact Graph.get?_add_self g _
  · rintro e _ g1 - ⟨rfl, he⟩
    refine (append e).imp ?_
    rintro _ _ g2 hg ⟨⟩
    exact ⟨e, rfl, hg.parts.equation he⟩

end Gaining

/-- A step adds nothing but equations. -/
def Adding (flat : Id) (g : Graph) (x : Build α) (R : α → Prop) : Prop :=
  Gaining flat g x fun a es g' => R a ∧ ∀ e ∈ es, g'.IsEquation e

namespace Adding

variable {R : α → Prop} {S : β → Prop} {T : γ → Prop}

variable {x : Build α} {f : α → Build β} {l r : Value} {comment : String}

theorem pure {a} (h : R a) : Adding flat g (Pure.pure a) R := Gaining.pure ⟨h, fun _ h => nomatch h⟩

theorem throw {f} : Adding flat g (throw f : Build α) R := Gaining.throw

theorem bind (hx : Adding flat g x R) (hf : ∀ a g', R a → Adding flat g' (f a) S) : Adding flat g (x >>= f) S := by
  refine Gaining.bind hx ?_
  rintro a es g1 - ⟨ha, hes⟩
  refine Gaining.imp (hf a g1 ha) fun b es' g2 hg2 hb => ⟨hb.1, fun e he => ?_⟩
  rcases mem_append.1 he with he | he
  · exact (hes e he).keep hg2.parts
  · exact hb.2 e he

theorem reads (hx : Reads x) (hf : ∀ a, Adding flat g (f a) S) : Adding flat g (x >>= f) S := Gaining.reads hx hf

theorem spares (hx : ∀ n, Spares n x) (hf : ∀ a g', Adding flat g' (f a) S) :
    Adding flat g (x >>= f) S := Gaining.spares hx hf

theorem equation : Adding flat g (alloc (.equation l r comment) >>= fun e =>
      modifyClass flat fun c => { c with equations := c.equations ++ [e] }) fun _ => True := by
  refine Gaining.equation.imp ?_
  rintro _ _ g1 - ⟨e, rfl, he⟩
  exact ⟨trivial, forall_mem_singleton.2 ⟨l, r, comment, he⟩⟩

theorem equation_bind {f} (hf : ∀ g', Adding flat g' (f ()) S) :
    Adding flat g (alloc (.equation l r comment) >>= fun e =>
      modifyClass flat (fun c => { c with equations := c.equations ++ [e] }) >>= f) S := by
  rw [← bind_assoc]
  exact equation.bind fun _ g' _ => hf g'

theorem foldlM {l : List β} {f x} (hf : ∀ b x g, T x → Adding flat g (f x b) T) (h : T x) :
    Adding flat g (l.foldlM f x) T := by
  induction l generalizing g x with
  | nil => exact pure h
  | cons b l ih =>
    rw [foldlM_cons]
    exact (hf b x g h).bind fun y g1 hy => ih hy

theorem forM {l : List β} {f} (hf : ∀ b g, Adding flat g (f b) fun _ => True) :
    Adding flat g (l.forM f) fun _ => True := by
  induction l generalizing g with
  | nil => exact pure trivial
  | cons b l ih => exact (hf b g).bind fun _ _ _ => ih

end Adding

/-! ### Connections -/

namespace Reads

theorem referenceText (reference : Id) : Reads (referenceText reference) := (path reference).bind fun _ => pure _

theorem typeName (v : Value) : Reads (typeName v) :=
  (typeForm v).bind fun form => by
    split
    · exact (referenceAt _).bind fun _ => pure _
    · exact throw (by decide)

theorem typeText (v : Value) : Reads (typeText v) := by
  simp only [Build.typeText]
  split
  · exact pure _
  · refine (typeForm _).bind fun form => ?_
    split
    · exact referenceText _
    · exact throw (by decide)

theorem bothReal (left right : Value) : Reads (bothReal left right) :=
  (typeName left).bind fun l => by
    split
    · exact (typeName right).bind fun _ => pure _
    · exact pure _

theorem literalSubscripts (indices : List (List Value)) : Reads (literalSubscripts indices) := by
  refine (mapM fun v => ?_).bind fun _ => pure _
  split
  · exact pure _
  · refine (element _).bind fun e => ?_
    split
    · exact pure _
    · exact throw (by decide)
  · exact throw (by decide)

theorem innerFlag (o : Option Bool) : Reads (innerFlag o) := by
  cases o with
  | some b => exact pure b
  | none => exact throw (by decide)

theorem symbolNamed (flat reference : Id) : Reads (symbolNamed flat reference) := by
  refine (classAt flat).bind fun c => (referenceAt reference).bind fun r => ?_
  split
  · exact pure _
  · exact throw (by decide)

theorem checkResolved (k : Connection) : Reads (checkResolved k) := by
  refine (forIn fun side _ => (referenceAt side).bind fun r => ?_).bind fun _ => pure _
  split
  · refine (referenceText side).bind fun _ => (referenceText k.left).bind fun _ => (referenceText k.right).bind fun _ => ?_
    exact throw (by simp [Fault.root])
  · exact pure _

theorem isUnset (v : Value) : Reads (isUnset v) := by
  simp only [Build.isUnset]
  split
  · exact (element _).bind fun _ => pure _
  · exact pure _

end Reads

theorem Framed.warn (message : String) : Spares n (warn message) := fun _ _ =>
  ⟨.get?_of_extends le_rfl fun _ _ => rfl, trivial⟩

theorem memberReference_spares (connector : Id) (name : String) (member : Symbol) :
    Spares n (memberReference connector name member) := by
  refine .reads (.referenceAt connector) fun r => .reads (.typeForm _) fun form => ?_
  split
  · exact .reads (.referenceAt _) fun _ => .alloc _
  · exact .throw

theorem connectorClass_spares (flat symbol : Id) : Spares n (connectorClass flat symbol) := by
  refine .reads (.symbolAt symbol) fun s => ?_
  split
  · exact .pure _
  · refine .reads (.typeForm _) fun form => ?_
    split
    · exact .reads (.path _) fun p => .findClass flat p
    · exact .throw

theorem connectElementary_adding (k : Connection) (left right : Id) :
    Adding flat g (connectElementary flat k left right) fun _ => True := by
  refine .reads (.symbolAt left) fun l => .reads (.symbolAt right) fun r => .reads (.bothReal _ _) fun real => ?_
  split
  · refine .reads (.typeText _) fun _ => .reads (.typeText _) fun _ => ?_
    exact .spares (fun _ => .warn _) fun _ _ => .equation
  · exact .equation

/-- Flow variables that were joined are not free; only those of `free` ever were. -/
structure Connecting.Apart (free : Table String Id) (st : Connecting) : Prop where
  sound : ∃ edges, st.flows.Sound edges
  joined : ∀ k ∈ st.flows.index.keys, k.name ∉ st.free.keys
  free : st.free.entries.Sublist free.entries

namespace Connecting.Apart

variable {free : Table String Id} {st : Connecting}

theorem begun (free : Table String Id) : Connecting.Apart free { free } :=
  ⟨⟨[], Flows.sound_empty⟩, nofun, .refl _⟩

theorem join (h : st.Apart free) (left : FlowKey) (leftRef : Id) (right : FlowKey) (rightRef : Id) :
    Connecting.Apart free
      { flows := st.flows.join left leftRef right rightRef, free := (st.free.erase left.name).erase right.name } := by
  obtain ⟨edges, hsound⟩ := h.sound
  refine ⟨⟨_, hsound.join left leftRef right rightRef⟩, fun k hk => ?_, ?_⟩
  · -- a joined variable is an end of an edge, be it the last one or one before
    rw [Table.mem_keys_iff, (hsound.join left leftRef right rightRef).vertex, isVertex_snoc, ← hsound.vertex,
      ← Table.mem_keys_iff] at hk
    rw [Table.mem_keys_iff]
    simp only [Table.get?_erase]
    rcases hk with hk | rfl | rfl
    · have hnot := h.joined k hk
      rw [Table.mem_keys_iff] at hnot
      rintro ⟨s, hs⟩
      split at hs
      · cases hs
      · split at hs
        · cases hs
        · exact hnot ⟨s, hs⟩
    · simp
    · simp
  · exact filter_sublist.trans (filter_sublist.trans h.free)

end Connecting.Apart

theorem connectVariable_adding (h : st.Apart free) (k : Connection) (symbol : Id) :
    Adding flat g (connectVariable flat k st symbol) (Connecting.Apart free) := by
  refine .reads (.symbolAt symbol) fun member => .reads (.referenceAt k.left) fun _ => .reads (.referenceAt k.right) fun _ => ?_
  refine .spares (fun _ => memberReference_spares _ _ _) fun left g1 => ?_
  refine .spares (fun _ => memberReference_spares _ _ _) fun right g2 => .reads (.wordsAt _) fun words => ?_
  have hequate : Adding flat g2 (connectVariable.equate flat st left right) (Connecting.Apart free) :=
    .equation_bind fun _ => .pure h
  split
  · exact hequate
  · split
    · exact hequate
    · split
      · refine .reads (.referenceAt left) fun _ => .reads (.literalSubscripts _) fun _ => .reads (.innerFlag _) fun _ => ?_
        refine .reads (.referenceAt right) fun _ => .reads (.literalSubscripts _) fun _ => .reads (.innerFlag _) fun _ => ?_
        exact .pure (h.join _ left _ right)
      · split
        · exact .pure h
        · exact .throw

theorem connect_adding (h : st.Apart free) (k : Connection) :
    Adding flat g (connect flat k st) (Connecting.Apart free) := by
  refine .reads (.checkResolved k) fun _ => .reads (.symbolNamed _ _) fun left => .reads (.symbolNamed _ _) fun right => ?_
  refine .spares (fun _ => .attempt (.bind (connectorClass_spares flat left) fun _ =>
    .bind (.discard (connectorClass_spares flat right)) fun _ => .pure _)) fun classes g1 => ?_
  split
  · exact (connectElementary_adding k left right).bind fun _ _ _ => .pure h
  · refine .spares (fun _ => flattenClass_spares _) fun flatLeft g2 => .reads (.classAt flatLeft) fun c => ?_
    exact .foldlM (fun v _ _ hst => connectVariable_adding hst k v) h

theorem sumOf_spares (ids : List Id) : Spares n (sumOf ids) := by
  induction ids with
  | nil => exact .pure _
  | cons e rest ih =>
    cases rest with
    | nil => exact .pure _
    | cons e' rest =>
      refine .bind ih fun s => ?_
      split
      · exact .bind (.alloc _) fun _ => .pure _
      · exact .pure _

theorem signed_spares (group : FlowGroup) : Spares n (signed group) := by
  simp only [signed]
  split
  · exact .pure _
  · refine .mapM fun e => ?_
    split
    · exact .pure _
    · exact .alloc _

theorem equateToZero_gaining (left : Id) :
    Gaining flat g (equateToZero flat left) fun _ es g' => ∃ e, es = [e] ∧ g'.EquatedToZero e left := by
  refine .bind (P := fun z es g' => es = [] ∧ g'.get? z = some (.primary (.int 0))) ?_ ?_
  · refine .of_sparing (.alloc fun _ => ?_) fun z g' h => ⟨rfl, h⟩
    exact Graph.get?_add_self g _
  · rintro z _ g1 - ⟨rfl, hz⟩
    refine Gaining.equation.imp ?_
    rintro _ _ g2 hg ⟨e, rfl, he⟩
    exact ⟨e, rfl, z, he, hg.parts.primary hz⟩

theorem balance_adding (group : FlowGroup) : Adding flat g (balance flat group) fun _ => True := by
  refine .spares (fun _ => signed_spares group) fun ids g1 => .spares (fun _ => sumOf_spares ids) fun s g2 => ?_
  split
  · refine (equateToZero_gaining _).imp ?_
    rintro _ _ g3 - ⟨e, rfl, he⟩
    exact ⟨trivial, forall_mem_singleton.2 he.isEquation⟩
  · exact .pure trivial

theorem equateAllToZero_gaining (ids : List Id) :
    Gaining flat g (ids.forM (equateToZero flat)) fun _ es g' => Forall₂ g'.EquatedToZero es ids := by
  induction ids generalizing g with
  | nil => exact .pure .nil
  | cons s rest ih =>
    show Gaining flat g (equateToZero flat s >>= fun _ => rest.forM (equateToZero flat)) _
    refine (equateToZero_gaining s).bind ?_
    rintro _ _ g1 - ⟨e, rfl, he⟩
    exact ih.imp fun _ _ g2 hg hrest => .cons (he.keep hg.parts) hrest

/-! ### Values -/

theorem addValueEquation_adding (symbol : Id) : Adding flat g (addValueEquation flat symbol) fun _ => True := by
  refine .reads (.symbolAt symbol) fun s => .reads (.isUnset _) fun unset => ?_
  split
  · refine .reads (.keywordsOf symbol) fun words => ?_
    split
    · refine .equation_bind fun _ => .spares (fun _ => .alloc _) fun _ _ => ?_
      refine Gaining.of_sparing (.modifySymbol fun _ => rfl) fun _ _ _ => ⟨trivial, nofun⟩
    · exact .pure trivial
  · exact .pure trivial

theorem addValueEquations_adding : Adding flat g (addValueEquations flat) fun _ => True :=
  .reads (.classAt flat) fun _ => .forM fun s _ => addValueEquation_adding s

theorem addValueStatement_gaining (symbol : Id) :
    Gaining flat g (addValueStatement flat symbol) fun _ es _ => es = [] := by
  refine .reads (.symbolAt symbol) fun s => .reads (.isUnset _) fun unset => ?_
  split
  · refine .spares (fun _ => .alloc _) fun e g1 => ?_
    have hwrite : Gaining flat g1 (modifyClass flat fun c => { c with statements := c.statements ++ [e] })
        fun _ es _ => es = [] := .modify fun c => ⟨rfl, rfl, rfl, .refl _, (append_nil _).symm⟩
    refine hwrite.bind ?_
    rintro _ _ g2 - rfl
    exact .spares (fun _ => .alloc _) fun _ _ => .of_sparing (.modifySymbol fun _ => rfl) fun _ _ _ => rfl
  · exact .pure rfl

theorem addValueStatements_gaining : Gaining flat g (addValueStatements flat) fun _ es _ => es = [] := by
  refine .reads (.classAt flat) fun c => ?_
  generalize c.symbols.values = symbols
  induction symbols generalizing g with
  | nil => exact .pure rfl
  | cons s rest ih =>
    show Gaining flat g (addValueStatement flat s >>= fun _ => rest.forM (addValueStatement flat)) _
    refine (addValueStatement_gaining s).bind ?_
    rintro _ _ g1 - rfl
    exact ih

/-! ### States -/

theorem markState_spares (symbol : Id) : Spares n (markState symbol) := fun g =>
  .reads (.symbolAt symbol) fun s => .wordsAt fun words hwords => by
    split
    · exact .store (.refl n g) hwords rfl rfl
    · exact .pure trivial

theorem stateVisitor_spares (cls id : Id) (s : Nat) :
    Spares n (((stateVisitor cls).enter id).run s) ∧ Spares n (((stateVisitor cls).exit id).run s) := by
  simp only [stateVisitor, run_lift_bind]
  refine ⟨.reads (.element id) fun e => ?_, .reads (.element id) fun e => ?_⟩
  · split <;> exact .pure _
  · split
    · simp only [StateT.run_bind, StateT.run_get, pure_bind]
      split
      · split
        · exact .throw
        · simp only [run_lift_bind]
          refine .reads (.classAt cls) fun c => ?_
          split
          · exact .bind (markState_spares _) fun _ => .pure _
          · exact .pure _
      · exact .pure _
    · split <;> exact .pure _

theorem markStates_spares (cls : Id) : Spares n (markStates cls) :=
  .discard (Visitor.run_spares (fun id s => (stateVisitor_spares cls id s).1) (fun id s => (stateVisitor_spares cls id s).2) cls 0)

theorem finish_yields (flat : Id) (functions : List Id) :
    Yields (do functions.forM addValueStatements; markStates flat) g fun _ g' => g.Upholds g' := by
  suffices hs : Yields (functions.forM addValueStatements) g fun _ g' => g.Upholds g' from by
    refine hs.bind fun _ g1 h1 => ?_
    refine (markStates_spares flat g1 le_rfl).yields.imp fun _ g2 h2 => ?_
    exact h1.trans (.of_spared h2.1)
  induction functions generalizing g with
  | nil => exact .refl g
  | cons f rest ih =>
    show Yields (addValueStatements f >>= fun _ => rest.forM addValueStatements) g _
    refine addValueStatements_gaining.yields.bind ?_
    rintro _ g1 ⟨_, hg1, rfl⟩
    exact ih.imp fun _ _ h => (Graph.Upholds.of_gains hg1).trans h

/-! ### The flat model -/

end Build

/-- A flat class gets equations for values and moves, behind its functions, into a new tree. -/
structure Graph.Completes (flat tree : Id) (g g' : Graph) : Prop where
  parts : g.KeepsParts g'
  others : ∀ id c, id ≠ flat → g.get? id = some (.classDef c) → c.role ≠ .instanced →
    ∃ c', g'.get? id = some (.classDef c') ∧ c.Grows [] c'
  moves : ∀ c, g.get? flat = some (.classDef c) → c.role ≠ .instanced → ∃ c' bindings t name,
    g'.get? flat = some (.classDef c') ∧ c.Grows bindings { c' with functions := c.functions } ∧
    (∀ e ∈ bindings, g'.IsEquation e) ∧ g'.get? tree = some (.classDef t) ∧ t.symbols = {} ∧
    t.classes = Table.insert ⟨c.functions.entries.map fun e => (some e.1, e.2)⟩ name flat

namespace Build

variable {flat : Id} {g : Graph}

theorem complete_yields (orig : Id) : Yields (complete orig flat) g fun tree g' => g.Completes flat tree g' := by
  refine ends_bind.2 (Gaining.yields addValueEquations_adding |>.imp ?_)
  rintro _ g1 ⟨bindings, hg1, -, hbindings⟩
  refine yields_classAt fun c1 hc1 => ?_
  rw [← bind_assoc]
  refine (finish_yields flat _).bind fun _ g2 hg2 => ?_
  refine yields_classAt fun c2 hc2 => ?_
  refine ends_bind.2 ((ends_modifyClass hc2).2 ?_)
  refine yields_classAt fun o _ => ends_freshClass.2 ?_
  -- The tree comes last, and the flat class loses its functions before.
  generalize hset : g2.set flat (.classDef { c2 with functions := {} }) = g3
  generalize hnew : { role := ClassRole.tree, classes := _ : ClassDef } = new
  have hself : g3.ClassAt flat { c2 with functions := {} } := hset ▸ Graph.get?_set hc2 _
  have hext := Graph.extends_withClass g3 new
  have hparts : g1.KeepsParts (g3.withClass new) :=
    hg2.parts.trans ((hset ▸ .setClass hc2 rfl : g2.KeepsParts g3).trans (Graph.Upholds.of_extends hext).parts)
  refine ⟨hg1.parts.trans hparts, fun id c hid hc hinst => ?_, fun c hc hinst => ?_⟩
  · obtain ⟨e1, he1, -, hlasting⟩ := hg1.kept id _ hc
    obtain ⟨k1, rfl, hgrows1⟩ := ClassDef.Grows.of_lasting hinst (hlasting (.inl hid))
    obtain ⟨k2, hk2, hgrows2⟩ := hg2.classes id k1 he1 (hgrows1.role ▸ hinst)
    have hk3 : g3.ClassAt id k2 := hset ▸ (Graph.get?_set_other g2 _ hid).trans hk2
    exact ⟨k2, Graph.Extends.get?_some hext hk3, hgrows1.trans hgrows2⟩
  · obtain ⟨k1, hk1, hgrows1⟩ := hg1.gained c hc hinst
    obtain ⟨k2, hk2, hgrows2⟩ := hg2.classes flat k1 hk1 (hgrows1.role ▸ hinst)
    rw [hc2, Option.some.injEq, classDef.injEq] at hk2
    subst hk2
    have hgrows := hgrows1.trans hgrows2
    rw [append_nil] at hgrows
    refine ⟨_, bindings, _, o.name, Graph.Extends.get?_some hext hself, ?_, fun e he => (hbindings e he).keep hparts,
      Graph.get?_withClass_self g3 new, ?_, ?_⟩
    · exact ⟨hgrows.role, hgrows.classes, rfl, hgrows.symbols, hgrows.equations⟩
    · rw [← hnew]
    · rw [← hnew, hgrows.functions]

theorem flatten_yields (root : Id) (path : List String) (g : Graph) :
    Yields (flatten root path) g fun tree g' => ∃ orig g0 flat g1 g2, findOriginal root path g = .ok orig g0 ∧
      flattenClass orig g0 = .ok flat g1 ∧ expandConnections flat g1 = .ok () g2 ∧ g2.Completes flat tree g' := by
  refine ends_bind.2 (yields_iff.2 fun orig g0 horig => ends_bind.2 (yields_iff.2 fun flat g1 hflat => ?_))
  refine ends_bind.2 (yields_iff.2 fun _ g2 hexpand => (complete_yields orig).imp fun tree g' h => ?_)
  exact ⟨orig, g0, flat, g1, g2, horig, hflat, hexpand, h⟩

end Build
end Modelica
