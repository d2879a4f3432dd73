/-
The tables of a flat class.

A flat class is filled in one level after the other, and at each level every
symbol is replaced by a copy of its own once all are entered. So in a flat class
that is ready different keys stand for different symbols, and that holds for the
functions it took over as well (`Graph.Forms`). Constants that are named on several
ways are one symbol under several keys until then.

`Forms V flat` is what holds of the class `flat` all the time, with `V` for what is
known of its symbols besides. It stays when everything is spared (`Forms.spared`), so
that only the steps that write to the flat class have to be looked at.
-/
import Modelica.Proofs.Flat.Gain

namespace Modelica

open List Element StateT

namespace Graph

variable {g g' : Graph} {id flat : Id} {V : Table String Id → Prop}

variable {c c' : ClassDef}

theorem IsSymbol.keep (h : g.IsSymbol id) (hg : g.KeepsParts g') : g'.IsSymbol id := by
  obtain ⟨s, hs⟩ := h
  obtain ⟨e', he', -, hlasting⟩ := hg id _ hs
  have hsame := hlasting rfl
  cases e' with
  | symbol s' => exact ⟨s', he'⟩
  | _ => exact nomatch hsame

/-- A flat class with a table of symbols and no classes. -/
structure Tabled (g : Graph) (c : ClassDef) : Prop where
  role : c.role ≠ .instanced
  classes : c.classes = {}
  keys : c.symbols.keys.Nodup
  symbols : ∀ s ∈ c.symbols.values, g.IsSymbol s

theorem Tabled.keep (h : g.Tabled c) (hg : g.KeepsParts g') (hgrows : ∃ es, c.Grows es c') : g'.Tabled c' := by
  obtain ⟨es, hgrows⟩ := hgrows
  refine ⟨hgrows.role ▸ h.role, hgrows.classes.trans h.classes, h.keys.sublist (hgrows.symbols.map _), fun s hs => ?_⟩
  exact (h.symbols s ((hgrows.symbols.map Prod.snd).subset hs)).keep hg

/-- Different keys of a flat class stand for different symbols. -/
def Distinct (g : Graph) (id : Id) : Prop := ∃ c, g.get? id = some (.classDef c) ∧ g.Tabled c ∧ c.symbols.values.Nodup

theorem Distinct.keep (h : g.Distinct id) (hg : g.KeepsParts g') (hclass : ∀ c, g.ClassAt id c → c.role ≠ .instanced →
      ∃ c' es, g'.ClassAt id c' ∧ c.Grows es c') : g'.Distinct id := by
  obtain ⟨c, hc, htabled, hvalues⟩ := h
  obtain ⟨c', es, hc', hgrows⟩ := hclass c hc htabled.role
  exact ⟨c', hc', htabled.keep hg ⟨es, hgrows⟩, hvalues.sublist (hgrows.symbols.map _)⟩

theorem Distinct.retained (h : g.Distinct id) (hg : g.Upholds g') : g'.Distinct id :=
  h.keep hg.parts fun c hc hinst => by
    obtain ⟨c', hc', hgrows⟩ := hg.classes id c hc hinst
    exact ⟨c', [], hc', hgrows⟩

/-- Writing to a class leaves another one distinct, and itself if its tables stay. -/
theorem Distinct.set {written} (h : g.Distinct id) (hc : g.ClassAt written c)
    (hrole : c'.role = c.role) (hsame : id ≠ written ∨ c'.classes = c.classes ∧ c'.symbols = c.symbols) :
    (g.set written (.classDef c')).Distinct id := by
  obtain ⟨k, hk, htabled, hvalues⟩ := h
  have hparts : g.KeepsParts (g.set written (.classDef c')) := .setClass hc hrole
  have hsymbols := fun s hs => (htabled.symbols s hs).keep hparts
  by_cases hid : id = written
  · subst hid
    rw [hc, Option.some.injEq, classDef.injEq] at hk
    subst hk
    obtain ⟨hclasses, htable⟩ := hsame.resolve_left (absurd rfl)
    refine ⟨c', get?_set hc _, ⟨hrole ▸ htabled.role, hclasses.trans htabled.classes, ?_, ?_⟩, ?_⟩
    · exact htable ▸ htabled.keys
    · exact htable ▸ hsymbols
    · exact htable ▸ hvalues
  · exact ⟨k, (get?_set_other g _ hid).trans hk, ⟨htabled.role, htabled.classes, htabled.keys, hsymbols⟩, hvalues⟩

/-- A flat class that is being made. -/
def Forms (V : Table String Id → Prop) (flat : Id) (g : Graph) : Prop :=
  ∃ c, g.get? flat = some (.classDef c) ∧ g.Tabled c ∧ V c.symbols ∧ (∀ e ∈ c.equations, e < g.size) ∧
    ∀ f ∈ c.functions.values, f ≠ flat ∧ g.Distinct f

variable (h : g.Forms V flat)

include h

theorem Forms.lt : flat < g.size := by
  obtain ⟨c, hc, -⟩ := h
  exact get?_lt hc

theorem Forms.spared (hg : g.Spared g.size g') : g'.Forms V flat := by
  obtain ⟨c, hc, htabled, hV, hequations, hfunctions⟩ := h
  obtain ⟨e', he', -, hlasting⟩ := hg.kept flat _ hc
  obtain ⟨source, rfl⟩ := eq_of_lasting htabled.role (hlasting (get?_lt hc))
  have hretains : g.Upholds g' := .of_spared hg
  refine ⟨_, he', ⟨htabled.role, htabled.classes, htabled.keys, fun s hs => (htabled.symbols s hs).keep hretains.parts⟩, hV,
    fun e he => (hequations e he).trans_le hg.size_le, fun f hf => ?_⟩
  exact ⟨(hfunctions f hf).1, (hfunctions f hf).2.retained hretains⟩

theorem Forms.set {V' f}
    (hf : ∀ c, g.ClassAt flat c → g.Tabled c → V c.symbols → (f c).role = c.role ∧
      ((f c).classes = {} ∧ (f c).symbols.keys.Nodup ∧ ∀ s ∈ (f c).symbols.values, g.IsSymbol s) ∧
      V' (f c).symbols ∧ (∀ e ∈ (f c).equations, e ∈ c.equations ∨ e < g.size) ∧
      ∀ k ∈ (f c).functions.values, k ∈ c.functions.values ∨ k ≠ flat ∧ g.Distinct k) :
    Build.Yields (Build.modifyClass flat f) g fun _ g' => g'.Forms V' flat := by
  obtain ⟨c, hc, htabled, hV, hequations, hfunctions⟩ := h
  obtain ⟨hrole, ⟨hclasses, hkeys, hsymbols⟩, hV', hequations', hfunctions'⟩ := hf c hc htabled hV
  have hparts : g.KeepsParts (g.set flat (.classDef (f c))) := .setClass hc hrole
  refine (Build.ends_modifyClass hc).2 ⟨f c, get?_set hc _, ?_, hV', fun e he => ?_, fun k hk => ?_⟩
  · exact ⟨hrole ▸ htabled.role, hclasses, hkeys, fun s hs => (hsymbols s hs).keep hparts⟩
  · rw [size_set]
    exact (hequations' e he).elim (hequations e) fun h => h
  · have hk := (hfunctions' k hk).elim (hfunctions k) fun h => h
    exact ⟨hk.1, hk.2.set hc hrole (.inl hk.1)⟩

theorem Forms.other (hid : flat ≠ id) (hc : g.ClassAt id c) :
    (g.set id (.classDef { c with functions := {} })).Forms V flat := by
  obtain ⟨k, hk, htabled, hV, hequations, hfunctions⟩ := h
  have hparts : g.KeepsParts (g.set id (.classDef { c with functions := {} })) := .setClass hc rfl
  refine ⟨k, (get?_set_other g _ hid).trans hk, ⟨htabled.role, htabled.classes, htabled.keys, fun s hs => ?_⟩, hV, ?_, fun f hf => ?_⟩
  · exact (htabled.symbols s hs).keep hparts
  · simpa using hequations
  · exact ⟨(hfunctions f hf).1, (hfunctions f hf).2.set hc rfl (.inr ⟨rfl, rfl⟩)⟩

end Graph

namespace Build

open Modelica.Graph (Spared IsSymbol Tabled Distinct Forms)

variable {α β γ : Type} {g : Graph} {flat : Id} {V : Table String Id → Prop} {Q : β → Graph → Prop}

variable {x : Build α} {f : α → Build β} {symbol : Id}

theorem yields_spares (hx : ∀ n, Spares n x) : Yields x g fun _ g' => g.Spared g.size g' :=
  (hx _ g le_rfl).yields.imp fun _ _ h => h.1

theorem forms_after (h : g.Forms V flat) (hx : ∀ n, Spares n x) : Yields x g fun _ g' => g'.Forms V flat :=
  (yields_spares hx).imp fun _ _ hs => h.spared hs

theorem yields_after (hx : ∀ n, Spares n x) (hf : ∀ a g', g.Spared g.size g' → Yields (f a) g' Q) :
    Yields (x >>= f) g Q :=
  (yields_spares hx).bind hf

theorem yields_after_if {c : Prop} [Decidable c] {x f} (hx : ∀ n, Spares n x)
    (hf : ∀ g', g.Spared g.size g' → Yields (f ()) g' Q) : Yields (if c then x >>= f else f ()) g Q := by
  split
  · exact yields_after hx fun _ => hf
  · exact hf g (.refl _ g)

/-! ### Copies of symbols -/

theorem whole_symbol {f} (hf : ∀ n id m, Spares n ((f id).run m)) (h : g.IsSymbol symbol)
    {m} (hm : m.get? symbol = none) :
    Yields ((Copying.whole f symbol).run m) g fun r g' => r.1 = g.size ∧ g'.IsSymbol r.1 := by
  obtain ⟨s, hs⟩ := h
  simp only [Copying.whole, Copying.copied?, Copying.record, run_bind, run_get, run_pure, pure_bind, hm,
    run_lift, bind_assoc, run_modify, ends_bind, ends_element hs, ends_alloc, ends_store,
    ends_pure, Copying.content]
  refine (yields_spares fun n => Copying.symbol_spares (hf n) s _).imp fun r g1 hs1 => ⟨trivial, r.1, ?_⟩
  refine Graph.get?_set_self g1 _ (Nat.lt_of_lt_of_le ?_ hs1.size_le)
  simp

theorem copy_symbol (h : g.IsSymbol symbol) : Yields (copy symbol) g fun new g' => new = g.size ∧ g'.IsSymbol new := by
  obtain ⟨s, hs⟩ := h
  have hempty : ({} : Copied).get? symbol = none := by simp
  simp only [copy, ends_bind, ends_size, ends_pure]
  generalize hk : 2 * g.size + 1 = k
  rw [show 2 * g.size + 2 = k + 1 by omega, Copying.copy]
  simp only [Copying.copied?, run_bind, run_get, pure_bind, hempty, run_lift, bind_assoc, ends_bind,
    ends_element hs]
  exact whole_symbol (fun n id m => Copying.copy_spares k id m) ⟨s, hs⟩ hempty

theorem flattenReferences_symbol (h : g.IsSymbol symbol) (container : Id) (stem : String) :
    Yields (flattenReferences container stem symbol) g fun new g' =>
      g.Spared g.size g' ∧ new = g.size ∧ g'.IsSymbol new := by
  refine (yields_spares fun _ => flattenReferences_spares container stem symbol).and ?_
  refine (copy_symbol h).bind ?_
  rintro new g1 ⟨hnew, hsymbol⟩
  refine yields_after (fun n => .discard ?_) fun _ g2 hs2 => ⟨hnew, hsymbol.keep (.of_spared hs2)⟩
  exact Visitor.run_spares (fun id s => (ReferenceSearch.visitor_spares container stem id s).1)
    (fun id s => (ReferenceSearch.visitor_spares container stem id s).2) new {}

theorem renewSymbols_yields {c} (hc : g.ClassAt flat c) (h : g.Forms (fun _ => True) flat) (stem : String) :
    Yields (forIn c.symbols.entries PUnit.unit fun entry _ => do
      renewSymbol flat stem entry.1 entry.2
      pure (.yield PUnit.unit)) g fun _ g' => g'.Forms (fun t => t.values.Nodup) flat := by
  -- Those already replaced stand in front, at the keys they had.
  refine (yields_forIn_parts (fun _ after g => g.Forms (fun t => ∃ done, t.entries = done ++ after ∧ (done.map (·.2)).Nodup) flat)
    (fun before entry after _ g1 h1 => ?_) ?_).imp ?_
  · obtain ⟨c1, hc1, htabled1, ⟨done, hdone, hnodup⟩, hrest⟩ := h1
    have hmem : ∀ e ∈ done ++ entry :: after, g1.IsSymbol e.2 := fun e he =>
      htabled1.symbols _ (mem_map_of_mem (hdone ▸ he))
    have hkey : entry.1 ∉ done.map (·.1) := Table.key_not_mem_of_nodup htabled1.keys hdone
    suffices hrenew : Yields (renewSymbol flat stem entry.1 entry.2) g1 _ from hrenew.bind fun _ _ h3 => ⟨rfl, h3⟩
    refine (flattenReferences_symbol (hmem entry (by simp)) flat stem).bind ?_
    rintro new g2 ⟨hs2, rfl, hnew⟩
    have h2 : g2.Forms (fun t => t = c1.symbols) flat := Forms.spared ⟨c1, hc1, htabled1, rfl, hrest⟩ hs2
    refine h2.set fun c2 _ htabled2 hsame => ?_
    have hentries : (c2.symbols.insert entry.1 g1.size).entries = done ++ (entry.1, g1.size) :: after := by
      have hold : c2.symbols = ⟨done ++ (entry.1, entry.2) :: after⟩ := by rw [hsame, ← hdone]
      rw [hold, Table.insert_at done after _ _ hkey]
    refine ⟨rfl, ⟨htabled2.classes, Table.nodup_keys_insert htabled2.keys _ _, fun s hs => ?_⟩, ?_, fun e he => .inl he, fun k hk => .inl hk⟩
    · obtain ⟨e, he, rfl⟩ := mem_map.1 hs
      rcases Table.mem_entries_insert he with rfl | he
      · exact hnew
      · exact htabled2.symbols _ (mem_map_of_mem he)
    · refine ⟨done ++ [(entry.1, g1.size)], by rw [hentries, append_assoc]; rfl, ?_⟩
      rw [map_append, nodup_append]
      refine ⟨hnodup, nodup_singleton _, fun x hx y hy heq => ?_⟩
      -- what was there has an address below the new one
      obtain ⟨e, he, rfl⟩ := mem_map.1 hx
      obtain ⟨s, hs⟩ := hmem e (mem_append_left _ he)
      exact Nat.ne_of_lt (Graph.get?_lt hs) (heq.trans (mem_singleton.1 hy))
  · obtain ⟨c', hc', htabled, -, hrest⟩ := h
    rw [hc, Option.some.injEq, classDef.injEq] at hc'
    subst hc'
    exact ⟨c, hc, htabled, ⟨[], rfl, .nil⟩, hrest⟩
  · rintro _ g' ⟨c', hc', htabled, ⟨done, hdone, hnodup⟩, hrest⟩
    refine ⟨c', hc', htabled, ?_, hrest⟩
    simpa only [Table.values, hdone, append_nil] using hnodup

/-! ### Filling in a flat class -/

/-- Something is written to a flat class that no table and no equation depends on. -/
theorem yields_after_write {f next} (h : g.Forms V flat)
    (hf : ∀ c, (f c).role = c.role ∧ (f c).classes = c.classes ∧ (f c).symbols = c.symbols ∧
      (f c).equations = c.equations ∧ (f c).functions = c.functions)
    (hnext : ∀ g', g'.Forms V flat → Yields (next ()) g' Q) : Yields (modifyClass flat f >>= next) g Q := by
  refine (h.set fun c _ htabled hV => ?_).bind fun _ g' h' => hnext g' h'
  obtain ⟨hrole, hclasses, hsymbols, hequations, hfunctions⟩ := hf c
  rw [hclasses, hsymbols, hequations, hfunctions]
  exact ⟨hrole, ⟨htabled.classes, htabled.keys, htabled.symbols⟩, hV, fun _ => .inl, fun _ => .inl⟩

theorem enter_forms (h : g.Forms (fun _ => True) flat) (hsymbol : g.IsSymbol symbol) (name : String) :
    Yields (modifyClass flat fun c => { c with symbols := c.symbols.insert name symbol }) g
      fun _ g' => g'.Forms (fun _ => True) flat := by
  refine h.set fun c _ htabled _ => ⟨rfl, ⟨htabled.classes, Table.nodup_keys_insert htabled.keys _ _, fun s hs => ?_⟩,
    trivial, fun _ => .inl, fun _ => .inl⟩
  obtain ⟨e, he, rfl⟩ := mem_map.1 hs
  rcases Table.mem_entries_insert he with rfl | he
  · exact hsymbol
  · exact htabled.symbols _ (mem_map_of_mem he)

theorem merge_forms {sub k} (h : g.Forms (fun _ => True) flat) (hk : g.ClassAt sub k)
    (hsub : g.Forms V sub) (hother : ∀ f ∈ k.functions.values, f ≠ flat) :
    Yields (modifyClass flat (·.absorb k)) g fun _ g' => g'.Forms (fun _ => True) flat := by
  obtain ⟨k', hk', hsubTabled, -, hequations, hfunctions⟩ := hsub
  rw [hk, Option.some.injEq, classDef.injEq] at hk'
  subst hk'
  refine h.set fun c _ htabled _ => ⟨rfl, ⟨?_, Table.nodup_keys_insertAll htabled.keys _, ?_⟩, trivial, fun e he => ?_, ?_⟩
  · rw [ClassDef.absorb, hsubTabled.classes, htabled.classes]
    rfl
  · exact Table.forall_values_insertAll htabled.symbols hsubTabled.symbols
  · exact (mem_append.1 he).imp_right (hequations e)
  · exact Table.forall_values_insertAll (fun _ => .inl) fun f hf => .inr ⟨hother f hf, (hfunctions f hf).2⟩

end Build

/-- A flat class has been made beside all that was there. -/
structure Graph.Readies (g g' : Graph) (new : Id) : Prop where
  spared : g.Spared g.size g'
  outside : g'.Outside g.size new
  forms : g'.Forms (fun t => t.values.Nodup) new

theorem Graph.Readies.later {g g' g'' : Graph} {new} (h : g.Readies g' new) (hs : g'.Spared g'.size g'') :
    g.Readies g'' new :=
  ⟨h.spared.trans (hs.weaken _), (hs.weaken _).outside new h.outside, h.forms.spared hs⟩

theorem Graph.Readies.functions_ne {g g' : Graph} {new flat c} (h : g.Readies g' new)
    (hflat : flat < g.size) (hc : g'.ClassAt new c) : ∀ f ∈ c.functions.values, f ≠ flat :=
  fun f hf => Nat.ne_of_gt (hflat.trans_le (h.outside.functions hc f hf))

namespace Build

open Modelica.Graph (Spared IsSymbol Tabled Distinct Forms Readies)

variable {β γ : Type} {g : Graph} {flat : Id} {V : Table String Id → Prop}

theorem addEquation_forms {new : Id} (h : g.Forms V flat) (hnew : new < g.size) :
    Yields (modifyClass flat fun k => { k with equations := k.equations ++ [new] }) g fun _ g' => g'.Forms V flat := by
  refine h.set fun c _ htabled hV => ⟨rfl, ⟨htabled.classes, htabled.keys, htabled.symbols⟩, hV, fun e he => ?_, fun _ => .inl⟩
  rcases mem_append.1 he with he | he
  · exact .inl he
  · exact .inr (mem_singleton.1 he ▸ hnew)

theorem yields_forIn_any {l : List β} {f} {x : γ} (I : Graph → Prop)
    (hf : ∀ b x g, I g → Yields (f b x) g fun _ g' => I g') (h : I g) : Yields (forIn l x f) g fun _ g' => I g' := by
  induction l generalizing g x with
  | nil => exact h
  | cons b l ih =>
    rw [forIn_cons]
    refine (hf b x g h).bind fun r g1 h1 => ?_
    cases r with
    | done y => exact h1
    | yield y => exact ih h1

section

variable {flatten : Id → String → Build Id} {flattenClass : Id → Build Id}
  (hflatten : ∀ cls name g, Yields (flatten cls name) g fun sub g' => g.Readies g' sub)
  (hclass : ∀ orig g, Yields (flattenClass orig) g fun new g' => g.Readies g' new)

include hflatten hclass in
theorem flattenSymbol_forms (h : g.Forms (fun _ => True) flat) (stem name : String) (symbol : Id) :
    Yields (flattenSymbol flatten flattenClass flat stem name symbol) g fun _ g' => g'.Forms (fun _ => True) flat := by
  have hname : Yields (modifySymbol symbol fun s => { s with name := stem ++ name }) g fun _ g' =>
      g.Spared g.size g' ∧ g'.IsSymbol symbol :=
    Yields.and (yields_spares fun _ => .modifySymbol fun _ => rfl)
      (ends_modifySymbol_of (fun _ hs => ⟨_, Graph.get?_set hs _⟩) trivial)
  refine hname.bind ?_
  rintro _ g1 ⟨hs1, hsymbol1⟩
  refine yields_after_if (fun _ => stripCausality_spares symbol) fun g2 hs2 => ?_
  have h2 := (h.spared hs1).spared hs2
  have hsymbol2 := hsymbol1.keep (.of_spared hs2)
  refine (Reads.symbolAt symbol).yields_bind fun s => (Reads.typeForm _).yields_bind fun form => ?_
  split
  · exact enter_forms h2 hsymbol2 _
  · next type =>
    refine (Reads.classAt type).yields_bind fun t => ?_
    split
    · refine (enter_forms h2 hsymbol2 _).bind fun _ g3 h3 => ?_
      exact forms_after h3 fun _ => adoptBuiltin_spares symbol type
    · refine (hflatten type _ g2).bind fun sub g3 hsub3 => ?_
      refine (Reads.symbolAt symbol).yields_bind fun s => (Reads.classAt sub).yields_bind fun _ => ?_
      refine yields_after (fun _ => .forIn fun s _ => .bind (.modifySymbol fun _ => rfl) fun _ => .pure _) fun _ g4 hs4 => ?_
      refine yields_classAt fun k hk => ?_
      have hsub := hsub3.later hs4
      have h4 := h2.spared hsub.spared
      have hsymbol4 := hsymbol2.keep (.of_spared hsub.spared)
      have hmerge := (merge_forms h4 hk hsub.forms (hsub.functions_ne h2.lt hk)).and (ends_modifyClass_of (Q := fun _ g' => g4.KeepsParts g') (fun c hc => .setClass hc rfl) trivial)
      refine hmerge.bind ?_
      rintro _ g5 ⟨h5, hparts5⟩
      split
      · refine (hclass type g5).bind fun connector g6 hconnector => ?_
        have h6 := h5.spared hconnector.spared
        have hsymbol6 := (hsymbol4.keep hparts5).keep (.of_spared hconnector.spared)
        refine (enter_forms h6 hsymbol6 _).bind fun _ g7 h7 => ?_
        exact forms_after h7 fun _ => .modifySymbol fun _ => rfl
      · exact h5
  · exact trivial

include hclass

theorem pullFunction_forms (h : g.Forms V flat) (entry : String × Id) :
    Yields (pullFunction flattenClass flat entry) g fun e g' => g'.Forms V flat ∧ (e.2 ≠ flat ∧ g'.Distinct e.2) ∧
      ∀ other, other ≠ flat → g.Distinct other → g'.Distinct other := by
  refine (hclass entry.2 g).bind fun new g1 hnew => yields_classAt fun k hk => ?_
  have hne : new ≠ flat := Nat.ne_of_gt (h.lt.trans_le hnew.outside.1)
  have hothers := hnew.functions_ne h.lt hk
  obtain ⟨k', hk', htabled, hnodup, -, hfunctions⟩ := hnew.forms
  rw [hk, Option.some.injEq, classDef.injEq] at hk'
  subst hk'
  -- The flat class is written, then the function itself.
  have hpull := (h.spared hnew.spared).set (f := fun c => { c with functions := c.functions.insertAll k.functions })
    fun c _ htabled hV => ⟨rfl, ⟨htabled.classes, htabled.keys, htabled.symbols⟩, hV, fun _ => .inl,
      Table.forall_values_insertAll (fun _ => .inl) fun f hf => .inr ⟨hothers f hf, (hfunctions f hf).2⟩⟩
  have hkept : Yields (modifyClass flat fun c => { c with functions := c.functions.insertAll k.functions }) g1 fun _ g2 =>
      g2.ClassAt new k ∧ ∀ other, other ≠ flat → g1.Distinct other → g2.Distinct other :=
    ends_modifyClass_of (fun c hc => ⟨(Graph.get?_set_other g1 _ hne).trans hk, fun other hother hdistinct =>
      hdistinct.set hc rfl (.inl hother)⟩) trivial
  refine (hpull.and hkept).bind ?_
  rintro _ g2 ⟨h2, hk2, hkept2⟩
  have hdistinct : g2.Distinct new := hkept2 new hne ⟨k, hk, htabled, hnodup⟩
  refine ends_bind.2 ((ends_modifyClass hk2).2 ⟨?_, ⟨hne, hdistinct.set hk2 rfl (.inr ⟨rfl, rfl⟩)⟩, fun other hother hd => ?_⟩)
  · exact h2.other hne.symm hk2
  · exact (hkept2 other hother (hd.retained (.of_spared hnew.spared))).set hk2 rfl (.inr ⟨rfl, rfl⟩)

theorem pullFunctions_forms (h : g.Forms V flat) (functions : Table String Id) :
    Yields (pullFunctions flattenClass flat functions) g fun _ g' => g'.Forms V flat := by
  suffices hs : ∀ entries : List (String × Id), ∀ g, g.Forms V flat →
      Yields (entries.mapM (pullFunction flattenClass flat)) g fun pulled g' => g'.Forms V flat ∧
        (∀ e ∈ pulled, e.2 ≠ flat ∧ g'.Distinct e.2) ∧ ∀ other, other ≠ flat → g.Distinct other → g'.Distinct other by
    refine (hs functions.entries g h).bind ?_
    rintro pulled g1 ⟨h1, hpulled, -⟩
    refine h1.set fun c _ htabled hV => ⟨rfl, ⟨htabled.classes, htabled.keys, htabled.symbols⟩, hV, fun _ => .inl, ?_⟩
    refine Table.forall_values_insertAll (fun _ => .inl) fun f hf => ?_
    obtain ⟨e, he, rfl⟩ := mem_map.1 hf
    exact .inr (hpulled e he)
  intro entries
  induction entries with
  | nil => exact fun g h => ⟨h, nofun, fun _ _ h => h⟩
  | cons entry rest ih =>
    intro g h
    rw [mapM_cons]
    refine (pullFunction_forms hclass h entry).bind ?_
    rintro e g1 ⟨h1, ⟨hne, hdistinct⟩, hkept1⟩
    refine (ih g1 h1).bind ?_
    rintro es g2 ⟨h2, hes, hkept2⟩
    exact ⟨h2, forall_mem_cons.2 ⟨⟨hne, hkept2 _ hne hdistinct⟩, hes⟩, fun other hother hd =>
      hkept2 other hother (hkept1 other hother hd)⟩

include hflatten in
theorem flattenLevel_forms (cls : Id) (instanceName : String) (g : Graph) :
    Yields (flattenLevel flatten flattenClass cls instanceName) g fun flat g' => g'.Forms (fun t => t.values.Nodup) flat := by
  refine (Reads.classAt cls).yields_bind fun c => ends_bind.2 (ends_alloc.2 ?_)
  generalize hfresh : (classDef { name := c.name, category := c.category, remarks := c.remarks, declaration := c.declaration }) = fresh
  have h0 : (g.add fresh).1.Forms (fun _ => True) g.size :=
    hfresh ▸ ⟨_, Graph.get?_add_self g _, ⟨nofun, rfl, .nil, nofun⟩, trivial, nofun, nofun⟩
  generalize g.size = flat at h0 ⊢
  generalize (g.add fresh).1 = g1 at h0
  refine (yields_forIn_any (fun g => g.Forms (fun _ => True) flat) (fun entry _ g h => ?_) h0).bind fun _ g2 h2 => ?_
  · exact (flattenSymbol_forms hflatten hclass h _ _ _).bind fun _ _ h => h
  refine yields_after (fun _ => applyModifications_spares flat cls) fun _ g3 hs3 => ?_
  have h3 := h2.spared hs3
  refine yields_classAt fun k hk => ?_
  refine (renewSymbols_yields hk h3 _).bind fun _ g4 h4 => (Reads.classAt cls).yields_bind fun c => ?_
  refine (yields_forIn_any (fun g => g.Forms (fun t => t.values.Nodup) flat) (fun equation functions g h => ?_) h4).bind
    fun functions g5 h5 => ?_
  · refine Yields.bind ?_ fun _ _ h => h
    refine yields_after (fun _ => scopeCalls_spares cls equation functions) fun r g1 hs1 => ?_
    refine (flattenReferences_sparing flat _ r.1 g1 le_rfl).yields.bind fun new g2 h2 => ?_
    refine (addEquation_forms ((h.spared hs1).spared h2.1) h2.2).bind fun _ g3 h3 => ?_
    exact yields_after (fun _ => markInner_spares new equation) fun _ g4 hs4 => h3.spared hs4
  refine yields_after (fun _ => scopeAll_spares cls c.initialEquations functions) fun r g6 hs6 => ?_
  refine yields_after (fun _ => scopeAll_spares cls c.statements r.2) fun r' g7 hs7 => ?_
  refine yields_after (fun _ => scopeAll_spares cls c.initialStatements r'.2) fun r'' g8 hs8 => ?_
  have h8 := ((h5.spared hs6).spared hs7).spared hs8
  have hrewrite : ∀ ids stem n, Spares n (mapM (flattenReferences flat stem) ids) := fun ids stem _ =>
    .mapM (flattenReferences_spares flat stem)
  refine yields_after (hrewrite _ _) fun _ g9 hs9 => ?_
  refine yields_after_write (h8.spared hs9) (fun _ => ⟨rfl, rfl, rfl, rfl, rfl⟩) fun g10 h10 => ?_
  refine yields_after (hrewrite _ _) fun _ g11 hs11 => ?_
  refine yields_after_write (h10.spared hs11) (fun _ => ⟨rfl, rfl, rfl, rfl, rfl⟩) fun g12 h12 => ?_
  refine yields_after (hrewrite _ _) fun _ g13 hs13 => ?_
  refine yields_after_write (h12.spared hs13) (fun _ => ⟨rfl, rfl, rfl, rfl, rfl⟩) fun g14 h14 => ?_
  exact (pullFunctions_forms hclass h14 r''.2).bind fun _ _ h => h

end

theorem readies_of_sparing {x} (hspares : Sparing g.size g x fun flat g' => g'.Outside g.size flat)
    (hforms : Yields x g fun flat g' => g'.Forms (fun t => t.values.Nodup) flat) :
    Yields x g fun flat g' => g.Readies g' flat := by
  have hspares := (hspares le_rfl).yields
  exact (Yields.and hspares hforms).imp fun _ _ h => ⟨h.1.1, h.1.2, h.2⟩

theorem flattenTo_readies (k : Nat) :
    (∀ cls name g, Yields (flattenSymbolsTo k cls name) g fun flat g' => g.Readies g' flat) ∧
      ∀ orig g, Yields (flattenClassTo k orig) g fun flat g' => g.Readies g' flat := by
  induction k with
  | zero => exact ⟨fun _ _ _ => trivial, fun _ _ => trivial⟩
  | succ k ih =>
    refine ⟨fun cls name g => readies_of_sparing ((flattenTo_sparing (k + 1)).1 cls name g) (flattenLevel_forms ih.1 ih.2 cls name g),
      fun orig g => readies_of_sparing ((flattenTo_sparing (k + 1)).2 orig g) ?_⟩
    refine (Reads.classAt orig).yields_bind fun c => ?_
    refine yields_after (fun _ => instantiate_spares orig none c.parent) fun cls g1 _ => ?_
    exact yields_after (fun _ => pullConstants_spares cls) fun _ g2 _ => (ih.1 cls "" g2).imp fun _ _ h => h.forms

/-- **A flat class** is made beside all that was there, and its tables are in order. -/
theorem flattenClass_readies (orig : Id) (g : Graph) : Yields (flattenClass orig) g fun flat g' => g.Readies g' flat :=
  Reads.size.yields_bind fun k => (flattenTo_readies (k + 1)).2 orig g

end Build
end Modelica
