/-
The connect clauses of a flat class.

Connections are expanded in one pass over the equations of a flat class.
A clause among them goes, and equations take its place; an equation that is no
clause stays, and with it whatever stands inside it, clauses included
(`Graph.Cleared`). So clauses in the branches of an equation, or in a loop, are
left in the flat class. In the same pass flow variables are joined. Those that
were joined are not set to zero (`Graph.Zeroed`), and what is set to zero are
flow variables of the class.
-/
import Modelica.Proofs.Flat.Forms

namespace Modelica

open List

variable {c : ClassDef} {st : Build.Connecting} {zeros : List Id}

/-- The equations inside an equation. -/
def Element.body : Element → List Id
  | .branch _ _ bodies _ => bodies.flatten
  | .loopEquation _ body _ => body
  | _ => []

theorem Element.body_lasting (e : Element) : e.lasting.body = e.body := by
  cases e <;> rfl

def Element.isConnect : Element → Bool
  | .connect .. => true
  | _ => false

theorem Element.isConnect_lasting (e : Element) : e.lasting.isConnect = e.isConnect := by
  cases e <;> rfl

namespace Graph

variable {flat : Id} {es : List Id} {g g1 g' : Graph} {id : Id} {e : Element} {c c' : ClassDef}

/-- The equation `id` stands inside the equation `e`, at any depth, or is `e`. -/
inductive Encloses (g : Graph) (e : Id) : Id → Prop
  | self : Encloses g e e
  | step {id inner : Id} {el : Element} : Encloses g e id → g.get? id = some el → inner ∈ el.body → Encloses g e inner

theorem isConnect_eq (he : g.get? id = some e) : g.isConnect id = e.isConnect := by
  rw [isConnect, he]
  cases e <;> rfl

theorem exists_get? (hid : id < g.size) : ∃ e, g.get? id = some e := ⟨_, Array.getElem?_eq_getElem hid⟩

theorem IsEquation.isConnect (h : g.IsEquation id) : g.isConnect id = false := by
  obtain ⟨l, r, comment, he⟩ := h
  rw [isConnect_eq he]
  rfl

namespace KeepsParts

theorem form (h : g.KeepsParts g') (he : g.get? id = some e) :
    ∃ e', g'.get? id = some e' ∧ e'.body = e.body ∧ e'.isConnect = e.isConnect := by
  obtain ⟨e', he', hrole, hlasting⟩ := h id e he
  refine ⟨e', he', ?_⟩
  cases hpart : e.role? with
  | none =>
    have hsame := hlasting hpart
    rw [← e'.body_lasting, ← e'.isConnect_lasting, hsame, e.body_lasting, e.isConnect_lasting]
    exact ⟨rfl, rfl⟩
  | some role =>
    -- both are classes
    rw [hpart] at hrole
    cases e <;> cases hpart
    cases e' with
    | classDef c' => exact ⟨rfl, rfl⟩
    | _ => cases hrole

theorem isConnect (h : g.KeepsParts g') (he : g.get? id = some e) : g'.isConnect id = g.isConnect id := by
  obtain ⟨e', he', -, hsame⟩ := h.form he
  rw [isConnect_eq he, isConnect_eq he', hsame]

theorem encloses {a} (h : g.KeepsParts g') (ha : g.Encloses a id) : g'.Encloses a id := by
  induction ha with
  | self => exact .self
  | step _ hget hinner ih =>
    obtain ⟨e', he', hbody, -⟩ := h.form hget
    exact ih.step he' (hbody ▸ hinner)

end KeepsParts

/-- What becomes of the clauses of a class: none is left among its equations.
Equations that are no clauses stay, in their order and with all clauses inside
them; beside them there are only equations proper. -/
structure Cleared (g : Graph) (c : ClassDef) (g' : Graph) (c' : ClassDef) : Prop where
  none_left : ∀ e ∈ c'.equations, g'.isConnect e = false
  kept : (c.equations.filter (!g.isConnect ·)).Sublist c'.equations
  inside : ∀ e ∈ c.equations, ∀ id el, g.Encloses e id → g.get? id = some el →
    g'.Encloses e id ∧ g'.isConnect id = g.isConnect id
  added : ∀ e ∈ c'.equations, e ∈ c.equations ∨ g'.IsEquation e

end Graph

namespace Build

open Modelica.Graph (Gains KeepsParts)

variable {flat : Id} {g : Graph} {c : ClassDef} {free : Table String Id} {st : Connecting}

theorem expandEquation_gaining {e el} (he : g.get? e = some el) (hst : st.Apart free) :
    Gaining flat g (expandEquation flat st e) fun st' es g' => st'.Apart free ∧
      if g.isConnect e then ∀ x ∈ es, g'.IsEquation x else es = [e] := by
  refine ends_bind.2 ((ends_element he).2 ?_)
  rw [Graph.isConnect_eq he]
  cases el with
  | connect l r comment li ri => exact connect_adding hst ⟨l, r, li, ri⟩
  | _ =>
    refine (Gaining.append e).bind ?_
    rintro _ _ g1 - rfl
    exact .pure ⟨hst, rfl⟩

/-- One round after the other, whether an equation is a clause does not depend
on what the rounds before made of the others. -/
theorem expandEquations_gaining {written : List Id} (hwritten : ∀ e ∈ written, ∃ el, g.get? e = some el)
    (hst : st.Apart free) :
    Gaining flat g (written.foldlM (expandEquation flat) st) fun st' es g' => st'.Apart free ∧
      (written.filter (!g.isConnect ·)).Sublist es ∧ ∀ x ∈ es, (x ∈ written ∧ g.isConnect x = false) ∨ g'.IsEquation x := by
  induction written generalizing g st with
  | nil => exact .pure ⟨hst, .refl _, nofun⟩
  | cons e rest ih =>
    obtain ⟨⟨el, he⟩, hrest⟩ := forall_mem_cons.1 hwritten
    rw [foldlM_cons]
    refine (expandEquation_gaining he hst).bind ?_
    rintro st1 es g1 hg1 ⟨hst1, hes⟩
    have hsame : ∀ x ∈ rest, g1.isConnect x = g.isConnect x := fun x hx => by
      obtain ⟨el, hel⟩ := hrest x hx
      exact hg1.parts.isConnect hel
    have hrest1 : ∀ x ∈ rest, ∃ el, g1.get? x = some el := fun x hx => by
      obtain ⟨el, hel⟩ := hrest x hx
      obtain ⟨el', hel', -⟩ := hg1.parts x el hel
      exact ⟨el', hel'⟩
    refine (ih hrest1 hst1).imp ?_
    rintro st2 es' g2 hg2 ⟨hst2, hsub, hall⟩
    have hfilter : rest.filter (!g1.isConnect ·) = rest.filter (!g.isConnect ·) :=
      filter_congr fun x hx => by rw [hsame x hx]
    rw [hfilter] at hsub
    have hlater : ∀ x ∈ es', (x ∈ e :: rest ∧ g.isConnect x = false) ∨ g2.IsEquation x := fun x hx => by
      rcases hall x hx with ⟨hmem, hx⟩ | hx
      · exact .inl ⟨.tail _ hmem, hsame x hmem ▸ hx⟩
      · exact .inr hx
    refine ⟨hst2, ?_⟩
    cases hconnect : g.isConnect e with
    | true =>
      rw [hconnect, if_pos rfl] at hes
      rw [filter_cons_of_neg (by simp [hconnect])]
      refine ⟨hsub.trans (sublist_append_right es es'), fun x hx => ?_⟩
      rcases mem_append.1 hx with hx | hx
      · exact .inr ((hes x hx).keep hg2.parts)
      · exact hlater x hx
    | false =>
      rw [hconnect, if_neg (by simp)] at hes
      subst hes
      rw [filter_cons_of_pos (by simp [hconnect])]
      exact ⟨hsub.cons_cons e, forall_mem_cons.2 ⟨.inl ⟨(.head _), hconnect⟩, hlater⟩⟩

/-! ### Symbols -/

theorem ends_filterM_reads {α : Type} {f} (hf : ∀ a, Reads (f a)) (l : List α) :
    Ends (l.filterM f) g (fun kept g' => g' = g ∧ kept.Sublist l) fun _ g' => g' = g := by
  -- what was kept so far stands in reverse order
  suffices hs : ∀ found, Ends (filterAuxM f l found) g
      (fun kept g' => g' = g ∧ kept.reverse.Sublist (found.reverse ++ l)) fun _ g' => g' = g from
    ends_bind.2 ((hs []).imp (fun kept g' h => ⟨h.1, by simpa using h.2⟩) fun _ _ h => h)
  induction l with
  | nil => exact fun found => ⟨rfl, by simp⟩
  | cons a l ih =>
    intro found
    refine ends_bind.2 ((hf a).ends (fun b => (ih _).imp (fun kept g' h => ⟨h.1, h.2.trans ?_⟩) fun _ _ h => h) fun _ _ => rfl)
    cases b with
    | true => simp
    | false => exact List.Sublist.append_left (sublist_cons_self a l) _

theorem dropConnectors_gaining : Gaining flat g (dropConnectors flat) fun _ es _ => es = [] := by
  refine ends_bind.2 (ends_classAt_of (fun c hc => ?_) ⟨[], .refl flat g⟩)
  have hreads : ∀ e : String × Id, Reads (do pure (← symbolAt e.2).connector.isNone) := fun e =>
    (Reads.symbolAt e.2).bind fun _ => .pure _
  refine ends_bind.2 ((ends_filterM_reads hreads c.symbols.entries).imp ?_ ?_)
  · rintro kept _ ⟨rfl, hsub⟩
    exact (ends_modifyClass hc).2 ⟨[], .set hc ⟨rfl, rfl, rfl, hsub, (append_nil _).symm⟩, rfl⟩
  · rintro _ _ rfl
    exact ⟨[], .refl flat _⟩

end Build

/-- A symbol of the class `c` with the keyword `flow`, and its name. -/
def Graph.IsFlow (g : Graph) (c : ClassDef) (e : String × Id) : Prop :=
  e.2 ∈ c.symbols.values ∧ "flow" ∈ g.wordsOf e.2 ∧ ∃ s, g.get? e.2 = some (.symbol s) ∧ s.name = e.1

namespace Build

open Modelica.Graph (Gains KeepsParts)

variable {flat : Id} {g : Graph} {c : ClassDef} {free : Table String Id} {st : Connecting}

theorem keywordsOf_yields (symbol : Id) :
    Yields (keywordsOf symbol) g fun words g' => g' = g ∧ words = g.wordsOf symbol ∧ ∃ s, g.SymbolAt symbol s := by
  refine ends_bind.2 (ends_symbolAt_of (fun s hs => ends_bind.2 (ends_element_of (fun e he => ?_) trivial)) trivial)
  cases e with
  | keywords words => exact ⟨rfl, by simp only [Graph.wordsOf, hs, he], s, hs⟩
  | _ => exact trivial

theorem flowSymbols_yields (hc : g.ClassAt flat c) :
    Yields (flowSymbols flat) g fun free g' => g' = g ∧ ∀ e ∈ free.entries, g.IsFlow c e := by
  refine ends_bind.2 ((ends_classAt hc).2 ?_)
  suffices hs : ∀ (symbols : List Id) (t : Table String Id), (∀ s ∈ symbols, s ∈ c.symbols.values) →
      (∀ e ∈ t.entries, g.IsFlow c e) → Yields (symbols.foldlM addFlow t) g
        fun free g' => g' = g ∧ ∀ e ∈ free.entries, g.IsFlow c e from
    hs _ {} (fun _ h => h) nofun
  intro symbols
  induction symbols with
  | nil => exact fun t _ ht => ⟨rfl, ht⟩
  | cons s rest ih =>
    intro t hmem ht
    obtain ⟨hs, hrest⟩ := forall_mem_cons.1 hmem
    rw [foldlM_cons]
    refine ends_bind.2 ((keywordsOf_yields s).bind ?_)
    rintro words _ ⟨rfl, rfl, sym, hsym⟩
    split
    · next hflow =>
      refine ends_bind.2 ((ends_symbolAt hsym).2 (ih _ hrest fun e he => ?_))
      rcases Table.mem_entries_insert he with rfl | he
      · exact ⟨hs, by simpa using hflow, sym, hsym, rfl⟩
      · exact ht e he
    · exact ih t hrest ht

end Build

/-! ### The whole pass -/

/-- The equations `zeros` set to zero what was joined to nothing. These are flow
symbols of the class, and no variable that was joined has the name of one. -/
structure Graph.Zeroed (g : Graph) (c : ClassDef) (st : Build.Connecting) (g' : Graph) (zeros : List Id) : Prop where
  equations : Forall₂ g'.EquatedToZero zeros st.free.values
  flows : ∀ e ∈ st.free.entries, g.IsFlow c e
  joined : ∀ k ∈ st.flows.index.keys, k.name ∉ st.free.keys

theorem Graph.Zeroed.keep {g g' g'' : Graph} (h : g.Zeroed c st g' zeros) (hg : g'.KeepsParts g'') :
    g.Zeroed c st g'' zeros :=
  ⟨h.equations.imp fun _ _ he => he.keep hg, h.flows, h.joined⟩

theorem Graph.Zeroed.isEquation {g g' : Graph} (h : g.Zeroed c st g' zeros) : ∀ e ∈ zeros, g'.IsEquation e :=
  ((forall₂_and_left _ _).1 (h.equations.imp fun _ _ he => ⟨he.isEquation, he⟩)).1

namespace Build

open Modelica.Graph (Gains KeepsParts)

variable {flat : Id} {g : Graph} {c : ClassDef}

/-- The flat class without its equations. -/
abbrev emptied (flat : Id) (c : ClassDef) (g : Graph) : Graph := g.set flat (.classDef { c with equations := [] })

theorem joining_yields (hc : g.ClassAt flat c) (hequations : ∀ e ∈ c.equations, ∃ el, g.get? e = some el) :
    Yields (joining flat) g fun st g1 => ∃ free es, (emptied flat c g).Gains flat es g1 ∧
      (∀ e ∈ free.entries, g.IsFlow c e) ∧ st.Apart free ∧ (c.equations.filter (!g.isConnect ·)).Sublist es ∧
      ∀ x ∈ es, (x ∈ c.equations ∧ g.isConnect x = false) ∨ g1.IsEquation x := by
  refine (flowSymbols_yields hc).bind ?_
  rintro free g0 ⟨hg0, hfree⟩
  rw [hg0]
  refine ends_bind.2 ((ends_classAt hc).2 (ends_bind.2 ((ends_modifyClass hc).2 ?_)))
  -- Taking the equations out of the class changes none of them.
  have hparts : g.KeepsParts (emptied flat c g) := .setClass hc rfl
  have hwritten : ∀ e ∈ c.equations, ∃ el, (emptied flat c g).get? e = some el := fun e he => by
    obtain ⟨el, hel⟩ := hequations e he
    obtain ⟨el', hel', -⟩ := hparts e el hel
    exact ⟨el', hel'⟩
  have hsame : ∀ e ∈ c.equations, (emptied flat c g).isConnect e = g.isConnect e := fun e he => by
    obtain ⟨el, hel⟩ := hequations e he
    exact hparts.isConnect hel
  refine (expandEquations_gaining hwritten (.begun free)).yields.imp ?_
  rintro st g1 ⟨es, hgains, hst, hsub, hall⟩
  refine ⟨free, es, hgains, hfree, hst, ?_, fun x hx => ?_⟩
  · rwa [filter_congr fun e he => by rw [hsame e he]] at hsub
  · rcases hall x hx with ⟨hmem, hx⟩ | hx
    · exact .inl ⟨hmem, hsame x hmem ▸ hx⟩
    · exact .inr hx

theorem balances_gaining (st : Connecting) :
    Gaining flat g (balancing flat st) fun _ es g' => ∃ balanced zeros, es = balanced ++ zeros ∧
      (∀ e ∈ balanced, g'.IsEquation e) ∧ Forall₂ g'.EquatedToZero zeros st.free.values := by
  refine Gaining.bind (Adding.forM fun group _ => balance_adding group) ?_
  rintro _ balanced g1 - ⟨-, hbalanced⟩
  refine (equateAllToZero_gaining st.free.values).bind ?_
  rintro _ zeros g2 hg2 hzeros
  refine dropConnectors_gaining.imp ?_
  rintro _ _ g3 hg3 rfl
  refine ⟨balanced, zeros, by rw [append_nil], fun e he => ?_, hzeros.imp fun _ _ he => he.keep hg3.parts⟩
  exact ((hbalanced e he).keep hg2.parts).keep hg3.parts

theorem expandConnections_yields (hc : g.ClassAt flat c) (hequations : ∀ e ∈ c.equations, ∃ el, g.get? e = some el) :
    Yields (expandConnections flat) g fun _ g' => ∃ st g1 es zeros, joining flat g = .ok st g1 ∧
      (emptied flat c g).Gains flat (es ++ zeros) g' ∧ (c.equations.filter (!g.isConnect ·)).Sublist es ∧
      (∀ x ∈ es, (x ∈ c.equations ∧ g.isConnect x = false) ∨ g'.IsEquation x) ∧ g.Zeroed c st g' zeros := by
  have hjoin := (joining_yields hc hequations).and (yields_iff.2 fun _ _ hrun => hrun)
  refine hjoin.bind ?_
  rintro st g1 ⟨⟨free, es, hgains, hfree, hst, hsub, hall⟩, hrun⟩
  refine (balances_gaining st).yields.imp ?_
  rintro _ g' ⟨_, hgains', balanced, zeros, rfl, hbalanced, hzeros⟩
  refine ⟨st, g1, es ++ balanced, zeros, hrun, ?_, hsub.trans (sublist_append_left _ _), fun x hx => ?_, ?_⟩
  · rw [append_assoc]
    exact hgains.trans hgains'
  · rcases mem_append.1 hx with hx | hx
    · exact (hall x hx).imp_right fun h => h.keep hgains'.parts
    · exact .inr (hbalanced x hx)
  · exact ⟨hzeros, fun e he => hfree e (hst.free.subset he), hst.joined⟩

/-- **Connect clauses in a flat model.** None is left among the equations of the flat
class; all else stays, and with it the clauses inside other equations. Of the flow
symbols of the class some are set to zero; none of them has the name of a variable that
was joined to another one. -/
theorem flatten_clears (root : Id) (path : List String) (g : Graph) :
    Yields (flatten root path) g fun tree g' => ∃ orig g₀ flat g₁ c t c' st g₂ zeros,
      findOriginal root path g = .ok orig g₀ ∧ flattenClass orig g₀ = .ok flat g₁ ∧ g₁.get? flat = some (.classDef c) ∧
      g'.get? tree = some (.classDef t) ∧ flat ∈ t.classes.values ∧ g'.get? flat = some (.classDef c') ∧
      g₁.Cleared c g' c' ∧ joining flat g₁ = .ok st g₂ ∧ g₁.Zeroed c st g' zeros ∧ zeros <:+: c'.equations := by
  refine (flatten_yields root path g).imp ?_
  rintro tree g' ⟨orig, g₀, flat, g₁, g₂, horig, hflat, hexpand, hcompletes⟩
  obtain ⟨c, hc, htabled, -, hequations, -⟩ := (yields_iff.1 (flattenClass_readies orig g₀) flat g₁ hflat).forms
  have hthere : ∀ e ∈ c.equations, ∃ el, g₁.get? e = some el := fun e he => Graph.exists_get? (hequations e he)
  obtain ⟨st, gⱼ, es, zeros, hrun, hgains, hsub, hall, hzeroed⟩ :=
    yields_iff.1 (expandConnections_yields hc hthere) _ g₂ hexpand
  have hself : (emptied flat c g₁).get? flat = some (.classDef { c with equations := [] }) :=
    Graph.get?_set_self g₁ _ (Graph.get?_lt hc)
  obtain ⟨c₂, hc₂, hgrows₂⟩ := hgains.gained _ hself htabled.role
  obtain ⟨c', bindings, t, name, hc', hgrows', hbindings, ht, -, hclasses⟩ :=
    hcompletes.moves c₂ hc₂ (hgrows₂.role ▸ htabled.role)
  have hfinal : c'.equations = es ++ zeros ++ bindings := by
    rw [show c'.equations = c₂.equations ++ bindings from hgrows'.equations, hgrows₂.equations, List.nil_append]
  have hemptied : g₁.KeepsParts (emptied flat c g₁) := .setClass hc rfl
  have hparts : g₁.KeepsParts g' := (hemptied.trans hgains.parts).trans hcompletes.parts
  have hnew : ∀ e ∈ c'.equations, (e ∈ c.equations ∧ g₁.isConnect e = false) ∨ g'.IsEquation e := fun e he => by
    rw [hfinal, List.mem_append, List.mem_append] at he
    rcases he with (he | he) | he
    · exact (hall e he).imp_right fun h => h.keep hcompletes.parts
    · exact .inr ((hzeroed.isEquation e he).keep hcompletes.parts)
    · exact .inr (hbindings e he)
  refine ⟨orig, g₀, flat, g₁, c, t, c', st, gⱼ, zeros, horig, hflat, hc, ht, ?_, hc', ?_, hrun, hzeroed.keep hcompletes.parts, ?_⟩
  · rw [hclasses]
    exact List.mem_map_of_mem (Table.mem_entries_of_get? (Table.get?_insert_self _ name flat))
  · refine ⟨fun e he => ?_, ?_, fun e he id el hid hel => ⟨hparts.encloses hid, hparts.isConnect hel⟩, fun e he => ?_⟩
    · rcases hnew e he with ⟨hmem, hconnect⟩ | he
      · obtain ⟨el, hel⟩ := hthere e hmem
        exact (hparts.isConnect hel).trans hconnect
      · exact he.isConnect
    · rw [hfinal, List.append_assoc]
      exact hsub.trans (List.sublist_append_left _ _)
    · exact (hnew e he).imp_left And.left
  · exact ⟨es, bindings, hfinal.symm⟩

end Build
end Modelica
