/-
Connect clauses, worked off one by one.

`Graph.Joining` says what has been reached after some of the equations of a
flat class: only this class has changed, the groups of flow variables are the
components of the wires so far, each entry of a group is a reference to its
variable, and the symbols without a connection are left over. One variable of
a connector keeps it (`connectVariable_runs`), and so does a clause
(`connect_runs`) and a list of equations (`clauses_runs`).
-/
import Modelica.Proofs.Flow.Reading

namespace Modelica

open Modelica.Graph List

namespace Graph

/-- The symbols that no connection touches. -/
def untouched (edges : List FlowEdge) (symbols : List (String × Id)) : List (String × Id) :=
  symbols.filter fun e => !touches edges e.1

/-- Some equations of the class `flat` have been worked off: `rest` are those
that were none of connections, `edges` is what the others have connected. -/
structure Joining (g0 : Graph) (flat : Id) (c : ClassDef) (rest : List Id) (edges : List FlowEdge)
    (st : Build.Connecting) (g : Graph) : Prop where
  base : g0.KeepsBesides flat g
  kept : ∃ kept, g.get? flat = some (.classDef { c with equations := kept }) ∧
    kept.filter (· < g0.size) = rest ∧ ∀ e ∈ kept, g0.size ≤ e → g.Equates e
  sound : st.flows.Sound edges
  references : ∀ group ∈ st.flows.groups, ∀ e ∈ group.entries, g.Denotes e.2 e.1.name e.1.subscripts
  free : st.free.entries = untouched edges (g0.flowSymbols c).entries

theorem KeepsBesides.trans {flat} {g g1 g' : Graph} (h1 : g.KeepsBesides flat g1) (h2 : g1.KeepsBesides flat g') :
    g.KeepsBesides flat g' := ⟨h1.base.trans h2.base, h1.ofKind, h1.references⟩

theorem Extends.keepsBesides {flat} {g g' : Graph} {c} (h : Extends g g')
    (hc : g.ClassAt flat c) : g.KeepsBesides flat g' := h.but.keepsBesides hc

namespace Joining

variable {g0 g g' : Graph} {flat : Id} {c : ClassDef} {rest : List Id} {edges : List FlowEdge} {st : Build.Connecting}

variable (h : g0.Joining flat c rest edges st g)

include h

theorem extend (hg : Extends g g') : g0.Joining flat c rest edges st g' := by
  obtain ⟨kept, hflat, hold, hnew⟩ := h.kept
  have hkeep := hg.keepsBesides hflat
  exact {
    base := h.base.trans hkeep
    kept := ⟨kept, Extends.get?_some hg hflat, hold, fun e he hsize => hkeep.equates (hnew e he hsize)⟩
    sound := h.sound
    references := fun group hgroup e he => hkeep.denotes (h.references group hgroup e he)
    free := h.free }

theorem append {kept}
    (hflat : g.get? flat = some (.classDef { c with equations := kept })) {e : Id} (he : g0.size ≤ e → g.Equates e) :
    g0.Joining flat c (rest ++ [e].filter (· < g0.size)) edges st
      (g.set flat (.classDef { c with equations := kept ++ [e] })) := by
  obtain ⟨kept', hflat', hold, hnew⟩ := h.kept
  have hkeep := KeepsBesides.set hflat { c with equations := kept ++ [e] }
  cases hflat.symm.trans hflat'
  refine { base := h.base.trans hkeep
           kept := ⟨kept ++ [e], get?_set hflat _, ?_, fun e' he' hsize => ?_⟩
           sound := h.sound
           references := fun group hgroup e he => hkeep.denotes (h.references group hgroup e he)
           free := h.free }
  · rw [filter_append, hold]
  · rcases mem_append.1 he' with he' | he'
    · exact hkeep.equates (hnew e' he' hsize)
    · cases mem_singleton.1 he'
      exact hkeep.equates (he hsize)

theorem join {left right leftRef rightRef}
    (hl : g.Denotes leftRef left.name left.subscripts) (hr : g.Denotes rightRef right.name right.subscripts) :
    g0.Joining flat c rest (edges ++ [(left, right)])
      { flows := st.flows.join left leftRef right rightRef
        free := (st.free.erase left.name).erase right.name } g where
  base := h.base
  kept := h.kept
  sound := h.sound.join left leftRef right rightRef
  references := by
    intro group hgroup e he
    have hof : ∀ k, ∀ e ∈ (st.flows.groupOf k).entries, g.Denotes e.2 e.1.name e.1.subscripts := by
      intro k e he
      simp only [Flows.groupOf] at he
      cases hi : (st.flows.index.get? k).bind fun i => st.flows.groups[i]? with
      | none => simp [hi] at he
      | some group =>
        obtain ⟨i, -, hgroup⟩ := Option.bind_eq_some_iff.1 hi
        rw [hi] at he
        exact h.references group (mem_of_getElem? hgroup) e he
    have hmerged : ∀ e ∈ (st.flows.merged left leftRef right rightRef).entries,
        g.Denotes e.2 e.1.name e.1.subscripts := by
      intro e he
      rcases Table.mem_entries_insert he with rfl | he
      · exact hr
      rcases Table.mem_entries_insert he with rfl | he
      · exact hl
      rcases Table.mem_entries_insertAll he with he | he
      · exact hof _ e he
      · exact hof _ e he
    simp only [Flows.join] at hgroup
    split at hgroup
    · rcases mem_or_eq_of_mem_set hgroup with hgroup | rfl
      · exact h.references group hgroup e he
      · exact hmerged e he
    · rcases mem_append.1 hgroup with hgroup | hgroup
      · exact h.references group hgroup e he
      · cases mem_singleton.1 hgroup
        exact hmerged e he
  free := by
    simp only [Table.erase, h.free, untouched, touches, filter_filter, any_append, any_cons,
      any_nil]
    refine filter_congr fun e _ => ?_
    grind

end Joining
end Graph

namespace Build

variable {g0 g : Graph} {flat : Id} {c : ClassDef} {rest : List Id} {edges : List FlowEdge} {st : Connecting}
  {F : Fault → Graph → Prop}

variable {symbol t : Id} {words : List String} {s : Symbol} {k : Connection} {p q : Port} {g' : Graph} {kc : ClassDef}
  {names : List Reference}

theorem ends_literalSubscripts {indices vs}
    (h : g.literals indices.flatten = some vs) {Q} : Ends (literalSubscripts indices) g Q F ↔ Q vs g := by
  simp only [literalSubscripts, ends_bind, ends_pure]
  generalize indices.flatten = l at h
  induction l generalizing vs Q with
  | nil =>
    cases h
    simp
  | cons v l ih =>
    simp only [mapM_cons, ends_bind, ends_pure, flatten_cons]
    cases v with
    | null => simpa using ih h
    | node id =>
      simp only [Graph.literals] at h
      split at h
      · next u hu =>
        obtain ⟨us, hus, rfl⟩ := Option.map_eq_some_iff.1 h
        simpa [ends_element hu] using ih hus (Q := fun us g => Q (subscriptKey u :: us) g)
      · cases h
    | _ => cases h

/-- A reference to a variable of a connector has the subscripts of the
connector. -/
theorem memberReference_runs {connector name leaf subscripts} (hd : g.Denotes connector name subscripts)
    (hm : g.Member symbol leaf words) (hs : g.SymbolAt symbol s) (full : String) :
    Runs (memberReference connector full s) g fun ref g' => Extends g g' ∧ g'.Denotes ref full subscripts := by
  obtain ⟨r, hr, -, -, hsub⟩ := hd
  obtain ⟨s', t, hs', -, -, ht, names, hchain, hbare⟩ := hm
  cases hs.symm.trans hs'
  obtain ⟨rt, hrt⟩ := hchain.isReference
  obtain ⟨_, rfl⟩ := hchain.head hrt
  simp only [memberReference, ends_bind, ends_referenceAt hr, ends_typeForm ht ⟨rt, hrt⟩, ends_referenceAt hrt,
    ends_alloc]
  have hext : Extends g (g.add (.reference { name := full, indices := r.indices ++ rt.indices, child := [] })).1 :=
    (ExtendsBut.refl g).add _
  refine ⟨hext, _, get?_add_self g _, rfl, rfl, ?_⟩
  have hnull : ∀ v ∈ rt.indices.flatten, v = .null := fun v hv => by
    obtain ⟨row, hrow, hv⟩ := mem_flatten.1 hv
    exact hbare rt (.head _) row hrow v hv
  rw [flatten_append]
  simpa using literals_append _ ((Extends.keeps hext).literals hsub) (literals_of_null _ hnull)

theorem equate_runs (h : g0.Joining flat c rest edges st g) {left right : Id} (hl : g.IsReference left)
    (hr : g.IsReference right) : Runs (connectVariable.equate flat st left right) g fun st' g' =>
      g.KeepsBesides flat g' ∧ g0.Joining flat c rest edges st' g' := by
  have hext : Extends g (g.add (.equation (.node left) (.node right) "")).1 := (ExtendsBut.refl g).add _
  obtain ⟨kept, hflat, -, -⟩ := h.kept
  have hflat' := Extends.get?_some hext hflat
  simp only [connectVariable.equate, ends_bind, ends_alloc, ends_modifyClass hflat', ends_pure]
  refine ⟨(hext.keepsBesides hflat).trans (KeepsBesides.set hflat' _), ?_⟩
  have hequates : (g.add (.equation (.node left) (.node right) "")).1.Equates g.size :=
    ⟨left, right, get?_add_self g _, hl.extends hext, hr.extends hext⟩
  have hnew : ¬ g.size < g0.size := Nat.not_lt.2 h.base.base.size_le
  simpa [hnew] using (h.extend hext).append hflat' fun _ => hequates

section

variable (h : g0.Joining flat c rest edges st g) (hl : g.Denotes k.left p.name p.subscripts)
  (hli : k.leftInner = some p.inner) (hr : g.Denotes k.right q.name q.subscripts) (hri : k.rightInner = some q.inner)

include h hl hli hr hri

/-- One variable of two connectors: flow variables are joined, others are
equal or nothing has to be done. -/
theorem connectVariable_runs {name : String} (hm : g.Member symbol name words) (hwords : Supported words) :
    Runs (connectVariable flat k st symbol) g fun st' g' => g.KeepsBesides flat g' ∧
      g0.Joining flat c rest (edges ++ if words = ["flow"] then [(p.vertex name, q.vertex name)] else []) st' g' := by
  obtain ⟨kept, hflat, -, -⟩ := h.kept
  obtain ⟨s, t, hs, rfl, hw, ht⟩ := id hm
  obtain ⟨rl, hrl, hrl', -⟩ := id hl
  obtain ⟨rr, hrr, hrr', -⟩ := id hr
  simp only [connectVariable, ends_bind, ends_symbolAt hs, ends_referenceAt hrl, ends_referenceAt hrr, hrl', hrr']
  refine (memberReference_runs hl hm hs _).imp ?_
  rintro left g1 ⟨hg1, hleft⟩
  have hkeep1 := Extends.keeps hg1
  refine (memberReference_runs (hkeep1.denotes hr) (hkeep1.member hm) (Extends.get?_some hg1 hs) _).imp ?_
  rintro right g2 ⟨hg2, hright⟩
  have hext : Extends g g2 := hg1.trans hg2
  have hleft := (Extends.keeps hg2).denotes hleft
  have hequate : Runs (connectVariable.equate flat st left right) g2 fun st' g' =>
      g.KeepsBesides flat g' ∧ g0.Joining flat c rest edges st' g' := by
    obtain ⟨r, hr, -⟩ := hleft
    obtain ⟨r', hr', -⟩ := hright
    refine (equate_runs (h.extend hext) ⟨r, hr⟩ ⟨r', hr'⟩).imp ?_
    rintro st' g' ⟨hg', hst'⟩
    exact ⟨(hext.keepsBesides hflat).trans hg', hst'⟩
  rw [ends_wordsAt (Extends.get?_some hext hw)]
  rcases hwords with rfl | rfl | ⟨first, hfirst, hhead⟩
  · simpa using hequate
  · obtain ⟨r, hr, _, _, hsub⟩ := id hleft
    obtain ⟨r', hr', _, _, hsub'⟩ := id hright
    have hne : ¬ (("flow" : String) = "input" ∨ ("flow" : String) = "output") := by decide
    simp only [hne, if_false, if_true, ends_bind, ends_referenceAt hr, ends_referenceAt hr',
      ends_literalSubscripts hsub, ends_literalSubscripts hsub', hli, hri, innerFlag, ends_pure]
    exact ⟨hext.keepsBesides hflat, (h.extend hext).join hleft hright⟩
  · obtain ⟨tail, rfl⟩ : ∃ tail, words = first :: tail := by
      cases words with
      | nil => cases hhead
      | cons w tail =>
        cases hhead
        exact ⟨tail, rfl⟩
    have hflow : ¬ first :: tail = ["flow"] := by
      rintro ⟨⟩
      exact absurd hfirst (by decide)
    simp only [hflow, if_false, append_nil]
    split
    · exact hequate
    · next hcausal =>
      have hfixed : first = "constant" ∨ first = "parameter" := by
        simp only [mem_cons, not_mem_nil, or_false] at hfirst
        grind
      rw [if_pos hfixed]
      exact ⟨hext.keepsBesides hflat, h.extend hext⟩

theorem connectVariables_runs {words : Id → List String} {entries copies : List (String × Id)}
    (hm : Forall₂ (fun e e' => g.Member e'.2 e.1 (words e.2)) entries copies)
    (hwords : ∀ e ∈ entries, Supported (words e.2)) :
    Runs ((copies.map (·.2)).foldlM (connectVariable flat k) st) g fun st' g' => g0.Joining flat c rest
      (edges ++ ((entries.filter fun e => words e.2 = ["flow"]).map (·.1)).map
        fun v => (p.vertex v, q.vertex v)) st' g' := by
  induction entries generalizing copies edges st g with
  | nil =>
    cases hm
    simpa using h
  | cons e entries ih =>
    cases hm with
    | cons he hm =>
    simp only [map_cons, foldlM_cons, ends_bind]
    refine (connectVariable_runs h hl hli hr hri he (hwords e (.head _))).imp ?_
    rintro st1 g1 ⟨hg1, h1⟩
    have hm1 := hm.imp fun _ _ hm => hg1.member hm
    refine (ih h1 (hg1.denotes hl) (hg1.denotes hr) hm1 fun e he => hwords e (.tail _ he)).imp ?_
    intro st' g' h'
    by_cases hflow : words e.2 = ["flow"]
    · simpa [hflow] using h'
    · simpa [hflow] using h'

end

/-- The copies of the variables of a connector are variables with the same
names and keywords. -/
theorem members_of_copies {k} (hk : g.Connector k kc) {copies}
    (h : Forall₂ (g.CopyOf g') kc.symbols.entries copies) :
    Forall₂ (fun e e' => g'.Member e'.2 e.1 (g.wordsOf e.2)) kc.symbols.entries copies := by
  have hvariables := hk.symbols
  generalize kc.symbols.entries = entries at h hvariables
  induction h with
  | nil => exact .nil
  | @cons e e' entries copies he _ ih =>
    obtain ⟨s, words, hv, -⟩ := hvariables e (.head _)
    refine .cons ?_ (ih fun e he => hvariables e (.tail _ he))
    rw [hv.wordsOf]
    exact he.2 s words hv

theorem wordsOf_eq {k} (hg : g.KeepsBesides flat g') (hk : g.Connector k kc) :
    ∀ e ∈ kc.symbols.entries, g'.wordsOf e.2 = g.wordsOf e.2 := by
  intro e he
  obtain ⟨s, words, hv, -⟩ := hk.symbols e he
  rw [hv.wordsOf, (hg.isVariable hv).wordsOf]

theorem connect_runs (hflat : g0.ClassAt flat c) (h : g0.Joining flat c rest edges st g) {w : Wire}
    (hw : g0.JoinsConnectors c k w) :
    Runs (connect flat k st) g fun st' g' => g0.Joining flat c rest (edges ++ w.edges) st' g' := by
  obtain ⟨kl, kr, hl, hr, hwords⟩ := hw
  obtain ⟨kept, hclass, -, -⟩ := h.kept
  obtain ⟨rl, hrl, hnamel, hchildl, -⟩ := h.base.denotes hl.denotes
  obtain ⟨rr, hrr, hnamer, hchildr, -⟩ := h.base.denotes hr.denotes
  obtain ⟨left, sl, idl, hleft, hsl, hidl, hkl⟩ := hl.connector
  obtain ⟨right, sr, idr, hright, hsr, hidr, hkr⟩ := hr.connector
  have hsl' := h.base.get? hsl rfl
  have hsr' := h.base.get? hsr rfl
  have hkl' := h.base.connector (hkl.ne hflat hleft hsl hidl) hkl
  simp only [connect, checkResolved, symbolNamed, connectorClass, ends_bind, forIn_cons, forIn_nil, ends_pure,
    ends_referenceAt hrl, ends_referenceAt hrr, hchildl, hchildr, hnamel, hnamer, isEmpty_nil, Bool.not_true,
    Bool.false_eq_true, if_false, ends_classAt hclass, hleft, hright, ends_attempt, ends_symbolAt hsl',
    ends_symbolAt hsr', hidl, hidr, ends_discard]
  refine (flattenClass_runs hkl').imp ?_
  rintro copy g1 ⟨hg1, -, f, hf, hcopies⟩
  have hkeep1 := hg1.keepsBesides hclass
  rw [ends_classAt hf]
  refine (connectVariables_runs (h.extend hg1) (hkeep1.denotes (h.base.denotes hl.denotes)) hl.isInner
    (hkeep1.denotes (h.base.denotes hr.denotes)) hr.isInner (members_of_copies hkl' hcopies) ?_).imp ?_
  · intro e he
    rw [wordsOf_eq h.base hkl e he]
    exact hwords e he
  · intro st' g' h'
    have hsame : (kl.symbols.entries.filter fun e => g.wordsOf e.2 = ["flow"]) =
        kl.symbols.entries.filter fun e => g0.wordsOf e.2 = ["flow"] :=
      filter_congr fun e he => by rw [wordsOf_eq h.base hkl e he]
    simpa only [Wire.edges, hl.flows, flowVariables, hsame] using h'

theorem warn_runs (message : String) : Runs (warn message) g fun _ g' => Extends g g' :=
  ⟨le_rfl, fun _ _ _ => rfl⟩

theorem typeName_runs {v} (hv : v = .node t) (ht : g.IsReference t) : Runs (typeName v) g fun _ g' => g' = g := by
  obtain ⟨r, hr⟩ := id ht
  simp [typeName, Runs, ends_typeForm hv ht, ends_referenceAt hr]

theorem bothReal_runs {l r tl tr} (hl : l = .node tl) (htl : g.IsReference tl) (hr : r = .node tr)
    (htr : g.IsReference tr) : Runs (bothReal l r) g fun _ g' => g' = g := by
  simp only [bothReal, ends_bind]
  refine (typeName_runs hl htl).imp ?_
  rintro name g' rfl
  split
  · exact ends_bind.2 ((typeName_runs hr htr).imp fun _ _ hg => hg)
  · rfl

theorem typeText_runs {v} (hv : v = .node t) (ht : g.Chain t names) (hlen : names.length ≤ g.size) :
    Runs (typeText v) g fun _ g' => g' = g := by
  subst hv
  simp [typeText, referenceText, Runs, ends_typeForm rfl ht.isReference, ends_path ht hlen]

theorem connectElementary_runs (h : g0.Joining flat c rest edges st g) (hl : g0.VariableAt c k.left)
    (hr : g0.VariableAt c k.right) : Runs (connect flat k st) g fun st' g' => g0.Joining flat c rest edges st' g' := by
  obtain ⟨kept, hclass, -, -⟩ := h.kept
  obtain ⟨rl, left, sl, tl, namesl, hrl, hchildl, hleft, hsl, -, hnone, htl, hchainl, hlenl, helementary⟩ := hl
  obtain ⟨rr, right, sr, tr, namesr, hrr, hchildr, hright, hsr, -, -, htr, hchainr, hlenr, -⟩ := hr
  have hrl := h.base.get? hrl rfl
  have hrr := h.base.get? hrr rfl
  have hsl := h.base.get? hsl rfl
  have hsr := h.base.get? hsr rfl
  have hchainl := h.base.chain hchainl
  have hchainr := h.base.chain hchainr
  have hlenl := hlenl.trans h.base.base.size_le
  have hlenr := hlenr.trans h.base.base.size_le
  have hequate : ∀ {g'}, Extends g g' → Runs (connectVariable.equate flat st k.left k.right) g' fun st' g' =>
      g0.Joining flat c rest edges st' g' := fun hg =>
    (equate_runs (h.extend hg) ⟨rl, Extends.get?_some hg hrl⟩ ⟨rr, Extends.get?_some hg hrr⟩).imp fun _ _ h' => h'.2
  simp only [connectVariable.equate, Runs, ends_bind] at hequate
  simp only [connect, checkResolved, symbolNamed, ends_bind, forIn_cons, forIn_nil, ends_pure,
    ends_referenceAt hrl, ends_referenceAt hrr, hchildl, hchildr, isEmpty_nil, Bool.not_true, Bool.false_eq_true,
    if_false, ends_classAt hclass, hleft, hright, ends_attempt, connectorClass, findClass, findOriginal, hnone,
    ends_typeForm htl hchainl.isReference, ends_path hchainl hlenl, helementary, ends_throw, Fault.root, if_true,
    connectElementary, ends_symbolAt hsl, ends_symbolAt hsr]
  refine (bothReal_runs htl hchainl.isReference htr hchainr.isReference).imp ?_
  rintro plain g' rfl
  cases plain with
  | true =>
    simp only [Bool.not_true, Bool.false_eq_true, if_false, ends_bind]
    exact hequate (.refl _)
  | false =>
    simp only [Bool.not_false, if_true, ends_bind]
    refine (typeText_runs htl hchainl hlenl).imp ?_
    rintro leftText g' rfl
    refine (typeText_runs htr hchainr hlenr).imp ?_
    rintro rightText g' rfl
    exact (warn_runs _).imp fun _ _ hg => hequate hg

theorem expandEquations_runs (hflat : g0.ClassAt flat c) {es : List Id} {ws}
    (hwires : Forall₂ (g0.WireAt c) (es.filter g0.isConnect) ws) (hes : ∀ e ∈ es, e < g0.size)
    (h : g0.Joining flat c rest edges st g) :
    Runs (es.foldlM (expandEquation flat) st) g fun st' g' =>
      g0.Joining flat c (rest ++ es.filter (!g0.isConnect ·)) (edges ++ edgesOf ws) st' g' := by
  induction es generalizing ws rest edges st g with
  | nil =>
    cases hwires
    simpa [edgesOf] using h
  | cons e es ih =>
    have hes' := fun e' he' => hes e' (.tail _ he')
    simp only [foldlM_cons, ends_bind, expandEquation]
    cases hconnect : g0.isConnect e with
    | true =>
      rw [filter_cons_of_pos hconnect] at hwires
      cases hwires with
      | @cons _ w _ ws hw hwires =>
      obtain ⟨l, r, comment, li, ri, he, hjoins⟩ := hw
      simp only [ends_element (h.base.get? he rfl)]
      have hrun : Runs (connect flat ⟨l, r, li, ri⟩ st) g fun st' g' =>
          g0.Joining flat c rest (edges ++ w.edges) st' g' := by
        rcases hjoins with hjoins | ⟨hl, hr, hedges⟩
        · exact connect_runs hflat h hjoins
        · rw [hedges, append_nil]
          exact connectElementary_runs h hl hr
      refine hrun.imp fun st1 g1 h1 => (ih hwires hes' h1).imp fun st' g' h' => ?_
      simpa [edgesOf, hconnect] using h'
    | false =>
      rw [filter_cons_of_neg (by simp [hconnect])] at hwires
      obtain ⟨kept, hclass, -, -⟩ := h.kept
      have helement : ∃ x, g.get? e = some x ∧ ∀ l r comment li ri, x ≠ .connect l r comment li ri := by
        by_cases heq : e = flat
        · rw [heq]
          exact ⟨_, hclass, by simp⟩
        · have hget := h.base.base.get? e (hes e (.head _)) heq
          obtain ⟨x, hx⟩ : ∃ x, g0.get? e = some x := ⟨_, Array.getElem?_eq_getElem (hes e (.head _))⟩
          refine ⟨x, hget.trans hx, ?_⟩
          rintro l r comment li ri rfl
          simp [isConnect, hx] at hconnect
      obtain ⟨x, hx, hnot⟩ := helement
      have hold : e < g0.size := hes e (.head _)
      have happend := h.append hclass (e := e) fun hle => absurd hold (Nat.not_lt.2 hle)
      have hstay : Runs (do modifyClass flat fun c => { c with equations := c.equations ++ [e] }; pure st) g
          fun st' g' => g0.Joining flat c (rest ++ [e]) edges st' g' := by
        simp only [Runs, ends_bind, ends_modifyClass hclass, ends_pure]
        simpa [hold] using happend
      rw [ends_element hx]
      cases x with
      | connect => exact absurd rfl (hnot _ _ _ _ _)
      | _ =>
        refine Runs.imp hstay fun st1 g1 h1 => (ih hwires hes' h1).imp fun st' g' h' => ?_
        simpa [hconnect] using h'

end Build
end Modelica
