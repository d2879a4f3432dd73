/-
Expanding the connections of a flat class.

Each component of connected flow variables gets one equation in which they sum
up to zero (`balance_runs`), each flow symbol without a connection is zero
(`equateToZero_runs`). `expandConnections_runs` puts the parts together.
-/
import Modelica.Library
import Modelica.Proofs.Flow.Joining
import Modelica.Proofs.Graph.Yield

namespace Modelica

open Modelica.Graph List

namespace Build

variable {g0 g : Graph} {flat : Id} {c : ClassDef}

variable {group : FlowGroup} {eqs : List Id} {ws : List Wire}

/-! ### Sums -/

theorem negated_runs {entries : List (FlowKey × Id)} (h : ∀ e ∈ entries, g.Denotes e.2 e.1.name e.1.subscripts) :
    Runs (entries.mapM fun e => if e.1.inner then pure e.2 else alloc (.expression (.text "-") [.node e.2])) g
      fun ids g' => Extends g g' ∧
        Forall₂ g'.TermAt ids (entries.map fun e => ⟨!e.1.inner, e.1.name, e.1.subscripts⟩) := by
  induction entries generalizing g with
  | nil => exact ⟨.refl g, .nil⟩
  | cons e entries ih =>
    simp only [mapM_cons, ends_bind, ends_pure, map_cons]
    have hrest : ∀ e ∈ entries, g.Denotes e.2 e.1.name e.1.subscripts := fun e he => h e (.tail _ he)
    cases hinner : e.1.inner with
    | true =>
      simp only [if_true, ends_pure]
      refine (ih hrest).imp fun ids g' h' => ⟨h'.1, .cons ?_ h'.2⟩
      simpa [TermAt] using (Extends.keeps h'.1).denotes (h e (.head _))
    | false =>
      simp only [Bool.false_eq_true, if_false, ends_alloc]
      have hext : Extends g (g.add (.expression (.text "-") [.node e.2])).1 := (ExtendsBut.refl g).add _
      have hkeep := Extends.keeps hext
      refine (ih fun e he => hkeep.denotes (hrest e he)).imp fun ids g' h' => ⟨hext.trans h'.1, .cons ?_ h'.2⟩
      have hkeep' := Extends.keeps h'.1
      exact ⟨e.2, hkeep'.get? (get?_add_self g _) rfl, hkeep'.denotes (hkeep.denotes (h e (.head _)))⟩

theorem signed_runs (h : ∀ e ∈ group.entries, g.Denotes e.2 e.1.name e.1.subscripts) :
    Runs (signed group) g fun ids g' => Extends g g' ∧ Forall₂ g'.TermAt ids (balanceOf group.keys) := by
  by_cases houter : group.keys.all fun k => !k.inner
  · have hnone : group.keys.any (·.inner) = false := by simpa using houter
    simp only [signed, houter, if_true, ends_pure, balanceOf, hnone, Bool.and_false]
    simp only [Table.values, Table.keys, map_map, forall₂_map_left_iff, forall₂_map_right_iff]
    refine ⟨.refl g, forall₂_same.2 fun e he => ?_⟩
    simpa [TermAt] using h e he
  · have hsome : group.keys.any (·.inner) = true := by simpa using houter
    simp only [signed, if_neg houter, balanceOf, hsome, Bool.and_true]
    simpa only [Table.keys, map_map, Function.comp_def] using negated_runs h

theorem sumOf_runs {ids ts} (h : Forall₂ g.TermAt ids ts) (hne : ts ≠ []) :
    Runs (sumOf ids) g fun r g' => Extends g g' ∧ ∃ s, r = some s ∧ g'.Sum s ts := by
  induction ids generalizing ts with
  | nil =>
    cases h
    exact absurd rfl hne
  | cons id ids ih =>
    cases h with
    | @cons _ t _ ts ht h =>
    cases h with
    | nil => exact ⟨.refl g, id, rfl, ht⟩
    | @cons id' t' ids' ts' ht' h' =>
      simp only [sumOf, ends_bind]
      refine (ih (.cons ht' h') (by simp)).imp ?_
      rintro _ g1 ⟨hg1, s, rfl, hs⟩
      simp only [ends_bind, ends_alloc, ends_pure]
      have hext : Extends g1 (g1.add (.expression (.text "+") [.node id, .node s])).1 := (ExtendsBut.refl g1).add _
      have hkeep := Extends.keeps (hg1.trans hext)
      exact ⟨hg1.trans hext, _, rfl, id, s, get?_add_self g1 _, hkeep.termAt ht,
        (Extends.keeps hext).sum hs⟩

theorem equateToZero_runs (hclass : g.get? flat = some (.classDef { c with equations := eqs })) (left : Id) :
    Runs (equateToZero flat left) g fun _ g' => g.KeepsBesides flat g' ∧
      ∃ e, g'.ClassAt flat { c with equations := eqs ++ [e] } ∧ g'.EquatedToZero e left := by
  let g1 := (g.add (.primary (.int 0))).1
  let g2 := (g1.add (.equation (.node left) (.node g.size) "")).1
  have hext1 : Extends g g1 := (ExtendsBut.refl g).add _
  have hext2 : Extends g1 g2 := (ExtendsBut.refl g1).add _
  have hext : Extends g g2 := hext1.trans hext2
  have hclass2 := Extends.get?_some hext hclass
  have hkeep := KeepsBesides.set hclass2 { c with equations := eqs ++ [g1.size] }
  have hrun : Runs (equateToZero flat left) g fun _ g' =>
      g' = g2.set flat (.classDef { c with equations := eqs ++ [g1.size] }) := by
    simp only [equateToZero, primary, Runs, ends_bind, ends_alloc]
    exact (ends_modifyClass hclass2).2 rfl
  refine hrun.imp ?_
  rintro _ _ rfl
  refine ⟨(hext.keepsBesides hclass).trans hkeep, g1.size,
    get?_set hclass2 _, g.size, hkeep.get? (get?_add_self g1 _) rfl, ?_⟩
  exact hkeep.get? (Extends.get?_some hext2 (get?_add_self g _)) rfl

theorem balance_runs (hclass : g.get? flat = some (.classDef { c with equations := eqs }))
    (h : ∀ e ∈ group.entries, g.Denotes e.2 e.1.name e.1.subscripts) (hne : group.keys ≠ []) :
    Runs (balance flat group) g fun _ g' => g.KeepsBesides flat g' ∧
      ∃ e, g'.ClassAt flat { c with equations := eqs ++ [e] } ∧
        g'.ZeroSum e (balanceOf group.keys) := by
  simp only [balance, ends_bind]
  refine (signed_runs h).imp ?_
  rintro ids g1 ⟨hg1, hids⟩
  refine (sumOf_runs hids (by simpa [balanceOf] using hne)).imp ?_
  rintro _ g2 ⟨hg2, s, rfl, hs⟩
  have hext : Extends g g2 := hg1.trans hg2
  refine (equateToZero_runs (Extends.get?_some hext hclass) s).imp ?_
  rintro _ g' ⟨hg', e, hclass', he⟩
  exact ⟨(hext.keepsBesides hclass).trans hg', e, hclass', s, he, hg'.sum hs⟩

theorem appendEach_runs {β : Type} {f} {R : Graph → Id → β → Prop}
    (hR : ∀ {g g' e b}, g.KeepsBesides flat g' → R g e b → R g' e b) {l}
    (hf : ∀ b ∈ l, ∀ {g eqs}, g0.KeepsBesides flat g → g.get? flat = some (.classDef { c with equations := eqs }) →
      Runs (f b) g fun _ g' => g.KeepsBesides flat g' ∧
        ∃ e, g'.ClassAt flat { c with equations := eqs ++ [e] } ∧ R g' e b)
    (hbase : g0.KeepsBesides flat g) (hclass : g.ClassAt flat { c with equations := eqs }) :
    Runs (l.forM f) g fun _ g' => g.KeepsBesides flat g' ∧
      ∃ es, g'.ClassAt flat { c with equations := eqs ++ es } ∧ Forall₂ (R g') es l := by
  induction l generalizing g eqs with
  | nil =>
    refine ⟨(ExtendsBut.refl g).keepsBesides hclass, [], ?_, .nil⟩
    rwa [append_nil]
  | cons b l ih =>
    rw [forM_eq_forM, forM_cons]
    refine ends_bind.2 ((hf b (.head _) hbase hclass).imp ?_)
    rintro _ g1 ⟨hg1, e, hclass1, he⟩
    refine (ih (fun b hb => hf b (.tail _ hb)) (hbase.trans hg1) hclass1).imp ?_
    rintro _ g' ⟨hg', es, hclass', hes⟩
    exact ⟨hg1.trans hg', e :: es, by simpa using hclass', .cons (hR hg' he) hes⟩

/-! ### Symbols -/

theorem ends_flowSymbols (hclass : g.ClassAt flat c) (hsymbols : ∀ id ∈ c.symbols.values, ∃ s words, g.SymbolAt id s ∧
      g.KeywordsAt s.keywords words) {F Q} : Ends (flowSymbols flat) g Q F ↔ Q (g.flowSymbols c) g := by
  simp only [flowSymbols, ends_bind, ends_classAt hclass, Graph.flowSymbols, Table.ofList]
  generalize c.symbols.values = ids at hsymbols
  generalize ({} : Table String Id) = found
  induction ids generalizing found with
  | nil => simp
  | cons id ids ih =>
    obtain ⟨s, words, hs, hwords⟩ := hsymbols id (.head _)
    have ih := ih fun id hid => hsymbols id (.tail _ hid)
    have hread : g.wordsOf id = words := by simp only [wordsOf, hs, hwords]
    simp only [foldlM_cons, addFlow, ends_bind, ends_keywordsOf hs hwords, filterMap_cons, flowSymbol?, hs, hread]
    cases hflow : words.contains "flow" with
    | true =>
      simp only [if_true, ends_bind, ends_symbolAt hs, ends_pure, foldl_cons]
      exact ih _
    | false =>
      simp only [Bool.false_eq_true, if_false, ends_pure]
      exact ih _

theorem filterM_runs {α : Type} {f} {l : List α} (h : ∀ a ∈ l, Runs (f a) g fun _ g' => g' = g) :
    Runs (l.filterM f) g fun _ g' => g' = g := by
  suffices hs : ∀ found, Runs (filterAuxM f l found) g fun _ g' => g' = g from
    ends_bind.2 ((hs []).imp fun _ _ hg => hg)
  induction l with
  | nil => exact fun _ => rfl
  | cons a l ih =>
    intro found
    simp only [filterAuxM, ends_bind]
    refine (h a (.head _)).imp ?_
    rintro b _ rfl
    exact ih (fun a ha => h a (.tail _ ha)) _

/-- **Expanding connections.** It succeeds; the balances are those of the
components, and the flow symbols that no connection touches become zero. -/
theorem expandConnections_runs (h : g.Wired flat c ws) :
    Runs (expandConnections flat) g fun _ g' => ∃ comps, Components (edgesOf ws) comps ∧
      g.Expanded flat c (balances comps) (untouched (edgesOf ws) (g.flowSymbols c).entries) g' := by
  simp only [expandConnections, joining, ends_bind, ends_flowSymbols h.get? h.symbols, ends_classAt h.get?,
    ends_modifyClass h.get?]
  refine (expandEquations_runs h.get? h.wires h.equations ({
    base := .set h.get? _
    kept := ⟨[], get?_set h.get? _, rfl, by simp⟩
    sound := Flows.sound_empty
    references := by simp
    free := by simp [untouched, touches] } : g.Joining flat c _ [] _ _)).imp fun st g1 h1 => ?_
  simp only [nil_append] at h1
  obtain ⟨kept, hclass1, hold, hnew⟩ := h1.kept
  simp only [balancing, dropConnectors, ends_bind]
  -- one equation for each group
  refine (appendEach_runs (R := fun g e (group : FlowGroup) => g.ZeroSum e (balanceOf group.keys))
    (fun hg he => hg.zeroSum he) ?_ ((ExtendsBut.refl g1).keepsBesides hclass1) hclass1).imp ?_
  · intro group hgroup g2 eqs hg2 hclass2
    have hne := h1.sound.components.nonempty _ (mem_map_of_mem hgroup)
    refine balance_runs hclass2 (fun e he => hg2.denotes ?_) hne
    obtain ⟨i, -, hi⟩ := mem_filterMap.1 hgroup
    exact h1.references group (mem_of_getElem? hi) e he
  rintro _ g2 ⟨hg2, balanced, hclass2, hbalanced⟩
  -- one equation for each symbol that is left over
  refine (appendEach_runs (R := fun g e s => g.EquatedToZero e s) (fun hg he => hg.equatedToZero he)
    (fun s _ _ _ _ hclass => equateToZero_runs hclass s) ((ExtendsBut.refl g2).keepsBesides hclass2) hclass2).imp ?_
  rintro _ g3 ⟨hg3, grounded, hclass3, hgrounded⟩
  have hbase := h1.base.trans (hg2.trans hg3)
  rw [ends_classAt hclass3]
  -- the connectors are removed
  refine (filterM_runs fun e he => ?_).imp ?_
  · obtain ⟨s, -, hs, -⟩ := h.symbols e.2 (mem_map_of_mem he)
    simp [Runs, ends_symbolAt (hbase.get? hs rfl)]
  intro symbols g4 hg4
  rw [hg4, ends_modifyClass hclass3]
  have hkeep := KeepsBesides.set hclass3 { c with equations := kept ++ balanced ++ grounded, symbols := ⟨symbols⟩ }
  refine ⟨st.flows.ordered.map Table.keys, h1.sound.components, hbase.trans hkeep, _, kept, balanced, grounded,
    get?_set hclass3 _, rfl, hold, fun e he hsize => ?_, ?_, ?_⟩
  · exact hkeep.equates (hg3.equates (hg2.equates (hnew e he hsize)))
  · refine ⟨st.flows.ordered.map fun group => balanceOf group.keys, ?_, ?_⟩
    · rw [forall₂_map_right_iff]
      exact hbalanced.imp fun _ _ he => hkeep.zeroSum (hg3.zeroSum he)
    · simp [balances, Function.comp_def]
  · rw [Table.values, h1.free, forall₂_map_right_iff] at hgrounded
    exact hgrounded.imp fun _ _ he => hkeep.equatedToZero he

/-- **Flow variables of connected connectors balance.** Connections are
expanded without a fault. There is one balance for each component of the graph
of connected flow variables, and one equation for each name of a flow symbol
that is connected to nothing. A class with the same wires, in any order and
either way around, gets the same equations. -/
theorem flows_balance {ws : List Wire} (h : g.Wired flat c ws) :
    ∃ comps, Components (edgesOf ws) comps ∧
      (∃ g', expandConnections flat g = .ok () g' ∧
        g.Expanded flat c (balances comps) (untouched (edgesOf ws) (g.flowSymbols c).entries) g') ∧
      ∀ {g₂ : Graph} {flat₂ : Id} {c₂ : ClassDef} {ws₂ : List Wire}, g₂.Wired flat₂ c₂ ws₂ → Rewired ws ws₂ →
        (g.flowSymbols c).keys.Perm (g₂.flowSymbols c₂).keys →
        ∃ g₂' zeros, expandConnections flat₂ g₂ = .ok () g₂' ∧ g₂.Expanded flat₂ c₂ (balances comps) zeros g₂' ∧
          (zeros.map (·.1)).Perm ((untouched (edgesOf ws) (g.flowSymbols c).entries).map (·.1)) := by
  obtain ⟨⟨⟩, g', hrun, comps, hcomps, hexpanded⟩ := runs_iff.1 (expandConnections_runs h)
  refine ⟨comps, hcomps, ⟨g', hrun, hexpanded⟩, fun {g₂ flat₂ c₂ ws₂} h₂ hsame hsymbols => ?_⟩
  obtain ⟨⟨⟩, g₂', hrun₂, comps₂, hcomps₂, hexpanded₂⟩ := runs_iff.1 (expandConnections_runs h₂)
  refine ⟨g₂', _, hrun₂, hsame.balances_eq hcomps hcomps₂ ▸ hexpanded₂, ?_⟩
  have names : ∀ (edges : List FlowEdge) (symbols : List (String × Id)),
      (untouched edges symbols).map (·.1) = (symbols.map (·.1)).filter (!touches edges ·) := fun edges symbols => by
    rw [untouched, List.filter_map]
    rfl
  rw [names, names, List.filter_congr fun name _ => by rw [← hsame.touches_eq name]]
  exact hsymbols.symm.filter _

end Build

/-! ### A circuit -/

/-- A symbol without attributes. -/
def Symbol.bare (name : String) (type : Value) (keywords : Id) (connector : Option Id) : Symbol :=
  { name, type, keywords, connector, dimensions := [[.null]], start := .null, min := .null, max := .null,
    nominal := .null, value := .null, fixed := .null, unit := .null }

theorem Symbol.bare_variable {g : Graph} {id keywords type name words}
    (hid : g.SymbolAt id (.bare name (.node type) keywords none))
    (hwords : g.KeywordsAt keywords words) (htype : g.get? type = some (.reference { name := "Real" }))
    (hsize : 1 < g.size) : g.Variable id (.bare name (.node type) keywords none) words := by
  have hname : Reference.Bare { name := "Real" } := by simp [Reference.Bare]
  refine ⟨hid, hwords, ⟨type, [{ name := "Real" }], rfl, ⟨htype, rfl⟩, by decide, by simpa using hname⟩, rfl, rfl, 1,
    hsize, fun l hl => ?_⟩
  have hl : l = keywords ∨ l = type := by
    simpa [Element.links, Symbol.children, Symbol.bare, Value.nodes, Value.nodesOfRows, Value.nodesAll] using hl
  rcases hl with rfl | rfl
  · exact ⟨_, hwords, rfl, trivial, by simp [Element.links, Element.children]⟩
  · exact ⟨_, htype, rfl, by simp [Formed],
      by simp [Element.links, Element.children, Value.nodesOfRows, Value.nodesAll, Value.nodes]⟩

namespace Build

variable {clauses : List Id}

/-- The class of a circuit with two pins `a` and `b` of components, a pin `p`
of its own, and a pin `d` that is left open. -/
def circuitClass (clauses : List Id) : ClassDef :=
  { name := some "Circuit", category := "model", equations := clauses,
    symbols := ⟨[("a", 1), ("a.i", 2), ("b", 3), ("b.i", 4), ("p", 5), ("p.i", 6), ("d", 7), ("d.i", 8)]⟩ }

def pinClass : ClassDef := { name := some "Pin", category := "connector", symbols := ⟨[("v", 13), ("i", 14)]⟩ }

def circuit (clauses : List Id) : Graph where
  elements := #[
    .classDef (circuitClass clauses),
    .symbol (.bare "a" (.text "Pin") 10 (some 9)), .symbol (.bare "a.i" (.node 12) 11 none),
    .symbol (.bare "b" (.text "Pin") 10 (some 9)), .symbol (.bare "b.i" (.node 12) 11 none),
    .symbol (.bare "p" (.text "Pin") 10 (some 9)), .symbol (.bare "p.i" (.node 12) 11 none),
    .symbol (.bare "d" (.text "Pin") 10 (some 9)), .symbol (.bare "d.i" (.node 12) 11 none),
    .classDef pinClass, .keywords [], .keywords ["flow"], .reference { name := "Real" },
    .symbol (.bare "v" (.node 12) 10 none), .symbol (.bare "i" (.node 12) 11 none),
    .reference { name := "a" }, .reference { name := "b" }, .reference { name := "p" },
    .connect 15 16 "" (some true) (some true), .connect 16 17 "" (some true) (some false),
    .connect 17 16 "" (some false) (some true)]

theorem circuit_pin (clauses : List Id) : (circuit clauses).Connector 9 pinClass where
  get? := rfl
  role := rfl
  parent := rfl
  bases := rfl
  classes := rfl
  functions := rfl
  category := by decide
  nodup := by decide
  symbols e he := by
    simp only [pinClass, mem_cons, not_mem_nil, or_false] at he
    have hsize : 1 < (circuit clauses).size := by simp [Graph.size, circuit]
    rcases he with rfl | rfl
    · exact ⟨_, _, Symbol.bare_variable rfl rfl rfl hsize, rfl⟩
    · exact ⟨_, _, Symbol.bare_variable rfl rfl rfl hsize, rfl⟩
  equations := by simp [pinClass]
  remarks := by simp [pinClass]

def pin (name : String) (inner : Bool) : Port := ⟨name, [], inner, ["i"]⟩

theorem circuit_wireAt {name name' inner inner' e l r symbol symbol'}
    (he : (circuit clauses).get? e = some (.connect l r "" (some inner) (some inner')))
    (hl : (circuit clauses).ReferenceAt l { name })
    (hr : (circuit clauses).get? r = some (.reference { name := name' }))
    (hsymbol : (circuitClass clauses).symbols.get? name = some symbol)
    (hsymbol' : (circuitClass clauses).symbols.get? name' = some symbol')
    (hs : (circuit clauses).SymbolAt symbol (.bare name (.text "Pin") 10 (some 9)))
    (hs' : (circuit clauses).SymbolAt symbol' (.bare name' (.text "Pin") 10 (some 9))) :
    (circuit clauses).WireAt (circuitClass clauses) e ⟨pin name inner, pin name' inner', .refl _⟩ := by
  refine ⟨l, r, "", some inner, some inner', he, .inl ⟨pinClass, pinClass, ?_, ?_, fun v hv => ?_⟩⟩
  · exact ⟨⟨_, hl, rfl, rfl, rfl⟩, rfl, ⟨symbol, _, 9, hsymbol, hs, rfl, circuit_pin clauses⟩, rfl⟩
  · exact ⟨⟨_, hr, rfl, rfl, rfl⟩, rfl, ⟨symbol', _, 9, hsymbol', hs', rfl, circuit_pin clauses⟩, rfl⟩
  · simp only [pinClass, mem_cons, not_mem_nil, or_false] at hv
    rcases hv with rfl | rfl
    · exact .inl rfl
    · exact .inr (.inl rfl)

theorem circuit_wired {ws} (hclauses : clauses.filter (circuit clauses).isConnect = clauses)
    (hlt : ∀ e ∈ clauses, e < 21) (hws : Forall₂ ((circuit clauses).WireAt (circuitClass clauses)) clauses ws) :
    (circuit clauses).Wired 0 (circuitClass clauses) ws where
  get? := rfl
  symbols id hid := by
    simp only [circuitClass, Table.values, map_cons, map_nil, mem_cons, not_mem_nil, or_false] at hid
    rcases hid with rfl | rfl | rfl | rfl | rfl | rfl | rfl | rfl <;> exact ⟨_, _, rfl, rfl⟩
  equations := hlt
  wires := by
    rw [circuitClass, hclauses]
    exact hws

/-- The pins `a`, `b` and `p`, connected in two ways. -/
def circuitWires : List Wire := [⟨pin "a" true, pin "b" true, .refl _⟩, ⟨pin "b" true, pin "p" false, .refl _⟩]

def circuitWiresTurned : List Wire := [⟨pin "p" false, pin "b" true, .refl _⟩, ⟨pin "a" true, pin "b" true, .refl _⟩]

theorem flows_balance_circuit :
    (circuit [18, 19]).Wired 0 (circuitClass [18, 19]) circuitWires ∧
    (circuit [20, 18]).Wired 0 (circuitClass [20, 18]) circuitWiresTurned ∧ Rewired circuitWires circuitWiresTurned ∧
    ∃ comps, Components (edgesOf circuitWires) comps ∧
      (∃ g', expandConnections 0 (circuit [18, 19]) = .ok () g' ∧
        (circuit [18, 19]).Expanded 0 (circuitClass [18, 19]) (balances comps) [("d.i", 8)] g') ∧
      ∃ g' zeros, expandConnections 0 (circuit [20, 18]) = .ok () g' ∧
        (circuit [20, 18]).Expanded 0 (circuitClass [20, 18]) (balances comps) zeros g' ∧
        (zeros.map (·.1)).Perm ["d.i"] := by
  have hwired : (circuit [18, 19]).Wired 0 (circuitClass [18, 19]) circuitWires :=
    circuit_wired rfl (by decide) (.cons (circuit_wireAt rfl rfl rfl rfl rfl rfl rfl)
      (.cons (circuit_wireAt rfl rfl rfl rfl rfl rfl rfl) .nil))
  have hturned : (circuit [20, 18]).Wired 0 (circuitClass [20, 18]) circuitWiresTurned :=
    circuit_wired rfl (by decide) (.cons (circuit_wireAt rfl rfl rfl rfl rfl rfl rfl)
      (.cons (circuit_wireAt rfl rfl rfl rfl rfl rfl rfl) .nil))
  have hsame : Rewired circuitWires circuitWiresTurned :=
    ⟨_, .swap _ _ [], .cons (.inr rfl) (.cons (.inl rfl) .nil)⟩
  obtain ⟨comps, hcomps, hrun, hother⟩ := flows_balance hwired
  have hopen : untouched (edgesOf circuitWires) ((circuit [18, 19]).flowSymbols (circuitClass [18, 19])).entries =
      [("d.i", 8)] := by decide
  rw [hopen] at hrun hother
  exact ⟨hwired, hturned, hsame, comps, hcomps, hrun, hother hturned hsame (.refl _)⟩

/-- Two connectors with one equation: `a` is of the class `Pin`, `b` of the given
class, and the flow `b.i` has the keywords of the given element. -/
def couple (other : ClassDef) (keywords equation : Id) : Graph where
  elements := #[
    .classDef { name := some "Couple", category := "model", equations := [equation],
                symbols := ⟨[("a", 1), ("a.i", 2), ("b", 3), ("b.i", 4)]⟩ },
    .symbol (.bare "a" (.text "Pin") 7 (some 5)), .symbol (.bare "a.i" (.node 10) 8 none),
    .symbol (.bare "b" (.text "Other") 7 (some 6)), .symbol (.bare "b.i" (.node 10) keywords none),
    .classDef { name := some "Pin", category := "connector", symbols := ⟨[("v", 11), ("i", 12)]⟩ },
    .classDef other,
    .keywords [], .keywords ["flow"], .keywords ["discrete"], .reference { name := "Real" },
    .symbol (.bare "v" (.node 10) 7 none), .symbol (.bare "i" (.node 10) 8 none),
    .symbol (.bare "i" (.node 10) 7 none), .symbol (.bare "v" (.node 10) 9 none),
    .reference { name := "a" }, .reference { name := "b" },
    .connect 15 16 "" (some true) (some true), .connect 16 15 "" (some true) (some true),
    .primary (.bool true), .branch .ifEquation [.node 19] [[17]] "",
    .classDef { name := some "f", category := "function" }]

/-- A class of connectors with the variables `v` and `i`. -/
def otherClass (v i : Id) : ClassDef :=
  { name := some "Other", category := "connector", symbols := ⟨[("v", v), ("i", i)]⟩ }

/-- The symbols that equations of a class equate to zero. -/
def zerosOf (g : Graph) (flat : Id) : List String :=
  match g.get? flat with
  | some (.classDef c) => c.equations.filterMap fun e =>
    match g.get? e with
    | some (.equation (.node left) (.node right) _) =>
      match g.get? left, g.get? right with
      | some (.symbol s), some (.primary (.int 0)) => some s.name
      | _, _ => none
    | _ => none
  | _ => []

def zeroed (g : Graph) : Except Fault (List String) :=
  match expandConnections 0 g with
  | .error f _ => .error f
  | .ok _ g => .ok (zerosOf g 0)

/-- The keys and names of the flow symbols of a class. -/
def flowNames (g : Graph) (flat : Id) : List (String × String) :=
  match g.get? flat with
  | some (.classDef c) => c.symbols.entries.filterMap fun e => (g.flowSymbol? e.2).map fun s => (e.1, s.1)
  | _ => []

/-- A flow symbol that is found on two ways. -/
@[irreducible] def sharedText : String :=
  "package Q package P flow Real k; end P; model M Real x; equation x = P.k + Q.P.k; end M; end Q;"

/-- The flat class of a class in a text, its connections expanded. -/
def expanded (text : String) (path : List String) : Build Id := do
  let flat ← flattenClass (← findOriginal (← read text).root path)
  expandConnections flat
  pure flat

set_option maxRecDepth 100000 in
/-- What `Wired` asks of connections is needed, also when both connectors have
variables of the same names. The keywords are those of the left connector: if
`i` is a flow variable in `a` alone, then `connect(b, a)` leaves `a.i` open,
and `connect(a, b)` does not. A variable with another keyword is refused. A
connection in a branch stays, with the flow variables open. Functions in the
class of a connector are refused, and so is a connector inside a connector. Of
two flow symbols with one name only one becomes zero. -/
theorem unmatched_connectors_unbalanced :
    zeroed (couple (otherClass 11 13) 7 18) = .ok ["a.i"] ∧
    zeroed (couple (otherClass 11 13) 7 17) = .ok [] ∧
    zeroed (couple (otherClass 14 12) 8 18) = .error (.unsupportedKeywords "['discrete']") ∧
    zeroed (couple (otherClass 11 12) 8 20) = .ok ["a.i", "b.i"] ∧
    zeroed (couple { otherClass 11 12 with functions := ⟨[("f", 21)]⟩ } 8 18) =
      .error (.assertion "All classes should have been replaced by instance classes.") ∧
    zeroed (couple (otherClass 1 12) 8 18) = .error .noPart ∧
    Runs (expanded sharedText ["Q", "M"]) {} fun flat g =>
      flowNames g flat = [("P.k", "Q.P.k"), ("Q.P.k", "Q.P.k")] ∧ zerosOf g flat = ["Q.P.k"] := by
  decide +kernel

end Build
end Modelica
