/-
What is made while a text is gone through.

`Making g0 st g` says what holds at any moment of reading when it began with the graph
`g0`: what was there is untouched; what is new holds new elements only, with the shape it
should have; the symbols of each class stand under their names, each made after those
before it. A reader keeps this, succeeding or failing (`Makes`), and on success it leaves
the open classes and everything about the nesting of classes alone (`Later`). One lemma
for each kind of step; sequences follow by `Makes.bind`.
-/
import Modelica.Proofs.Library.Paths

namespace Modelica

open List Element StateT Option

/-! ### Elements -/

/-- Lists of an element that go together have lengths that go together. -/
def Element.Shaped : Element → Prop
  | .reference r => r.child.length ≤ 1
  | .branch _ conditions blocks _ => conditions.length = blocks.length
  | .conditional conditions values => values.length = conditions.length + 1
  | _ => True

/-- What later parts of a text see of an element that an earlier part made. -/
inductive Facet where
  | symbol (name : String) (order : Nat)
  | clause (type : Id)
  | reference (r : Reference)
  | classDef (symbols : Table String Id)
  | other

def Element.facet : Element → Facet
  | .symbol s => .symbol s.name s.order
  | .clause c => .clause c.type
  | .reference r => .reference r
  | .classDef c => .classDef c.symbols
  | _ => .other

def Element.label? : Element → Option (String × Nat)
  | .symbol s => some (s.name, s.order)
  | _ => none

theorem Element.label?_eq {e e' : Element} (h : e'.facet = e.facet) : e'.label? = e.label? := by
  cases e <;> cases e' <;> simp_all [facet, label?]

/-- What a class is called and what it is, the classes in it and the one around it. -/
def ClassDef.skeleton (c : ClassDef) : ClassDef where
  role := c.role
  name := c.name
  encapsulated := c.encapsulated
  isPartial := c.isPartial
  category := c.category
  comment := c.comment
  classes := c.classes
  parent := c.parent

def Element.skeleton? : Element → Option ClassDef
  | .classDef c => some c.skeleton
  | _ => none

namespace Graph

variable {g g1 g' : Graph} {n id a : Id} {e e' : Element} {r : Reference}

def skeleton (g : Graph) (id : Id) : Option ClassDef := (g.get? id).bind skeleton?

theorem skeleton_eq {c} (hc : g.ClassAt id c) : g.skeleton id = some c.skeleton := by
  rw [skeleton, hc]
  rfl

theorem skeleton_add (he : e.skeleton? = none) : (g.add e).1.skeleton = g.skeleton := by
  funext id
  rw [skeleton, skeleton, get?_add]
  split
  · next hid =>
    subst hid
    rw [show g.get? g.size = none by simp [get?], bind_some, he, bind_none]
  · rfl

theorem skeleton_set_other (ha : a ≠ id) : (g.set id e').skeleton a = g.skeleton a := by
  rw [skeleton, get?_set_other _ _ ha, skeleton]

theorem skeleton_set (he : g.get? id = some e) (hsame : e'.skeleton? = e.skeleton?) :
    (g.set id e').skeleton = g.skeleton := by
  funext a
  by_cases ha : a = id
  · rw [ha, skeleton, skeleton, get?_set he _, he, bind_some, bind_some, hsame]
  · exact skeleton_set_other ha

/-- The element was not there at the beginning. -/
abbrev New (g0 : Graph) (id : Id) : Prop := g0.size ≤ id

/-! ### Names of types -/

/-- From the element `n` on, only dotted names without subscripts are reached from the
element: `s` are those names. -/
def Plain (g : Graph) (n id : Id) : Prop :=
  ∃ s : Id → Prop, s id ∧ ∀ a, s a → n ≤ a ∧ ∃ r, g.get? a = some (.reference r) ∧ r.indices = [[.null]] ∧
    r.child.length ≤ 1 ∧ ∀ b ∈ r.child, s b

/-- The reference is a name without subscripts, and so is what follows it. -/
def PlainReference (g : Graph) (n : Id) (r : Reference) : Prop :=
  r.indices = [[.null]] ∧ r.child.length ≤ 1 ∧ ∀ b ∈ r.child, g.Plain n b

theorem plain_iff : g.Plain n id ↔ n ≤ id ∧ ∃ r, g.ReferenceAt id r ∧ g.PlainReference n r := by
  constructor
  · rintro ⟨s, hid, hs⟩
    obtain ⟨hn, r, hr, hindices, hlength, hchild⟩ := hs id hid
    exact ⟨hn, r, hr, hindices, hlength, fun b hb => ⟨s, hchild b hb, hs⟩⟩
  · rintro ⟨hn, r, hr, hindices, hlength, hchild⟩
    refine ⟨fun a => a = id ∨ g.Plain n a, .inl rfl, ?_⟩
    rintro a (rfl | ⟨s, ha, hs⟩)
    · exact ⟨hn, r, hr, hindices, hlength, fun b hb => .inr (hchild b hb)⟩
    · obtain ⟨hn, r, hr, hindices, hlength, hchild⟩ := hs a ha
      exact ⟨hn, r, hr, hindices, hlength, fun b hb => .inr ⟨s, hchild b hb, hs⟩⟩

theorem Plain.mono (h : g.Plain n id) (hsame : ∀ a r, g.ReferenceAt a r → g'.ReferenceAt a r) : g'.Plain n id := by
  obtain ⟨s, hid, hs⟩ := h
  refine ⟨s, hid, fun a ha => ?_⟩
  obtain ⟨hn, r, hr, hrest⟩ := hs a ha
  exact ⟨hn, r, hsame a r hr, hrest⟩

theorem Plain.add (h : g.Plain n id) (e : Element) : (g.add e).1.Plain n id :=
  h.mono fun _ _ ha => (get?_add_of_lt _ _ (get?_lt ha)).trans ha

theorem Plain.replace (h : g.Plain n id) (he : g.get? a = some e) (hr : ∀ r, e = .reference r → e' = e) :
    (g.set a e').Plain n id := by
  refine h.mono fun b r hb => ?_
  by_cases hba : b = a
  · subst hba
    cases he.symm.trans hb
    rwa [hr r rfl, set_get? he]
  · exact (get?_set_other _ _ hba).trans hb

theorem Plain.set (h : g.Plain n id) (he : g.get? a = some e) (ho : e'.facet = e.facet) : (g.set a e').Plain n id := by
  refine h.replace he fun r hr => ?_
  subst hr
  cases e' <;> simp [facet] at ho ⊢
  exact ho

theorem Plain.fill (h : g.Plain n id) (hn : n ≤ a) (ha : a < g.size) (hr : g.PlainReference n r) :
    (g.set a (.reference r)).Plain n id := by
  refine ⟨g.Plain n, h, fun b hb => ?_⟩
  by_cases hba : b = a
  · exact ⟨hba ▸ hn, r, by rw [hba, get?_set_self _ _ ha], hr⟩
  · obtain ⟨hn, r, hr, hplain⟩ := plain_iff.1 hb
    exact ⟨hn, r, by rw [get?_set_other _ _ hba, hr], hplain⟩

theorem PlainReference.mono (h : g.PlainReference n r) (hsame : ∀ id, g.Plain n id → g'.Plain n id) :
    g'.PlainReference n r :=
  ⟨h.1, h.2.1, fun b hb => hsame b (h.2.2 b hb)⟩

/-! ### Tables of symbols -/

/-- The name of a symbol and its number among the symbols of the text. -/
def label (g : Graph) (id : Id) : Option (String × Nat) := (g.get? id).bind label?

theorem label_eq (he : g.get? id = some e) : g.label id = e.label? := by
  rw [label, he, bind_some]

theorem lt_of_label {l} (h : g.label id = some l) : id < g.size := by
  cases he : g.get? id with
  | none =>
    rw [label, he] at h
    cases h
  | some e => exact get?_lt he

/-- The symbols of a table stand under their own names, each made after those before it,
and all of them among the first `count` ones. -/
def Listed (g : Graph) (t : Table String Id) (count : Nat) : Prop :=
  ∃ symbols : List (String × Nat), t.entries.map (fun e => g.label e.2) = symbols.map some ∧
    symbols.map (·.1) = t.keys ∧ symbols.Pairwise (·.2 < ·.2) ∧ ∀ s ∈ symbols, s.2 < count

namespace Listed

variable {t : Table String Id} {count count' : Nat} {name : String}

theorem empty (g : Graph) (count : Nat) : g.Listed {} count := ⟨[], rfl, rfl, .nil, by simp⟩

variable (h : g.Listed t count)

include h

theorem mono (hle : count ≤ count') : g.Listed t count' := by
  obtain ⟨symbols, hlabels, hkeys, horder, hlt⟩ := h
  exact ⟨symbols, hlabels, hkeys, horder, fun s hs => (hlt s hs).trans_le hle⟩

theorem order_lt (hid : id ∈ t.values) : ∃ l, g.label id = some l ∧ l.2 < count := by
  obtain ⟨symbols, hlabels, -, -, hlt⟩ := h
  obtain ⟨e, he, rfl⟩ := mem_map.1 hid
  have hmem : g.label e.2 ∈ t.entries.map fun e => g.label e.2 := mem_map.2 ⟨e, he, rfl⟩
  rw [hlabels] at hmem
  obtain ⟨l, hl, hlabel⟩ := mem_map.1 hmem
  exact ⟨l, hlabel.symm, hlt l hl⟩

theorem congr (hsame : ∀ id ∈ t.values, g'.label id = g.label id) : g'.Listed t count := by
  obtain ⟨symbols, hlabels, hrest⟩ := h
  refine ⟨symbols, ?_, hrest⟩
  rw [← hlabels]
  exact map_congr_left fun e he => hsame e.2 (mem_map.2 ⟨e, he, rfl⟩)

theorem insert (hname : name ∉ t.keys) {order} (hid : g.label id = some (name, order))
    (hlate : count ≤ order) (hlt : order < count') : g.Listed (t.insert name id) count' := by
  obtain ⟨symbols, hlabels, hkeys, horder, hcount⟩ := h
  refine ⟨symbols ++ [(name, order)], ?_, ?_, ?_, ?_⟩
  · rw [Table.insert_of_not_mem _ _ hname, map_append, hlabels, map_append, map_singleton,
      map_singleton, hid]
  · rw [Table.keys_insert_of_not_mem _ _ hname, map_append, hkeys, map_singleton]
  · refine pairwise_append.2 ⟨horder, pairwise_singleton _ _, fun s hs s' hs' => ?_⟩
    rw [mem_singleton.1 hs']
    exact (hcount s hs).trans_le hlate
  · intro s hs
    rcases mem_append.1 hs with hs | hs
    · exact ((hcount s hs).trans_le hlate).trans hlt
    · rw [mem_singleton.1 hs]
      exact hlt

end Listed

/-- The symbols of every class from the element `n` on are listed in its table. -/
def Lists (g : Graph) (n : Id) (count : Nat) : Prop :=
  ∀ id c, n ≤ id → g.get? id = some (.classDef c) → g.Listed c.symbols count

namespace Lists

variable {count count' : Nat}

theorem mono (h : g.Lists n count) (hle : count ≤ count') : g.Lists n count' := fun id c hid hc =>
  (h id c hid hc).mono hle

theorem add (h : g.Lists n count) (htable : ∀ c, e = .classDef c → c.symbols = {}) : (g.add e).1.Lists n count := by
  intro id c hid hc
  rw [get?_add] at hc
  split at hc
  · cases hc
    rw [htable c rfl]
    exact .empty _ _
  · refine (h id c hid hc).congr fun a ha => ?_
    obtain ⟨l, hl, -⟩ := (h id c hid hc).order_lt ha
    rw [label, get?_add_of_lt _ _ (lt_of_label hl), label]

/-- An element may be replaced that stands in no table, or keeps its name and number. -/
theorem replace (h : g.Lists n count) (hlt : id < g.size)
    (hlabel : ∀ l, g.label id = some l → l.2 < count → e'.label? = some l)
    (hclass : ∀ c, e' = .classDef c → g.Listed c.symbols count) : (g.set id e').Lists n count := by
  have hlisted : ∀ {t}, g.Listed t count → (g.set id e').Listed t count := by
    refine fun ht => ht.congr fun b hb => ?_
    obtain ⟨l, hl, hlast⟩ := ht.order_lt hb
    by_cases hbi : b = id
    · subst hbi
      rw [hl, label, get?_set_self _ _ hlt, bind_some, hlabel l hl hlast]
    · rw [label, get?_set_other _ _ hbi, label]
  intro a c ha hc
  by_cases hai : a = id
  · rw [hai, get?_set_self _ _ hlt] at hc
    cases hc
    exact hlisted (hclass c rfl)
  · rw [get?_set_other _ _ hai] at hc
    exact hlisted (h a c ha hc)

end Lists
end Graph

theorem Table.mem_values_insert {κ : Type} [DecidableEq κ] {t : Table κ Id} {name id k}
    (hk : k ∈ (t.insert name id).values) : k = id ∨ k ∈ t.values := by
  obtain ⟨e, he, rfl⟩ := mem_map.1 hk
  rcases Table.mem_entries_insert he with rfl | he
  · exact .inl rfl
  · exact .inr (mem_map.2 ⟨e, he, rfl⟩)

theorem Build.Ends.and_runs {α : Type} {x g} {Q Q' : α → Graph → Prop} {F}
    (h : Ends x g Q F) (h' : Runs x g Q') : Ends x g (fun a g' => Q a g' ∧ Q' a g') F := by
  obtain ⟨a, g', hx, hQ'⟩ := runs_iff.1 h'
  simp only [Ends, hx] at h ⊢
  exact ⟨h, hQ'⟩

namespace Read

open Build Modelica.Graph

variable {α β : Type} {g0 g g1 g' : Graph} {st st1 st' : Reading} {id : Id} {e e' : Element}

/-- What holds while a text is gone through, if the graph was `g0` at the beginning. -/
structure Making (g0 : Graph) (st : Reading) (g : Graph) : Prop where
  grown : Extends g0 g
  made : ∀ id e, g0.New id → g.get? id = some e →
    (∀ k ∈ e.children, g0.New k) ∧ e.Shaped
  types : ∀ id c, g0.New id → g.get? id = some (.clause c) → g.Plain g0.size c.type
  tables : g.Lists g0.size st.count
  classes : ∀ id ∈ st.classes, g0.New id
  clause : ∀ id, st.clause = some id → g0.New id
  symbol : ∀ id, st.symbol = some id → g0.New id

/-- What a reader leaves alone that reads no class. -/
structure Later (g0 : Graph) (st : Reading) (g : Graph) (st' : Reading) (g' : Graph) : Prop where
  classes : st'.classes = st.classes
  size_le : g.size ≤ g'.size
  skeleton : g'.skeleton = g.skeleton
  plain : ∀ id, g.Plain g0.size id → g'.Plain g0.size id

namespace Later

theorem refl (g0 : Graph) (st : Reading) (g : Graph) : Later g0 st g st g := ⟨rfl, le_rfl, rfl, fun _ h => h⟩

theorem trans (h : Later g0 st g st1 g1) (h' : Later g0 st1 g1 st' g') : Later g0 st g st' g' :=
  ⟨h'.classes.trans h.classes, h.size_le.trans h'.size_le, h'.skeleton.trans h.skeleton,
    fun id hid => h'.plain id (h.plain id hid)⟩

theorem add (he : e.skeleton? = none) : Later g0 st g st (g.add e).1 :=
  ⟨rfl, by simp, skeleton_add he, fun _ h => h.add e⟩

theorem replace (he : g.get? id = some e) (hs : e'.skeleton? = e.skeleton?)
    (hplain : ∀ a, g.Plain g0.size a → (g.set id e').Plain g0.size a) : Later g0 st g st (g.set id e') :=
  ⟨rfl, by simp, skeleton_set he hs, hplain⟩

theorem set (he : g.get? id = some e) (ho : e'.facet = e.facet) (hs : e'.skeleton? = e.skeleton?) :
    Later g0 st g st (g.set id e') :=
  .replace he hs fun _ h => h.set he ho

end Later

namespace Making

theorem start (g0 : Graph) : Making g0 { classes := [] } g0 := by
  have hnone : ∀ id e, g0.New id → g0.get? id ≠ some e := fun id e hid he =>
    Nat.not_lt.2 hid (get?_lt he)
  exact ⟨.refl g0, fun id e hid he => absurd he (hnone id e hid), fun id c hid hc => absurd hc (hnone id _ hid),
    fun id c hid hc => absurd hc (hnone id _ hid), by simp, by simp, by simp⟩

section

variable (h : Making g0 st g)

include h

theorem size_le : g0.size ≤ g.size := h.grown.size_le

theorem reopen (hcount : st.count ≤ st'.count) (hclasses : ∀ id ∈ st'.classes, g0.New id)
    (hclause : ∀ id, st'.clause = some id → g0.New id)
    (hsymbol : ∀ id, st'.symbol = some id → g0.New id) : Making g0 st' g :=
  { h with
    tables := h.tables.mono hcount
    classes := hclasses
    clause := hclause
    symbol := hsymbol }

theorem add (hk : ∀ k ∈ e.children, g0.New k) (hs : e.Shaped) (htype : ∀ c, e = .clause c → g.Plain g0.size c.type)
    (htable : ∀ c, e = .classDef c → c.symbols = {}) : Making g0 st (g.add e).1 := by
  refine { h with
    grown := h.grown.add e
    made := fun id e' hid he' => ?_
    types := fun id c hid hc => ?_
    tables := h.tables.add htable }
  · rw [get?_add] at he'
    split at he'
    · cases he'
      exact ⟨hk, hs⟩
    · exact h.made id e' hid he'
  · rw [get?_add] at hc
    split at hc
    · cases hc
      exact (htype c rfl).add _
    · exact (h.types id c hid hc).add e

theorem replace (hid : g0.New id) (hlt : id < g.size) (hk : ∀ k ∈ e'.children, g0.New k)
    (hs : e'.Shaped) (hplain : ∀ a, g.Plain g0.size a → (g.set id e').Plain g0.size a)
    (htype : ∀ c, e' = .clause c → g.Plain g0.size c.type)
    (htables : (g.set id e').Lists g0.size st.count) : Making g0 st (g.set id e') := by
  refine { h with
    grown := h.grown.set (.inr hid) e'
    made := fun a d ha hd => ?_
    types := fun a c ha hc => hplain _ ?_
    tables := htables }
  · by_cases hai : a = id
    · rw [hai, get?_set_self _ _ hlt] at hd
      cases hd
      exact ⟨hk, hs⟩
    · rw [get?_set_other _ _ hai] at hd
      exact h.made a d ha hd
  · by_cases hai : a = id
    · rw [hai, get?_set_self _ _ hlt] at hc
      cases hc
      exact htype c rfl
    · rw [get?_set_other _ _ hai] at hc
      exact h.types a c ha hc

theorem set (hid : g0.New id) (he : g.get? id = some e) (hk : ∀ k ∈ e'.children, g0.New k) (hs : e'.Shaped)
    (ho : e'.facet = e.facet) : Making g0 st (g.set id e') := by
  refine h.replace hid (get?_lt he) hk hs (fun _ ha => ha.set he ho) ?_
    (h.tables.replace (get?_lt he) (fun l hl _ => ?_) ?_)
  · rintro c rfl
    cases e <;> simp [facet] at ho
    rw [ho]
    exact h.types id _ hid he
  · rw [Element.label?_eq ho, ← label_eq he, hl]
  · rintro c rfl
    cases e <;> simp [facet] at ho
    rw [ho]
    exact h.tables id _ hid he

theorem fill (hid : g.Plain g0.size id) {r} (hr : g.PlainReference g0.size r) :
    Making g0 st (g.set id (.reference r)) ∧ Later g0 st g st (g.set id (.reference r)) := by
  obtain ⟨hn, r0, hr0, -⟩ := plain_iff.1 hid
  have hplain : ∀ a, g.Plain g0.size a → (g.set id (.reference r)).Plain g0.size a := fun a ha =>
    ha.fill hn (get?_lt hr0) hr
  refine ⟨h.replace hn (get?_lt hr0) (fun k hk => ?_) hr.2.1 hplain (by simp)
    (h.tables.replace (get?_lt hr0) (fun l hl _ => ?_) (by simp)), .replace hr0 rfl hplain⟩
  · rw [children, hr.1] at hk
    exact (plain_iff.1 (hr.2.2 k (by simpa [Value.nodesOfRows, Value.nodesAll, Value.nodes] using hk))).1
  · rw [label_eq hr0] at hl
    cases hl

end

theorem setSymbol {s s'} (h : Making g0 st g) (hid : g0.New id) (hs : g.SymbolAt id s)
    (hk : ∀ k ∈ s'.children, g0.New k) (horder : s'.order = s.order) (hlt : s.order < st.count)
    (hlate : g.Lists g0.size s.order) :
    (Making g0 st (g.set id (.symbol s')) ∧ Later g0 st g st (g.set id (.symbol s'))) ∧
      (g.set id (.symbol s')).Lists g0.size s'.order := by
  have hplain : ∀ a, g.Plain g0.size a → (g.set id (.symbol s')).Plain g0.size a := fun a ha =>
    ha.replace hs (by simp)
  have hlists : (g.set id (.symbol s')).Lists g0.size s.order :=
    hlate.replace (get?_lt hs) (fun l hl hlast => by
      rw [label_eq hs] at hl
      cases hl
      exact absurd hlast (Nat.lt_irrefl _)) (by simp)
  exact ⟨⟨h.replace hid (get?_lt hs) hk trivial hplain (by simp) (hlists.mono (Nat.le_of_lt hlt)), .replace hs rfl hplain⟩,
    horder ▸ hlists⟩

theorem enter {s : Symbol} {c cls} (h : Making g0 st g) (hid : g0.New id)
    (hs : g.SymbolAt id s) (hlt : s.order < st.count) (hlate : g.Lists g0.size s.order)
    (hcls : g0.New cls) (hc : g.ClassAt cls c) (hname : s.name ∉ c.symbols.keys) :
    Making g0 st (g.set cls (.classDef { c with symbols := c.symbols.insert s.name id })) ∧
      Later g0 st g st (g.set cls (.classDef { c with symbols := c.symbols.insert s.name id })) := by
  refine ⟨h.replace hcls (get?_lt hc) (fun k hk => ?_) trivial (fun a ha => ha.replace hc (by simp)) (by simp)
    ((hlate.mono hlt.le).replace (get?_lt hc) (fun l hl _ => ?_) ?_), .replace hc rfl fun a ha => ha.replace hc (by simp)⟩
  · have hold := (h.made cls _ hcls hc).1
    simp only [children, ClassDef.children, mem_append] at hk hold
    have hvalues := fun hk : k ∈ (c.symbols.insert s.name id).values => Table.mem_values_insert hk
    by_cases hki : k = id
    · exact hki ▸ hid
    · refine hold k ?_
      grind
  · rw [label_eq hc] at hl
    cases hl
  · rintro _ ⟨⟩
    exact (hlate cls c hcls hc).insert hname (label_eq hs) le_rfl hlt

end Making

/-! ### Readers -/

@[simp] theorem ends_run_lift {y Q F} :
    Ends ((liftM y : Read α).run st) g Q F ↔ Ends y g (fun a g' => Q (a, st) g') F :=
  ends_bind (f := fun a => pure (a, st))

/-- The reader, begun with `st` and `g`, makes new elements only, and if it succeeds `R`
holds of its result. -/
def MakesAt (g0 : Graph) (st : Reading) (g : Graph) (x : Read α) (R : α → Reading → Graph → Prop) : Prop :=
  Ends (x.run st) g (fun r g' => R r.1 r.2 g' ∧ Making g0 r.2 g' ∧ Later g0 st g r.2 g') fun _ g' => Extends g0 g'

/-- The reader makes new elements only, and `P` holds of its result. -/
def Makes (g0 : Graph) (x : Read α) (P : α → Prop) : Prop :=
  ∀ st g, Making g0 st g → MakesAt g0 st g x fun a _ _ => P a

namespace MakesAt

variable {R R' : α → Reading → Graph → Prop} {S : β → Reading → Graph → Prop} {x : Read α} {f : α → Read β}

theorem pure {a} (h : Making g0 st g) (ha : R a st g) : MakesAt g0 st g (Pure.pure a) R := ⟨ha, h, .refl g0 st g⟩

theorem throw {f} (h : Making g0 st g) : MakesAt g0 st g (throw f : Read α) R := h.grown

theorem bind (hx : MakesAt g0 st g x R)
    (hf : ∀ a st1 g1, R a st1 g1 → Making g0 st1 g1 → Later g0 st g st1 g1 → MakesAt g0 st1 g1 (f a) S) :
    MakesAt g0 st g (x >>= f) S := by
  rw [MakesAt, run_bind, ends_bind]
  refine Ends.imp hx (fun r g1 hr => ?_) fun _ _ => id
  obtain ⟨hR, hg1, hlater⟩ := hr
  exact Ends.imp (hf r.1 r.2 g1 hR hg1 hlater) (fun _ _ hr' => ⟨hr'.1, hr'.2.1, hlater.trans hr'.2.2⟩) fun _ _ => id

theorem lift {y}
    (h : Ends y g (fun a g' => R a st g' ∧ Making g0 st g' ∧ Later g0 st g st g') fun _ g' => Extends g0 g') :
    MakesAt g0 st g (liftM y) R := ends_run_lift.2 h

theorem get {f} (h : MakesAt g0 st g (f st) S) : MakesAt g0 st g (MonadState.get >>= f) S := h

theorem modify {f R} (h : Making g0 (f st) g)
    (hclasses : (f st).classes = st.classes) (hR : R ⟨⟩ (f st) g) : MakesAt g0 st g (modify f) R :=
  ⟨hR, h, hclasses, le_rfl, rfl, fun _ h => h⟩

variable (h : Making g0 st g)

include h

theorem classAt {f} (hf : ∀ c, g.ClassAt id c → MakesAt g0 st g (f c) S) :
    MakesAt g0 st g (liftM (Build.classAt id) >>= f) S := by
  rw [MakesAt, run_bind, ends_bind, ends_run_lift]
  exact ends_classAt_of hf h.grown

theorem symbolAt {f} (hf : ∀ s, g.SymbolAt id s → MakesAt g0 st g (f s) S) :
    MakesAt g0 st g (liftM (Build.symbolAt id) >>= f) S := by
  rw [MakesAt, run_bind, ends_bind, ends_run_lift]
  exact ends_symbolAt_of hf h.grown

theorem element {f} (hf : ∀ e, g.get? id = some e → MakesAt g0 st g (f e) S) :
    MakesAt g0 st g (liftM (Build.element id) >>= f) S := by
  rw [MakesAt, run_bind, ends_bind, ends_run_lift]
  exact ends_element_of hf h.grown

theorem argumentsAt {f} (hf : ∀ args, g.get? id = some (.modification args) → MakesAt g0 st g (f args) S) :
    MakesAt g0 st g (liftM (Build.argumentsAt id) >>= f) S := by
  rw [MakesAt, run_bind, ends_bind, ends_run_lift]
  exact ends_argumentsAt_of hf h.grown

theorem clauseAt {f} (hf : ∀ k, g.get? id = some (.clause k) → MakesAt g0 st g (f k) S) :
    MakesAt g0 st g (liftM (Build.clauseAt id) >>= f) S := by
  rw [MakesAt, run_bind, ends_bind, ends_run_lift]
  refine ends_bind.2 (ends_element_of (fun e he => ?_) h.grown)
  cases e with
  | clause k => exact hf k he
  | _ => exact h.grown

end MakesAt

namespace Makes

variable {P P' : α → Prop} {Q : β → Prop} {x : Read α} {f : α → Read β}

variable {l : List β} {y : Build α}

theorem pure {a} (ha : P a) : Makes g0 (Pure.pure a : Read α) P := fun _ _ h => .pure h ha

theorem throw {f} : Makes g0 (throw f : Read α) P := fun _ _ h => .throw h

theorem bind (hx : Makes g0 x P) (hf : ∀ a, P a → Makes g0 (f a) Q) : Makes g0 (x >>= f) Q := fun st g hg =>
  (hx st g hg).bind fun a st1 g1 ha hg1 _ => hf a ha st1 g1 hg1

theorem map (hx : Makes g0 x P) {f} (hf : ∀ a, P a → Q (f a)) : Makes g0 (f <$> x) Q :=
  hx.bind fun a ha => pure (hf a ha)

theorem discard (hx : Makes g0 x P) : Makes g0 (discard x) fun _ => True := hx.map fun _ _ => trivial

theorem mapM {f} (hf : ∀ b ∈ l, Makes g0 (f b) P) : Makes g0 (l.mapM f) fun as => ∀ a ∈ as, P a := by
  induction l with
  | nil => exact pure (by simp)
  | cons b l ih =>
    rw [mapM_cons]
    refine (hf b (.head _)).bind fun a ha => (ih fun c hc => hf c (.tail _ hc)).bind fun as has => ?_
    exact pure (forall_mem_cons.2 ⟨ha, has⟩)

theorem forM {f} (hf : ∀ b ∈ l, Makes g0 (f b) fun _ => True) : Makes g0 (l.forM f) fun _ => True := by
  induction l with
  | nil => exact pure trivial
  | cons b l ih =>
    show Makes g0 (f b >>= fun _ => l.forM f) _
    exact (hf b (.head _)).bind fun _ _ => ih fun c hc => hf c (.tail _ hc)

theorem optionMapM {o : Option β} {f} (hf : ∀ b, Makes g0 (f b) P) :
    Makes g0 (o.mapM f) fun oa => ∀ a, oa = some a → P a := by
  cases o with
  | none => exact pure (by simp)
  | some b => exact (hf b).bind fun a ha => pure (by simpa using ha)

theorem step (hy : ∀ st g, Making g0 st g →
      Ends y g (fun a g' => P a ∧ Making g0 st g' ∧ Later g0 st g st g') fun _ g' => Extends g0 g') :
    Makes g0 (liftM y : Read α) P := fun st g hg => ends_run_lift.2 (hy st g hg)

theorem lift_bind {f} (hy : Makes g0 (liftM y : Read α) P)
    (hf : ∀ a, P a → Makes g0 (liftM (f a) : Read β) Q) : Makes g0 (liftM (y >>= f) : Read β) Q := by
  refine step fun st g hg => ends_bind.2 ((ends_run_lift.1 (hy st g hg)).imp (fun a g1 ha => ?_) fun _ _ => id)
  obtain ⟨hP, hg1, hlater⟩ := ha
  exact (ends_run_lift.1 (hf a hP st g1 hg1)).imp (fun _ _ hb => ⟨hb.1, hb.2.1, hlater.trans hb.2.2⟩) fun _ _ => id

theorem look (hy : ∀ st g, Making g0 st g → Ends y g (fun a g' => g' = g ∧ P a) fun _ g' => g' = g) :
    Makes g0 (liftM y : Read α) P := by
  refine step fun st g hg => (hy st g hg).imp (fun a g' ha => ?_) fun _ g' hg' => ?_
  · obtain ⟨rfl, ha⟩ := ha
    exact ⟨ha, hg, .refl g0 st g'⟩
  · rw [hg']
    exact hg.grown

theorem alloc (hk : ∀ k ∈ e.children, g0.New k) (hs : e.Shaped := by trivial) (hclass : e.skeleton? = none := by rfl)
    (hclause : ∀ c, e ≠ .clause c := by simp) : Makes g0 (liftM (Build.alloc e) : Read Id) g0.New := by
  refine step fun st g hg => ends_alloc.2 ⟨hg.size_le, hg.add hk hs (fun c hc => absurd hc (hclause c)) ?_, .add hclass⟩
  rintro c rfl
  cases hclass

theorem modifySymbol {f} (hid : g0.New id)
    (hk : ∀ s, (∀ k ∈ s.children, g0.New k) → ∀ k ∈ (f s).children, g0.New k) (hname : ∀ s, (f s).name = s.name)
    (horder : ∀ s, (f s).order = s.order) : Makes g0 (liftM (Build.modifySymbol id f) : Read Unit) fun _ => True := by
  refine step fun st g hg => ends_modifySymbol_of (fun s hs => ?_) hg.grown
  have ho : (symbol (f s)).facet = (symbol s).facet := by
    simp only [facet, hname, horder]
  exact ⟨trivial, hg.set hid hs (hk s (hg.made id _ hid hs).1) trivial ho, .set hs ho rfl⟩

theorem modifyClass {f} (hid : g0.New id) (hk : ∀ c, (∀ k ∈ c.children, g0.New k) → ∀ k ∈ (f c).children, g0.New k)
    (hsymbols : ∀ c, (f c).symbols = c.symbols) (hskeleton : ∀ c, (f c).skeleton = c.skeleton) :
    Makes g0 (liftM (Build.modifyClass id f) : Read Unit) fun _ => True := by
  refine step fun st g hg => ends_modifyClass_of (fun c hc => ?_) hg.grown
  have ho : (classDef (f c)).facet = (classDef c).facet := by
    simp only [facet, hsymbols]
  exact ⟨trivial, hg.set hid hc (hk c (hg.made id _ hid hc).1) trivial ho,
    .set hc ho (by simp only [skeleton?, hskeleton])⟩

end Makes
end Read
end Modelica
