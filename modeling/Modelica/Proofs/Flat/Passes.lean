/-
The passes over a class that stands alone.

A class without nested classes and without a class around it finds nothing by
name: neither a class (`ends_search`) nor a constant behind a point
(`findConstant_fails`). So in such a class no constants are pulled in and no
calls renamed. `flattenReferences_runs` says what remains of a tree whose
references have been flattened.
-/
import Modelica.Proofs.Graph.Copy
import Modelica.Proofs.Graph.Visit
import Modelica.Proofs.Table

namespace Modelica

open List Element StateT

variable {g g' : Graph} {c : ClassDef}

/-- A class that holds no classes and stands in none. -/
structure Graph.Alone (g : Graph) (cls : Id) (c : ClassDef) : Prop where
  get? : g.get? cls = some (.classDef c)
  parent : c.parent = none
  classes : c.classes = {}

theorem Graph.Alone.extends {cls} (h : g.Alone cls c) (hg : Extends g g') :
    g'.Alone cls c := ⟨Extends.get?_some hg h.get?, h.parent, h.classes⟩

namespace Build

variable {g : Graph} {cls : Id} {c : ClassDef} {F : Fault → Graph → Prop}

variable {Q : TypeForm → Graph → Prop}

theorem ends_enclosing (h : g.Alone cls c) {Q} : Ends (enclosing cls) g Q F ↔ Q [cls] g := by
  simp [enclosing, ancestors, ends_classAt h.get?, h.parent]

theorem ends_follow (h : g.Alone cls c) (path : List String) {Q} : Ends (follow cls path) g Q F ↔ Q none g := by
  have hnone : ∀ name, c.classes.get? name = none := fun name => by rw [h.classes]; rfl
  match path with
  | [] => exact ends_pure
  | [name] => simp [follow, ends_classAt h.get?, hnone]
  | name :: other :: rest => simp [follow, ends_classAt h.get?, hnone]

theorem ends_search (h : g.Alone cls c) (path : List String) {Q} :
    Ends (search cls path) g Q F ↔ F (.classNotFound (dottedText path)) g := by
  simp [search, searchIn, ends_enclosing h, ends_follow h]

theorem ends_typeForm {v id} (hv : v = .node id) (hr : g.IsReference id) :
    Ends (typeForm v) g Q F ↔ Q (.reference id) g := by
  obtain ⟨r, hr⟩ := hr
  subst hv
  simp [typeForm, ends_element hr]

theorem ends_typeForm_instanced {v id} (hv : v = .node id) (hc : g.ClassAt id c)
    (hrole : c.role = .instanced) : Ends (typeForm v) g Q F ↔ Q (.instanced id) g := by
  subst hv
  simp [typeForm, ends_element hc, hrole]

/-- A symbol that can be read: its keywords are there, and its type is a
dotted name. -/
structure Readable (g : Graph) (symbol : Id) (s : Symbol) (words : List String) : Prop where
  get? : g.get? symbol = some (.symbol s)
  keywords : g.get? s.keywords = some (.keywords words)
  type : ∃ t names, s.type = .node t ∧ g.Chain t names ∧ names.length ≤ g.size

theorem findConstant_fails (h : g.Alone cls c) (hs : ∀ s ∈ c.symbols.values, ∃ sym words, Readable g s sym words)
    (name other : String) (rest : List String) :
    Ends (findConstant cls (name :: other :: rest)) g (fun _ _ => False) fun f g' =>
      noConstant f.root = true ∧ g' = g := by
  simp only [findConstant, findConstantFrom, searchOne, if_true, ends_bind, ends_attempt, ends_search h, Fault.root,
    ends_throw, ends_classAt h.get?]
  cases hget : c.symbols.get? name with
  | none => simp [noConstant, Fault.root]
  | some s =>
    have hmem : s ∈ c.symbols.values := mem_map.2 ⟨_, Table.mem_entries_of_get? hget, rfl⟩
    obtain ⟨sym, words, hsym⟩ := hs s hmem
    obtain ⟨t, names, ht, hchain, hlen⟩ := hsym.type
    simp only [ends_bind, ends_keywordsOf hsym.get? hsym.keywords]
    cases hw : words.contains "constant" with
    | true =>
      simp only [Bool.not_true, Bool.false_eq_true, if_false, ends_bind, ends_symbolAt hsym.get?,
        ends_typeForm ht hchain.isReference, ends_path hchain hlen, ends_search h]
      exact ⟨rfl, trivial⟩
    | false =>
      simp only [Bool.not_false, if_true, ends_bind, ends_throw]
      exact ⟨rfl, trivial⟩

end Build

namespace ConstantSearch

open Build

variable {g : Graph} {cls : Id} {c : ClassDef}

variable {st : ConstantSearch}

variable (h : g.Alone cls c) (hs : ∀ s ∈ c.symbols.values, ∃ sym words, Readable g s sym words)

include h hs

theorem enterReference_runs {id rs r} (hr : g.ReferenceAt id r) (hchain : g.Chain id rs)
    (hlen : rs.length ≤ g.size) (hst : st.around = [(cls, {})]) :
    Runs ((enterReference id r).run st) g fun x g' => x.2.around = [(cls, {})] ∧ g' = g := by
  simp only [enterReference, run_bind, run_get, pure_bind, run_set, hst]
  split
  · next hc =>
    simp only [ends_lift_bind, ends_path hchain hlen, ends_attempt]
    -- A reference with a child has more than one name.
    obtain ⟨r', rest, rfl⟩ := hchain.second hr (by simpa using hc.2)
    refine (findConstant_fails h hs _ _ _).imp (fun _ _ => False.elim) ?_
    rintro f _ ⟨hf, rfl⟩
    rw [if_pos hf]
    exact ⟨rfl, rfl⟩
  · exact ⟨rfl, rfl⟩

theorem walk_runs {n d id}
    (hd : d ≤ n) (hsize : d ≤ g.size) (ht : g.Tree (fun _ e => e.isClass = false) d id) (hst : st.around = [(cls, {})]) :
    Runs ((visitor.walk n id).run st) g fun x g' => x.2.around = [(cls, {})] ∧ g' = g := by
  refine Visitor.walk_reads (I := fun st : ConstantSearch => st.around = [(cls, {})]) ?_ ?_ hd hsize ht hst
  · intro st d id hst hd ht
    obtain ⟨e, he, hp, hrest⟩ := ht
    simp only [visitor, ends_lift_bind, ends_element he]
    cases e with
    | classDef c => simp [isClass] at hp
    | reference r =>
      obtain ⟨rs, hchain, hlen⟩ := Graph.Tree.chain (d := d + 1) ⟨_, he, hp, hrest⟩ ⟨r, he⟩
      exact enterReference_runs h hs he hchain (by omega) hst
    | _ => exact ⟨hst, rfl⟩
  · intro st d id hst hd ht
    obtain ⟨e, he, hp, -⟩ := ht
    simp only [visitor, ends_lift_bind, ends_element he]
    cases e with
    | classDef c => simp [isClass] at hp
    | _ => exact ⟨hst, rfl⟩

end ConstantSearch

theorem Build.pullConstants_runs {cls} (h : g.Alone cls c) (hrole : c.role = .instanced)
    (hs : ∀ s ∈ c.symbols.values, ∃ sym words, Readable g s sym words)
    (ht : ∀ id ∈ c.children, ∃ d ≤ g.size, g.Tree (fun _ e => e.isClass = false) d id) :
    Runs (pullConstants cls) g fun _ g' => g' = g := by
  have henter : Runs ((ConstantSearch.visitor.enter cls).run {}) g fun x g' => x.2.around = [(cls, {})] ∧ g' = g := by
    simp only [ConstantSearch.visitor, ends_lift_bind, ends_element h.get?, hrole]
    exact ⟨rfl, rfl⟩
  have hexit : ∀ st : ConstantSearch, st.around = [(cls, {})] →
      Runs ((ConstantSearch.visitor.exit cls).run st) g fun _ g' => g' = g := by
    intro st hst
    simp only [ConstantSearch.visitor, run_bind, run_lift, ends_bind,
      ends_element h.get?, ends_pure, if_pos hrole, run_get, hst, ends_modifyClass h.get?]
    exact Graph.set_get? h.get?
  simp only [pullConstants, ends_discard, Visitor.run, ends_bind, ends_size, Visitor.walk, run_bind,
    run_lift, ends_pure]
  refine henter.imp ?_
  rintro x g' ⟨hx, hg⟩
  rw [hg, ends_element h.get?]
  refine Runs.imp (ends_forIn_state (fun (st : ConstantSearch) g' => st.around = [(cls, {})] ∧ g' = g) ?_ ⟨hx, rfl⟩) ?_
  · rintro id hid st g' ⟨hst, hg⟩
    obtain ⟨d, hd, ht⟩ := ht id hid
    rw [hg]
    exact ConstantSearch.walk_runs h hs hd hd ht hst
  · rintro y g' ⟨hy, hg⟩
    rw [hg]
    exact hexit y.2 hy

/-! ### Calls -/

/-- Nothing that is called has the name of an elementary type. -/
def Graph.Callable (g : Graph) : Element → Prop
  | .expression (.node op) _ => ∀ r, g.get? op = some (.reference r) → r.name ∉ elementaryNames
  | _ => True

namespace Build

variable {g : Graph} {cls : Id} {c : ClassDef} {d : Nat} {id : Id}

theorem scopeCall_runs (h : g.Alone cls c) (hd : d < g.size) (ht : g.Tree (fun _ e => g.Callable e) (d + 1) id)
    (functions : Table String Id) : Runs ((scopeCall cls id).run functions) g fun x g' => x.2 = functions ∧ g' = g := by
  obtain ⟨e, he, hcall, hf, hl⟩ := ht
  simp only [scopeCall, ends_lift_bind, ends_element he]
  split
  · next op operands =>
    have htop := hl op (by simp [links, children, Value.nodes])
    obtain ⟨eop, heop⟩ := htop.get?
    simp only [ends_lift_bind, ends_element heop]
    split
    · next r =>
      obtain ⟨rs, hchain, hlen⟩ := htop.chain ⟨r, heop⟩
      obtain ⟨rest, rfl⟩ := hchain.head heop
      have hname : isElementary ((r :: rest).map (·.name)) = false := by
        simpa [isElementary] using hcall r heop
      simp only [ends_lift_bind, ends_bind, ends_path hchain (by omega),
        ends_attempt, findClass, findOriginal, hname, Bool.false_eq_true, if_false, ends_search h, Fault.root, if_true,
        ends_pure]
      exact ⟨rfl, rfl⟩
    · exact ⟨rfl, rfl⟩
  · exact ⟨rfl, rfl⟩

theorem callable_rename {s φ g'} (h : Graph.Image s φ g g') {e}
    (hl : ∀ l ∈ e.links, s l) (hc : g.Callable e) : g'.Callable (e.rename φ) := by
  cases e with
  | expression op vs =>
    cases op with
    | node o =>
      intro r hr
      obtain ⟨eo, heo, heo', _⟩ := h.image o (hl o (by simp [links, children, Value.nodes]))
      rw [heo'] at hr
      cases eo with
      | reference r0 =>
        simp only [rename, Option.some.injEq, reference.injEq] at hr
        rw [← hr]
        exact hc r0 heo
      | _ => simp [rename] at hr
    | _ => trivial
  | _ => trivial

/-- In a class that stands alone calls keep their names: what remains is a
copy. -/
theorem scopeCalls_runs {p} (hp : ∀ id e, p id e → e.hasSource = false ∧ g.Callable e)
    (h : g.Alone cls c) (hd : d ≤ g.size) (ht : g.Tree p d id) (functions : Table String Id) :
    Runs (scopeCalls cls id functions) g fun x g' => x.2 = functions ∧ Graph.Extends g g' ∧
      g'.Tree (fun _ e => e.hasSource = false) d x.1 := by
  simp only [scopeCalls, ends_bind]
  refine (copy_runs (fun id e hpe => (hp id e hpe).1) ht (by omega)).imp ?_
  rintro new g' ⟨s, φ, hs, rfl, himage⟩
  have hsource : ∀ id e, p id e → e.hasSource = false := fun id e hpe => (hp id e hpe).1
  have htree : g'.Tree (fun _ e => g'.Callable e) d (φ id) :=
    himage.tree hsource (fun a e ha he hpe => callable_rename himage (himage.get? ha he).2 (hp a e hpe).2) hs ht
  have hsize := himage.base.size_le
  simp only [Visitor.run, ends_bind, ends_size, ends_pure]
  refine (Visitor.walk_reads (I := fun t => t = functions) ?_ ?_ (Nat.le_succ_of_le (hd.trans hsize))
    (hd.trans hsize) htree rfl).imp ?_
  · intro t d id ht _ _
    exact ⟨ht, rfl⟩
  · intro t d id ht hd' htree'
    subst ht
    exact scopeCall_runs (h.extends himage.base) hd' htree' t
  · rintro x g'' ⟨hx, hg⟩
    rw [hg]
    refine ⟨hx, himage.base, himage.tree hsource (fun a e _ _ hpe => ?_) hs ht⟩
    rw [hasSource_rename]
    exact hsource a e hpe

end Build

/-! ### References -/

/-- A reference without subscripts. -/
def Reference.Bare (r : Reference) : Prop := ∀ row ∈ r.indices, ∀ v ∈ row, v = .null

/-- A dotted reference without subscripts. -/
def Graph.Bare (g : Graph) (id : Id) : Prop := ∃ rs, g.Chain id rs ∧ ∀ r ∈ rs, r.Bare

def Element.isReference : Element → Bool
  | .reference _ => true
  | _ => false

namespace ReferenceSearch

open Build

/-- What flattening references leaves of a graph: all that stands before `n`,
all that is no reference, and references as references. -/
structure Keeps (n : Nat) (g g' : Graph) : Prop where
  size : g'.size = g.size
  get? : ∀ id e, g.get? id = some e → id < n ∨ e.isReference = false → g'.get? id = some e
  isReference : ∀ id, g.IsReference id → g'.IsReference id
  bare : ∀ id, g.Bare id → g'.Bare id
  tree : ∀ p : Id → Element → Prop, (∀ a r r', p a (.reference r) → p a (.reference r')) →
    ∀ d id, g.Tree p d id → g'.Tree p d id

variable {n : Nat} {g g1 g' : Graph} {id : Id}

variable {r : Reference} {rest : List Reference} {a container : Id} {p : Id → Element → Prop} {d : Nat} {k : ClassDef}

theorem Keeps.refl (n : Nat) (g : Graph) : Keeps n g g :=
  ⟨rfl, fun _ _ h _ => h, fun _ h => h, fun _ h => h, fun _ _ _ _ h => h⟩

theorem Keeps.trans (h1 : Keeps n g g1) (h2 : Keeps n g1 g') : Keeps n g g' :=
  ⟨h2.size.trans h1.size, fun id e he hid => h2.get? id e (h1.get? id e he hid) hid,
    fun id hr => h2.isReference id (h1.isReference id hr), fun id hb => h2.bare id (h1.bare id hb),
    fun p hp d id ht => h2.tree p hp d id (h1.tree p hp d id ht)⟩

/-- The one reference that stands for a dotted one. -/
def joined (name : String) (r : Reference) (rest : List Reference) : Reference :=
  { name, indices := r.indices ++ rest.flatMap (·.indices), child := [] }

theorem bare_joined {name} (h : ∀ r' ∈ r :: rest, r'.Bare) : (joined name r rest).Bare := by
  intro row hrow
  rcases mem_append.1 hrow with hrow | hrow
  · exact h r (.head _) row hrow
  · obtain ⟨r', hr', hrow⟩ := mem_flatMap.1 hrow
    exact h r' (.tail _ hr') row hrow

/-- A reference without subscripts stays one when another is flattened, or it
itself. -/
theorem bare_set (hchain : g.Chain id (r :: rest)) (name : String) (ha : g.Bare a) :
    (g.set id (.reference (joined name r rest))).Bare a := by
  obtain ⟨rs, hrs, hbare⟩ := ha
  have hid : id < g.size := Graph.get?_lt hchain.1
  induction rs generalizing a with
  | nil => exact hrs.elim
  | cons r' rest' ih =>
    by_cases haid : a = id
    · subst haid
      refine ⟨[joined name r rest], ⟨by rw [Graph.get?_set_self g _ hid], rfl⟩, fun r'' hr'' => ?_⟩
      rw [mem_singleton.1 hr'']
      rw [← Graph.Chain.unique hchain hrs] at hbare
      exact bare_joined hbare
    · obtain ⟨hr', hnext⟩ := hrs
      have hr'' : (g.set id (.reference (joined name r rest))).ReferenceAt a r' := by
        exact (Graph.get?_set_other g _ haid).trans hr'
      cases hc : r'.child with
      | nil => exact ⟨[r'], ⟨hr'', by simp [hc]⟩, fun x hx => hbare x (by simp_all)⟩
      | cons c cs =>
        simp only [hc] at hnext
        obtain ⟨rs, hrs, hb⟩ := ih hnext fun x hx => hbare x (.tail _ hx)
        refine ⟨r' :: rs, ⟨hr'', by simpa [hc] using hrs⟩, fun x hx => ?_⟩
        rcases mem_cons.1 hx with rfl | hx
        · exact hbare x (.head _)
        · exact hb x hx

theorem isReference_set (hchain : g.Chain id (r :: rest)) (name : String) (ha : g.IsReference a) :
    (g.set id (.reference (joined name r rest))).IsReference a := by
  obtain ⟨r', hr'⟩ := ha
  by_cases haid : a = id
  · subst haid
    exact ⟨_, Graph.get?_set hchain.1 _⟩
  · exact ⟨r', by rw [Graph.get?_set_other g _ haid, hr']⟩

theorem tree_later (hchain : g.Chain id (r :: rest)) (hl : ∀ l ∈ (reference r).links, g.Tree p d l) :
    ∀ r' ∈ rest, ∀ l ∈ Value.nodesOfRows r'.indices, g.Tree p d l := by
  induction rest generalizing id r d with
  | nil => simp
  | cons r1 rest ih =>
    obtain ⟨_, hnext⟩ := hchain
    cases hc : r.child with
    | nil => simp [hc] at hnext
    | cons c cs =>
      simp only [hc] at hnext
      have hct : g.Tree p d c := hl c (by simp [links, children, hc])
      have hl1 := (hct.element hnext.1).2.2
      intro r' hr' l hmem
      refine Graph.Tree.mono (d := d - 1) ?_ (by omega)
      rcases mem_cons.1 hr' with rfl | hr'
      · exact hl1 l (by simp [links, children, hmem])
      · exact ih hnext hl1 r' hr' l hmem

theorem tree_set (hp : ∀ a r r', p a (.reference r) → p a (.reference r')) (hchain : g.Chain id (r :: rest))
    (name : String) (h : g.Tree p d a) : (g.set id (.reference (joined name r rest))).Tree p d a := by
  refine h.transfer (fun _ => isReference_set hchain name) fun a e d he hpe hf hl => ?_
  by_cases haid : a = id
  · subst haid
    have he' := he
    cases hchain.1.symm.trans he'
    refine ⟨_, Graph.get?_set he _, hp a r _ hpe, fun _ => ?_, fun l hmem => ?_⟩
    · simp [Graph.Formed, joined]
    · simp only [links, children, joined, append_nil, Value.nodesOfRows, flatMap_append,
        mem_append] at hmem
      rcases hmem with hmem | hmem
      · exact hl l (by simp [links, children, Value.nodesOfRows, hmem])
      · obtain ⟨row, hrow, hmem⟩ := mem_flatMap.1 hmem
        obtain ⟨r', hr', hrow⟩ := mem_flatMap.1 hrow
        exact tree_later hchain hl r' hr' l (mem_flatMap.2 ⟨row, hrow, hmem⟩)
  · exact ⟨e, by rw [Graph.get?_set_other g _ haid, he], hpe, fun hr => hf.imp hr, hl⟩

theorem keeps_set (hchain : g.Chain id (r :: rest)) (hn : n ≤ id) (name : String) :
    Keeps n g (g.set id (.reference (joined name r rest))) := by
  refine ⟨Graph.size_set g _ _, fun a e he ha => ?_, fun _ => isReference_set hchain name,
    fun _ => bare_set hchain name, fun _ hp _ _ => tree_set hp hchain name⟩
  rw [Graph.get?_set_other g _ ?_, he]
  rintro rfl
  rcases ha with ha | ha
  · exact Nat.not_lt.2 hn ha
  · cases hchain.1.symm.trans he
    simp [isReference] at ha

/-- What may be visited: trees behind `n`, no deeper than the graph is large. -/
def Visitable (n : Nat) (g : Graph) (d : Nat) (id : Id) : Prop :=
  d ≤ g.size ∧ g.Tree (fun id e => n ≤ id ∧ e.hasSource = false) d id

theorem enterReference_runs (hk : g.ClassAt container k) (stem : String)
    (ht : Visitable n g (d + 1) id) (hr : g.ReferenceAt id r) (st : ReferenceSearch) :
    Runs ((enterReference container stem id).run st) g fun _ g' =>
      Keeps n g g' ∧ ∀ d id, Visitable n g d id → Visitable n g' d id := by
  obtain ⟨hd, ht⟩ := ht
  obtain ⟨rs, hchain, hlen⟩ := ht.chain ⟨r, hr⟩
  obtain ⟨rest, rfl⟩ := hchain.head hr
  simp only [enterReference, run_bind, run_modify, pure_bind, run_get]
  split
  · simp only [ends_lift_bind, ends_path hchain (hlen.trans hd), ends_classAt hk]
    split
    · simp only [ends_lift_bind, ends_referenceAt hr, ends_size, run_lift, ends_bind, ends_pure, ends_store]
      rw [ends_laterIndices hchain (by simp at hlen; omega)]
      refine ⟨keeps_set hchain (ht.element hr).1.1 _, fun d' id' hv => ⟨?_, ?_⟩⟩
      · rw [Graph.size_set]
        exact hv.1
      · exact tree_set (fun _ _ _ h => h) hchain _ hv.2
    · exact ⟨Keeps.refl n g, fun _ _ h => h⟩
  · exact ⟨Keeps.refl n g, fun _ _ h => h⟩

theorem Visitable.children (h : Visitable n g (d + 1) id) :
    ∃ e, g.get? id = some e ∧ ∀ c ∈ e.children, Visitable n g d c := by
  obtain ⟨hd, e, he, _, _, hl⟩ := h
  exact ⟨e, he, fun c hc => ⟨by omega, hl c (mem_links_of_mem_children hc)⟩⟩

theorem walk_runs (hk : g.ClassAt container k) (hn : container < n) (stem : String) {m}
    (hd : d ≤ m) (ht : Visitable n g d id) (st : ReferenceSearch) :
    Runs (((visitor container stem).walk m id).run st) g fun _ g' => Keeps n g g' := by
  refine (Visitor.walk_runs (I := fun _ g' => Keeps n g g') (T := Visitable n) (fun _ _ h => h.2.elim) ?_ ?_ hd ht
    (Keeps.refl n g)).imp fun _ _ h => h.1
  · intro st g1 d id hkeep ht
    obtain ⟨e, he, hp, _⟩ := ht.2
    simp only [visitor, ends_lift_bind, ends_element he]
    cases e with
    | reference r =>
      refine (enterReference_runs (hkeep.get? _ _ hk (.inl hn)) stem ht he st).imp ?_
      rintro _ g2 ⟨hkeep', hT⟩
      exact ⟨hkeep.trans hkeep', hT, (hT _ _ ht).children⟩
    | argument v scope redeclare source => simp [hasSource] at hp
    | _ => exact ⟨hkeep, fun _ _ h => h, ht.children⟩
  · intro st g1 d id hkeep ht
    obtain ⟨e, he, hp, _⟩ := ht.2
    simp only [visitor, ends_lift_bind, ends_element he]
    cases e with
    | argument v scope redeclare source => simp [hasSource] at hp
    | _ => exact ⟨hkeep, fun _ _ h => h⟩

end ReferenceSearch

theorem Graph.Image.bare {s φ} (h : Image s φ g g') {a} (ha : s a) (hb : g.Bare a) : g'.Bare (φ a) := by
  obtain ⟨rs, hrs, hb⟩ := hb
  refine ⟨rs.map (Reference.rename φ), h.chain ha hrs, fun r hr row hrow v hv => ?_⟩
  obtain ⟨r0, hr0, rfl⟩ := mem_map.1 hr
  obtain ⟨row0, hrow0, rfl⟩ := mem_map.1 hrow
  rw [Value.renameAll_eq_map] at hv
  obtain ⟨v0, hv0, rfl⟩ := mem_map.1 hv
  rw [hb r0 hr0 row0 hrow0 v0 hv0]
  rfl

/-- The second graph holds the first one and, behind it, an image of a part of
it with flattened references. -/
structure Graph.Flattened (s : Id → Prop) (φ : Id → Id) (g g' : Graph) : Prop where
  base : Extends g g'
  fresh : ∀ a, s a → g.size ≤ φ a
  links : ∀ a e, s a → g.get? a = some e → ∀ l ∈ e.links, s l
  image : ∀ a, s a → ∃ e, g'.get? (φ a) = some e
  get? : ∀ a e, s a → g.get? a = some e → e.isReference = false → g'.get? (φ a) = some (e.rename φ)
  bare : ∀ a, s a → g.Bare a → g'.Bare (φ a)
  tree : ∀ q : Element → Prop, (∀ e, q e → e.hasSource = false) → (∀ e, q e → q (e.rename φ)) →
    (∀ r r', q (.reference r) → q (.reference r')) → ∀ d a, s a → g.Tree (fun _ e => q e) d a →
      g'.Tree (fun _ e => q e) d (φ a)

theorem Element.isReference_rename (φ : Id → Id) (e : Element) : (e.rename φ).isReference = e.isReference := by
  cases e <;> rfl

theorem Build.flattenReferences_runs {p} (hp : ∀ id e, p id e → e.hasSource = false) {container k}
    (hk : g.ClassAt container k) (stem : String) {d id} (hd : d ≤ g.size) (ht : g.Tree p d id) :
    Runs (flattenReferences container stem id) g fun new g' =>
      ∃ s φ, s id ∧ new = φ id ∧ Graph.Flattened s φ g g' := by
  simp only [flattenReferences, ends_bind, ends_discard, ends_pure]
  refine (copy_runs hp ht (by omega)).imp ?_
  rintro new g1 ⟨s, φ, hs, rfl, himage⟩
  have hsize := himage.base.size_le
  have htree : g1.Tree (fun id e => g.size ≤ id ∧ e.hasSource = false) d (φ id) := by
    refine himage.tree hp (fun a e ha _ hpe => ⟨himage.fresh a ha, ?_⟩) hs ht
    rw [hasSource_rename]
    exact hp a e hpe
  simp only [Visitor.run, ends_bind, ends_size, ends_pure]
  refine (ReferenceSearch.walk_runs (Graph.Extends.get?_some himage.base hk) (Graph.get?_lt hk) stem (by omega)
    ⟨by omega, htree⟩ {}).imp fun _ g' hkeep => ?_
  have hget : ∀ a e, s a → g.get? a = some e → e.isReference = false → g'.get? (φ a) = some (e.rename φ) :=
    fun a e ha he hr => hkeep.get? _ _ (himage.get? ha he).1 (.inr (by rw [isReference_rename, hr]))
  refine ⟨s, φ, hs, rfl, ?_, himage.fresh, fun a e ha he => (himage.get? ha he).2, fun a ha => ?_, hget,
    fun a ha hb => hkeep.bare _ (himage.bare ha hb), fun q hq hφ hr d a ha hta => ?_⟩
  · refine ⟨by rw [hkeep.size]; exact hsize, fun a ha _ => ?_⟩
    cases he : g.get? a with
    | none =>
      exact absurd he (by simp [Graph.get?, ha])
    | some e => exact hkeep.get? a e (Graph.Extends.get?_some himage.base he) (.inl ha)
  · obtain ⟨e, he, he', _⟩ := himage.image a ha
    cases hr : e.isReference with
    | false => exact ⟨_, hget a e ha he hr⟩
    | true =>
      cases e with
      | reference r =>
        obtain ⟨r', hr'⟩ := hkeep.isReference _ ⟨_, he'⟩
        exact ⟨_, hr'⟩
      | _ => simp [isReference] at hr
  · exact hkeep.tree _ (fun _ => hr) d _ (himage.tree (fun _ => hq) (fun _ e _ _ => hφ e) ha hta)

end Modelica
