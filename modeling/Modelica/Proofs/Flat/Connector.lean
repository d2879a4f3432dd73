/-
Flattening a connector for a second time.

The class of a connector has been flattened before connections are expanded:
its variables have elementary types and no modifications are left. To
flatten it again is to copy it. The class itself stays as it is, and the copy
has the same variables, in the same order, with the same keywords
(`flattenClass_runs`).
-/
import Modelica.Proofs.Flat.Passes

namespace Modelica

open List Element StateT

variable {e : Element} {g g' : Graph} {words : List String}

/-- The equations and statements of a class. -/
def ClassDef.parts (c : ClassDef) : List Id := c.equations ++ c.initialEquations ++ c.statements ++ c.initialStatements

/-- What the equations and statements of a class are for. -/
inductive Purpose where
  | equation | initialEquation | statement | initialStatement
deriving DecidableEq

def ClassDef.having (c : ClassDef) : Purpose → List Id
  | .equation => c.equations
  | .initialEquation => c.initialEquations
  | .statement => c.statements
  | .initialStatement => c.initialStatements

theorem ClassDef.mem_parts {c : ClassDef} {l purpose} (h : l ∈ c.having purpose) : l ∈ c.parts := by
  cases purpose <;> simp only [having] at h <;> simp [parts, h]

/-- A class with more equations or statements. -/
def ClassDef.add (f : ClassDef) (news : List Id) : Purpose → ClassDef
  | .equation => { f with equations := f.equations ++ news }
  | .initialEquation => { f with initialEquations := f.initialEquations ++ news }
  | .statement => { f with statements := f.statements ++ news }
  | .initialStatement => { f with initialStatements := f.initialStatements ++ news }

theorem ClassDef.add_symbols (f : ClassDef) (news : List Id) (purpose : Purpose) :
    (f.add news purpose).symbols = f.symbols := by cases purpose <;> rfl

/-- Elements that no pass over a class acts on, references apart. -/
def Element.isPlain : Element → Bool
  | .classDef _ | .symbol _ | .argument .. => false
  | _ => true

theorem Element.isClass_of_isPlain (h : e.isPlain = true) : e.isClass = false := by
  cases e <;> simp_all [isPlain, isClass]

theorem Element.hasSource_of_isPlain (h : e.isPlain = true) : e.hasSource = false := by
  cases e <;> simp_all [isPlain, hasSource]

def Element.isSymbol : Element → Bool
  | .symbol _ => true
  | _ => false

/-- What a visit to a symbol passes over. -/
def Element.isQuiet (e : Element) : Prop := e.isClass = false ∧ e.isSymbol = false
deriving Decidable

/-- The keywords of a symbol. -/
def Graph.wordsOf (g : Graph) (symbol : Id) : List String :=
  match g.get? symbol with
  | some (.symbol s) =>
    match g.get? s.keywords with
    | some (.keywords words) => words
    | _ => []
  | _ => []

/-- A variable of elementary type, without modifications. -/
structure Graph.Variable (g : Graph) (id : Id) (s : Symbol) (words : List String) : Prop where
  get? : g.get? id = some (.symbol s)
  keywords : g.get? s.keywords = some (.keywords words)
  type : ∃ t names, s.type = .node t ∧ g.Chain t names ∧ Build.isElementary (names.map (·.name)) = true ∧
    ∀ r ∈ names, r.Bare
  modification : s.modification = none
  connector : s.connector = none
  tree : ∃ d < g.size, ∀ l ∈ (Element.symbol s).links, g.Tree (fun _ e => e.isPlain = true) d l

/-- The flattened class of a connector whose variables have elementary types. -/
structure Graph.Connector (g : Graph) (k : Id) (c : ClassDef) : Prop where
  get? : g.get? k = some (.classDef c)
  role : c.role = .declared
  parent : c.parent = none
  bases : c.bases = []
  classes : c.classes = {}
  functions : c.functions = {}
  category : c.category ≠ builtinCategory
  nodup : c.symbols.keys.Nodup
  symbols : ∀ e ∈ c.symbols.entries, ∃ s words, g.Variable e.2 s words ∧ s.name = e.1
  equations : ∀ id ∈ c.equations ++ c.initialEquations ++ c.statements ++ c.initialStatements,
    ∃ d ≤ g.size, g.Tree (fun _ e => e.isPlain = true ∧ g.Callable e) d id
  remarks : ∀ m ∈ c.remarks, ∃ args, g.get? m = some (.modification args) ∧
    ∀ a ∈ args, ∃ d ≤ g.size, g.Tree (fun _ e => e.isClass = false ∧ e.isSymbol = false) d a

theorem Graph.Variable.length_le {id s} (h : g.Variable id s words) {t names}
    (ht : s.type = .node t) (hchain : g.Chain t names) : names.length ≤ g.size := by
  obtain ⟨d, hd, htree⟩ := h.tree
  have hlink : t ∈ (Element.symbol s).links := by
    simp [links, Symbol.children, ht, Value.nodes]
  obtain ⟨names', hchain', hlen⟩ := (htree t hlink).chain hchain.isReference
  rw [hchain.unique hchain']
  omega

theorem Graph.Variable.unique {id s s' words'} (h : g.Variable id s words) (h' : g.Variable id s' words') :
    s' = s ∧ words' = words := by
  cases h.get?.symm.trans h'.get?
  cases h.keywords.symm.trans h'.keywords
  exact ⟨rfl, rfl⟩

namespace Graph.KeepsBut

variable {changed : Id → Prop} {kind : Element → Bool} {g g' : Graph}

theorem callable (h : KeepsBut changed kind g g') {p} (hp : ∀ id e, p id e → kind e = false)
    {d e} (hl : ∀ l ∈ e.links, g.Tree p d l) (hc : g.Callable e) : g'.Callable e := by
  cases e with
  | expression op vs =>
    cases op with
    | node o =>
      intro r hr
      have ho := hl o (by simp [links, children, Value.nodes])
      obtain ⟨eo, heo⟩ := ho.get?
      rw [h.get? heo (hp o eo (ho.element heo).1)] at hr
      cases hr
      exact hc r heo
    | _ => trivial
  | _ => trivial

theorem callable_tree (h : KeepsBut changed kind g g') (hkind : ∀ e : Element, e.isPlain = true → kind e = false) {d id}
    (ht : g.Tree (fun _ e => e.isPlain = true ∧ g.Callable e) d id) :
    g'.Tree (fun _ e => e.isPlain = true ∧ g'.Callable e) d id :=
  ht.transfer (fun _ => h.isReference) fun _ e _ he hp hf hl =>
    ⟨e, h.get? he (hkind e hp.1), ⟨hp.1, h.callable (fun _ e he => hkind e he.1) hl hp.2⟩, hf.imp, hl⟩

theorem isVariable (h : KeepsBut changed isClass g g') {id s words}
    (hv : g.Variable id s words) : g'.Variable id s words := by
  obtain ⟨t, names, ht, hchain, hrest⟩ := hv.type
  obtain ⟨d, hd, htree⟩ := hv.tree
  refine ⟨h.get? hv.get? rfl, h.get? hv.keywords rfl, ⟨t, names, ht, h.chain hchain, hrest⟩, hv.modification,
    hv.connector, d, hd.trans_le h.base.size_le, fun l hl =>
    h.tree (fun _ _ => isClass_of_isPlain) (htree l hl)⟩

theorem connector (h : KeepsBut changed isClass g g') {k c} (hne : ¬ changed k)
    (hk : g.Connector k c) : g'.Connector k c where
  get? := h.base.get?_some hk.get? hne
  role := hk.role
  parent := hk.parent
  bases := hk.bases
  classes := hk.classes
  functions := hk.functions
  category := hk.category
  nodup := hk.nodup
  symbols e he := by
    obtain ⟨s, words, hv, hname⟩ := hk.symbols e he
    exact ⟨s, words, h.isVariable hv, hname⟩
  equations id hid := by
    obtain ⟨d, hd, ht⟩ := hk.equations id hid
    exact ⟨d, hd.trans h.base.size_le, h.callable_tree (fun _ => isClass_of_isPlain) ht⟩
  remarks m hm := by
    obtain ⟨args, hargs, ht⟩ := hk.remarks m hm
    refine ⟨args, h.get? hargs rfl, fun a ha => ?_⟩
    obtain ⟨d, hd, ht⟩ := ht a ha
    exact ⟨d, hd.trans h.base.size_le, h.tree (fun _ _ he => he.1) ht⟩

end Graph.KeepsBut

theorem Graph.Connector.extends {k c} (h : g.Connector k c) (hg : Extends g g') : g'.Connector k c :=
  (Extends.keepsBut hg fun _ => rfl).connector (fun hf => hf) h

/-! ### Instances -/

/-- The instance of a flattened class, with its own remarks and its own
modifications to pass on. -/
def ClassDef.instanced (c : ClassDef) (remarks environment : Id) : ClassDef :=
  { role := .instanced, name := c.name, category := c.category, symbols := c.symbols, equations := c.equations,
    initialEquations := c.initialEquations, statements := c.statements, initialStatements := c.initialStatements,
    remarks := some remarks, environment := some environment, declaration := c.declaration }

/-- A flat class in which nothing has been entered. -/
def ClassDef.begun (c : ClassDef) (remarks : Id) : ClassDef :=
  { name := c.name, category := c.category, remarks := some remarks, declaration := c.declaration }

/-- A symbol that may have been given an empty modification since. -/
def Graph.Holds (g0 g : Graph) (id : Id) (s : Symbol) : Prop :=
  ∃ given, g.get? id = some (.symbol { s with modification := given }) ∧
    ∀ m ∈ given, g0.size ≤ m ∧ g.get? m = some (.modification [])

/-- The instance of a flattened class while it is passed over. -/
structure Graph.Underway (g0 : Graph) (c : ClassDef) (cls remarks environment : Id) (g : Graph) : Prop where
  base : ExtendsBut (· ∈ c.symbols.values) g0 g
  fresh : g0.size ≤ cls ∧ g0.size ≤ remarks ∧ g0.size ≤ environment
  cls : g.get? cls = some (.classDef (c.instanced remarks environment))
  environment : g.get? environment = some (.modification [])
  remarks : ∃ args, g.get? remarks = some (.modification args) ∧
    ∀ a ∈ args, ∃ d ≤ g0.size, g0.Tree (fun _ e => e.isClass = false ∧ e.isSymbol = false) d a
  symbols : ∀ e ∈ c.symbols.entries, ∀ s words, g0.Variable e.2 s words → g0.Holds g e.2 s

namespace Build

variable {g0 g : Graph} {k : Id} {c : ClassDef}

theorem ends_appendArguments {m args more} (h : g.get? m = some (.modification args)) {Q F} :
    Ends (appendArguments m more) g Q F ↔ Q () (g.set m (.modification (args ++ more))) := by
  simp [appendArguments, ends_argumentsAt h]

theorem absorb_runs {cls remarks environment} (h : g.Connector k c) (hcls : g.get? cls = some (.classDef {
      role := .instanced, name := c.name, category := c.category, remarks := some remarks,
      environment := some environment, declaration := c.declaration }))
    (hremarks : g.get? remarks = some (.modification [])) {R : Id → Prop}
    (hR : ∀ m ∈ c.remarks, ∃ args, g.get? m = some (.modification args) ∧ ∀ a ∈ args, R a) :
    Runs (absorb cls k) g fun _ g' => Graph.ExtendsBut (fun id => id = cls ∨ id = remarks) g g' ∧
      g'.ClassAt cls (c.instanced remarks environment) ∧
      ∃ args, g'.get? remarks = some (.modification args) ∧ ∀ a ∈ args, R a := by
  have hlt := Graph.get?_lt hcls
  have hrc : remarks ≠ cls := by
    rintro rfl
    cases hremarks.symm.trans hcls
  have hinst : c.instanced remarks environment = ClassDef.absorb
      { role := .instanced, name := c.name, category := c.category, remarks := some remarks,
        environment := some environment, declaration := c.declaration } c := by
    simp only [ClassDef.instanced, ClassDef.absorb, Table.insertAll_empty h.nodup, h.classes, h.functions, nil_append]
    rfl
  have hcls' := Graph.get?_set_self g (.classDef (c.instanced remarks environment)) hlt
  have hremarks' : (g.set cls (.classDef (c.instanced remarks environment))).get? remarks =
      some (.modification []) := by
    rw [Graph.get?_set_other g _ hrc, hremarks]
  have hbase : Graph.ExtendsBut (fun id => id = cls ∨ id = remarks) g
      (g.set cls (.classDef (c.instanced remarks environment))) :=
    (Graph.ExtendsBut.refl g).set (.inl (.inl rfl)) _
  simp only [absorb, ends_bind, ends_classAt h.get?, ends_modifyClass hcls, ← hinst, ends_classAt hcls']
  cases hr : c.remarks with
  | none =>
    refine ⟨hbase, hcls', [], hremarks', by simp⟩
  | some theirs =>
    obtain ⟨args, hargs, htrees⟩ := hR theirs hr
    have hargs' : (g.set cls (.classDef (c.instanced remarks environment))).get? theirs =
        some (.modification args) := by
      rw [Graph.get?_set_other g _ ?_, hargs]
      rintro rfl
      cases hargs.symm.trans hcls
    simp only [ClassDef.instanced] at hargs' hremarks' ⊢
    simp only [ends_bind, ends_argumentsAt hargs', ends_appendArguments hremarks']
    refine ⟨hbase.set (.inl (.inr rfl)) _, ?_, args, ?_, htrees⟩
    · exact (Graph.get?_set_other _ _ hrc.symm).trans hcls'
    · rw [Graph.get?_set hremarks' _, nil_append]

theorem inheritTo_runs (h : g.Connector k c) (n : Nat) : Runs (inheritTo (n + 1) k none none) g fun cls g' =>
      ∃ remarks environment, g.Underway c cls remarks environment g' := by
  simp only [inheritTo, ends_bind, ends_classAt h.get?, freshModification, ends_alloc, h.bases, forIn_nil,
    ends_pure, h.role, reduceCtorEq, if_false, Graph.size_add]
  generalize hfresh : classDef {
    role := .instanced, name := c.name, category := c.category, remarks := some g.size,
    environment := some (g.size + 1), declaration := c.declaration } = fresh
  generalize hg3 : (((g.add (.modification [])).1.add (.modification [])).1.add fresh).1 = g3
  have hbase : Graph.Extends g g3 := hg3 ▸ (((Graph.ExtendsBut.refl g).add _).add _).add _
  have hcls : g3.get? (g.size + 1 + 1) = some fresh := by simp [← hg3, Graph.get?_add]
  have henv : g3.get? (g.size + 1) = some (.modification []) := by simp [← hg3, Graph.get?_add]
  have hremarks : g3.get? g.size = some (.modification []) := by
    have : g.size ≠ g.size + 1 + 1 := by omega
    simp [← hg3, Graph.get?_add, this]
  subst hfresh
  refine (absorb_runs (h.extends hbase) hcls hremarks
    (R := fun a => ∃ d ≤ g.size, g.Tree (fun _ e => e.isQuiet) d a)
    fun m hm => ?_).imp ?_
  · obtain ⟨args, hargs, ht⟩ := h.remarks m hm
    exact ⟨args, Graph.Extends.get?_some hbase hargs, ht⟩
  · rintro _ g' ⟨hbase', hcls', hremarks'⟩
    simp only [shiftToBuiltin, ends_bind, ends_classAt hcls', ClassDef.instanced, h.category, if_false, ends_pure]
    have hold : ∀ id < g.size, ¬ (id = g.size + 1 + 1 ∨ id = g.size) := by omega
    refine ⟨g.size, g.size + 1, ?_, ⟨by omega, le_rfl, by omega⟩, hcls', ?_, hremarks', ?_⟩
    · exact (Graph.Extends.but hbase).trans_of hbase' fun id hid hc => absurd hc (hold id hid)
    · refine hbase'.get?_some henv ?_
      rintro (hid | hid) <;> simp at hid
    · intro e _ s words hv
      refine ⟨none, ?_, by simp⟩
      rw [hbase'.get?_some (Graph.Extends.get?_some hbase hv.get?) (hold e.2 (Graph.get?_lt hv.get?)),
        ← hv.modification]

end Build

namespace Graph.Underway

open Build

variable {g0 g : Graph} {k : Id} {c : ClassDef} {cls remarks environment : Id}

variable {F : Fault → Graph → Prop} {name : String} {symbol : Id}

section

variable (h : g0.Underway c cls remarks environment g)

include h

theorem keepsBut (hk : g0.Connector k c) : KeepsBut (· ∈ c.symbols.values) isSymbol g0 g := by
  refine ⟨h.base, fun id e hid he => ?_, fun _ => rfl⟩
  obtain ⟨entry, hentry, rfl⟩ := mem_map.1 hid
  obtain ⟨s, words, hv, _⟩ := hk.symbols entry hentry
  rw [hv.get?] at he
  cases he
  rfl

theorem ends_environmentOf {Q} : Ends (environmentOf cls) g Q F ↔ Q environment g := by
  simp [environmentOf, ends_classAt h.cls, ClassDef.instanced]

theorem ends_takeArguments (name : Option String) {Q} : Ends (takeArguments cls name) g Q F ↔ Q [] g := by
  simp [takeArguments, h.ends_environmentOf, ends_argumentsAt h.environment, set_get? h.environment]

theorem besides {changed g'} (hg : KeepsBut changed isClass g g') (hcls : ¬ changed cls)
    (hnew : ∀ id, changed id → g0.size ≤ id) : g0.Underway c cls remarks environment g' where
  base := h.base.trans_of hg.base fun id hid hc => absurd hid (Nat.not_lt.2 (hnew id hc))
  fresh := h.fresh
  cls := hg.base.get?_some h.cls hcls
  environment := hg.get? h.environment rfl
  remarks := by
    obtain ⟨args, hargs, ht⟩ := h.remarks
    exact ⟨args, hg.get? hargs rfl, ht⟩
  symbols e he s words hv := by
    obtain ⟨given, hget, hgiven⟩ := h.symbols e he s words hv
    exact ⟨given, hg.get? hget rfl, fun m hm => ⟨(hgiven m hm).1, hg.get? (hgiven m hm).2 rfl⟩⟩

theorem add (e : Element) : g0.Underway c cls remarks environment (g.add e).1 :=
  h.besides (Extends.keepsBut ((ExtendsBut.refl g).add e) fun _ => rfl) (fun hf => hf) fun _ => False.elim

theorem give (hmem : (name, symbol) ∈ c.symbols.entries) {s words} (hv : g0.Variable symbol s words) {given}
    (hgiven : ∀ m ∈ given, g0.size ≤ m ∧ g.get? m = some (.modification [])) :
    g0.Underway c cls remarks environment (g.set symbol (.symbol { s with modification := given })) := by
  have hold : symbol < g0.size := get?_lt hv.get?
  have hsize : symbol < g.size := hold.trans_le h.base.size_le
  have hother : ∀ id e, g0.size ≤ id → g.get? id = some e →
      (g.set symbol (.symbol { s with modification := given })).get? id = some e := by
    intro id e hid he
    rw [get?_set_other g _ (hold.trans_le hid).ne', he]
  refine ⟨h.base.set (.inl (mem_map.2 ⟨_, hmem, rfl⟩)) _, h.fresh, hother _ _ h.fresh.1 h.cls,
    hother _ _ h.fresh.2.2 h.environment, ?_, fun e he s' words' hv' => ?_⟩
  · obtain ⟨args, hargs, ht⟩ := h.remarks
    exact ⟨args, hother _ _ h.fresh.2.1 hargs, ht⟩
  · by_cases hid : e.2 = symbol
    · rw [hid] at hv' ⊢
      obtain ⟨rfl, -⟩ := hv.unique hv'
      exact ⟨given, get?_set_self g _ hsize, fun m hm => ⟨(hgiven m hm).1, hother m _ (hgiven m hm).1 (hgiven m hm).2⟩⟩
    · obtain ⟨given', hget, hgiven'⟩ := h.symbols e he s' words' hv'
      exact ⟨given', by rw [get?_set_other g _ hid, hget], fun m hm =>
        ⟨(hgiven' m hm).1, hother m _ (hgiven' m hm).1 (hgiven' m hm).2⟩⟩

theorem instantiateSymbol_runs (hk : g0.Connector k c) {recur orig} (hmem : (name, symbol) ∈ c.symbols.entries) :
    Runs (instantiateSymbol recur orig cls name symbol) g fun _ g' => g0.Underway c cls remarks environment g' := by
  obtain ⟨s, words, hv, -⟩ := hk.symbols _ hmem
  obtain ⟨given, hget, hgiven⟩ := h.symbols _ hmem s words hv
  obtain ⟨t, names, ht, hchain, helem, -⟩ := hv.type
  have hchain' := (h.keepsBut hk).chain hchain
  have hlen := (hv.length_le ht hchain).trans h.base.size_le
  simp only [instantiateSymbol, symbolClass, ends_bind, ends_symbolAt hget, ends_typeForm ht hchain'.isReference,
    ends_attempt, ends_path hchain' hlen, findClass, findOriginal, helem, if_true, ends_throw, Fault.root,
    h.ends_takeArguments, mapM_nil, ends_pure, flatten_nil, giveArguments, ends_alloc]
  have hadd := h.add (.modification [])
  have hget' : (g.add (.modification [])).1.SymbolAt symbol { s with modification := given } :=
    (get?_add_of_lt g _ (get?_lt hget)).trans hget
  rw [ends_symbolAt hget']
  cases given with
  | some m =>
    have hm := hgiven m rfl
    have hm' : (g.add (.modification [])).1.get? m = some (.modification []) := by
      rw [get?_add_of_lt g _ (get?_lt hm.2)]
      exact hm.2
    simp only [ends_appendArguments hm', append_nil, set_get? hm']
    exact hadd
  | none =>
    simp only [ends_modifySymbol hget']
    refine hadd.give hmem hv fun m hm => ?_
    cases hm
    exact ⟨h.base.size_le, get?_add_self g _⟩

end

end Graph.Underway

namespace Build

variable {g0 g : Graph} {k : Id} {c : ClassDef} {cls remarks environment : Id}

theorem instantiate_runs (h : g.Connector k c) : Runs (instantiate k none none) g fun cls g' =>
      ∃ remarks environment, g.Underway c cls remarks environment g' := by
  suffices hs : ∀ n, Runs (instantiateTo (n + 1) k none none) g fun cls g' =>
      ∃ remarks environment, g.Underway c cls remarks environment g' from ends_bind.2 (ends_size.2 (hs _))
  intro n
  simp only [instantiateTo, ends_bind]
  refine Runs.imp (x := inherit k none none) (ends_bind.2 (ends_size.2 (inheritTo_runs h _))) ?_
  rintro cls g1 ⟨remarks, environment, hu⟩
  have hclasses : (c.instanced remarks environment).classes.entries = [] := rfl
  simp only [redeclareAll, checkTargets, ends_bind, hu.ends_environmentOf, ends_argumentsAt hu.environment,
    forIn_nil, ends_pure, ends_filterM_nil, ends_setArguments, Graph.set_get? hu.environment,
    ends_classAt hu.cls, hclasses]
  refine ( runs_forIn_prefix (fun _ g' => g.Underway c cls remarks environment g') ?_ hu).imp fun _ g' hu' =>
    ⟨remarks, environment, hu'⟩
  exact fun before b after hl g' hu' => hu'.instantiateSymbol_runs h (hl ▸ mem_append_right before (.head after))

end Build

namespace Graph.Underway

open Build

variable {g0 g : Graph} {k : Id} {c : ClassDef} {cls remarks environment : Id}

theorem size_lt (h : g0.Underway c cls remarks environment g) : g0.size < g.size :=
  h.fresh.1.trans_lt (get?_lt h.cls)

theorem readable (h : g0.Underway c cls remarks environment g) (hk : g0.Connector k c) {symbol}
    (hmem : symbol ∈ c.symbols.values) : ∃ s words, Readable g symbol s words := by
  obtain ⟨entry, hentry, rfl⟩ := mem_map.1 hmem
  obtain ⟨s, words, hv, -⟩ := hk.symbols entry hentry
  obtain ⟨given, hget, -⟩ := h.symbols entry hentry s words hv
  obtain ⟨t, names, ht, hchain, -⟩ := hv.type
  exact ⟨_, words, hget, (h.keepsBut hk).get? hv.keywords rfl, t, names, ht, (h.keepsBut hk).chain hchain,
    (hv.length_le ht hchain).trans h.base.size_le⟩

theorem isSymbol_of_isPlain {e : Element} (h : e.isPlain = true) : e.isSymbol = false := by
  cases e <;> simp_all [isPlain, isSymbol]

section

variable (h : g0.Underway c cls remarks environment g) (hk : g0.Connector k c)

variable {symbol : Id}

include h hk

theorem links_tree {name} (hmem : (name, symbol) ∈ c.symbols.entries) {s words} (hv : g0.Variable symbol s words) :
    ∃ d < g0.size, ∃ given, g.get? symbol = some (.symbol { s with modification := given }) ∧
      ∀ l ∈ (Element.symbol { s with modification := given }).links, g.Tree (fun _ e => e.isPlain = true) d l := by
  obtain ⟨given, hget, hgiven⟩ := h.symbols _ hmem s words hv
  obtain ⟨d, hd, htree⟩ := hv.tree
  refine ⟨d, hd, given, hget, fun l hl => ?_⟩
  have hold : ∀ l ∈ (Element.symbol s).links, g.Tree (fun _ e => e.isPlain = true) d l := fun l hl =>
    (h.keepsBut hk).tree (fun _ _ => isSymbol_of_isPlain) (htree l hl)
  by_cases hm : l ∈ given
  · refine Tree.mono (d := 1) ⟨_, (hgiven l hm).2, rfl, trivial, by simp [Element.links, Element.children]⟩ ?_
    exact (hold s.keywords (by simp [links])).pos
  · refine hold l ?_
    simp only [links, Symbol.children, mem_cons, mem_append, Option.mem_toList] at hl ⊢
    tauto

theorem symbol_tree (hmem : symbol ∈ c.symbols.values) :
    ∃ d ≤ g.size, g.Tree (fun _ e => e.isClass = false) d symbol := by
  obtain ⟨⟨name, symbol⟩, hentry, rfl⟩ := mem_map.1 hmem
  obtain ⟨s, words, hv, -⟩ := hk.symbols _ hentry
  obtain ⟨d, hd, given, hget, hl⟩ := h.links_tree hk hentry hv
  have := h.size_lt
  exact ⟨d + 1, by omega, _, hget, rfl, trivial, fun l hmem =>
    (hl l hmem).imp fun _ _ => isClass_of_isPlain⟩

theorem remarks_tree : g.Tree (fun _ e => e.isQuiet) (g0.size + 1) remarks := by
  obtain ⟨args, hargs, ht⟩ := h.remarks
  refine ⟨_, hargs, ⟨rfl, rfl⟩, trivial, fun a ha => ?_⟩
  obtain ⟨d, hd, ht⟩ := ht a ha
  exact ((h.keepsBut hk).tree (fun _ _ he => he.2) ht).mono hd

theorem equation_tree {id : Id} (hid : id ∈ c.parts) :
    ∃ d ≤ g0.size, g.Tree (fun _ e => e.isPlain = true ∧ g.Callable e) d id := by
  obtain ⟨d, hd, ht⟩ := hk.equations id hid
  exact ⟨d, hd, (h.keepsBut hk).callable_tree (fun _ => isSymbol_of_isPlain) ht⟩

theorem pullConstants_runs : Runs (pullConstants cls) g fun _ g' => g' = g := by
  refine Build.pullConstants_runs ⟨h.cls, rfl, rfl⟩ rfl (fun s hs => h.readable hk hs) fun id hid => ?_
  have hcases : id ∈ c.symbols.values ∨ id ∈ c.parts ∨ id = remarks ∨ id = environment := by
    simp only [ClassDef.children, ClassDef.instanced, ClassDef.parts, Table.values, map_nil, nil_append, append_nil,
      mem_append, Option.toList_some, mem_singleton] at hid ⊢
    tauto
  rcases hcases with hid | hid | rfl | rfl
  · exact h.symbol_tree hk hid
  · obtain ⟨d, hd, ht⟩ := h.equation_tree hk hid
    exact ⟨d, hd.trans h.base.size_le, ht.imp fun _ _ he => isClass_of_isPlain he.1⟩
  · exact ⟨_, h.size_lt, (h.remarks_tree hk).imp fun _ _ he => he.1⟩
  · exact ⟨1, (Nat.zero_le _).trans_lt h.size_lt, _, h.environment, rfl, trivial, by
      simp [links, children]⟩

end

end Graph.Underway

/-! ### The flat class -/

/-- The flat class of an instance while its symbols are entered. -/
structure Graph.Entering (g0 : Graph) (c : ClassDef) (cls remarks environment flat : Id) (f : ClassDef) (g : Graph) :
    Prop where
  underway : g0.Underway c cls remarks environment g
  get? : g.get? flat = some (.classDef f)
  fresh : g0.size ≤ flat
  ne : flat ≠ cls

namespace Build

variable {g0 g : Graph} {k : Id} {c f : ClassDef} {cls remarks environment flat : Id}

variable {name : String} {symbol : Id} {s : Symbol} {words : List String}

theorem flattenSymbol_runs (h : g0.Entering c cls remarks environment flat f g) (hk : g0.Connector k c)
    {flatten flattenClass} (hmem : (name, symbol) ∈ c.symbols.entries) :
    Runs (flattenSymbol flatten flattenClass flat "" name symbol) g fun _ g' =>
      g0.Entering c cls remarks environment flat { f with symbols := f.symbols.insert name symbol } g' := by
  obtain ⟨s, words, hv, hname⟩ := hk.symbols _ hmem
  obtain ⟨given, hget, -⟩ := h.underway.symbols _ hmem s words hv
  obtain ⟨t, names, ht, hchain, -⟩ := hv.type
  have hchain' := (h.underway.keepsBut hk).chain hchain
  obtain rfl : name = s.name := hname.symm
  have hempty : "".isEmpty = true := rfl
  have hget' : g.get? symbol = _ := hget
  simp only [flattenSymbol, ends_bind, ends_modifySymbol hget', String.empty_append, Graph.set_get? hget', hempty,
    Bool.not_true, Bool.false_eq_true, if_false, ends_symbolAt hget', ends_typeForm ht hchain'.isReference,
    ends_modifyClass h.get?]
  refine ⟨h.underway.besides (Graph.KeepsBesides.set h.get? _) (Ne.symm h.ne) ?_, ?_, h.fresh, h.ne⟩
  · rintro id rfl
    exact h.fresh
  · exact Graph.get?_set h.get? _

theorem applyToSymbol_runs (h : g0.Underway c cls remarks environment g) (hk : g0.Connector k c)
    (hmem : (name, symbol) ∈ c.symbols.entries) (hv : g0.Variable symbol s words) :
    Runs (applyToSymbol cls symbol) g fun _ g' => g' = g.set symbol (.symbol { s with modification := none }) := by
  obtain ⟨given, hget, hgiven⟩ := h.symbols _ hmem s words hv
  obtain ⟨t, names, ht, hchain, -⟩ := hv.type
  have hget' : g.get? symbol = _ := hget
  simp only [applyToSymbol, ends_bind, ends_symbolAt hget',
    ends_typeForm ht ((h.keepsBut hk).chain hchain).isReference]
  cases given with
  | none =>
    simp only [ends_pure]
    exact (Graph.set_get? hget').symm
  | some m =>
    simp [ends_argumentsAt (hgiven m rfl).2, ends_modifySymbol hget']

theorem modification_walk_reads {n d id} (scope : Id) (hd : d ≤ n) (hsize : d ≤ g.size)
    (ht : g.Tree (fun _ e => e.isQuiet) d id) :
    Runs (((modificationVisitor scope).walk n id).run ()) g fun _ g' => g' = g := by
  refine (Visitor.walk_reads (I := fun _ => True) ?_ ?_ hd hsize ht trivial).imp fun _ _ h => h.2
  · intro _ d id _ _ _
    exact ⟨trivial, rfl⟩
  · intro _ d id _ _ ht
    obtain ⟨e, he, hp, -⟩ := ht
    simp only [modificationVisitor, ends_lift_bind, ends_element he]
    cases e with
    | symbol s => cases hp.2
    | classDef c => cases hp.1
    | _ => exact ⟨trivial, rfl⟩

theorem modification_walk_of_symbol {d n} (hs : g.SymbolAt symbol s) (hd : d ≤ n) (hsize : d ≤ g.size)
    (hl : ∀ l ∈ s.children, g.Tree (fun _ e => e.isQuiet) d l) {Q}
    (happly : Runs (applyToSymbol cls symbol) g fun _ => Q) :
    Runs (((modificationVisitor cls).walk (n + 1) symbol).run ()) g fun _ => Q := by
  have hexit : Runs (((modificationVisitor cls).exit symbol).run ()) g fun _ => Q := by
    simp only [modificationVisitor, run_bind, run_lift, ends_bind, ends_element hs, ends_pure]
    exact happly
  have henter : (modificationVisitor cls).enter symbol = pure () := rfl
  simp only [Visitor.walk, henter, run_bind, run_lift, ends_bind, ends_pure, ends_element hs, run_pure]
  refine Runs.imp (ends_forIn_state (fun _ g' => g' = g) (fun l hmem _ g' hg => ?_) rfl) fun _ g' hg => ?_
  · rw [hg]
    exact modification_walk_reads cls hd hsize (hl l hmem)
  · rw [hg]
    exact hexit

/-- Arguments are applied to the parts of a flat class one after the other. -/
theorem applyModifications_each {I : Graph → Prop} {P : Id → Graph → Prop} (hrole : f.role = .declared)
    (hget : ∀ g', I g' → g'.ClassAt flat f)
    (hstep : ∀ id ∈ f.children, ∀ g', I g' → Runs (((modificationVisitor cls).walk g.size id).run ()) g' fun _ g'' =>
      I g'' ∧ P id g'' ∧ ∀ a, P a g' → P a g'') (h : I g) :
    Runs (applyModifications flat cls) g fun _ g' => I g' ∧ ∀ id ∈ f.children, P id g' := by
  have henter : (modificationVisitor cls).enter flat = pure () := rfl
  simp only [applyModifications, Visitor.run, Visitor.walk, henter, run_bind, run_lift, ends_bind, ends_pure,
    ends_size, ends_element (hget g h), run_pure, children]
  refine Runs.imp (ends_forIn_each (fun _ => I) (fun id _ => P id) (fun id hid _ => hstep id hid) h) ?_
  rintro r g1 ⟨h1, hP⟩
  simp only [modificationVisitor, ends_lift_bind, ends_element (hget g1 h1), hrole]
  exact ⟨h1, hP⟩

theorem applyModifications_runs (h : g0.Entering c cls remarks environment flat f g) (hk : g0.Connector k c)
    (hrole : f.role = .declared) (hchildren : f.children = c.symbols.values ++ [remarks]) :
    Runs (applyModifications flat cls) g fun _ g' => g0.Entering c cls remarks environment flat f g' ∧
      ∀ symbol ∈ c.symbols.values, ∀ s words, g0.Variable symbol s words →
        g'.get? symbol = some (.symbol { s with modification := none }) := by
  have hsize := h.underway.size_lt
  obtain ⟨n, hn⟩ : ∃ n, g.size = n + 1 := ⟨g.size - 1, by omega⟩
  refine (applyModifications_each
    (I := fun g' => g0.Entering c cls remarks environment flat f g' ∧ g.size ≤ g'.size)
    (P := fun symbol g' => ∀ s words, g0.Variable symbol s words →
      g'.SymbolAt symbol { s with modification := none }) hrole (fun _ h' => h'.1.get?) ?_ ⟨h, le_rfl⟩).imp
    fun _ _ h' => ⟨h'.1.1, fun symbol hmem => h'.2 symbol (hchildren ▸ mem_append_left _ hmem)⟩
  rintro id hid g1 ⟨h1, hsize1⟩
  rw [hchildren] at hid
  rcases mem_append.1 hid with hid | hid
  · obtain ⟨⟨name, symbol⟩, hmem, rfl⟩ := mem_map.1 hid
    obtain ⟨s, words, hv, -⟩ := hk.symbols _ hmem
    obtain ⟨d, hd, given, hget, hl⟩ := h1.underway.links_tree hk hmem hv
    rw [hn]
    refine (modification_walk_of_symbol hget (by omega) (by omega) (fun l hmem' =>
      (hl l (.tail _ hmem')).imp fun _ e he => ⟨isClass_of_isPlain he, Graph.Underway.isSymbol_of_isPlain he⟩)
      (applyToSymbol_runs h1.underway hk hmem hv)).imp ?_
    rintro _ _ rfl
    have hlt : symbol < g0.size := Graph.get?_lt hv.get?
    have hself := Graph.get?_set_self g1 (.symbol { s with modification := none })
      (hlt.trans_le h1.underway.base.size_le)
    refine ⟨⟨⟨h1.underway.give hmem hv (by simp), ?_, h1.fresh, h1.ne⟩, ?_⟩, ?_, ?_⟩
    · rw [Graph.get?_set_other g1 _ (hlt.trans_le h1.fresh).ne', h1.get?]
    · rw [Graph.size_set, ← hn]
      exact hsize1
    · intro s' words' hv'
      rwa [(hv.unique hv').1]
    · intro other hP s' words' hv'
      by_cases hother : other = symbol
      · subst hother
        rwa [(hv.unique hv').1]
      · exact (Graph.get?_set_other g1 _ hother).trans (hP s' words' hv')
  · rw [mem_singleton.1 hid]
    refine (modification_walk_reads cls hsize (Nat.le_trans hsize hsize1) (h1.underway.remarks_tree hk)).imp ?_
    rintro _ _ rfl
    refine ⟨⟨h1, hsize1⟩, fun s words hv => ?_, fun _ hP => hP⟩
    exact absurd (Graph.get?_lt hv.get?) (Nat.not_lt.2 h1.underway.fresh.2.1)

theorem flattenEquations_of {I : List Id → Graph → Prop} {stem l functions}
    (hstep : ∀ before equation after, l = before ++ equation :: after → ∀ g, I before g →
      Runs (flattenEquation cls flat stem equation functions) g fun y g' => y = functions ∧ I (before ++ [equation]) g')
    (h : I [] g) :
    Runs (forIn l functions fun equation functions => do
      let y ← flattenEquation cls flat stem equation functions
      pure (.yield y)) g fun y g' => y = functions ∧ I l g' := by
  refine runs_forIn_yield (fun before y g' => y = functions ∧ I before g') (fun before equation after hl y g' h' => ?_)
    ⟨rfl, h⟩
  obtain ⟨rfl, h'⟩ := h'
  exact ends_bind.2 ((hstep before equation after hl g' h').imp fun _ _ h => ⟨_, rfl, h⟩)

end Build

/-! ### Copies of variables -/

theorem Graph.exists_of_forall₂ {α β : Type} {R : α → β → Prop} {l u} (h : Forall₂ R l u) {e} (he : e ∈ u) : ∃ x, R x e :=
  ((forall₂_and_left _ _).1 (h.flip.imp fun e x hx => ⟨(⟨x, hx⟩ : ∃ x, R x e), hx⟩)).1 e he

/-- A symbol of the given name and keywords whose type has no subscripts. -/
def Graph.Member (g : Graph) (id : Id) (name : String) (words : List String) : Prop :=
  ∃ s t, g.get? id = some (.symbol s) ∧ s.name = name ∧ g.get? s.keywords = some (.keywords words) ∧
    s.type = .node t ∧ g.Bare t

theorem Graph.KeepsBut.member {changed} (h : KeepsBut changed isClass g g') {id name}
    (hm : g.Member id name words) : g'.Member id name words := by
  obtain ⟨s, t, hs, hname, hw, ht, rs, hrs, hb⟩ := hm
  exact ⟨s, t, h.get? hs rfl, hname, h.get? hw rfl, ht, rs, h.chain hrs, hb⟩

/-- The second entry is a copy of the variable in the first one. -/
def Graph.CopyOf (g0 g : Graph) (e e' : String × Id) : Prop :=
  e'.1 = e.1 ∧ ∀ s words, g0.Variable e.2 s words → g.Member e'.2 e.1 words

/-- A flat class whose first symbols are copies already. -/
structure Graph.Renewing (g0 : Graph) (c : ClassDef) (cls flat : Id) (before after : List (String × Id)) (f : ClassDef)
    (g : Graph) : Prop where
  base : Extends g0 g
  ofClass : g.get? cls = some (.classDef c)
  get? : g.get? flat = some (.classDef f)
  fresh : g0.size ≤ flat
  ne : flat ≠ cls
  symbols : ∃ copies, f.symbols.entries = copies ++ after ∧ Forall₂ (g0.CopyOf g) before copies

namespace Graph.Renewing

open Build

variable {g0 g g' : Graph} {c k f f' : ClassDef} {cls flat : Id} {before after : List (String × Id)}

variable {copies : List (String × Id)} {c0 : ClassDef} {l : List Id}

theorem copies_keys (h : Forall₂ (g0.CopyOf g) before copies) : copies.map (·.1) = before.map (·.1) := by
  induction h with
  | nil => rfl
  | cons he _ ih => rw [map_cons, map_cons, he.1, ih]

theorem copies_keep (hg : KeepsBesides flat g g') (h : Forall₂ (g0.CopyOf g) before copies) :
    Forall₂ (g0.CopyOf g') before copies :=
  h.imp fun _ _ he => ⟨he.1, fun s words hv => hg.member (he.2 s words hv)⟩

section

variable (h : g0.Renewing c cls flat before after f g)

include h

theorem besides (hg : KeepsBesides flat g g') (hf : g'.ClassAt flat f') {before' after'}
    (hsymbols : ∃ copies, f'.symbols.entries = copies ++ after' ∧ Forall₂ (g0.CopyOf g') before' copies) :
    g0.Renewing c cls flat before' after' f' g' where
  base := h.base.trans_of hg.base fun _ hid hc => (hid.trans_le h.fresh).ne hc
  ofClass := hg.base.get?_some h.ofClass (Ne.symm h.ne)
  get? := hf
  fresh := h.fresh
  ne := h.ne
  symbols := hsymbols

theorem keep (hg : KeepsBesides flat g g') (hf : g'.ClassAt flat f') (hsymbols : f'.symbols = f.symbols) :
    g0.Renewing c cls flat before after f' g' := by
  obtain ⟨copies, hentries, hcopies⟩ := h.symbols
  exact h.besides hg hf ⟨copies, by rw [hsymbols, hentries], copies_keep hg hcopies⟩

theorem extend (hg : Extends g g') : g0.Renewing c cls flat before after f g' :=
  h.keep (ExtendsBut.keepsBesides (Extends.but hg) h.get?) (Extends.get?_some hg h.get?) rfl

end

theorem renew_runs {name symbol} (h : g0.Renewing c cls flat before ((name, symbol) :: after) f g) {s words}
    (hv : g0.Variable symbol s words) (hname : s.name = name) (hnew : name ∉ before.map (·.1)) :
    Runs (renewSymbol flat "" name symbol) g fun _ g' =>
        ∃ f', g0.Renewing c cls flat (before ++ [(name, symbol)]) after f' g' := by
  have hv' : g.Variable symbol s words := (Extends.keepsBut h.base fun _ => rfl).isVariable hv
  obtain ⟨d, hd, hl⟩ := hv'.tree
  obtain ⟨t, names, ht, hchain, -, hbare⟩ := hv'.type
  have htree : g.Tree (fun _ e => e.hasSource = false) (d + 1) symbol :=
    ⟨_, hv'.get?, rfl, trivial, fun l hmem => (hl l hmem).imp fun _ _ => hasSource_of_isPlain⟩
  refine ends_bind.2 ((flattenReferences_runs (fun _ _ he => he) h.get? "" hd htree).imp ?_)
  rintro _ g1 ⟨p, φ, hp, rfl, hφ⟩
  have h1 := h.extend hφ.base
  have hlinks := hφ.links symbol _ hp hv'.get?
  have hmember : g1.Member (φ symbol) name words := by
    refine ⟨s.rename φ, φ t, hφ.get? symbol _ hp hv'.get? rfl, hname, ?_, ?_, ?_⟩
    · exact hφ.get? s.keywords _ (hlinks _ (by simp [links])) hv'.keywords rfl
    · simp only [Symbol.rename, ht, Value.rename]
    · refine hφ.bare t (hlinks t ?_) ⟨names, hchain, hbare⟩
      simp [links, Symbol.children, ht, Value.nodes]
  simp only [ends_modifyClass h1.get?]
  obtain ⟨copies, hentries, hcopies⟩ := h1.symbols
  have hkeys := copies_keys hcopies
  have hset := KeepsBesides.set h1.get? { f with symbols := f.symbols.insert name (φ symbol) }
  refine ⟨_, h1.besides hset (get?_set h1.get? _) ⟨copies ++ [(name, φ symbol)], ?_, ?_⟩⟩
  · have : f.symbols = ⟨copies ++ (name, symbol) :: after⟩ := by rw [← hentries]
    simp [this, Table.insert_at copies after (φ symbol) symbol (hkeys ▸ hnew)]
  · refine rel_append (copies_keep hset hcopies) (.cons ⟨rfl, fun s' words' hvar => ?_⟩ .nil)
    obtain ⟨rfl, rfl⟩ := hv.unique hvar
    exact hset.member hmember

theorem equation_runs {before after} (h : g0.Renewing c cls flat before after f g) {k'}
    (hk : g0.Connector k' c0) (hparent : c.parent = none) (hclasses : c.classes = {}) {equation}
    (hmem : equation ∈ c0.equations) (functions : Table String Id) :
    Runs (flattenEquation cls flat "" equation functions) g fun y g' =>
      y = functions ∧ ∃ f', g0.Renewing c cls flat before after f' g' := by
  obtain ⟨d, hd, ht⟩ := (hk.extends h.base).equations equation (by simp [hmem])
  simp only [flattenEquation, Runs, ends_bind]
  refine (scopeCalls_runs (fun _ _ he => ⟨hasSource_of_isPlain he.1, he.2⟩) ⟨h.ofClass, hparent, hclasses⟩ hd ht
    functions).imp ?_
  rintro x g1 ⟨hx, hg1, ht1⟩
  have h1 := h.extend hg1
  refine (flattenReferences_runs (fun _ _ he => he) h1.get? "" (hd.trans hg1.size_le) ht1).imp ?_
  rintro _ g2 ⟨p, φ, hp, rfl, hφ⟩
  have h2 := h1.extend hφ.base
  have hfresh := hφ.fresh _ hp
  have hne : φ x.1 ≠ flat := Nat.ne_of_gt ((get?_lt h1.get?).trans_le hfresh)
  obtain ⟨e, he⟩ := hφ.image _ hp
  simp only [ends_modifyClass h2.get?]
  have hbase : KeepsBesides flat g1 (g2.set flat (.classDef { f with equations := f.equations ++ [φ x.1] })) :=
    ((Extends.but (p := (· = flat)) hφ.base).set (.inl rfl) _).keepsBesides h1.get?
  have hf := get?_set h2.get? (.classDef { f with equations := f.equations ++ [φ x.1] })
  have he' : (g2.set flat (.classDef { f with equations := f.equations ++ [φ x.1] })).get? (φ x.1) = some e := by
    rw [get?_set_other g2 _ hne, he]
  generalize g2.set flat (.classDef { f with equations := f.equations ++ [φ x.1] }) = g3 at *
  obtain ⟨d0, _, ht0⟩ := hk.equations equation (by simp [hmem])
  obtain ⟨e0, he0⟩ := ht0.get?
  obtain ⟨hp0, hf0, _⟩ := ht0.element he0
  have hkeep : KeepsBesides flat g0 g3 := by
    refine ⟨(Extends.but (h.base.trans hg1)).trans hbase.base, fun id e hid he => ?_, fun _ => rfl⟩
    exact absurd (get?_lt he) (by rw [hid]; exact Nat.not_lt.2 h.fresh)
  simp only [markInner, ends_bind, ends_element he', ends_element (hkeep.get? he0 (isClass_of_isPlain hp0.1))]
  split
  · next l r comment li ri wl wr _ _ _ _ =>
    obtain ⟨⟨rl, hrl⟩, ⟨rr, hrr⟩⟩ := hf0
    simp only [ends_bind, ends_referenceAt (hkeep.get? hrl rfl), ends_referenceAt (hkeep.get? hrr rfl), ends_store,
      ends_pure]
    refine ⟨hx, { f with equations := f.equations ++ [φ x.1] },
      h1.keep ⟨hbase.base.set (.inr hfresh) _, hbase.ofKind, hbase.references⟩ ?_ rfl⟩
    exact (get?_set_other g3 _ hne.symm).trans hf
  · simp only [ends_pure]
    exact ⟨hx, _, h1.keep hbase hf rfl⟩

theorem flattenAll_runs (hf : g.ClassAt flat f) (hl : ∀ id ∈ l, g.Tree (fun _ e => e.hasSource = false) g.size id) :
    Runs (l.mapM (flattenReferences flat "")) g fun _ g' => Extends g g' := by
  refine runs_mapM (Extends g) (fun id hid g1 hg1 => ?_) (ExtendsBut.refl g)
  refine (flattenReferences_runs (fun _ _ he => he) (Extends.get?_some hg1 hf) "" hg1.size_le
    ((hl id hid).extends hg1)).imp ?_
  rintro _ g2 ⟨_, _, _, _, hφ⟩
  exact hg1.trans hφ.base

end Graph.Renewing

namespace Build

open Modelica.Graph Modelica.Graph.Renewing

variable {g0 g : Graph} {k : Id} {c : ClassDef} {cls remarks environment : Id}

variable {flat : Id} {f c' : ClassDef} {before after : List (String × Id)} {l : List Id} {g' : Graph}

theorem enterAll_runs (h : g0.Entering c cls remarks environment flat f g) (hk : g0.Connector k c)
    (hf : f.symbols = {}) (flatten : Id → String → Build Id) (flattenClass : Id → Build Id) :
    Runs (forIn c.symbols.entries PUnit.unit fun x _ => do
      flattenSymbol flatten flattenClass flat "" x.1 x.2
      pure (.yield PUnit.unit)) g fun _ g' =>
        g0.Entering c cls remarks environment flat { f with symbols := c.symbols } g' := by
  refine runs_forIn_prefix
    (fun before g' => g0.Entering c cls remarks environment flat { f with symbols := ⟨before⟩ } g')
    (fun before x after hl g' h' => ?_) ?_
  · refine (flattenSymbol_runs h' hk (by rw [hl]; simp)).imp fun _ g'' h'' => ?_
    rw [Table.insert_of_not_mem _ _ (Table.key_not_mem_of_nodup hk.nodup hl)] at h''
    exact h''
  · rw [← hf]
    exact h

/-- Once modifications are applied everything is as it was, and the copies can
be made. -/
theorem renewing_of_entering (h : g0.Entering c cls remarks environment flat f g) (hk : g0.Connector k c)
    (hf : f.symbols = c.symbols) (hsymbols : ∀ symbol ∈ c.symbols.values, ∀ s words, g0.Variable symbol s words →
      g.get? symbol = some (.symbol { s with modification := none })) :
    g0.Renewing (c.instanced remarks environment) cls flat [] c.symbols.entries f g := by
  refine ⟨⟨h.underway.base.size_le, fun id hid _ => ?_⟩, h.underway.cls, h.get?, h.fresh, h.ne,
    [], by rw [hf]; rfl, .nil⟩
  by_cases hmem : id ∈ c.symbols.values
  · obtain ⟨entry, hentry, rfl⟩ := mem_map.1 hmem
    obtain ⟨s, words, hv, -⟩ := hk.symbols entry hentry
    rw [hsymbols _ hmem s words hv, hv.get?, ← hv.modification]
  · exact h.underway.base.get? id hid hmem

theorem renewAll_runs (h : g0.Renewing c' cls flat [] c.symbols.entries f g) (hk : g0.Connector k c) :
    Runs (forIn c.symbols.entries PUnit.unit fun x _ => do
      renewSymbol flat "" x.1 x.2
      pure (.yield PUnit.unit)) g fun _ g' => ∃ f', g0.Renewing c' cls flat c.symbols.entries [] f' g' := by
  refine ends_forIn_parts (fun before after _ g' => ∃ f', g0.Renewing c' cls flat before after f' g')
    (fun before x after hl _ g' h' => ?_) ⟨f, h⟩
  obtain ⟨f', h'⟩ := h'
  obtain ⟨s, words, hv, hname⟩ := hk.symbols x (by rw [hl]; simp)
  have hrun := h'.renew_runs hv hname (Table.key_not_mem_of_nodup hk.nodup hl)
  exact ends_bind.2 (hrun.imp fun _ _ h1 => ⟨_, rfl, h1⟩)

theorem scopeAll_of {I : Graph → Prop} {P : Id → Id → Graph → Prop} {functions}
    (hstep : ∀ id ∈ l, ∀ g, I g → Runs (scopeCalls cls id functions) g fun x g' =>
      x.2 = functions ∧ I g' ∧ P id x.1 g' ∧ ∀ a b, P a b g → P a b g') (h : I g) :
    Runs (scopeAll cls l functions) g fun x g' =>
      x.2 = functions ∧ I g' ∧ Forall₂ (P · · g') l x.1 ∧ ∀ a b, P a b g → P a b g' := by
  induction l generalizing g with
  | nil => exact ⟨rfl, h, .nil, fun _ _ hP => hP⟩
  | cons id l ih =>
    simp only [scopeAll, ends_bind]
    refine (hstep id (.head _) g h).imp ?_
    rintro ⟨new, _⟩ g1 ⟨rfl, h1, hnew, hkeep1⟩
    refine (ih (fun id' hid' => hstep id' (.tail _ hid')) h1).imp ?_
    rintro ⟨news, _⟩ g2 ⟨rfl, h2, hnews, hkeep2⟩
    exact ⟨rfl, h2, .cons (hkeep2 _ _ hnew) hnews, fun a b hP => hkeep2 a b (hkeep1 a b hP)⟩

/-- The copy of each element is still there, as `P` says, when its turn comes. -/
theorem flattenStatements_of {I : List Purpose → Graph → Prop} {P : Id → Id → Graph → Prop} {stem}
    (hscope : ∀ id ∈ c.parts, ∀ g, I [] g → Runs (scopeCalls cls id {}) g fun x g' =>
      x.2 = {} ∧ I [] g' ∧ P id x.1 g' ∧ ∀ a b, P a b g → P a b g')
    (hadd : ∀ done purpose l g, I done g → Forall₂ (P · · g) (c.having purpose) l → Runs (do
      let news ← l.mapM (flattenReferences flat stem)
      modifyClass flat fun k => k.add news purpose) g fun _ g' =>
        I (done ++ [purpose]) g' ∧ ∀ a b, P a b g → P a b g')
    (hflat : ∀ done g, I done g → ∃ f, g.ClassAt flat f) (flattenClass : Id → Build Id) (h : I [] g) :
    Runs (flattenStatements flattenClass cls flat stem c {}) g fun new g' =>
      new = flat ∧ I [.initialEquation, .statement, .initialStatement] g' := by
  have hscope : ∀ purpose g, I [] g → Runs (scopeAll cls (c.having purpose) {}) g _ := fun purpose _ =>
    scopeAll_of fun id hid => hscope id (ClassDef.mem_parts hid)
  simp only [Runs, flattenStatements, ends_bind]
  refine (hscope .initialEquation g h).imp ?_
  rintro ⟨initial, _⟩ g1 ⟨rfl, h1, hl1, -⟩
  refine (hscope .statement g1 h1).imp ?_
  rintro ⟨statements, _⟩ g2 ⟨rfl, h2, hl2, hkeep2⟩
  refine (hscope .initialStatement g2 h2).imp ?_
  rintro ⟨initialStatements, _⟩ g3 ⟨rfl, h3, hl3, hkeep3⟩
  refine Runs.imp (ends_bind.1 (hadd _ .initialEquation initial g3 h3 (hl1.imp fun a b hP => hkeep3 a b (hkeep2 a b hP))))
    fun _ _ h => Runs.imp h ?_
  rintro _ g4 ⟨h4, hkeep4⟩
  refine Runs.imp (ends_bind.1 (hadd _ .statement statements g4 h4 (hl2.imp fun a b hP => hkeep4 a b (hkeep3 a b hP))))
    fun _ _ h => Runs.imp h ?_
  rintro _ g5 ⟨h5, hkeep5⟩
  refine Runs.imp (ends_bind.1 (hadd _ .initialStatement initialStatements g5 h5
    (hl3.imp fun a b hP => hkeep5 a b (hkeep4 a b hP)))) fun _ _ h => Runs.imp h ?_
  rintro _ g6 ⟨h6, -⟩
  obtain ⟨f, hf⟩ := hflat _ g6 h6
  simp only [pullFunctions, mapM_nil, ends_bind, ends_pure, ends_modifyClass hf]
  exact ⟨trivial, by rw [Table.insertAll, foldl_nil, set_get? hf]; exact h6⟩

theorem flattenStatements_runs (h : g0.Renewing c' cls flat before after f g) (hk : g0.Connector k c)
    (hparent : c'.parent = none) (hclasses : c'.classes = {}) (flattenClass : Id → Build Id) :
    Runs (flattenStatements flattenClass cls flat "" c {}) g fun new g' =>
      ∃ f', g0.Renewing c' cls new before after f' g' := by
  refine (flattenStatements_of (I := fun _ g' => ∃ f', g0.Renewing c' cls flat before after f' g')
    (P := fun _ new g' => g'.Tree (fun _ e => e.hasSource = false) g'.size new) ?_ ?_
    (fun _ _ ⟨f', h'⟩ => ⟨f', h'.get?⟩) flattenClass ⟨f, h⟩).imp fun _ _ hI => hI.1 ▸ hI.2
  · rintro id hid g1 ⟨f1, h1⟩
    obtain ⟨d, hd, ht⟩ := (hk.extends h1.base).equations id hid
    refine (scopeCalls_runs (fun _ _ he => ⟨hasSource_of_isPlain he.1, he.2⟩) ⟨h1.ofClass, hparent, hclasses⟩ hd ht
      {}).imp ?_
    rintro x g2 ⟨hx, hg2, ht2⟩
    exact ⟨hx, ⟨f1, h1.extend hg2⟩, ht2.bounded, fun _ _ ht => (ht.extends hg2).bounded⟩
  · rintro _ purpose l g1 ⟨f1, h1⟩ hl
    simp only [Runs, ends_bind]
    refine (flattenAll_runs h1.get? fun id hid => ?_).imp fun news g2 hg2 => ?_
    · obtain ⟨_, ht⟩ := exists_of_forall₂ hl hid
      exact ht
    have h2 := h1.extend hg2
    rw [ends_modifyClass h2.get?]
    have hg3 : KeepsBesides flat g1 (g2.set flat (.classDef (f1.add news purpose))) :=
      ((Extends.but (p := (· = flat)) hg2).set (.inl rfl) _).keepsBesides h1.get?
    refine ⟨⟨_, h2.keep (KeepsBesides.set h2.get? _) (get?_set h2.get? _) (f1.add_symbols news purpose)⟩,
      fun _ _ ht => (hg3.tree (fun _ e he => ?_) ht).bounded⟩
    cases e <;> simp_all [hasSource, isClass]

/-- The flat class of the instance of a flattened class has copies of its
variables. -/
theorem flattenLevel_runs (h : g0.Underway c cls remarks environment g) (hk : g0.Connector k c)
    (flatten : Id → String → Build Id) (flattenClass : Id → Build Id) :
    Runs (flattenLevel flatten flattenClass cls "") g fun flat g' =>
      ∃ f, g0.Renewing (c.instanced remarks environment) cls flat c.symbols.entries [] f g' := by
  have hempty : "".isEmpty = true := rfl
  simp only [flattenLevel, ends_bind, ends_classAt h.cls, ends_alloc, hempty, if_true]
  have hentering : g0.Entering c cls remarks environment g.size (c.begun remarks)
      (g.add (.classDef (c.begun remarks))).1 :=
    ⟨h.add _, get?_add_self g _, h.base.size_le, Nat.ne_of_gt (get?_lt h.cls)⟩
  refine (enterAll_runs hentering hk rfl flatten flattenClass).imp fun _ g1 h1 => ?_
  refine (applyModifications_runs h1 hk rfl ?_).imp ?_
  · simp [ClassDef.children, ClassDef.begun, Table.values]
  rintro _ g2 ⟨h2, hsymbols⟩
  rw [ends_classAt h2.get?]
  refine (renewAll_runs (renewing_of_entering h2 hk rfl hsymbols) hk).imp ?_
  rintro _ g3 ⟨f3, h3⟩
  rw [ends_classAt h3.ofClass]
  refine (flattenEquations_of (I := fun _ g' => ∃ f', g0.Renewing (c.instanced remarks environment) cls g.size
    c.symbols.entries [] f' g') (fun _ equation _ hl g' h' => ?_) ⟨f3, h3⟩).imp ?_
  · obtain ⟨f', h'⟩ := h'
    have hmem : equation ∈ (c.instanced remarks environment).equations := by simp [hl]
    exact h'.equation_runs hk rfl rfl hmem _
  rintro _ g4 ⟨rfl, f4, h4⟩
  exact flattenStatements_runs h4 hk rfl rfl flattenClass

/-- **A connector can be flattened again.** Nothing that was there changes, and
the new class has copies of the variables. -/
theorem flattenClass_runs (hk : g.Connector k c) :
    Runs (flattenClass k) g fun flat g' => Extends g g' ∧ g.size ≤ flat ∧
      ∃ f, g'.ClassAt flat f ∧ Forall₂ (g.CopyOf g') c.symbols.entries f.symbols.entries := by
  suffices hs : ∀ n, Runs (flattenClassTo (n + 2) k) g fun flat g' => Extends g g' ∧ g.size ≤ flat ∧
      ∃ f, g'.ClassAt flat f ∧ Forall₂ (g.CopyOf g') c.symbols.entries f.symbols.entries by
    obtain ⟨n, hn⟩ : ∃ n, g.size = n + 1 := Nat.exists_eq_add_one.2 (Nat.zero_lt_of_lt (get?_lt hk.get?))
    have hn : g.size + 1 = n + 2 := congrArg (· + 1) hn
    refine ends_bind.2 (ends_size.2 ?_)
    rw [hn]
    exact hs n
  intro n
  simp only [flattenClassTo, flattenSymbolsTo, ends_bind, ends_classAt hk.get?, hk.parent]
  refine (instantiate_runs hk).imp ?_
  rintro cls g1 ⟨remarks, environment, h1⟩
  refine (h1.pullConstants_runs hk).imp ?_
  rintro _ _ rfl
  refine (flattenLevel_runs h1 hk _ _).imp ?_
  rintro flat g2 ⟨f, h2⟩
  obtain ⟨copies, hentries, hcopies⟩ := h2.symbols
  refine ⟨h2.base, h2.fresh, f, h2.get?, ?_⟩
  rw [hentries, append_nil]
  exact hcopies

end Build

end Modelica
