/-
Instances are complete.

In the instance that `instantiate` returns, all that is reached from it on the ways of
nested classes, symbols and types of symbols is instantiated: the classes are
instances, and a symbol has an elementary type, or an instance for a type and no
modification left (`instantiate_complete`).

The elements that are done only refer to elements that are done (`Settling`). An
instance of an instance works on symbols that were done before; as long as such a
symbol is worked on, it is open.
-/
import Modelica.Proofs.Instance.Inherit

namespace Modelica

open List

namespace Graph

/-- A symbol whose type is a reference to an elementary name. -/
def ElementaryType (g : Graph) (s : Symbol) : Prop :=
  ∃ r ref, s.type = .node r ∧ g.get? r = some (.reference ref) ∧ ref.name ∈ elementaryNames

/-- The addresses of the classes and of the symbols that are done. -/
structure Done where
  classes : Id → Prop
  symbols : Id → Prop

/-- One more class is done, with its symbols. -/
def Done.add (done : Done) (cls : Id) (symbols : List Id) : Done :=
  ⟨fun id => done.classes id ∨ id = cls, fun id => done.symbols id ∨ id ∈ symbols⟩

/-- A symbol that is done: its type is elementary, or a class that is done. -/
def Typed (g : Graph) (done : Done) (id : Id) : Prop :=
  ∃ s, g.get? id = some (.symbol s) ∧
    (g.ElementaryType s ∨ ∃ t, s.type = .node t ∧ done.classes t ∧ s.modification = none)

/-- What is done holds nothing that is not, but for the symbols that are open. -/
structure Settling (done : Done) (working : Id → Prop) (g : Graph) : Prop where
  classes : ∀ id, done.classes id → ∃ c, g.get? id = some (.classDef c) ∧ c.role = .instanced ∧
    (∀ n ∈ c.classes.values, done.classes n) ∧ ∀ y ∈ c.symbols.values, done.symbols y
  symbols : ∀ id, done.symbols id → working id ∨ g.Typed done id

variable {done done' : Done} {working working' touched : Id → Prop} {g g1 g' : Graph} {id cls : Id}

theorem ElementaryType.retain {s s'} (h : g.ElementaryType s) (hr : Retains touched g g')
    (hs : s'.type = s.type) : g'.ElementaryType s' := by
  obtain ⟨r, ref, htype, href, hname⟩ := h
  exact ⟨r, ref, hs.trans htype, hr.reference r ref href, hname⟩

namespace Settling

section

variable (h : Settling done working g)

include h

theorem mono (hw : ∀ id, working id → working' id) : Settling done working' g :=
  ⟨h.classes, fun id hid => (h.symbols id hid).imp_left (hw id)⟩

theorem retain (hr : Retains touched g g') (ht : ∀ id, touched id → working id) : Settling done working g' := by
  refine ⟨fun id hid => ?_, fun id hid => ?_⟩
  · obtain ⟨c, hc, hrest⟩ := h.classes id hid
    obtain ⟨source, hc'⟩ := hr.classDef id c hc
    exact ⟨_, hc', hrest⟩
  · rcases h.symbols id hid with hw | ⟨s, hs, htype⟩
    · exact .inl hw
    · obtain ⟨s', hs', ht' | ⟨hsame, hmod⟩⟩ := hr.symbol id s hs
      · exact .inl (ht id ht')
      · refine .inr ⟨s', hs', htype.imp (fun he => he.retain hr hsame) ?_⟩
        rintro ⟨t, ht, htd, hnone⟩
        exact ⟨t, hsame.trans ht, htd, hmod.trans hnone⟩

theorem edit {c c'} (hc : g.ClassAt cls c)
    (hnew : ¬ done.classes cls) : Settling done working (g.set cls (.classDef c')) := by
  have hkept : ∀ {a e}, g.get? a = some e → e.isClass = false → (g.set cls (.classDef c')).get? a = some e :=
    fun {a e} he hno => by
      rw [get?_set_other _ _ ?_, he]
      rintro rfl
      cases hc.symm.trans he
      cases hno
  refine ⟨fun id hid => ?_, fun id hid => (h.symbols id hid).imp_right ?_⟩
  · obtain ⟨c1, hc1, hrest⟩ := h.classes id hid
    exact ⟨c1, (get?_set_other _ _ (by rintro rfl; exact hnew hid)).trans hc1, hrest⟩
  · rintro ⟨s, hs, htype⟩
    refine ⟨s, hkept hs rfl, htype.imp_left ?_⟩
    rintro ⟨r, ref, ht, href, hname⟩
    exact ⟨r, ref, ht, hkept href rfl, hname⟩

/-- A class is done when its nested classes are and its symbols are done or open. -/
theorem close {c} (hc : g.ClassAt cls c) (hrole : c.role = .instanced)
    (hnested : ∀ n ∈ c.classes.values, done.classes n) (hsymbols : ∀ y ∈ c.symbols.values, working y) :
    Settling (done.add cls c.symbols.values) working g := by
  refine ⟨?_, ?_⟩
  · rintro id (hid | rfl)
    · obtain ⟨c1, hc1, hrole1, hnested1, hsymbols1⟩ := h.classes id hid
      exact ⟨c1, hc1, hrole1, fun n hn => .inl (hnested1 n hn), fun y hy => .inl (hsymbols1 y hy)⟩
    · exact ⟨c, hc, hrole, fun n hn => .inl (hnested n hn), fun y hy => .inr hy⟩
  · rintro id (hid | hid)
    · refine (h.symbols id hid).imp_right ?_
      rintro ⟨s, hs, htype⟩
      exact ⟨s, hs, htype.imp_right fun ⟨t, ht, htd, hnone⟩ => ⟨t, ht, .inl htd, hnone⟩⟩
    · exact .inl (hsymbols id hid)

end

end Settling

/-- From `g` on, more has been done, and what was there has been kept as far as it is
not a symbol. Of the classes that were there none has come to be done. -/
structure Progress (working : Id → Prop) (done : Done) (g : Graph) (done' : Done) (g' : Graph) : Prop where
  housed : g.Housed
  retains : Retains (fun _ => True) g g'
  classes : ∀ id, done.classes id → done'.classes id
  symbols : ∀ id, done.symbols id → done'.symbols id
  fresh : ∀ id, done'.classes id → done.classes id ∨ ¬ g.IsClass id
  settling : Settling done' working g'

namespace Progress

theorem refl (hg : g.Housed) (h : Settling done working g) : Progress working done g done g :=
  ⟨hg, .refl g, fun _ h => h, fun _ h => h, fun _ => .inl, h⟩

theorem housed' (h : Progress working done g done' g') : g'.Housed := h.retains.housed h.housed

theorem trans {done'' g''} (h : Progress working done g done' g')
    (h' : Progress working done' g' done'' g'') : Progress working done g done'' g'' :=
  ⟨h.housed, h.retains.trans h'.retains fun _ _ ht => ht, fun id hid => h'.classes id (h.classes id hid),
    fun id hid => h'.symbols id (h.symbols id hid), fun id hid => (h'.fresh id hid).elim (h.fresh id) fun hno =>
      .inr fun hclass => hno (h.retains.isClass hclass), h'.settling⟩

theorem retain (h : Progress working done g done' g1) (hr : Retains touched g1 g') (ht : ∀ id, touched id → working id) :
    Progress working done g done' g' :=
  ⟨h.housed, h.retains.trans hr fun _ _ _ => trivial, h.classes, h.symbols, h.fresh, h.settling.retain hr ht⟩

end Progress
end Graph

namespace Build

open Modelica.Graph

variable {α β : Type} {done done' : Done} {working touched : Id → Prop} {g g1 : Graph} {cls symbol : Id}

/-! ### Handing arguments down -/

theorem giveArguments_keeps (symbol : Id) (args : List Id) : Keeps (· = symbol) (giveArguments symbol args) := by
  refine .bind (.addPart rfl) fun fresh => .reads (.symbolAt symbol) fun s => ?_
  split
  · exact .appendArguments _ _
  · exact Keeps.modifySymbol (.inl rfl)

/-! ### Types -/

theorem findClass_ends (hg : g.Housed) (scope : Id) (path : List String) :
    Ends (findClass scope path) g (fun _ g' => Retains touched g g')
      fun f g' => Retains touched g g' ∧ (f.root = .elementaryClass → isElementary path = true) := by
  simp only [findClass, findOriginal]
  split
  · next h => exact ⟨.refl g, fun _ => h⟩
  · refine ends_bind.2 ((Reads.search scope path).ends (fun id => ?_) fun f hf => ⟨.refl g, fun h => absurd h hf⟩)
    exact Ends.imp (copy_ends hg id) (fun _ _ h => .of_copies h.1) fun f g' h => ⟨.of_copies h.1, fun he => absurd he h.not_elementary⟩

theorem symbolClass_yields (hg : g.Housed) (cls symbol : Id) : Yields (symbolClass cls symbol) g fun type g' =>
    Retains (fun _ => False) g g' ∧ (type = none → ∃ s, g'.SymbolAt symbol s ∧ g'.ElementaryType s) := by
  refine ends_bind.2 (ends_symbolAt_of (fun s hs => ends_bind.2 ?_) trivial)
  have hform : Yields (typeForm s.type) g fun form g' => g = g' ∧ ∀ r, form = .reference r → s.type = .node r := by
    cases htype : s.type with
    | node id =>
      refine ends_bind.2 (ends_element_of (fun e he => ?_) trivial)
      cases e with
      | reference r => exact ⟨rfl, by rintro _ ⟨⟩; rfl⟩
      | classDef c =>
        refine ⟨rfl, fun r hr => ?_⟩
        split at hr <;> cases hr
      | _ => exact ⟨rfl, by rintro _ ⟨⟩⟩
    | _ => exact ⟨rfl, by rintro _ ⟨⟩⟩
  refine hform.imp ?_
  rintro form _ ⟨rfl, hform⟩
  cases form with
  | instanced c => exact ⟨.refl g, by rintro ⟨⟩⟩
  | other => trivial
  | reference r =>
    refine ends_attempt.2 (ends_bind.2 (Ends.imp (path_ends r) ?_ fun f g' hf => ?_))
    · rintro path _ ⟨rfl, ref, href, hhead⟩
      refine Ends.imp (findClass_ends hg cls path) (fun _ _ h => ⟨h, by rintro ⟨⟩⟩) fun f g' h => ?_
      by_cases hf : f.root = .elementaryClass
      · obtain ⟨s', hs', hsame | hsame⟩ := h.1.symbol symbol s hs
        · exact hsame.elim
        · rw [hf]
          have hname : elementaryNames.contains ref.name = true := by simpa [isElementary, hhead] using h.2 hf
          refine ⟨h.1, fun _ => ⟨s', hs', r, ref, hsame.1.trans (hform r rfl), h.1.reference r ref href, ?_⟩⟩
          exact contains_iff_mem.1 hname
      · simp
    · simp

/-! ### One level of an instance -/

/-- The step makes an instance, in which everything is done. -/
def Instantiates (recur : Id → Option Id → Option Id → Build Id) : Prop :=
  ∀ working done g orig modification parent, g.Housed → (∀ p, parent = some p → g.IsClass p) →
    Settling done working g → Yields (recur orig modification parent) g fun cls g' =>
      ∃ done', Progress working done g done' g' ∧ done'.classes cls

/-- The class `cls` is being instantiated: it has the nested classes and the symbols of
the given tables, and is not done itself. All its symbols are open. -/
structure Working (working : Id → Prop) (done : Done) (g : Graph) (cls : Id) (classes : Table (Option String) Id)
    (symbols : Table String Id) (done' : Done) (g' : Graph) : Prop where
  progress : Progress (fun id => working id ∨ id ∈ symbols.values) done g done' g'
  fresh : g.size ≤ cls
  new : ¬ done'.classes cls
  content : ∃ c, g'.get? cls = some (.classDef c) ∧ c.role = .instanced ∧ c.classes = classes ∧ c.symbols = symbols

namespace Working

variable {classes : Table (Option String) Id} {symbols : Table String Id}
  {recur : Id → Option Id → Option Id → Build Id} {orig : Id} {modification parent : Option Id}

section

variable (h : Working working done g cls classes symbols done' g1)

include h

theorem retain {g2} (hr : Retains touched g1 g2)
    (ht : ∀ id, touched id → id ∈ symbols.values) : Working working done g cls classes symbols done' g2 := by
  obtain ⟨c, hc, hrest⟩ := h.content
  obtain ⟨source, hc2⟩ := hr.classDef cls c hc
  exact ⟨h.progress.retain hr fun id hid => .inr (ht id hid), h.fresh, h.new, _, hc2, hrest⟩

theorem keeps {x : Build α}
    (hx : Keeps (· ∈ symbols.values) x) : Yields x g1 fun _ g' => Working working done g cls classes symbols done' g' :=
  (hx g1 h.progress.housed').yields.imp fun _ _ hr => h.retain hr.1 fun _ ht => ht

theorem inner (hrecur : Instantiates recur)
    (hparent : ∀ p, parent = some p → g1.IsClass p) : Yields (recur orig modification parent) g1 fun type g' =>
      ∃ done'', Working working done g cls classes symbols done'' g' ∧ done''.classes type ∧
        ∀ id, done'.classes id → done''.classes id := by
  refine (hrecur _ done' g1 orig modification parent h.progress.housed' hparent h.progress.settling).imp ?_
  rintro type g2 ⟨done'', hprogress, htype⟩
  obtain ⟨c, hc, hrest⟩ := h.content
  obtain ⟨source, hc2⟩ := hprogress.retains.classDef cls c hc
  refine ⟨done'', ⟨h.progress.trans hprogress, h.fresh, fun hcls => ?_, _, hc2, hrest⟩, htype, hprogress.classes⟩
  exact (hprogress.fresh cls hcls).elim h.new fun hno => hno ⟨c, hc⟩

theorem insert (name : Option String) (new : Id) :
    Yields (modifyClass cls fun c => { c with classes := c.classes.insert name new }) g1 fun _ g' =>
      Working working done g cls (classes.insert name new) symbols done' g' := by
  obtain ⟨c, hc, hrole, rfl, rfl⟩ := h.content
  refine (ends_modifyClass hc).2 ⟨?_, h.fresh, h.new, _, get?_set hc _, hrole, rfl, rfl⟩
  exact ⟨h.progress.housed, h.progress.retains.edit h.fresh hc rfl rfl, h.progress.classes, h.progress.symbols,
    h.progress.fresh, h.progress.settling.edit hc h.new⟩

end

end Working

section Level

variable {classes : Table (Option String) Id} {symbols : Table String Id}
  {recur : Id → Option Id → Option Id → Build Id}

variable {x : Build α} {left : List Id} {s : Symbol}

/-- The redeclarations of a class are taking effect, nested classes standing under
different names. -/
def Redeclaring (working : Id → Prop) (done : Done) (g : Graph) (cls : Id) (symbols : Table String Id) (g' : Graph) :
    Prop :=
  ∃ classes done', classes.keys.Nodup ∧ Working working done g cls classes symbols done' g'

section

variable (h : Redeclaring working done g cls symbols g1)

include h

theorem Redeclaring.keeps (hx : Keeps (· ∈ symbols.values) x) :
    Yields x g1 fun _ g' => Redeclaring working done g cls symbols g' := by
  obtain ⟨classes, done', hnodup, h⟩ := h
  exact (h.keeps hx).imp fun _ _ h => ⟨classes, done', hnodup, h⟩

theorem redeclareClass_yields (hrecur : Instantiates recur) (scope : Id) (name : String) (component : Id) :
    Yields (redeclareClass recur cls scope name component) g1 fun _ g' => Redeclaring working done g cls symbols g' := by
  refine (Reads.classAt cls).yields_bind fun c => ?_
  split
  · trivial
  · next old hold =>
    refine (Reads.path component).yields_bind fun path => ?_
    refine (h.keeps (.findClass scope path)).bind fun new g2 h2 => ?_
    obtain ⟨classes, done', hnodup, h2⟩ := h2
    refine (h2.insert (some name) new).bind fun _ g3 h3 => ?_
    have hR : Redeclaring working done g cls symbols g3 := ⟨_, done', Table.nodup_keys_insert hnodup _ _, h3⟩
    obtain ⟨c3, hc3, _, _, hsymbols⟩ := h3.content
    refine ends_bind.2 ((ends_classAt hc3).2 (ends_bind.2 ?_))
    rw [hsymbols]
    refine (yields_forIn (Redeclaring working done g cls symbols) (fun s hs g4 h4 => ?_) hR).imp fun _ _ h => h
    refine (Reads.symbolAt s).yields_bind fun sym => (Reads.typeForm sym.type).yields_bind fun form => ?_
    split
    · refine (Reads.classAt _).yields_bind fun t => (Reads.classAt old).yields_bind fun k => ?_
      split
      · refine (Reads.symbolAt s).yields_bind fun sym => yields_classAt fun k hk => ?_
        obtain ⟨classes, done', hnodup, h4⟩ := h4
        refine (h4.inner hrecur fun p hp => h4.progress.housed'.parent new k p hk hp).bind ?_
        rintro type g5 ⟨done'', h5, _, _⟩
        refine (h5.keeps (Keeps.modifySymbol (.inl hs))).bind fun _ g6 h6 => ?_
        exact ends_pure.2 ⟨rfl, classes, done'', hnodup, h6⟩
      · exact ⟨rfl, h4⟩
    · exact ⟨rfl, h4⟩

theorem redeclareSymbols_yields (redeclared : List Id) :
    Yields (redeclareSymbols cls redeclared) g1 fun _ g' => Redeclaring working done g cls symbols g' := by
  refine (yields_forIn (Redeclaring working done g cls symbols) (fun s _ g2 h2 => ?_) h).bind fun _ _ h => h
  refine (Reads.symbolAt s).yields_bind fun new => ?_
  obtain ⟨c, hc, _, _, hsymbols⟩ := h2.choose_spec.choose_spec.2.content
  refine ends_bind.2 ((ends_classAt hc).2 ?_)
  rw [hsymbols]
  split
  · trivial
  · next old hold =>
    have hmem : old ∈ symbols.values := mem_map.2 ⟨_, Table.mem_entries_of_get? hold, rfl⟩
    exact (h2.keeps (Keeps.modifySymbol (.inl hmem))).bind fun _ _ h => ends_pure.2 ⟨rfl, h⟩

theorem redeclare_yields (hrecur : Instantiates recur) (arg : Id) :
    Yields (redeclare recur cls arg) g1 fun _ g' => Redeclaring working done g cls symbols g' := by
  refine (Reads.argumentAt arg).yields_bind fun a => ?_
  dsimp only
  split
  · refine (Reads.element a.1).yields_bind fun e => ?_
    split
    · exact redeclareClass_yields h hrecur _ _ _
    · exact redeclareSymbols_yields h _
    · trivial
  · exact h

theorem redeclareAll_yields (hrecur : Instantiates recur) :
    Yields (redeclareAll recur cls) g1 fun _ g' => Redeclaring working done g cls symbols g' := by
  refine (Reads.environmentOf cls).yields_bind fun env => (Reads.argumentsAt env).yields_bind fun args => ?_
  refine (yields_forIn (Redeclaring working done g cls symbols) (fun arg _ g2 h2 => ?_) h).bind fun _ g2 h2 => ?_
  · exact (redeclare_yields h2 hrecur arg).bind fun _ _ h => ends_pure.2 ⟨rfl, h⟩
  · refine h2.keeps (.reads (.environmentOf cls) fun env g => .argumentsAt fun args hargs => ?_)
    refine .reads (.filterM fun a => (Reads.argumentAt a).bind fun _ => .pure _) fun rest => ?_
    exact .write (Open.arguments Graph.Housed _ hargs)

end

/-! ### Nested classes -/

/-- Some of the nested classes, under the keys `names`, are done. -/
def Nesting (working : Id → Prop) (done : Done) (g : Graph) (cls : Id) (symbols : Table String Id)
    (keys names : List (Option String)) (g' : Graph) : Prop :=
  ∃ classes done', classes.keys = keys ∧ (∀ e ∈ classes.entries, e.1 ∈ names → done'.classes e.2) ∧
    Working working done g cls classes symbols done' g'

theorem instantiateClass_yields (hrecur : Instantiates recur) {keys names} (hkeys : keys.Nodup)
    (h : Nesting working done g cls symbols keys names g1) {name} (hname : name ∈ keys) (nested : Id) :
    Yields (instantiateClass recur cls name nested) g1 fun _ g' =>
      Nesting working done g cls symbols keys (names ++ [name]) g' := by
  obtain ⟨classes, done', rfl, hdone, h⟩ := h
  refine (h.keeps (.addPart rfl)).bind fun modification g2 h2 => ?_
  refine (h2.keeps (.takeArguments cls name)).bind fun args g3 h3 => ?_
  refine (h3.keeps (.forIn fun arg _ => ?_)).bind fun _ g4 h4 => ?_
  · refine .reads (.elementModification? arg) fun m => ?_
    split
    · refine .bind (.forIn fun v _ => ?_) fun _ => .pure _
      exact .reads (.nestedArguments v) fun args => .bind (.appendArguments _ args) fun _ => .pure _
    · exact .pure _
  · obtain ⟨c, hc, _, _, _⟩ := h4.content
    refine (h4.inner hrecur fun p hp => ?_).bind ?_
    · cases hp
      exact ⟨c, hc⟩
    · rintro new g5 ⟨done'', h5, hnew, hmore⟩
      refine (h5.insert name new).imp fun _ g6 h6 => ⟨_, done'', Table.keys_insert_of_mem classes new hname, ?_, h6⟩
      intro e he hmem
      have hget := Table.get?_of_mem_entries (Table.nodup_keys_insert hkeys name new) he
      by_cases heq : e.1 = name
      · rw [heq, Table.get?_insert_self] at hget
        exact Option.some.inj hget ▸ hnew
      · have he' := (Table.mem_entries_insert he).resolve_left (by rintro rfl; exact heq rfl)
        exact hmore _ (hdone e he' (by simpa [heq] using hmem))

/-! ### Symbols -/

/-- The class itself counts as done, with the given symbols still open. -/
def Filling (working : Id → Prop) (done : Done) (g : Graph) (cls : Id) (left : List Id) (g' : Graph) : Prop :=
  ∃ done', Progress (fun id => working id ∨ id ∈ left) done g done' g' ∧ done'.classes cls

theorem Filling.keeps (h : Filling working done g cls left g1) (hx : Keeps touched x)
    (ht : ∀ id, touched id → id ∈ left) : Yields x g1 fun _ g' => Filling working done g cls left g' := by
  obtain ⟨done', h, hcls⟩ := h
  exact (hx g1 h.housed').yields.imp fun _ _ hr => ⟨done', h.retain hr.1 fun id hid => .inr (ht id hid), hcls⟩

theorem giveArguments_type (symbol : Id) (args : List Id) (hs : g.SymbolAt symbol s) :
    Yields (giveArguments symbol args) g fun _ g' => ∃ s', g'.SymbolAt symbol s' ∧ s'.type = s.type := by
  have hs1 : (g.add (.modification args)).1.SymbolAt symbol s := by
    exact (get?_add_of_lt g _ (get?_lt hs)).trans hs
  refine ends_bind.2 (ends_alloc.2 (ends_bind.2 ((ends_symbolAt hs1).2 ?_)))
  split
  · next m _ =>
    refine ends_bind.2 (ends_argumentsAt_of (fun args' hm => ⟨s, (get?_set_other _ _ ?_).trans hs1, rfl⟩) trivial)
    rintro rfl
    cases hs1.symm.trans hm
  · exact (ends_modifySymbol hs1).2 ⟨_, get?_set hs1 _, rfl⟩

theorem Filling.finish {done''} (h : Progress (fun id => working id ∨ id ∈ symbol :: left) done g done'' g1)
    (hcls : done''.classes cls) (hsymbol : g1.Typed done'' symbol) : Filling working done g cls left g1 := by
  refine ⟨done'', ⟨h.housed, h.retains, h.classes, h.symbols, h.fresh, h.settling.classes,
    fun id hid => (h.settling.symbols id hid).elim (fun hid => ?_) .inr⟩, hcls⟩
  rcases hid with hid | hid
  · exact .inl (.inl hid)
  · rcases mem_cons.1 hid with rfl | hid
    · exact .inr hsymbol
    · exact .inl (.inr hid)

theorem instantiateElementary_yields (h : Filling working done g cls (symbol :: left) g1)
    (hs : g1.SymbolAt symbol s) (htype : g1.ElementaryType s) (name : String) : Yields (do
      let args ← (← takeArguments cls (some name)).mapM attributeArguments
      giveArguments symbol args.flatten) g1 fun _ g' => Filling working done g cls left g' := by
  obtain ⟨done', h, hcls⟩ := h
  -- Until the symbol gets its arguments nothing about it changes.
  have hargs : Keeps (fun _ => False) (do (← takeArguments cls (some name)).mapM attributeArguments) :=
    .bind (.takeArguments cls (some name)) fun args => .mapM .attributeArguments
  rw [← bind_assoc]
  refine (hargs g1 h.housed').yields.bind fun args g2 ⟨hr, _⟩ => ?_
  obtain ⟨s2, hs2, hf | ⟨hsame, _⟩⟩ := hr.symbol symbol s hs
  · exact hf.elim
  have h2 := h.retain hr fun _ hf => hf.elim
  have hgive : Yields (giveArguments symbol args.flatten) g2 fun _ g' => Retains (· = symbol) g2 g' :=
    (giveArguments_keeps symbol args.flatten g2 h2.housed').yields.imp fun _ _ h => h.1
  refine (hgive.and (giveArguments_type symbol args.flatten hs2)).imp ?_
  rintro _ g3 ⟨hr3, s3, hs3, hsame3⟩
  refine Filling.finish (h2.retain hr3 fun id hid => .inr (hid ▸ (.head _))) hcls ⟨s3, hs3, .inl ?_⟩
  exact (htype.retain hr hsame).retain hr3 hsame3

theorem instantiateSymbol_yields (hrecur : Instantiates recur) (h : Filling working done g cls (symbol :: left) g1)
    (orig : Id) (name : String) :
    Yields (instantiateSymbol recur orig cls name symbol) g1 fun _ g' => Filling working done g cls left g' := by
  obtain ⟨done', hprogress, hcls⟩ := h
  refine (symbolClass_yields hprogress.housed' cls symbol).bind ?_
  rintro type g2 ⟨hr, htype⟩
  have h2 : Filling working done g cls (symbol :: left) g2 := ⟨done', hprogress.retain hr fun _ hf => hf.elim, hcls⟩
  cases type with
  | none =>
    obtain ⟨s, hs, htype⟩ := htype rfl
    exact instantiateElementary_yields h2 hs htype name
  | some type =>
    have hself : ∀ id, id = symbol → id ∈ symbol :: left := fun id hid => hid ▸ (.head _)
    refine (h2.keeps (.takeArguments cls (some name)) hself).bind fun taken g3 h3 => ?_
    refine (h3.keeps (.extendsBuiltin type) hself).bind fun builtin g4 h4 => ?_
    refine (h4.keeps (.mapM fun arg => ?_) hself).bind fun args g5 h5 => ?_
    · split
      · exact .attributeArguments arg
      · exact .bind (.descend arg) fun _ => .pure _
    refine (h5.keeps (giveArguments_keeps symbol args.flatten) hself).bind fun _ g6 h6 => ?_
    have htail : ∀ g7, Filling working done g cls (symbol :: left) g7 →
        Yields (instantiateType recur orig name symbol type) g7 fun _ g' => Filling working done g cls left g' := by
      rintro g7 ⟨done7, h7, hcls7⟩
      have hrethrow : ∀ (f : Fault) (g' : Graph) (Q : Id → Graph → Prop),
          Yields (do throw (.inComponent ((← fullName orig) ++ "." ++ name) f)) g' Q := fun f g' Q =>
        (Reads.fullName orig).yields_bind fun _ => trivial
      refine ends_bind.2 (ends_tryCatch.2 (ends_bind.2 (ends_symbolAt_of (fun s hs => ends_bind.2
        (ends_classAt_of (fun k hk => ?_) (hrethrow _ _ _))) (hrethrow _ _ _))))
      refine Ends.imp (hrecur _ done7 g7 type s.modification k.parent h7.housed'
        (fun p hp => h7.housed'.parent type k p hk hp) h7.settling) ?_ fun f g' _ => hrethrow f g' _
      rintro t g8 ⟨done8, h8, ht⟩
      refine ends_modifySymbol_of (fun s8 hs8 => ?_) trivial
      have hset : Retains (· = symbol) g8 (g8.set symbol (.symbol { s8 with type := .node t, modification := none })) := by
        refine .set hs8 rfl rfl (by simp) ?_
        rintro _ ⟨⟩
        exact ⟨_, rfl, .inl rfl⟩
      refine Filling.finish ((h7.trans h8).retain hset fun id hid => .inr (hself id hid)) (h8.classes cls hcls7) ?_
      exact ⟨_, get?_set hs8 _, .inr ⟨t, rfl, ht, rfl⟩⟩
    refine ends_bind.2 (ends_symbolAt_of (fun s hs => ?_) trivial)
    split
    · next m _ =>
      refine (Reads.argumentsAt m).yields_bind fun inside => ?_
      exact (h6.keeps (.forM (.setScope cls)) hself).bind fun _ g7 h7 => htail g7 h7
    · exact htail g6 h6

theorem checkTargets_reads (cls : Id) : Reads (checkTargets cls) := by
  refine (Reads.environmentOf cls).bind fun env => (Reads.argumentsAt env).bind fun args => ?_
  refine Reads.bind (Reads.forIn fun arg _ => ?_) fun _ => Reads.pure _
  refine (Reads.modifiedComponent arg).bind fun c => (Reads.referenceAt c).bind fun r => (Reads.classAt cls).bind fun k => ?_
  split
  · exact (Reads.fullName cls).bind fun name => (Reads.throw (by simp [Fault.root])).bind fun _ => Reads.pure _
  · exact Reads.pure _

end Level

theorem Working.close {classes symbols} (h : Working working done g cls classes symbols done' g1)
    (hnested : ∀ n ∈ classes.values, done'.classes n) : Filling working done g cls symbols.values g1 := by
  obtain ⟨c, hc, hrole, rfl, rfl⟩ := h.content
  refine ⟨done'.add cls c.symbols.values, ⟨h.progress.housed, h.progress.retains, fun id hid => .inl (h.progress.classes id hid),
    fun id hid => .inl (h.progress.symbols id hid), ?_,
    h.progress.settling.close hc hrole hnested fun y hy => .inr hy⟩, .inr rfl⟩
  rintro id (hid | rfl)
  · exact h.progress.fresh id hid
  · exact .inr fun ⟨k, hk⟩ => absurd (get?_lt hk) (Nat.not_lt.2 h.fresh)

theorem instantiateTo_instantiates (n : Nat) : Instantiates (instantiateTo n) := by
  induction n with
  | zero => exact fun _ _ _ _ _ _ _ _ _ => trivial
  | succ n ih =>
    intro working done g orig modification parent hg hparent hsettling
    refine (inherit_yields hg orig modification hparent).bind ?_
    rintro cls g1 ⟨c, hc⟩
    have hnew : ¬ done.classes cls := fun hcls => by
      obtain ⟨k, hk, _⟩ := hsettling.classes cls hcls
      exact Nat.not_lt.2 hc.fresh (get?_lt hk)
    have h1 : Redeclaring working done g cls c.symbols g1 := by
      have hstart : Progress (fun id => working id ∨ id ∈ c.symbols.values) done g done g :=
        .refl hg (hsettling.mono fun _ => .inl)
      exact ⟨c.classes, done, hc.nodup, hstart.retain hc.retains fun _ => .inr, hc.fresh, hnew, c, hc.found, hc.role, rfl, rfl⟩
    refine (redeclareAll_yields h1 ih).bind ?_
    rintro _ g2 ⟨classes, done2, hnodup, h2⟩
    obtain ⟨c2, hc2, _, hclasses, _⟩ := h2.content
    refine ends_bind.2 ((ends_classAt hc2).2 (ends_bind.2 ?_))
    rw [hclasses]
    have hstart : Nesting working done g cls c.symbols classes.keys [] g2 :=
      ⟨classes, done2, rfl, fun _ _ hno => absurd hno not_mem_nil, h2⟩
    refine (yields_forIn_parts (fun before _ g' => Nesting working done g cls c.symbols classes.keys
      (before.map (·.1)) g') (fun before x after hl g' h' => ?_) hstart).imp ?_
    · have hname : x.1 ∈ classes.keys := mem_map.2 ⟨x, by simp [hl], rfl⟩
      refine (instantiateClass_yields ih hnodup h' hname x.2).bind fun _ _ h => ends_pure.2 ⟨rfl, ?_⟩
      simpa using h
    · rintro _ g3 ⟨classes3, done3, hkeys, hdone, h3⟩
      refine (checkTargets_reads cls).yields_bind fun _ => ?_
      obtain ⟨c3, hc3, _, _, hsymbols⟩ := h3.content
      refine ends_bind.2 ((ends_classAt hc3).2 (ends_bind.2 ?_))
      rw [hsymbols]
      have hfilling : Filling working done g cls (c.symbols.entries.map (·.2)) g3 := h3.close fun n hn => by
        obtain ⟨e, he, rfl⟩ := mem_map.1 hn
        refine hdone e he ?_
        have hkey : e.1 ∈ classes3.keys := mem_map.2 ⟨e, he, rfl⟩
        rwa [hkeys] at hkey
      refine (yields_forIn_parts (fun _ after g' => Filling working done g cls (after.map (·.2)) g')
        (fun before x after hl g' h' => ?_) hfilling).imp ?_
      · exact (instantiateSymbol_yields ih h' orig x.1).bind fun _ _ h => ends_pure.2 ⟨rfl, h⟩
      · rintro _ g4 ⟨done4, h4, hcls4⟩
        refine ⟨done4, ⟨h4.housed, h4.retains, h4.classes, h4.symbols, h4.fresh, h4.settling.mono ?_⟩, hcls4⟩
        rintro id (hid | hid)
        · exact hid
        · exact absurd hid not_mem_nil

/-! ### Arguments that name nothing -/

/-- An instance up to the check that the arguments that are left name symbols. -/
def prepare (n : Nat) (orig : Id) (modification parent : Option Id) : Build Id := do
  let cls ← inherit orig modification parent
  redeclareAll (instantiateTo n) cls
  for (name, nested) in (← classAt cls).classes.entries do
    instantiateClass (instantiateTo n) cls name nested
  pure cls

theorem instantiateTo_succ (n : Nat) (orig : Id) (modification parent : Option Id) :
    instantiateTo (n + 1) orig modification parent = (do
      let cls ← prepare n orig modification parent
      checkTargets cls
      for (name, symbol) in (← classAt cls).symbols.entries do
        instantiateSymbol (instantiateTo n) orig cls name symbol
      pure cls) := by
  simp [instantiateTo, prepare]

/-- The argument is about the component of the given name. -/
def Names (g : Graph) (arg : Id) (name : String) : Prop :=
  ∃ v scope redeclare source component r, g.get? arg = some (.argument v scope redeclare source) ∧
    ((∃ ms, g.get? v = some (.elementModification component ms)) ∨
      ∃ new category m, g.get? v = some (.shortClass new category component m)) ∧
    g.get? component = some (.reference r) ∧ r.name = name

theorem Names.ends {Q F arg name} (h : Names g arg name) (hQ : ∀ r, r.name = name → Q r g) :
    Ends (do referenceAt (← modifiedComponent arg)) g Q F := by
  obtain ⟨v, scope, redeclare, source, component, r, harg, hv, hr, hname⟩ := h
  simp only [modifiedComponent, argumentAt, bind_assoc, ends_bind, ends_element harg, ends_pure]
  rcases hv with ⟨ms, hv⟩ | ⟨new, category, m, hv⟩
  · simp only [ends_element hv, ends_pure, ends_referenceAt hr]
    exact hQ r hname
  · simp only [ends_element hv, ends_pure, ends_referenceAt hr]
    exact hQ r hname

theorem checkTargets_stops {k env arg before after name text} (hk : g.ClassAt cls k)
    (henv : k.environment = some env) (hargs : g.get? env = some (.modification (before ++ arg :: after)))
    (hbefore : ∀ a ∈ before, ∃ x, Names g a x ∧ k.symbols.contains x = true) (harg : Names g arg name)
    (hno : k.symbols.contains name = false) (htext : fullName cls g = .ok text g) :
    checkTargets cls g = .error (.targetNotFound name text) g := by
  suffices h : Ends (checkTargets cls) g (fun _ _ => False) fun f g' => f = .targetNotFound name text ∧ g' = g by
    simp only [Ends] at h
    split at h
    · exact h.elim
    · next hx => rw [hx, h.1, h.2]
  simp only [checkTargets, environmentOf, bind_assoc, ends_bind, ends_classAt hk, henv, ends_pure, ends_argumentsAt hargs]
  clear hargs
  -- One argument after the other is found to name a symbol, until the one that does not.
  induction before with
  | nil =>
    rw [nil_append, forIn_cons, ends_bind, ← bind_assoc, ends_bind]
    refine harg.ends fun r hr => ?_
    simp only [hr, ends_bind, ends_classAt hk, hno, Bool.not_false, if_true]
    simp only [Ends, htext]
    exact ⟨rfl, rfl⟩
  | cons a before ih =>
    obtain ⟨x, hx, hyes⟩ := hbefore a (.head _)
    rw [cons_append, forIn_cons, ends_bind, ← bind_assoc, ends_bind]
    refine hx.ends fun r hr => ?_
    simp only [hr, ends_bind, ends_classAt hk, hyes, Bool.not_true, Bool.false_eq_true, if_false, ends_pure]
    exact ih fun b hb => hbefore b (.tail _ hb)

end Build

/-! ### What an instance holds -/

namespace Graph

/-- The classes of an instance: itself, nested classes, and the types of symbols. -/
inductive ClassIn (g : Graph) (root : Id) : Id → Prop
  | root : ClassIn g root root
  | nested {cls n : Id} {c : ClassDef} (hcls : ClassIn g root cls) (hc : g.get? cls = some (.classDef c))
      (hn : n ∈ c.classes.values) : ClassIn g root n
  | type {cls y t : Id} {c : ClassDef} {s : Symbol} (hcls : ClassIn g root cls) (hc : g.get? cls = some (.classDef c))
      (hy : y ∈ c.symbols.values) (hs : g.get? y = some (.symbol s)) (ht : s.type = .node t) (hclass : g.IsClass t) :
      ClassIn g root t

/-- A class that is an instance. -/
def InstanceAt (g : Graph) (id : Id) : Prop := ∃ c, g.get? id = some (.classDef c) ∧ c.role = .instanced

/-- A symbol of elementary type, or with an instance for a type and no modification. -/
def InstantiatedAt (g : Graph) (id : Id) : Prop :=
  ∃ s, g.get? id = some (.symbol s) ∧
    (g.ElementaryType s ∨ ∃ t, s.type = .node t ∧ g.InstanceAt t ∧ s.modification = none)

variable {done : Done} {g : Graph} {root : Id}

theorem Settling.classIn (h : Settling done (fun _ => False) g) (hroot : done.classes root) {id}
    (hid : g.ClassIn root id) : done.classes id := by
  induction hid with
  | root => exact hroot
  | @nested cls n c _ hc hn ih =>
    obtain ⟨c', hc', _, hnested, _⟩ := h.classes cls ih
    cases hc.symm.trans hc'
    exact hnested n hn
  | @type cls y t c s _ hc hy hs ht hclass ih =>
    obtain ⟨c', hc', _, _, hsymbols⟩ := h.classes cls ih
    cases hc.symm.trans hc'
    obtain ⟨s', hs', hcases⟩ := (h.symbols y (hsymbols y hy)).resolve_left fun hf => hf
    cases hs.symm.trans hs'
    rcases hcases with ⟨r, ref, htype, href, _⟩ | ⟨t', htype, ht', _⟩
    · obtain ⟨k, hk⟩ := hclass
      cases ht.symm.trans htype
      cases hk.symm.trans href
    · cases ht.symm.trans htype
      exact ht'

theorem Settling.instanceAt (h : Settling done (fun _ => False) g) {id} (hid : done.classes id) :
    ∃ c, g.ClassAt id c ∧ c.role = .instanced ∧ ∀ y ∈ c.symbols.values, g.InstantiatedAt y := by
  obtain ⟨c, hc, hrole, _, hsymbols⟩ := h.classes id hid
  refine ⟨c, hc, hrole, fun y hy => ?_⟩
  obtain ⟨s, hs, hcases⟩ := (h.symbols y (hsymbols y hy)).resolve_left fun hf => hf
  refine ⟨s, hs, hcases.imp_right ?_⟩
  rintro ⟨t, htype, ht, hnone⟩
  obtain ⟨k, hk, hrole, _⟩ := h.classes t ht
  exact ⟨t, htype, ⟨k, hk, hrole⟩, hnone⟩

end Graph

open Build Modelica.Graph

/-- The instance of a class is complete, whatever arguments it is given: all classes in
it are instances, and each of their symbols has an elementary type, or an instance for
a type and no modification. And on each level an argument that names a component the
class has not, once its nested classes have taken theirs, makes the instantiation fail
and say so. -/
theorem instantiate_complete {g : Graph} (hg : g.Housed) (orig : Id) (modification : Option Id) {parent : Option Id}
    (hparent : ∀ p, parent = some p → g.IsClass p) (n : Nat) :
    (∀ cls g', instantiateTo n orig modification parent g = .ok cls g' → ∀ id, g'.ClassIn cls id →
      ∃ c, g'.get? id = some (.classDef c) ∧ c.role = .instanced ∧ ∀ y ∈ c.symbols.values, g'.InstantiatedAt y) ∧
    ∀ cls g₁ k env before arg after name text, prepare n orig modification parent g = .ok cls g₁ →
      g₁.get? cls = some (.classDef k) → k.environment = some env →
      g₁.get? env = some (.modification (before ++ arg :: after)) →
      (∀ a ∈ before, ∃ x, Names g₁ a x ∧ k.symbols.contains x = true) →
      Names g₁ arg name → k.symbols.contains name = false → fullName cls g₁ = .ok text g₁ →
      instantiateTo (n + 1) orig modification parent g = .error (.targetNotFound name text) g₁ := by
  constructor
  · have hnone : Settling ⟨fun _ => False, fun _ => False⟩ (fun _ => False) g := ⟨fun _ hf => hf.elim, fun _ hf => hf.elim⟩
    have h := yields_iff.1 (instantiateTo_instantiates n _ _ g orig modification parent hg hparent hnone)
    intro cls g' hx id hid
    obtain ⟨done, hprogress, hcls⟩ := h cls g' hx
    exact hprogress.settling.instanceAt (hprogress.settling.classIn hcls hid)
  · intro cls g₁ k env before arg after name text hx hk henv hargs hbefore harg hno htext
    have hstop := checkTargets_stops hk henv hargs hbefore harg hno htext
    rw [instantiateTo_succ]
    simp only [bind, EStateM.bind, hx, hstop]

@[irreducible] def holderText : String := "model A Real y; end A; model M A a(y = 1); end M;"

/-- The class `M` of the text, as an instance with an environment. -/
def holderInstance : ClassDef :=
  { role := .instanced, name := some "M", category := "model", symbols := ⟨[("a", 34)]⟩, parent := some 40,
    remarks := some 41, environment := some 42, declaration := 18 }

/-- The class `M` has a complete instance; with the argument `y = 1` for itself it has
none, because it has no `y` of its own. -/
theorem instantiate_complete_holder : ∃ l g, read holderText {} = .ok l g ∧
    (Runs (instantiateTo 2 18 none (some l.root)) g fun cls g' => ∀ id, g'.ClassIn cls id →
      ∃ c, g'.get? id = some (.classDef c) ∧ c.role = .instanced ∧ ∀ y ∈ c.symbols.values, g'.InstantiatedAt y) ∧
    ∃ g₁, instantiateTo 1 18 (some 39) (some l.root) g = .error (.targetNotFound "y" "M") g₁ := by
  have h : Runs (read holderText) {} fun l g => g.Housed ∧ g.IsClass l.root ∧
      (Runs (instantiateTo 2 18 none (some l.root)) g fun _ _ => True) ∧
      Runs (prepare 0 18 (some 39) (some l.root)) g fun cls g₁ => g₁.get? cls = some (.classDef holderInstance) ∧
        g₁.get? 42 = some (.modification [38]) ∧ g₁.get? 38 = some (.argument 37 none false none) ∧
        g₁.get? 37 = some (.elementModification 35 [.node 36]) ∧ g₁.get? 35 = some (.reference { name := "y" }) ∧
        Runs (fullName cls) g₁ fun text _ => text = "M" := by
    decide +kernel
  obtain ⟨l, g, hread, hg, hroot, hruns, hprepare⟩ := runs_iff.1 h
  obtain ⟨cls, g₁, hprepare, hk, henv, harg, helement, href, htext⟩ := runs_iff.1 hprepare
  obtain ⟨_, g₂, htext, rfl⟩ := runs_iff.1 htext
  obtain rfl : g₁ = g₂ := by
    have hreads := Reads.fullName cls g₁
    simp only [Ends, htext] at hreads
    exact hreads.symm
  have hparent : ∀ p, some l.root = some p → g.IsClass p := by
    rintro _ ⟨⟩
    exact hroot
  have hnames : Names g₁ 38 "y" := ⟨37, none, false, none, 35, _, harg, .inl ⟨_, helement⟩, href, rfl⟩
  refine ⟨l, g, hread, runs_of_ok hruns (instantiate_complete hg 18 none hparent 2).1, g₁, ?_⟩
  exact (instantiate_complete hg 18 (some 39) hparent 0).2 cls g₁ _ 42 [] 38 [] "y" "M" hprepare hk rfl henv
    (by simp) hnames rfl htext

end Modelica
