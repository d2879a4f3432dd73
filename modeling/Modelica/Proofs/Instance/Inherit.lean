/-
What the merging of base classes leaves alone.

`Retains touched g g'` is what every step of building an instance comes to for the
elements that were there before: references stay, classes stay but for the marks of
copying, symbols keep their type and their modification unless they are touched. A
step for which this holds `Keeps` the graph.

A class that is being merged is new, and so are the symbols of its base classes,
because base classes are copied (`Building`). So of the symbols that were there only
the class's own are touched (`inheritTo_inherits`). The category of the class is followed
on the way, since one base class with an elementary name changes it (`Recategorized`).
-/
import Modelica.Proofs.Graph.Duplicate
import Modelica.Proofs.Graph.Framing
import Modelica.Proofs.Table

namespace Modelica

open List

namespace Graph

variable {touched touched' : Id → Prop} {g g1 g' : Graph} {id : Id} {e e' : Element}

def IsSymbol (g : Graph) (id : Id) : Prop := ∃ s, g.get? id = some (.symbol s)

theorem Free.not_isSymbol (h : g.Free id) : ¬ g.IsSymbol id := by
  rintro ⟨s, hs⟩
  rcases h with h | ⟨c, hc⟩
  · exact Nat.not_lt.2 h (get?_lt hs)
  · cases hs.symm.trans hc

namespace Housed

theorem add (h : g.Housed) (hparent : ∀ c p, e = .classDef c → c.parent = some p → g.IsClass p)
    (hsource : ∀ c s, e = .classDef c → c.source = some s → g.IsClass s) : (g.add e).1.Housed := by
  have hkept : ∀ {a}, g.IsClass a → (g.add e).1.IsClass a := fun {a} ha => by
    obtain ⟨c, hc⟩ := ha
    exact ⟨c, by rw [get?_add_of_lt g e (get?_lt hc), hc]⟩
  refine ⟨fun a c p hc hp => hkept ?_, fun a c s hc hs => hkept ?_⟩
  all_goals
    rw [get?_add] at hc
    split at hc
  · exact hparent c p (Option.some.inj hc) hp
  · exact h.parent a c p hc hp
  · exact hsource c s (Option.some.inj hc) hs
  · exact h.source a c s hc hs

theorem set (h : g.Housed) (hsorts : g.Sorts (g.set id e'))
    (hparent : ∀ c p, e' = .classDef c → c.parent = some p → g.IsClass p)
    (hsource : ∀ c s, e' = .classDef c → c.source = some s → g.IsClass s) : (g.set id e').Housed := by
  have hkept : ∀ {a}, g.IsClass a → (g.set id e').IsClass a := fun {a} ha => by
    obtain ⟨c, hc⟩ := ha
    exact (hsorts.isClass a (get?_lt hc)).2 ⟨c, hc⟩
  refine ⟨fun a c p hc hp => hkept ?_, fun a c s hc hs => hkept ?_⟩
  all_goals
    have hlt := get?_lt hc
    rw [size_set] at hlt
    by_cases ha : a = id
    · subst ha
      rw [get?_set_self g e' hlt] at hc
      first | exact hparent c _ (Option.some.inj hc) hp | exact hsource c _ (Option.some.inj hc) hs
    · rw [get?_set_other g e' ha] at hc
      first | exact h.parent a c _ hc hp | exact h.source a c _ hc hs

end Housed

/-- A base class that has an elementary name. -/
def ElementaryBase (g : Graph) (base : Id) : Prop :=
  ∃ component m v r, g.get? base = some (.base component m v) ∧ g.get? component = some (.reference r) ∧
    r.name ∈ elementaryNames

theorem elementaryBase_add (hbase : ∀ c m v, e ≠ .base c m v) (hreference : ∀ r, e ≠ .reference r) {base} :
    (g.add e).1.ElementaryBase base ↔ g.ElementaryBase base := by
  have hget : ∀ {a e'}, e ≠ e' → ((g.add e).1.get? a = some e' ↔ g.get? a = some e') := fun {a e'} hne => by
    rw [get?_add]
    split
    · next ha => simp [hne, ha, Graph.get?]
    · rfl
  simp only [ElementaryBase, hget (hbase _ _ _), hget (hreference _)]

theorem HasCategory.of_add {s} (h : (g.add e).1.HasCategory s)
    (he : ∀ c, e = .classDef c → g.HasCategory c.category) : g.HasCategory s := by
  obtain ⟨c, hc, rfl⟩ := h
  rcases Array.mem_push.1 hc with hc | hc
  · exact ⟨c, hc, rfl⟩
  · exact he c hc.symm

/-- With its base classes merged in, a class of category `s` becomes one of category `s'`. -/
def Recategorized (g : Graph) (bases : List Id) (s s' : String) : Prop :=
  s' = builtinCategory ↔ s = builtinCategory ∨ ∃ base, bases = [base] ∧ g.ElementaryBase base

/-- References stay, classes stay up to their source, and symbols keep their type and
their modification unless they are touched. -/
structure Retains (touched : Id → Prop) (g g' : Graph) : Prop where
  size_le : g.size ≤ g'.size
  housed : g.Housed → g'.Housed
  reference : ∀ id r, g.get? id = some (.reference r) → g'.get? id = some (.reference r)
  classDef : ∀ id c, g.get? id = some (.classDef c) → ∃ source, g'.get? id = some (.classDef { c with source })
  symbol : ∀ id s, g.get? id = some (.symbol s) → ∃ s', g'.get? id = some (.symbol s') ∧
    (touched id ∨ s'.type = s.type ∧ s'.modification = s.modification)

namespace Retains

theorem refl (g : Graph) : Retains touched g g :=
  ⟨le_rfl, id, fun _ _ h => h, fun _ c h => ⟨c.source, h⟩, fun _ s h => ⟨s, h, .inr ⟨rfl, rfl⟩⟩⟩

theorem isClass (h : Retains touched g g') (hid : g.IsClass id) : g'.IsClass id := by
  obtain ⟨c, hc⟩ := hid
  obtain ⟨source, hc'⟩ := h.classDef id c hc
  exact ⟨_, hc'⟩

theorem isSymbol (h : Retains touched g g') (hid : g.IsSymbol id) : g'.IsSymbol id := by
  obtain ⟨s, hs⟩ := hid
  obtain ⟨s', hs', _⟩ := h.symbol id s hs
  exact ⟨s', hs'⟩

theorem trans (h : Retains touched g g1) (h' : Retains touched' g1 g')
    (ht : ∀ id, g.IsSymbol id → touched' id → touched id) : Retains touched g g' := by
  refine ⟨h.size_le.trans h'.size_le, h'.housed ∘ h.housed, fun id r hr => h'.reference id r (h.reference id r hr),
    fun id c hc => ?_, fun id s hs => ?_⟩
  · obtain ⟨_, hc1⟩ := h.classDef id c hc
    obtain ⟨source, hc2⟩ := h'.classDef id _ hc1
    exact ⟨source, hc2⟩
  · obtain ⟨s1, hs1, h1⟩ := h.symbol id s hs
    obtain ⟨s2, hs2, h2⟩ := h'.symbol id s1 hs1
    refine ⟨s2, hs2, ?_⟩
    rcases h1 with h1 | h1
    · exact .inl h1
    · exact h2.imp (ht id ⟨s, hs⟩) fun h2 => ⟨h2.1.trans h1.1, h2.2.trans h1.2⟩

theorem of_copies (h : g.Copies g') : Retains touched g g' := by
  refine ⟨h.kept.size_le, fun _ => h.housed, fun id r hr => ?_, fun id c hc => h.kept.classDef hc, fun id s hs => ?_⟩
  · obtain ⟨e, he, hsame⟩ := h.kept.get?_some hr
    cases e <;> cases hsame
    exact he
  · obtain ⟨e, he, hsame⟩ := h.kept.get?_some hs
    cases e <;> cases hsame
    exact ⟨s, he, .inr ⟨rfl, rfl⟩⟩

theorem add (hparent : ∀ c p, e = .classDef c → c.parent = some p → g.IsClass p)
    (hsource : ∀ c s, e = .classDef c → c.source = some s → g.IsClass s) : Retains touched g (g.add e).1 := by
  have hkept : ∀ {a e0}, g.get? a = some e0 → (g.add e).1.get? a = some e0 := fun {a e0} ha => by
    rw [get?_add_of_lt g e (get?_lt ha), ha]
  exact ⟨by simp, fun h => h.add hparent hsource, fun _ _ => hkept, fun _ c hc => ⟨c.source, hkept hc⟩,
    fun _ s hs => ⟨s, hkept hs, .inr ⟨rfl, rfl⟩⟩⟩

theorem addPart (h : Retains touched g g1) (he : e.isClass = false) : Retains touched g (g1.add e).1 := by
  have hadd : Retains touched g1 (g1.add e).1 := by
    refine add ?_ ?_ <;> rintro _ _ rfl <;> cases he
  exact h.trans hadd fun _ _ ht => ht

theorem addClass (h : Retains touched g g1) {c} (hparent : ∀ p, c.parent = some p → g1.IsClass p)
    (hsource : c.source = none) : Retains touched g (g1.add (.classDef c)).1 := by
  have hadd : Retains touched g1 (g1.add (.classDef c)).1 := by
    refine .add ?_ ?_
    · rintro _ p ⟨⟩ hp
      exact hparent p hp
    · rintro _ s ⟨⟩ hs
      cases hsource.symm.trans hs
  exact h.trans hadd fun _ _ ht => ht

theorem set (he : g.get? id = some e) (hclass : e.isClass = false) (hclass' : e'.isClass = false)
    (hreference : ∀ r, e ≠ .reference r) (hsymbol : ∀ s, e = .symbol s → ∃ s', e' = .symbol s' ∧
      (touched id ∨ s'.type = s.type ∧ s'.modification = s.modification)) : Retains touched g (g.set id e') := by
  have hkept : ∀ {a e0}, g.get? a = some e0 → a = id ∧ e0 = e ∨ (g.set id e').get? a = some e0 := fun {a e0} ha => by
    by_cases heq : a = id
    · subst heq
      exact .inl ⟨rfl, Option.some.inj (ha.symm.trans he)⟩
    · exact .inr (by rw [get?_set_other g e' heq, ha])
  have hsorts : g.Sorts (g.set id e') := .replace he (hclass'.trans hclass.symm)
  refine ⟨by simp, fun h => h.set hsorts ?_ ?_, fun a r hr => ?_, fun a c hc => ?_, fun a s hs => ?_⟩
  · rintro c _ rfl
    cases hclass'
  · rintro c _ rfl
    cases hclass'
  · rcases hkept hr with ⟨_, rfl⟩ | h
    · exact absurd rfl (hreference r)
    · exact h
  · rcases hkept hc with ⟨_, rfl⟩ | h
    · cases hclass
    · exact ⟨c.source, h⟩
  · rcases hkept hs with ⟨rfl, rfl⟩ | h
    · obtain ⟨s', rfl, hs'⟩ := hsymbol s rfl
      exact ⟨s', get?_set he _, hs'⟩
    · exact ⟨s, h, .inr ⟨rfl, rfl⟩⟩

theorem renew (h : Retains touched g g1) (hid : g.size ≤ id) {s} (hs : g1.SymbolAt id s)
    (s' : Symbol) : Retains touched g (g1.set id (.symbol s')) := by
  have hset : Retains (· = id) g1 (g1.set id (.symbol s')) := by
    refine .set hs rfl rfl (by simp) ?_
    rintro _ ⟨⟩
    exact ⟨s', rfl, .inl rfl⟩
  refine h.trans hset ?_
  rintro _ ⟨t, ht⟩ rfl
  exact absurd (get?_lt ht) (Nat.not_lt.2 hid)

/-- A class that was not there may be replaced by one that stands in the same place. -/
theorem edit (h : Retains touched g g1) (hid : g.size ≤ id) {c c'}
    (hc : g1.ClassAt id c) (hparent : c'.parent = c.parent) (hsource : c'.source = c.source) :
    Retains touched g (g1.set id (.classDef c')) := by
  have hkept : ∀ {a e0}, a < g.size → g1.get? a = some e0 → (g1.set id (.classDef c')).get? a = some e0 :=
    fun {a e0} ha he => by rw [get?_set_other _ _ (ha.trans_le hid).ne, he]
  have hsorts : g1.Sorts (g1.set id (.classDef c')) := .replace hc rfl
  refine ⟨by simpa using h.size_le, fun hg => (h.housed hg).set hsorts ?_ ?_, fun a r hr => ?_, fun a c hc => ?_,
    fun a s hs => ?_⟩
  · rintro _ p ⟨⟩ hp
    exact (h.housed hg).parent id c p hc (hparent ▸ hp)
  · rintro _ s ⟨⟩ hs
    exact (h.housed hg).source id c s hc (hsource ▸ hs)
  · exact hkept (get?_lt hr) (h.reference a r hr)
  · obtain ⟨source, hc1⟩ := h.classDef a c hc
    exact ⟨source, hkept (get?_lt hc) hc1⟩
  · obtain ⟨s', hs', hsame⟩ := h.symbol a s hs
    exact ⟨s', hkept (get?_lt hs) hs', hsame⟩

end Retains
end Graph

namespace Build

open Modelica.Graph

variable {α β : Type} {touched : Id → Prop} {g : Graph} {id : Id}

variable {c k : ClassDef} {P : Id → Prop} {parent : Option Id}

/-! ### Steps that keep what was there -/

instance : Open Graph.Housed (Retains touched) where
  refl := .refl
  trans h h' := h.trans h' fun _ _ ht => ht
  next hg h := h.housed hg
  part g _ he := (Retains.refl g).addPart he
  arguments _ h := .set h rfl rfl (by simp) (by simp)
  argument _ h := .set h rfl rfl (by simp) (by simp)
  change _ h := .set h rfl rfl (by simp) (by simp)
  copy id _ hg := Ends.imp (copy_ends hg id) (fun _ _ h => ⟨.of_copies h.1, trivial⟩) fun _ _ h => .of_copies h.1

/-- The step keeps what was there, whether it succeeds or fails. -/
abbrev Keeps (touched : Id → Prop) (x : Build α) : Prop := Framed Graph.Housed (Retains touched) x

theorem Keeps.modifySymbol {f} (hf : touched id ∨ ∀ s, (f s).type = s.type ∧ (f s).modification = s.modification) :
    Keeps touched (modifySymbol id f) := fun g _ => by
  refine ends_modifySymbol_of (fun s hs => ⟨.set hs rfl rfl (by simp) ?_, trivial⟩) (.refl g)
  rintro _ ⟨⟩
  exact ⟨f s, rfl, hf.imp_right fun h => h s⟩

/-! ### Base classes -/

theorem limitVisibility_keeps (cls : Id) (limit : Visibility) : Keeps touched (limitVisibility cls limit) := by
  refine .reads (.classAt cls) fun c => .bind (.forIn fun s _ => ?_) fun _ => .pure _
  refine .bind (Keeps.modifySymbol (.inr fun s => ?_)) fun _ => .pure _
  split <;> exact ⟨rfl, rfl⟩

theorem ancestors_yields (n : Nat) (id : Id) :
    Yields (ancestors n id) g fun l g' => g' = g ∧ l ≠ [] ∧ ∀ a ∈ l, g.IsClass a := by
  induction n generalizing id with
  | zero => trivial
  | succ n ih =>
    refine yields_classAt fun c hc => ?_
    split
    · exact ⟨rfl, by simp, by simp [IsClass, hc]⟩
    · next p _ =>
      refine (ih p).bind fun l g' h => ?_
      refine ⟨h.1, by simp, fun a ha => ?_⟩
      rcases mem_cons.1 ha with rfl | ha
      · exact ⟨c, hc⟩
      · exact h.2.2 a ha

theorem rootOf_yields (id : Id) : Yields (rootOf id) g fun root g' => g' = g ∧ g.IsClass root := by
  refine ends_bind.2 (ends_bind.2 (ends_size.2 ((ancestors_yields _ id).imp ?_)))
  rintro l g' ⟨rfl, hne, hl⟩
  refine ⟨rfl, ?_⟩
  rw [List.getLast?_eq_getLast_of_ne_nil hne]
  exact hl _ (getLast_mem hne)

theorem fullName_self (hc : g.ClassAt id c) (hp : c.parent = some id) : Yields (fullName id) g fun _ _ => False := by
  have hancestors : ∀ n, Yields (ancestors n id) g fun _ _ => False := fun n => by
    induction n with
    | zero => trivial
    | succ n ih =>
      simp only [ancestors, ends_bind, ends_classAt hc, hp, ends_pure]
      exact ih
  simp only [fullName, fullPath, enclosing, bind_assoc, ends_bind, ends_size]
  exact (hancestors _).of_false

theorem ends_alloc_part {e f g1} {Q : β → Graph → Prop} {F} (h : Retains touched g g1) (he : e.isClass = false)
    (hf : ∀ id g2, Retains touched g g2 → g.size ≤ id → Ends (f id) g2 Q F) : Ends (alloc e >>= f) g1 Q F :=
  ends_bind.2 (hf _ _ (h.addPart he) h.size_le)

theorem freshSymbol_yields (h : Retains touched g g1) (order : Nat) :
    Yields (freshSymbol order) g1 fun symbol g' => Retains touched g g' ∧ g.size ≤ symbol := by
  refine ends_alloc_part h rfl fun type g1 h _ => ends_alloc_part h rfl fun keywords g2 h _ => ?_
  refine ends_alloc_part h rfl fun dimension g3 h _ => ends_alloc_part h rfl fun start g4 h _ => ?_
  refine ends_alloc_part h rfl fun min g5 h _ => ends_alloc_part h rfl fun max g6 h _ => ?_
  refine ends_alloc_part h rfl fun nominal g7 h _ => ends_alloc_part h rfl fun value g8 h _ => ?_
  refine ends_alloc_part h rfl fun fixed g9 h _ => ends_alloc_part h rfl fun unit g10 h _ => ?_
  exact ends_alloc.2 ⟨h.addPart rfl, h.size_le⟩

theorem freshClass_yields (h : Retains touched g g1) (hparent : ∀ p, c.parent = some p → g1.IsClass p)
    (hsource : c.source = none) : Yields (freshClass c) g1 fun id g' =>
      Retains touched g g' ∧ ∃ declaration, g'.ClassAt id { c with declaration } := by
  have hself : (g1.add (.classDef c)).1.ClassAt g1.size c := get?_add_self g1 _
  simp only [freshClass, ends_bind, ends_alloc, ends_modifyClass hself, ends_pure]
  exact ⟨(h.addClass hparent hsource).edit h.size_le hself rfl rfl, _, get?_set hself _⟩

theorem builtinClass_yields (scope : Id) (name : String) :
    Yields (builtinClass scope name) g fun found g' => Retains touched g g' ∧ g.Renews g' found ∧
      ∀ c, g'.ClassAt found c → c.category = builtinCategory := by
  refine (rootOf_yields scope).bind ?_
  rintro root g0 ⟨rfl, hroot⟩
  have h0 : Retains touched g0 g0 := .refl g0
  refine ends_alloc_part h0 rfl fun type g1 h1 _ => (freshSymbol_yields h1 0).bind ?_
  rintro value g2 ⟨h2, hvalue⟩
  refine ends_bind.2 (ends_modifySymbol_of (fun s hs => ?_) trivial)
  have h3 := h2.renew hvalue hs { s with name := builtinSymbol, type := .node type }
  refine (freshClass_yields h3 (fun p hp => ?_) rfl).imp ?_
  · cases hp
    exact h3.isClass hroot
  · rintro found g' ⟨h', declaration, hfound⟩
    refine ⟨h', fun c hc => .inl fun y hy => .inl ?_, fun c hc => ?_⟩ <;> cases hfound.symm.trans hc
    on_goal 2 => rfl
    obtain rfl : y = value := by simpa [Table.values, Table.insert, Table.empty, Table.put] using hy
    exact hvalue

theorem path_ends (reference : Id) : Ends (path reference) g (fun p g' => g = g' ∧
    ∃ r, g.ReferenceAt reference r ∧ p.head? = some r.name) fun f _ => f.root ≠ .elementaryClass := by
  refine ends_bind.2 (ends_size.2 (ends_bind.2 (ends_bind.2 (ends_element_of (fun e he => ?_) (by decide)))))
  cases e with
  | reference r =>
    rw [ends_pure]
    split
    · exact ⟨rfl, r, he, rfl⟩
    · exact ends_bind.2 ((Reads.pathTo _ _).ends (fun rest => ⟨rfl, r, he, rfl⟩) fun _ hf => hf)
  | _ => exact ends_throw.2 (by decide)

/-- The category a base class has been found with. -/
def BaseCategory (g g' : Graph) (path : List String) (found : Id) : Prop := ∀ c, g'.get? found = some (.classDef c) →
  if isElementary path then c.category = builtinCategory else g.HasCategory c.category

/-- A base class is a copy or a stand-in, with symbols of its own unless it stands in
itself. -/
theorem findBase_yields (hg : g.Housed) (scope : Id) (path : List String) :
    Yields (findBase scope path) g fun found g' => Retains (fun _ => False) g g' ∧ g.Renews g' found ∧
      BaseCategory g g' path found := by
  have hclass (hpath : isElementary path = false) : Yields (findClass scope path) g fun found g' =>
      Retains (fun _ => False) g g' ∧ g.Renews g' found ∧ BaseCategory g g' path found := by
    simp only [findClass, findOriginal, BaseCategory, hpath, Bool.false_eq_true, if_false]
    refine (Reads.search scope path).yields_bind fun id => ?_
    exact (copy_ends hg id).yields.imp fun _ _ h => ⟨.of_copies h.1, h.2, h.1.categories _⟩
  cases path with
  | nil => exact hclass rfl
  | cons name rest =>
    simp only [findBase]
    split
    · next hname =>
      have hpath : isElementary (name :: rest) = true := hname
      simpa only [BaseCategory, hpath, if_true] using builtinClass_yields scope name
    · next hname => exact hclass (by simpa [isElementary] using hname)

/-- The class `cls` of category `s` has been added and is being filled, with nested classes
under different names and symbols of which `P` holds. -/
structure Building (g : Graph) (cls : Id) (s : String) (P : Id → Prop) (g' : Graph) : Prop where
  housed : g.Housed
  retains : Retains (fun _ => False) g g'
  fresh : g.size ≤ cls
  content : ∃ c, g'.get? cls = some (.classDef c) ∧ (c.role = .instanced ∧ c.category = s) ∧ c.classes.keys.Nodup ∧
    ∀ y ∈ c.symbols.values, P y

namespace Building

variable {cls : Id} {s : String} {P P' : Id → Prop} {g1 g2 : Graph}

variable (h : Building g cls s P g1)

include h

theorem keep (hr : Retains touched g1 g2) (ht : ∀ id, g.IsSymbol id → ¬ touched id) : Building g cls s P g2 := by
  obtain ⟨c, hc, hcontent⟩ := h.content
  obtain ⟨source, hc2⟩ := hr.classDef cls c hc
  exact ⟨h.housed, h.retains.trans hr ht, h.fresh, _, hc2, hcontent⟩

theorem keeps {x : Build α} (hx : Keeps (fun _ => False) x) : Yields x g1 fun _ g' => Building g cls s P g' :=
  (hx g1 (h.retains.housed h.housed)).yields.imp fun _ _ hr => h.keep hr.1 fun _ _ hf => hf

theorem mono (hP : ∀ y, P y → P' y) : Building g cls s P' g1 := by
  obtain ⟨c, hc, hrole, hnodup, hsymbols⟩ := h.content
  exact ⟨h.housed, h.retains, h.fresh, c, hc, hrole, hnodup, fun y hy => hP y (hsymbols y hy)⟩

theorem edit {c} (hc : g1.ClassAt cls c) (c' : ClassDef)
    (hc' : c'.role = c.role ∧ c'.parent = c.parent ∧ c'.source = c.source ∧ (c.classes.keys.Nodup → c'.classes.keys.Nodup))
    (hP : ∀ y ∈ c'.symbols.values, y ∈ c.symbols.values ∨ P y) :
    Building g cls c'.category P (g1.set cls (.classDef c')) := by
  obtain ⟨c1, hc1, hrole, hnodup, hsymbols⟩ := h.content
  cases hc.symm.trans hc1
  obtain ⟨hrole', hparent, hsource, hkeys⟩ := hc'
  exact ⟨h.housed, h.retains.edit h.fresh hc hparent hsource, h.fresh, _, get?_set hc _,
    ⟨hrole'.trans hrole.1, rfl⟩, hkeys hnodup, fun y hy => (hP y hy).elim (hsymbols y) fun hy => hy⟩

end Building

theorem Building.absorb {cls other s g1} (h : Building g cls s P g1)
    (hP : ∀ k, g1.ClassAt other k → ∀ y ∈ k.symbols.values, P y) :
    Yields (absorb cls other) g1 fun _ g' => Building g cls s P g' := by
  refine yields_classAt fun k hk => ?_
  refine ends_bind.2 (ends_modifyClass_of (fun c hc => ?_) trivial)
  obtain ⟨_, hc', ⟨-, rfl⟩, -⟩ := h.content
  obtain rfl := Element.classDef.inj (Option.some.inj (hc'.symm.trans hc))
  refine (Building.edit h hc _ ?_ ?_).keeps (.reads (.classAt cls) fun c => ?_)
  · exact ⟨rfl, rfl, rfl, fun hn => Table.nodup_keys_insertAll hn k.classes⟩
  · intro y hy
    obtain ⟨e, he, rfl⟩ := mem_map.1 hy
    exact (Table.mem_entries_insertAll he).imp (fun he => mem_map.2 ⟨e, he, rfl⟩)
      fun he => hP k hk _ (mem_map.2 ⟨e, he, rfl⟩)
  · split
    · exact .reads (.argumentsAt _) fun _ => .appendArguments _ _
    · exact .pure _

/-- What becomes of a class with its base classes merged in: a new class `c`, with
nothing touched but the symbols it has now. -/
structure Inherited (g : Graph) (cls : Id) (c : ClassDef) (g' : Graph) : Prop where
  retains : Retains (· ∈ c.symbols.values) g g'
  fresh : g.size ≤ cls
  found : g'.get? cls = some (.classDef c)
  role : c.role = .instanced
  nodup : c.classes.keys.Nodup

/-- The class `k` is merged with its base classes. The symbols are its own, or new, and so is the
category unless there is one base class with an elementary name. -/
def InheritedFrom (g : Graph) (k : ClassDef) (cls : Id) (g' : Graph) : Prop :=
  ∃ c, Inherited g cls c g' ∧ (∀ y ∈ c.symbols.values, y ∈ k.symbols.values ∨ ¬ g.IsSymbol y) ∧
    ((k.bases ≠ [] → ¬ g.HasCategory builtinCategory) → g.Recategorized k.bases k.category c.category)

/-- The step merges the base classes of a class into it. -/
def Inherits (recur : Id → Option Id → Option Id → Build Id) : Prop :=
  ∀ g orig modification parent k, g.Housed → (∀ p, parent = some p → g.IsClass p) →
    g.get? orig = some (.classDef k) → Yields (recur orig modification parent) g (InheritedFrom g k)

variable {recur : Id → Option Id → Option Id → Build Id} {orig cls base : Id} {s : String} {g1 : Graph}

section

variable (hrecur : Inherits recur) (h : Building g cls s (¬ g.IsSymbol ·) g1)

include hrecur h

theorem mergeBase_yields {found : Id}
    (hk : g1.ClassAt found k) (hsymbols : ∀ y ∈ k.symbols.values, ¬ g.IsSymbol y)
    (hparent : k.parent = parent) (modification : Option Id) (visibility : Visibility) :
    Yields (mergeBase recur cls found modification parent visibility) g1 fun _ g' => Building g cls s (¬ g.IsSymbol ·) g' := by
  subst hparent
  have hg1 := h.retains.housed h.housed
  refine (hrecur g1 found modification k.parent k hg1 (fun p hp => hg1.parent found k p hk hp) hk).bind ?_
  rintro merged g2 ⟨c, hc, hnew, -⟩
  have hsymbols' : ∀ y ∈ c.symbols.values, ¬ g.IsSymbol y := fun y hy hold =>
    (hnew y hy).elim (fun hy => hsymbols y hy hold) fun hno => hno (h.retains.isSymbol hold)
  have h2 := h.keep hc.retains fun y hold hy => hsymbols' y hy hold
  refine (h2.absorb ?_).bind fun _ g3 h3 => h3.keeps ?_
  · intro c' hc'
    cases hc.found.symm.trans hc'
    exact hsymbols'
  · refine .reads (.environmentOf cls) fun env => .reads (.environmentOf merged) fun env' => ?_
    refine .reads (.argumentsAt env') fun args => .bind (.appendArguments env args) fun _ => ?_
    exact limitVisibility_keeps cls visibility

/-- Merging one base class in makes the class a builtin type if the base class is one, which
then has to be the only one. -/
theorem inheritFrom_yields (horig : g.ClassAt orig k) :
    Yields (inheritFrom recur orig cls base) g1 fun _ g' => ∃ s', Building g cls s' (¬ g.IsSymbol ·) g' ∧
      (s' = s ∧ ¬ g1.ElementaryBase base ∨ s' = builtinCategory ∧ k.bases.length ≤ 1 ∧
        (g1.ElementaryBase base ∨ g1.HasCategory builtinCategory)) := by
  refine ends_bind.2 (ends_bind.2 (ends_element_of (fun e hbase => ?_) trivial))
  cases e with
  | base component m visibility => ?_
  | _ => trivial
  refine (path_ends component).yields.bind ?_
  rintro path _ ⟨rfl, r, hr, hhead⟩
  have hpath : isElementary path = true ↔ g1.ElementaryBase base := by
    simp only [isElementary, hhead, ElementaryBase, hbase]
    grind
  refine (findBase_yields (h.retains.housed h.housed) orig path).bind ?_
  rintro found g2 ⟨hr, hnew, hcategory⟩
  have h2 := h.keep hr fun _ _ hf => hf
  -- A base class that stands in itself has no full name.
  have hname : Yields (fullName found) g2 fun _ g' => g2 = g' ∧
      ∀ k, g2.ClassAt found k → ∀ y ∈ k.symbols.values, ¬ g.IsSymbol y := by
    by_cases hself : ∃ k, g2.ClassAt found k ∧ k.parent = some found
    · obtain ⟨k, hk, hparent⟩ := hself
      exact (fullName_self hk hparent).of_false
    · refine (Reads.fullName found).yields fun _ => ⟨rfl, fun k hk y hy hold => ?_⟩
      rcases hnew k hk with hfree | hparent
      · exact (hfree y hy).not_isSymbol (h.retains.isSymbol hold)
      · exact hself ⟨k, hk, hparent⟩
  refine hname.bind ?_
  rintro name _ ⟨rfl, hsymbols⟩
  refine (Reads.fullName orig).yields_bind fun name' => ?_
  split
  · trivial
  refine yields_classAt fun b hb => ?_
  have hb' := hcategory b hb
  split
  · next hbuiltin =>
    obtain ⟨source, horig2⟩ := h2.retains.classDef orig k horig
    refine ends_bind.2 ((ends_classAt horig2).2 ?_)
    split
    · trivial
    next hlength =>
    refine ends_bind.2 (ends_modifyClass_of (fun c hc => ?_) trivial)
    have h3 := h2.edit hc { c with category := builtinCategory } ⟨rfl, rfl, rfl, fun hn => hn⟩ fun y hy => .inl hy
    obtain ⟨b3, hb3, hsame, hparent⟩ : ∃ b', (g2.set cls (.classDef { c with category := builtinCategory })).get? found =
        some (.classDef b') ∧ b'.symbols = b.symbols ∧ b'.parent = b.parent := by
      by_cases heq : found = cls
      · subst heq
        cases hb.symm.trans hc
        exact ⟨_, get?_set hb _, rfl, rfl⟩
      · exact ⟨b, (get?_set_other _ _ heq).trans hb, rfl, rfl⟩
    refine (mergeBase_yields hrecur h3 hb3 (hsame ▸ hsymbols b hb) hparent _ _).imp fun _ _ h' =>
      ⟨_, h', .inr ⟨rfl, Nat.le_of_not_lt hlength, ?_⟩⟩
    split at hb'
    · next he => exact .inl (hpath.1 he)
    · exact .inr (hbuiltin ▸ hb')
  · next hbuiltin =>
    refine (mergeBase_yields hrecur h2 hb (hsymbols b hb) rfl _ _).imp fun _ _ h' => ⟨s, h', .inl ⟨rfl, fun he => ?_⟩⟩
    rw [if_pos (hpath.2 he)] at hb'
    exact hbuiltin hb'

end

/-- A class of category `s` is merged, with symbols of which `P` holds. -/
def Merged (g : Graph) (cls : Id) (s : String) (P : Id → Prop) (g' : Graph) : Prop :=
  ∃ c, Inherited g cls c g' ∧ c.category = s ∧ ∀ y ∈ c.symbols.values, P y

theorem shiftToBuiltin_yields (h : Building g cls s P g1) :
    Yields (shiftToBuiltin cls) g1 fun _ => Merged g cls s P := by
  obtain ⟨c, hc, ⟨hrole, hcategory⟩, hnodup, hsymbols⟩ := h.content
  have hretains : Retains (· ∈ c.symbols.values) g g1 := (Retains.refl g).trans h.retains fun _ _ hf => hf.elim
  simp only [shiftToBuiltin, ends_bind, ends_classAt hc]
  split
  · split
    · trivial
    · next value hs =>
      have hmem : value ∈ c.symbols.values := mem_map.2 ⟨_, Table.mem_entries_of_get? hs, rfl⟩
      -- Whichever way the arguments reach the symbol, the class gets a new environment.
      have htail : ∀ g2, Retains (· ∈ c.symbols.values) g1 g2 → Yields (renewEnvironment cls) g2 fun _ => Merged g cls s P := fun g2 h2 => by
        have h3 := (hretains.trans h2 fun _ _ ht => ht).addPart (e := .modification []) rfl
        obtain ⟨source, hc3⟩ := (h2.addPart (e := .modification []) rfl).classDef cls c hc
        simp only [renewEnvironment, freshModification, ends_bind, ends_alloc, ends_modifyClass hc3]
        refine ⟨{ c with environment := some g2.size, source }, ⟨?_, h.fresh, ?_, hrole, hnodup⟩, hcategory, hsymbols⟩
        · exact h3.edit h.fresh hc3 rfl rfl
        · exact get?_set hc3 _
      refine (Reads.environmentOf cls).yields_bind fun env => (Reads.symbolAt value).yields_bind fun sym => ?_
      have hg1 := h.retains.housed h.housed
      have hshift : ∀ {x : Build Unit}, Keeps (· ∈ c.symbols.values) x → Yields (do x; renewEnvironment cls) g1 fun _ => Merged g cls s P := fun hx =>
        (hx g1 hg1).yields.bind fun _ g2 h2 => htail g2 h2.1
      split
      · next m _ =>
        exact (Reads.argumentsAt env).yields_bind fun args => hshift (.appendArguments m args)
      · exact hshift (Keeps.modifySymbol (.inl hmem))
  · exact ⟨c, ⟨hretains, h.fresh, hc, hrole, hnodup⟩, hcategory, hsymbols⟩

theorem inheritAll_yields (hrecur : Inherits recur) (h : Building g cls s (¬ g.IsSymbol ·) g1)
    (horig : g.ClassAt orig k) : Yields (forIn k.bases PUnit.unit fun base _ => do
      inheritFrom recur orig cls base
      pure (.yield PUnit.unit)) g1 fun _ g' => ∃ s', Building g cls s' (¬ g.IsSymbol ·) g' ∧
        ((k.bases ≠ [] → ¬ g1.HasCategory builtinCategory) → g1.Recategorized k.bases s s') := by
  by_cases hone : ∃ base, k.bases = [base]
  · obtain ⟨base, hbases⟩ := hone
    simp only [hbases, forIn_cons, forIn_nil, bind_assoc, pure_bind]
    refine (inheritFrom_yields hrecur h horig).bind ?_
    rintro _ g' ⟨s', h', hs'⟩
    refine ⟨s', h', fun hplain => ?_⟩
    have hno := hplain (cons_ne_nil _ _)
    simp only [Recategorized]
    grind
  · refine (yields_forIn (fun g' => Building g cls s (¬ g.IsSymbol ·) g') (fun base hbase g' h' => ?_) h).imp
      fun _ g' h' => ⟨s, h', fun _ => ?_⟩
    · refine (inheritFrom_yields hrecur h' horig).bind ?_
      rintro _ g'' ⟨s', h'', ⟨rfl, -⟩ | ⟨-, hlength, -⟩⟩
      · exact ends_pure.2 ⟨rfl, h''⟩
      · exact absurd (length_eq_one_iff.1 (Nat.le_antisymm hlength (length_pos_of_mem hbase))) hone
    · simp only [Recategorized]
      grind

theorem inheritTo_inherits (n : Nat) : Inherits (inheritTo n) := by
  induction n with
  | zero => exact fun _ _ _ _ _ _ _ _ => trivial
  | succ n ih =>
    intro g orig modification parent k hg hparent hk
    refine ends_bind.2 ((ends_classAt hk).2 (ends_bind.2 (ends_alloc.2 (ends_bind.2 (ends_alloc.2 (ends_bind.2
      (ends_alloc.2 ?_)))))))
    have h2 : Retains (fun _ => False) g ((g.add (.modification [])).1.add (.modification [])).1 :=
      ((Retains.refl g).addPart rfl).addPart rfl
    refine (inheritAll_yields ih ⟨hg, h2.addClass (fun p hp => h2.isClass (hparent p hp)) rfl, h2.size_le,
      _, get?_add_self _ _, ⟨rfl, rfl⟩, by exact nodup_nil, fun y hy => absurd hy (by exact not_mem_nil)⟩ hk).bind ?_
    rintro _ g3 ⟨s, h3, hs⟩
    -- The elements that are new by now tell nothing about the base classes.
    have hs : (k.bases ≠ [] → ¬ g.HasCategory builtinCategory) → g.Recategorized k.bases k.category s := fun hplain => by
      obtain ⟨source, hk2⟩ := h2.classDef orig k hk
      have hs' := hs fun hne hhas => hplain hne
        (((hhas.of_add (by rintro _ ⟨⟩; exact ⟨_, Array.mem_of_getElem? hk2, rfl⟩)).of_add (by simp)).of_add (by simp))
      simpa only [Recategorized, elementaryBase_add, ne_eq, reduceCtorEq, not_false_eq_true, implies_true] using hs'
    generalize (g.add (.modification [])).1.add (.modification []) = g2 at h2 h3 ⊢
    -- The class's own content comes last.
    have h3 := h3.mono fun y hy => Or.inr (a := y ∈ k.symbols.values) hy
    refine (h3.absorb fun k' hk' => ?_).bind fun _ g4 h4 => ?_
    · obtain ⟨source, hk3⟩ := h3.retains.classDef orig k hk
      cases hk'.symm.trans hk3
      exact fun y => .inl
    · have htail : ∀ g5, Building g g2.1.size s (fun y => y ∈ k.symbols.values ∨ ¬ g.IsSymbol y) g5 → Yields (do
          shiftToBuiltin g2.1.size
          pure g2.1.size) g5 (InheritedFrom g k) := fun g5 h5 => by
        refine (shiftToBuiltin_yields h5).bind ?_
        rintro _ _ ⟨c, hc, hcategory, hP⟩
        exact ⟨c, hc, hP, hcategory ▸ hs⟩
      split
      · next m =>
        refine (h4.keeps (.of_reads (.environmentOf _))).bind fun env g5 h5 => ?_
        refine (h5.keeps (.of_reads (.argumentsAt m))).bind fun args g6 h6 => ?_
        exact (h6.keeps (.appendArguments env args)).bind fun _ g7 h7 => htail g7 h7
      · exact htail g4 h4

theorem inherit_yields (hg : g.Housed) (orig : Id) (modification : Option Id)
    (hparent : ∀ p, parent = some p → g.IsClass p) :
    Yields (inherit orig modification parent) g fun cls g' => ∃ c, Inherited g cls c g' := by
  refine Reads.size.yields_bind fun n => ?_
  by_cases horig : g.IsClass orig
  · obtain ⟨k, hk⟩ := horig
    exact (inheritTo_inherits (n + 1) g orig modification parent k hg hparent hk).imp fun _ _ ⟨c, hc, _⟩ => ⟨c, hc⟩
  · suffices h : ∀ n, Yields (inheritTo n orig modification parent) g fun _ _ => False from (h _).of_false
    intro n
    cases n with
    | zero => trivial
    | succ n => exact yields_classAt fun k hk => absurd ⟨k, hk⟩ horig

end Build
end Modelica
