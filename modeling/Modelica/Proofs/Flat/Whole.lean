/-
The flat class of a whole instance.

Once the components of a level have been entered, their arguments are applied
(`settle_runs`), each reference in them is looked up once more (`lookUpAll_runs`),
and the equations and statements of the level are added (`flattenEquation_runs`,
`addStatements_runs`).
`flattenSymbolsTo_runs` puts the levels together: a nested instance can be
flattened, and a reference in one of its components ends up with the name that
`FlatName` says.
-/
import Modelica.Proofs.Flat.Level

namespace Modelica

open List Element

variable {ν : Marks} {g0 base g g' : Graph} {cls flat : Id} {remarks : Option Id} {stem : String} {f f' : ClassDef}
  {ws : Purpose → List Written}

variable {n : Nat}

namespace Graph

theorem Tree.depth {p q d d' id} (h : g.Tree p d id) (h' : g.Tree q d' id) : g.Tree p d' id := by
  induction d' generalizing d id with
  | zero => exact h'.elim
  | succ d' ih =>
    obtain ⟨e, he, _, hf, hl'⟩ := h'
    obtain ⟨hp, _, hl⟩ := h.element he
    exact ⟨e, he, hp, hf, fun l hmem => ih (hl l hmem) (hl' l hmem)⟩

theorem symbol_children_depth {id s} (hs : g.SymbolAt id s) (hw : ∃ words, g.KeywordsAt s.keywords words) {p}
    (hl : ∀ l ∈ s.children, g.Tree p g.size l) : ∀ l ∈ s.children, g.Tree p (g.size - 1) l := by
  have htree := symbol_tree hs hw hl (q := fun _ _ => True) (fun _ _ _ => trivial) trivial fun _ _ => trivial
  intro l hmem
  obtain ⟨_, _, hlinks⟩ := htree.element hs
  exact (hl l hmem).depth (hlinks l (.tail _ hmem))

end Graph

namespace Build

open Modelica.Graph

variable {symbol : Id} {comps : List (List String × Id)} {s s' : Symbol}

variable {n : Nat}

/-! ### Arguments -/

theorem applyToSymbol_settled (hs : g.Settled symbol s) : Runs (applyToSymbol cls symbol) g fun _ g' => g' = g := by
  obtain ⟨t, ht, hr⟩ := hs.type
  simp [applyToSymbol, ends_symbolAt hs.get?, ends_typeForm ht hr, hs.modification]

theorem applyToSymbol_elementary (h : Steady ν g0 g) (hsep : g0.Separate) (hs : g0.Elementary symbol s s') :
    Runs (applyToSymbol cls symbol) g fun _ g' => g'.size = g.size ∧ Steady ν g0 g' ∧
      Reworks ν g0.size g g' ∧ ExtendsBut (fun id => id = symbol ∨ s.modification = some id) g g' ∧
      ∃ name, g'.SymbolAt symbol (s'.named name) := by
  obtain ⟨name, s1, hs1, rfl | rfl⟩ := h.elementary hs
  · obtain ⟨t, ht, hr⟩ := hs1.type
    obtain ⟨hget, xs, hx, hscope, heq⟩ := hs1.settles
    have happlied : xs.filter (·.appliesIn []) = xs := filter_eq_self.2 fun x hx => by
      simp [Setting.appliesIn, hscope x hx]
    have hkept : xs.filter (!·.appliesIn []) = [] := filter_eq_nil_iff.2 fun x hx => by
      simp [Setting.appliesIn, hscope x hx]
    have hpath : ∀ x ∈ xs, x.scope ≠ none → g.HasPath cls [] := fun x hx hne => absurd (hscope x hx) hne
    refine (applyToSymbol_pends hget ht hr hx hpath).imp ?_
    rintro _ g' ⟨hsize, hkeep, hget', hpends⟩
    rw [happlied, hkept] at hget'
    rw [hkept] at hpends
    have hsettled : g'.SymbolAt symbol (s'.named name) := by
      rw [heq]
      exact hget'
    have hm : ∀ m ∈ s.modification, g'.get? m = some (.modification []) := fun m hmem => by
      rcases hpends with ⟨hnone, _⟩ | ⟨m', args, hm', hargs, hsets⟩
      · exact absurd (hnone.symm.trans hmem) (by simp)
      · cases hm'.symm.trans hmem
        cases hsets
        exact hargs
    -- The modification is changed with the symbol, and no names and keywords are.
    have hmod : ∀ {id : Id}, s.modification = some id → ∃ args, g.get? id = some (.modification args) := fun hid => by
      obtain ⟨args, hargs⟩ := hs.settles.modification hid
      rcases h.modification _ args hargs with hget | hget
      · exact ⟨_, hget⟩
      · exact ⟨_, hget⟩
    have hlasts : Lasts ν g g' := by
      refine ⟨fun _ id t ht htn => ?_, fun _ id words hw _ => hkeep.base.get?_some hw ?_⟩
      · by_cases hid : id = symbol
        · subst hid
          cases hget.symm.trans ht
          exact ⟨_, hsettled, htn⟩
        · refine ⟨t, hkeep.base.get?_some ht ?_, htn⟩
          rintro (rfl | hmem)
          · exact hid rfl
          · obtain ⟨args, hargs⟩ := hmod hmem
            cases hargs.symm.trans ht
      · rintro (rfl | hmem)
        · cases hget.symm.trans hw
        · obtain ⟨args, hargs⟩ := hmod hmem
          cases hargs.symm.trans hw
    refine ⟨hsize, h.settle hsep hs.settles hkeep hsettled hm, ⟨hkeep.base.size_le, fun he hc => ?_, hlasts⟩, hkeep.base,
      name, hsettled⟩
    rcases hc with hc | hc
    · exact hkeep.get? he hc
    · refine hkeep.base.get?_some he ?_
      rintro (rfl | hmem)
      · exact Nat.not_lt.2 hc (get?_lt hs.settles.1)
      · obtain ⟨args, hargs⟩ := hs.settles.modification hmem
        exact Nat.not_lt.2 hc (get?_lt hargs)
  · have hnone : (s'.named name).modification = none := by
      obtain ⟨_, xs, _, _, rfl⟩ := hs.settles
      rfl
    refine (applyToSymbol_settled (hs1.settled hnone)).imp ?_
    rintro _ _ rfl
    exact ⟨rfl, h, .refl _ _ _, .refl _, name, hs1.settles.1⟩

theorem modification_walk_quiet (h : Steady ν g0 g) {id} (hn : g.size = n)
    (ht : g.Tree (fun _ e => e.isQuiet) g.size id) :
    Runs (((modificationVisitor cls).walk n id).run ()) g fun _ g' => g' = g ∧ ∀ s s', ¬ g0.Elementary id s s' := by
  refine (modification_walk_reads cls (Nat.le_of_eq hn) le_rfl ht).imp ?_
  rintro _ _ rfl
  refine ⟨rfl, fun s s' hs => ?_⟩
  obtain ⟨name, s1, hs1, _⟩ := h.settles hs.settles
  exact absurd (ht.element hs1.1).1.2 (by simp [isSymbol])

theorem modification_walk_pending {x e} (h : g0.Growing ν base remarks flat ws f g) (hold : g0.size ≤ base.size)
    (hsep : g0.Separate) (hx : g0.Pending ν base cls stem g x e) (hn : g.size ≤ n + 1) :
    Runs (((modificationVisitor cls).walk (n + 1) e.2).run ()) g fun _ g' => g'.size = g.size ∧
      Steady ν g0 g' ∧ Reworks ν g0.size g g' ∧
      (∀ s s', g0.Elementary e.2 s s' → ∃ name, g'.SymbolAt e.2 (s'.named name)) ∧
      ∀ id s, id ≠ e.2 → g0.SymbolAt id s → g'.get? id = g.get? id := by
  obtain ⟨_, ⟨_, s, s', _, he, hs, _⟩ | ⟨hstands, hfresh, _⟩⟩ := hx
  · rw [← he] at hs
    obtain ⟨name, s1, hs1, _⟩ := h.steady.elementary hs
    refine modification_walk_of_symbol hs1.settles.1 (by omega) (Nat.sub_le _ _)
      (symbol_children_depth hs1.settles.1 hs1.keywords hs1.visited) ((applyToSymbol_elementary h.steady hsep hs).imp ?_)
    rintro _ g' ⟨hsize, hsteady, hreworks, hbut, name', hget⟩
    refine ⟨hsize, hsteady, hreworks, fun t t' ht => ?_, fun id k hne hk => ?_⟩
    · obtain ⟨rfl, rfl⟩ := hs.settles.unique ht.settles
      exact ⟨name', hget⟩
    · refine hbut.get? id ((get?_lt hk).trans_le h.steady.fixes.size_le) ?_
      rintro (hid | hm)
      · exact hne hid
      · obtain ⟨args, hargs⟩ := hs.settles.modification hm
        cases hk.symm.trans hargs
  · obtain ⟨s, hs⟩ := hstands.settled
    refine modification_walk_of_symbol hs.get? (by omega) (Nat.sub_le _ _) (symbol_children_depth hs.get? hs.keywords
      fun l hl => (hs.held l hl).imp fun _ _ => isQuiet_of_isTerm) ((applyToSymbol_settled hs).imp ?_)
    rintro _ _ rfl
    refine ⟨rfl, h.steady, .refl _ _ _, fun t t' ht => ?_, fun _ _ _ _ => rfl⟩
    exact absurd (get?_lt ht.settles.1) (Nat.not_lt.2 (hold.trans hfresh.1))

end Build

namespace Graph

/-- The name of a reference in a component before the level looks it up. -/
def Read (g : Graph) (cls : Id) (stem : String) (path : List String) (r r' : String) : Prop :=
  (∃ name, path = [name] ∧ r' = r) ∨ g.Inner cls stem path r r'

/-- The entry of a component once arguments are applied. -/
structure Ready (ν : Marks) (g0 : Graph) (cls : Id) (stem : String) (g : Graph) (x : List String × Id)
    (e : String × Id) : Prop where
  key : e.1 = stem ++ dottedText x.1
  stands : g0.Stands g (g0.Read cls stem x.1) x.2 e.2
  shows : ν.given → g.Shows e.2 e.1 (g0.flatWords stem x) (g0.extentsAt cls x.1)

theorem Noted.shows {name symbol s s'} (h : g.Noted ν stem symbol s.keywords)
    (hsteady : Steady ν g0 g) (hs : g0.Elementary symbol s s') (hsymbol : (g0.symbolsOf cls).get? name = some symbol)
    (hfits : g0.Fits ν stem name symbol) (hν : ν.given) :
    g.Shows symbol (stem ++ name) (g0.flatWords stem ([name], symbol)) (g0.extentsAt cls [name]) := by
  obtain ⟨s1, hs1, hname⟩ := (h hν).1
  obtain ⟨name2, s2, hs2, hcases⟩ := hsteady.settles hs.settles
  have hsame : s2.keywords = s.keywords ∧ s2.dimensions = s.dimensions := by
    rcases hcases with rfl | rfl
    · exact ⟨rfl, rfl⟩
    · exact ⟨hs.settles.keywords, hs.settles.dimensions⟩
  cases hs2.1.symm.trans hs1
  obtain ⟨words, hw⟩ := hs.keywords
  have hwords := h.words hfits hsteady hs.settles.1 hw hν
  refine ⟨s1, hs2.1, hname.trans (hfits hν s hs.settles.1).1, ?_, ?_⟩
  · rw [hsame.1, hwords, flatWords, wordsOf_eq hs.settles.1 hw]
    simp
  · simp only [hsame.2, extentsAt, hsymbol, hs.instanceOf?, extentsOf_eq hs.settles.1, append_nil]
    refine hsteady.fixes.keepsTerms.extents fun l hl => hs.held l ?_
    rw [← hs.settles.dimensions] at hl
    simp [Symbol.children, hl]

theorem Pending.ready {x e} (hx : g0.Pending ν base cls stem g x e)
    (h : Steady ν g0 g) (hdone : ∀ s s', g0.Elementary e.2 s s' → ∃ name, g.SymbolAt e.2 (s'.named name)) :
    g0.Ready ν cls stem g x e := by
  obtain ⟨hkey, ⟨name, s, s', hpath, he, hs, hsymbol, hfits, hnoted⟩ | ⟨hstands, _, hshows⟩⟩ := hx
  · obtain ⟨path, symbol⟩ := x
    obtain ⟨key, new⟩ := e
    simp only at hpath he hs hsymbol hfits hnoted hkey hdone
    subst hpath he
    have hshows := hnoted.shows h hs hsymbol hfits
    rw [← dottedText_singleton name, ← hkey, dottedText_singleton] at hshows
    refine ⟨hkey, ?_, hshows⟩
    obtain ⟨name1, hget⟩ := hdone s s' hs
    obtain ⟨name2, s2, hs2, _⟩ := h.elementary hs
    have hnone : s2.modification = none := by
      have hsame := hs2.settles.1
      cases hget.symm.trans hsame
      obtain ⟨_, xs, _, _, rfl⟩ := hs.settles
      rfl
    exact ⟨⟨s2, hs2.settled hnone⟩, fun place pos r hr => ⟨r, .inl ⟨name, rfl, rfl⟩, h.refers hs hr⟩⟩
  · exact ⟨hkey, hstands.imp fun _ _ => .inr, hshows⟩

end Graph

namespace Build

open Modelica.Graph

variable {symbol : Id} {comps : List (List String × Id)} {s s' : Symbol}

theorem settle_runs (h : g0.Growing ν base remarks flat ws f g) (hold : g0.size ≤ base.size)
    (hsep : g0.Separate) (hremarks : ∀ l ∈ remarks, g0.Tree (fun _ e => e.isQuiet) g0.size l)
    (hcomps : Forall₂ (g0.Pending ν base cls stem g) comps f.symbols.entries) :
    Runs (applyModifications flat cls) g fun _ g' => g0.Growing ν base remarks flat ws f g' ∧
      Forall₂ (g0.Ready ν cls stem g') comps f.symbols.entries := by
  obtain ⟨n, hn⟩ : ∃ n, g.size = n + 1 := ⟨g.size - 1, by
    have hpos := Nat.zero_lt_of_lt (get?_lt h.get?)
    omega⟩
  refine (applyModifications_each (I := fun g' => g'.size = g.size ∧ g0.Growing ν base remarks flat ws f g' ∧
    Forall₂ (g0.Pending ν base cls stem g') comps f.symbols.entries)
    (P := fun id g' => ∀ s s', g0.Elementary id s s' → ∃ name, g'.SymbolAt id (s'.named name))
    h.isFlat.role (fun _ h' => h'.2.1.get?) ?_ ⟨rfl, h, hcomps⟩).imp ?_
  · rintro id hid g1 ⟨hsize1, h1, hcomps1⟩
    rcases h.isFlat.children hid with hid | hid
    · obtain ⟨e, he, rfl⟩ := mem_map.1 hid
      obtain ⟨x, hx⟩ := exists_of_forall₂ hcomps1 he
      rw [hn] at hsize1 ⊢
      refine (modification_walk_pending h1 hold hsep hx (Nat.le_of_eq hsize1)).imp ?_
      rintro _ g2 ⟨hsize2, hsteady2, hreworks2, hdone, hother⟩
      refine ⟨⟨hsize2.trans hsize1, h1.rework hsteady2 hreworks2,
        hcomps1.imp fun _ _ hx => hx.keep (hreworks2.sustains hold)⟩, hdone, fun id hid s s' hs => ?_⟩
      by_cases hne : id = e.2
      · subst hne
        exact hdone s s' hs
      · simp only [SymbolAt, hother id s hne hs.settles.1]
        exact hid s s' hs
    · have htree := hid.elim (fun hid => (h1.parts id hid).imp fun _ _ => isQuiet_of_isTerm) fun hid =>
        (h1.steady.quiet (hremarks id hid)).mono h1.steady.fixes.size_le
      exact (modification_walk_quiet h1.steady hsize1 htree).imp fun _ _ hg =>
        ⟨hg.1 ▸ ⟨hsize1, h1, hcomps1⟩, fun s s' hs => absurd hs (hg.2 s s'), fun _ hP => hg.1 ▸ hP⟩
  · rintro _ g1 ⟨⟨_, h1, hcomps1⟩, hdone⟩
    refine ⟨h1, (forall₂_mem hcomps1).imp ?_⟩
    rintro x e ⟨_, he, hx⟩
    refine hx.ready h1.steady (hdone e.2 ?_)
    have hvalue : e.2 ∈ f.symbols.values := mem_map_of_mem he
    simp [ClassDef.children, hvalue]

end Build

/-! ### Looking references up -/

namespace Graph

variable {changed : Id → Prop} {x : List String × Id} {e : String × Id}

variable {comps : List (List String × Id)}

theorem KeepsBut.same (hg : KeepsBut changed isClass g g') {new s} (hs : g.Settled new s) :
    g'.get? new = g.get? new ∧ g'.get? s.keywords = g.get? s.keywords := by
  obtain ⟨words, hw⟩ := hs.keywords
  rw [hs.get?, hg.get? hs.get? rfl, hw, hg.get? hw rfl]
  exact ⟨rfl, rfl⟩

theorem Stands.besides {named symbol new} (h : g0.Stands g named symbol new)
    (hg : KeepsBut changed isClass g g') : g0.Stands g' named symbol new :=
  h.keep hg.keepsTerms fun _ hs => hg.same hs

theorem Shows.besides {name words sizes new s} (h : g.Shows new name words sizes) (hs : g.Settled new s)
    (hg : KeepsBut changed isClass g g') : g'.Shows new name words sizes :=
  h.keep hs hg.keepsTerms (hg.same hs).1 (hg.same hs).2

theorem Ready.keep (h : g0.Ready ν cls stem g x e) (hg : KeepsBut changed isClass g g') :
    g0.Ready ν cls stem g' x e := by
  obtain ⟨s, hs⟩ := h.stands.settled
  exact ⟨h.key, h.stands.besides hg, fun hν => (h.shows hν).besides hs hg⟩

theorem Finished.keep (h : g0.Finished ν base cls stem g x e) (hg : KeepsBut changed isClass g g') :
    g0.Finished ν base cls stem g' x e := by
  obtain ⟨s, hs⟩ := h.stands.settled
  refine ⟨h.key, h.stands.besides hg, ?_, fun hν => (h.shows hν).besides hs hg⟩
  have hterms := hg.keepsTerms
  have hs' := hs.keep hterms (hg.same hs).1 (hg.same hs).2
  rw [hs'.reach, flatMap_congr fun l hl => hterms.reach (hs.held l hl), ← hs.reach]
  exact h.fresh

section

variable (hnames : g0.names cls = comps.map fun x => dottedText x.1)
  (hkeys : f.symbols.keys = comps.map fun x => stem ++ dottedText x.1) (r : String)

include hnames hkeys

theorem contains_iff : f.symbols.contains (stem ++ r) = true ↔ r ∈ g0.names cls := by
  rw [Table.contains, Option.isSome_iff_exists, ← Table.mem_keys_iff, hkeys, hnames]
  simp only [mem_map]
  exact exists_congr fun x => and_congr_right fun _ => String.append_right_inj stem

theorem lookUp_eq : f.lookUp stem r = lookUp (g0.names cls) stem r := by
  rw [ClassDef.lookUp, lookUp, if_congr (contains_iff hnames hkeys r) rfl rfl]

end

theorem Read.named {path r r'} (h : g0.Read cls stem path r r') :
    g0.FlatName cls stem path r (lookUp (g0.names cls) stem r') := by
  rcases h with ⟨name, rfl, rfl⟩ | ⟨name, rest, symbol, t, rfl, hsymbol, ht, hr⟩
  · exact .own
  · exact .part hsymbol ht hr

/-- A flat class while the references in its symbols are looked up, one symbol
after the other. -/
structure Renewal (ν : Marks) (g0 base : Graph) (remarks : Option Id) (ws : Purpose → List Written) (cls : Id)
    (stem : String) (flat : Id) (done left : List (List String × Id)) (after : List (String × Id)) (f : ClassDef) (g : Graph) : Prop where
  growing : g0.Growing ν base remarks flat ws f g
  symbols : ∃ copies, f.symbols.entries = copies ++ after ∧ (copies.map (·.2)).Nodup ∧
    Forall₂ (g0.Finished ν base cls stem g) done copies
  waiting : Forall₂ (g0.Ready ν cls stem g) left after

/-- A term without calls. -/
abbrev PlainTree (g : Graph) (d : Nat) (id : Id) : Prop :=
  g.Tree (fun _ e => e.isTerm = true ∧ e.isCall = false) d id

end Graph

namespace Build

open Modelica.Graph

variable {done left : List (List String × Id)} {after : List (String × Id)}

/-- The next symbol is replaced by a copy in which references have been looked
up. -/
theorem lookUp_runs {x e} (h : g0.Renewal ν base remarks ws cls stem flat done (x :: left) (e :: after) f g)
    (hold : g0.size ≤ base.size) (hnames : g0.names cls = (done ++ x :: left).map fun x => dottedText x.1)
    (hnodup : (g0.names cls).Nodup) :
    Runs (renewSymbol flat stem e.1 e.2) g fun _ g' =>
        ∃ f', g0.Renewal ν base remarks ws cls stem flat (done ++ [x]) left after f' g' := by
  obtain ⟨copies, hentries, hcopies, hdone⟩ := h.symbols
  obtain ⟨hx, hleft⟩ := forall₂_cons.1 h.waiting
  obtain ⟨s, hs⟩ := hx.stands.settled
  have hkeys : f.symbols.keys = (done ++ x :: left).map fun x => stem ++ dottedText x.1 := by
    rw [Table.keys, hentries, map_append, map_append, keys_of_forall₂ hdone fun _ _ hx => hx.key,
      keys_of_forall₂ h.waiting fun _ _ hx => hx.key]
  have hkey : e.1 ∉ copies.map (·.1) :=
    Table.key_not_mem_of_nodup (hkeys ▸ nodup_behind (hnames ▸ hnodup) stem : f.symbols.keys.Nodup) hentries
  refine ends_bind.2 ((flattenReferences_settled h.growing.get? stem hs).imp ?_)
  rintro new g1 ⟨hextends, ⟨s', hs'⟩, hfresh, hrefers, hshows⟩
  have h1 := h.growing.extend hextends
  have hkeep1 : KeepsBut (· = flat) isClass g g1 := (Extends.but hextends).keepsBesides h.growing.get?
  rw [ends_modifyClass h1.get?]
  have hinsert : f.symbols.insert e.1 new = ⟨copies ++ (e.1, new) :: after⟩ := by
    have heq : f.symbols = ⟨copies ++ (e.1, e.2) :: after⟩ := by rw [← hentries]
    rw [heq, Table.insert_at copies after new e.2 hkey]
  have hfinished : g0.Finished ν base cls stem g1 x (e.1, new) := by
    refine ⟨hx.key, ⟨⟨s', hs'⟩, fun place pos r hr => ?_⟩,
      fun a ha => h.growing.later.size_le.trans (hfresh a ha), fun hν => hshows _ _ _ (hx.shows hν)⟩
    obtain ⟨r', hread, hr'⟩ := hx.stands.refers place pos r hr
    refine ⟨_, hread.named, ?_⟩
    rw [← lookUp_eq hnames hkeys]
    exact hrefers place pos r' hr'
  have hset := KeepsBesides.set h1.get? { f with symbols := f.symbols.insert e.1 new }
  refine ⟨_, h1.set hold { h.growing.isFlat with } (fun l hl => .inl hl) h1.written, ⟨copies ++ [(e.1, new)], ?_, ?_, ?_⟩,
    hleft.imp fun _ _ hy => (hy.keep hkeep1).keep hset⟩
  · rw [hinsert, append_assoc]
    rfl
  · rw [map_append, nodup_append]
    refine ⟨hcopies, nodup_singleton new, fun a ha b hb hab => ?_⟩
    obtain ⟨y, hy, rfl⟩ := mem_map.1 ha
    obtain ⟨z, hz⟩ := exists_of_forall₂ hdone hy
    obtain ⟨s, hs⟩ := hz.stands.settled
    have hlt := get?_lt hs.get?
    rw [hab, mem_singleton.1 hb] at hlt
    exact Nat.not_lt.2 (hfresh new (self_mem_reach hs'.tree)) hlt
  · exact rel_append (hdone.imp fun _ _ hy => (hy.keep hkeep1).keep hset) (.cons (hfinished.keep hset) .nil)

theorem lookUpAll_runs (h : g0.Renewal ν base remarks ws cls stem flat done left after f g) (hold : g0.size ≤ base.size)
    (hnames : g0.names cls = (done ++ left).map fun x => dottedText x.1) (hnodup : (g0.names cls).Nodup) :
    Runs (forIn after PUnit.unit fun x _ => do
      renewSymbol flat stem x.1 x.2
      pure (.yield PUnit.unit)) g fun _ g' =>
        ∃ f', g0.Renewal ν base remarks ws cls stem flat (done ++ left) [] [] f' g' := by
  induction after generalizing done left f g with
  | nil =>
    cases h.waiting
    rw [append_nil]
    exact ⟨f, h⟩
  | cons e after ih =>
    obtain ⟨x, left, hx, hleft, rfl⟩ := forall₂_cons_right_iff.1 h.waiting
    rw [forIn_cons, Runs, ends_bind, ends_bind]
    refine (lookUp_runs h hold hnames hnodup).imp ?_
    rintro _ g2 ⟨f2, h2⟩
    rw [append_cons] at hnames ⊢
    exact ih h2 hnames

end Build

/-! ### Equations and statements -/

theorem Element.isCall_rename (φ : Id → Id) (e : Element) : (e.rename φ).isCall = e.isCall := by
  cases e with
  | expression op vs => cases op <;> rfl
  | _ => rfl

namespace ClassDef

variable (f : ClassDef) (news : List Id) (purpose : Purpose)

theorem having_add (other : Purpose) :
    (f.add news purpose).having other = f.having other ++ if other = purpose then news else [] := by
  cases purpose <;> cases other <;> simp [having, add]

theorem mem_parts_add {f : ClassDef} {news purpose l} (hl : l ∈ (f.add news purpose).parts) :
    l ∈ f.parts ∨ l ∈ news := by
  cases purpose <;> simp only [parts, add, mem_append] at hl ⊢ <;> tauto

end ClassDef

/-- What is written, with more of one kind. -/
def addWritten (ws : Purpose → List Written) (more : List Written) (purpose : Purpose) : Purpose → List Written :=
  fun other => ws other ++ if other = purpose then more else []

theorem addWritten_nil (ws : Purpose → List Written) (purpose : Purpose) : addWritten ws [] purpose = ws := by
  funext other
  rw [addWritten, ite_self, append_nil]

theorem addWritten_addWritten (ws : Purpose → List Written) (more more' : List Written) (purpose : Purpose) :
    addWritten (addWritten ws more purpose) more' purpose = addWritten ws (more ++ more') purpose := by
  funext other
  simp only [addWritten]
  split <;> simp

theorem addWritten_having (ws : Purpose → List Written) (c : ClassDef) (f : Id → Written) :
    addWritten (addWritten (addWritten (addWritten ws (c.equations.map f) .equation)
      (c.initialEquations.map f) .initialEquation) (c.statements.map f) .statement)
      (c.initialStatements.map f) .initialStatement = fun purpose => ws purpose ++ (c.having purpose).map f := by
  funext purpose
  cases purpose <;> simp [addWritten, ClassDef.having]

theorem Graph.Flat.add {ν : Marks} {g0 base g g' : Graph} {cls flat stem} {f ws} {news more purpose}
    (h : g0.Flat ν n cls stem base flat ws f g) (hold : g0.size ≤ base.size) (hg : KeepsBesides flat g g')
    (hget : g'.ClassAt flat (f.add news purpose)) (hnews : ∀ l ∈ news, g'.TermTree g'.size l)
    (hmore : Forall₂ (g0.Rewritten g') more news) :
    g0.Flat ν n cls stem base flat (addWritten ws more purpose) (f.add news purpose) g' := by
  obtain ⟨⟨remarks, hgrowing⟩, hnodup, hfinished⟩ := h
  refine ⟨⟨remarks, hgrowing.besides hold hg hget (by cases purpose <;> exact { hgrowing.isFlat with })
    (fun l hl => (ClassDef.mem_parts_add hl).imp id (hnews l)) fun other => ?_⟩, ?_, ?_⟩
  · rw [f.having_add]
    refine rel_append ((hgrowing.written other).imp fun _ _ hw => hw.keep hg.keepsTerms) ?_
    split
    · exact hmore
    · exact .nil
  · rw [f.add_symbols]
    exact hnodup
  · rw [f.add_symbols]
    exact hfinished.imp fun _ _ hx => hx.keep hg

theorem Graph.Flat.extend {ν} {g0 base g g' : Graph} {cls flat stem} {f ws} (h : g0.Flat ν n cls stem base flat ws f g)
    (hg : Extends g g') : g0.Flat ν n cls stem base flat ws f g' := by
  obtain ⟨remarks, hgrowing⟩ := h.growing
  have hkeep := ExtendsBut.keepsBesides (Extends.but hg) hgrowing.get?
  exact ⟨⟨remarks, hgrowing.extend hg⟩, h.nodup, h.symbols.imp fun _ _ hx => hx.keep hkeep⟩

theorem Graph.Flat.named_eq {ν} {g0 base g : Graph} {cls flat stem} {f ws} (h : g0.Flat ν n cls stem base flat ws f g)
    (hnames : g0.names cls = (g0.components n cls).map fun x => dottedText x.1) :
    ReferenceSearch.named f stem = fun r => decide (r ∈ g0.names cls) := by
  have hkeys : f.symbols.keys = _ := keys_of_forall₂ h.symbols fun _ _ hx => hx.key
  funext r
  rw [ReferenceSearch.named, Bool.eq_iff_iff, contains_iff hnames hkeys, decide_eq_true_eq]

namespace Build

open Modelica.Graph

variable {n : Nat}

variable {l ids : List Id} {c : ClassDef} {instanceName : String}

theorem scopeCalls_plain {d id} (ht : g.PlainTree d id) (functions : Table String Id) :
    Runs (scopeCalls cls id functions) g fun x g' => x.2 = functions ∧ Extends g g' ∧ g.Copied g' id x.1 := by
  have hsource : ∀ (_ : Id) (e : Element), e.isTerm = true ∧ e.isCall = false → e.hasSource = false :=
    fun _ _ he => hasSource_of_isTerm he.1
  simp only [scopeCalls, ends_bind]
  refine (copy_runs hsource ht.bounded (by omega)).imp ?_
  rintro new g' ⟨s, φ, hs, rfl, himage⟩
  have htree : g'.PlainTree g'.size (φ id) := by
    refine (himage.tree hsource (fun _ e _ _ he => ?_) hs ht).bounded
    rw [isTerm_rename, isCall_rename]
    exact he
  simp only [Visitor.run, ends_bind, ends_size, ends_pure]
  refine (Visitor.walk_reads (I := fun t => t = functions) ?_ ?_ (Nat.le_succ _) le_rfl htree rfl).imp ?_
  · intro t d id ht _ _
    exact ⟨ht, rfl⟩
  · rintro t d id rfl _ ⟨e, he, hp, _⟩
    simp only [scopeCall, ends_lift_bind, ends_element he]
    split
    · cases hp.2
    · exact ⟨rfl, rfl⟩
  · rintro x g'' ⟨hx, rfl⟩
    exact ⟨hx, himage.base, g, _, s, φ, .refl g, himage, hs, rfl, .refl _⟩

theorem flattenReferences_copied {id mid} (hf : g.ClassAt flat f)
    (hnamed : ReferenceSearch.named f stem = fun r => decide (r ∈ g0.names cls))
    (ht : g0.TermTree g0.size id) (hmid : g0.Copied g id mid) :
    Runs (flattenReferences flat stem mid) g fun new g' => Extends g g' ∧ g.size ≤ new ∧
      g'.TermTree g'.size new ∧ g0.Rewritten g' { stem, cls, id } new := by
  have htree := hmid.tree ht
  have hrun := flattenReferences_runs (fun _ _ => hasSource_of_isTerm) hf stem le_rfl htree
  have hterms : ∀ new g', (∃ s φ, s mid ∧ new = φ mid ∧ Flattened s φ g g') → Extends g g' ∧ g.size ≤ new ∧
      g'.TermTree g'.size new := by
    rintro _ g' ⟨s, φ, hs, rfl, hφ⟩
    refine ⟨hφ.base, hφ.fresh mid hs, (hφ.tree (fun e => e.isTerm = true) ?_ ?_ ?_ _ mid hs htree).bounded⟩
    · exact fun _ => hasSource_of_isTerm
    · intro e he
      rw [isTerm_rename]
      exact he
    · exact fun _ _ _ => rfl
  by_cases hu : g0.Unshared id
  · have hexact := flattenReferences_exact (fun _ _ => hasSource_of_isTerm) hf stem htree (hmid.unshared ht hu)
    refine (hrun.and hexact).imp ?_
    rintro new g' ⟨hnew, ψ, rfl, hcopy⟩
    obtain ⟨hbase, hfresh, htree'⟩ := hterms _ _ hnew
    refine ⟨hbase, hfresh, htree', ht, fun _ => ?_⟩
    rw [← hnamed]
    exact hmid.rewrites ht hcopy.rewrites
  · refine hrun.imp fun new g' hnew => ?_
    obtain ⟨hbase, hfresh, htree'⟩ := hterms _ _ hnew
    exact ⟨hbase, hfresh, htree', ht, fun hu' => absurd hu' hu⟩

theorem markInner_runs {p d d' new written} (hnew : g.TermTree d new) (hwritten : g.Tree p d' written) :
    Runs (markInner new written) g fun _ g' => ExtendsBut (· = new) g g' ∧
      g'.TermTree d new ∧
      ∀ e, g.get? new = some e → ∃ e', g'.get? new = some e' ∧ e'.unmarked = e.unmarked := by
  obtain ⟨e, he⟩ := hnew.get?
  obtain ⟨e0, he0⟩ := hwritten.get?
  have hformed := (hwritten.element he0).2.1
  simp only [markInner, ends_bind, ends_element he, ends_element he0]
  split
  · next l r comment li ri wl wr _ _ _ =>
    obtain ⟨⟨rl, hrl⟩, ⟨rr, hrr⟩⟩ := hformed
    simp only [ends_bind, ends_referenceAt hrl, ends_referenceAt hrr, ends_store]
    refine ⟨(ExtendsBut.refl (p := (· = new)) g).set (.inl rfl) _,
      hnew.transfer (fun a ha => ?_) fun a e' d he' hp hf hl => ?_, fun e' he' => ?_⟩
    · obtain ⟨r', hr'⟩ := ha
      refine ⟨r', ?_⟩
      rw [get?_set_other g _ ?_, hr']
      rintro rfl
      cases he.symm.trans hr'
    · by_cases ha : a = new
      · subst ha
        cases he.symm.trans he'
        exact ⟨_, get?_set he _, rfl, fun hr => ⟨hr l hf.1, hr r hf.2⟩, hl⟩
      · exact ⟨e', by rw [get?_set_other g _ ha, he'], hp, fun hr => hf.imp hr, hl⟩
    · cases he.symm.trans he'
      exact ⟨_, get?_set he _, rfl⟩
  · exact ⟨.refl g, hnew, fun e he => ⟨e, he, rfl⟩⟩

theorem flattenAll_copied (hf : g.ClassAt flat f)
    (hnamed : ReferenceSearch.named f stem = fun r => decide (r ∈ g0.names cls))
    (ht : ∀ id ∈ ids, g0.TermTree g0.size id) (hl : Forall₂ (g0.Copied g) ids l) :
    Runs (l.mapM (flattenReferences flat stem)) g fun news g' => Extends g g' ∧
      (∀ id ∈ news, g'.TermTree g'.size id) ∧
      Forall₂ (g0.Rewritten g') (ids.map fun id => { stem, cls, id }) news := by
  induction l generalizing ids g with
  | nil =>
    cases hl
    exact ⟨ExtendsBut.refl g, by simp, .nil⟩
  | cons mid l ih =>
    obtain ⟨id, ids, hmid, hrest, rfl⟩ := forall₂_cons_right_iff.1 hl
    simp only [mapM_cons, ends_bind, ends_pure]
    refine (flattenReferences_copied hf hnamed (ht id (.head _)) hmid).imp ?_
    rintro new g1 ⟨hg1, _, ht1, hwritten1⟩
    have hkeep := Extends.keepsTerms hg1
    refine (ih (Extends.get?_some hg1 hf) (fun id' hid' => ht id' (.tail _ hid'))
      (hrest.imp fun _ _ h => h.keep hkeep)).imp ?_
    rintro news g2 ⟨hg2, ht2, hwritten2⟩
    refine ⟨hg1.trans hg2, forall_mem_cons.2 ⟨?_, ht2⟩, .cons (hwritten1.keep (Extends.keepsTerms hg2)) hwritten2⟩
    exact (ht1.extends hg2).mono hg2.size_le

/-- What is written once the parts of a class for some purposes are entered. -/
def enterWritten (ws : Purpose → List Written) (stem : String) (cls : Id) (c : ClassDef) (purposes : List Purpose) :
    Purpose → List Written :=
  purposes.foldl (fun ws purpose => addWritten ws ((c.having purpose).map fun id => { stem, cls, id }) purpose) ws

section

variable (h : g0.Flat ν n cls stem base flat ws f g) (hold : g0.size ≤ base.size)
  (hnames : g0.names cls = (g0.components n cls).map fun x => dottedText x.1)

include h hold hnames

theorem flattenEquation_runs {equation} (ht : g0.PlainTree g0.size equation) (functions : Table String Id) :
    Runs (flattenEquation cls flat stem equation functions) g fun y g' => y = functions ∧
      ∃ f', g0.Flat ν n cls stem base flat (addWritten ws [{ stem, cls, id := equation }] .equation) f' g' := by
  obtain ⟨remarks, hgrowing⟩ := h.growing
  have hkeeps := hgrowing.steady.fixes.keepsTerms
  have hterm := hkeeps.tree_of (fun _ _ he => he.1) ht
  simp only [flattenEquation, Runs, ends_bind]
  refine (scopeCalls_plain hterm functions).imp ?_
  rintro x g1 ⟨hx, hg1, hcopied⟩
  refine (flattenReferences_copied (Extends.get?_some hg1 hgrowing.get?) (h.named_eq hnames) (ht.imp fun _ _ he => he.1)
    (hcopied.after hkeeps)).imp ?_
  rintro new g2 ⟨hg2, hfresh, ht2, hwritten2⟩
  have hg := hg1.trans hg2
  have hflat := Extends.get?_some hg hgrowing.get?
  rw [ends_modifyClass hflat]
  change Ends _ (g2.set flat (.classDef (f.add [new] .equation))) _ _
  have hset := KeepsBesides.set hflat (f.add [new] .equation)
  have hbase : ExtendsBut (· = flat) g (g2.set flat (.classDef (f.add [new] .equation))) :=
    (Extends.but (p := (· = flat)) hg).set (.inl rfl) _
  have hget := get?_set hflat (.classDef (f.add [new] .equation))
  have ht3 := hset.keepsTerms.tree ht2
  have hwritten3 := hwritten2.keep hset.keepsTerms
  have hplace := hset.keepsTerms.tree_of (fun _ _ he => he.1) (hterm.extends hg)
  generalize g2.set flat (.classDef (f.add [new] .equation)) = g3 at *
  refine (markInner_runs ht3 hplace).imp ?_
  rintro _ g4 ⟨hbut, ht4, hmark⟩
  have hne : ∀ id < g.size, id ≠ new := fun id hid =>
    Nat.ne_of_lt (hid.trans_le (hg1.size_le.trans hfresh))
  have hkeep : KeepsBesides flat g g4 :=
    (hbase.trans_of hbut fun id hid hc => absurd hc (hne id hid)).keepsBesides hgrowing.get?
  refine ⟨hx, _, h.add hold hkeep (hbut.get?_some hget (hne _ (get?_lt hgrowing.get?))) (fun l hl => ?_)
    (.cons (hwritten3.mark hbut hmark) .nil)⟩
  rw [mem_singleton.1 hl]
  exact ht4.bounded

theorem addAll_runs (ht : ∀ id ∈ ids, g0.TermTree g0.size id) (hl : Forall₂ (g0.Copied g) ids l) (purpose : Purpose) :
    Runs (do
      let news ← l.mapM (flattenReferences flat stem)
      modifyClass flat fun k => k.add news purpose) g fun _ g' => KeepsBesides flat g g' ∧
        ∃ f', g0.Flat ν n cls stem base flat (addWritten ws (ids.map fun id => { stem, cls, id }) purpose) f' g' := by
  obtain ⟨remarks, hgrowing⟩ := h.growing
  simp only [Runs, ends_bind]
  refine (flattenAll_copied hgrowing.get? (h.named_eq hnames) ht hl).imp ?_
  rintro news g1 ⟨hg1, ht1, hwritten1⟩
  have hflat := Extends.get?_some hg1 hgrowing.get?
  rw [ends_modifyClass hflat]
  have hkeep : KeepsBesides flat g (g1.set flat (.classDef (f.add news purpose))) :=
    ((Extends.but (p := (· = flat)) hg1).set (.inl rfl) _).keepsBesides hgrowing.get?
  have hset := KeepsBesides.set hflat (f.add news purpose)
  refine ⟨hkeep, _, h.add hold hkeep (get?_set hflat _) (fun l hl => ?_)
    (hwritten1.imp fun _ _ hw => hw.keep hset.keepsTerms)⟩
  exact hset.keepsTerms.termTree (ht1 l hl)

theorem addStatements_runs (ht : ∀ l ∈ c.parts, g0.PlainTree g0.size l) (flattenClass : Id → Build Id) :
    Runs (flattenStatements flattenClass cls flat stem c {}) g fun new g' => ∃ f', g0.Flat ν n cls stem base
      new (enterWritten ws stem cls c [.initialEquation, .statement, .initialStatement]) f' g' := by
  have hkeeps : ∀ {g' : Graph} {f' : ClassDef} {ws' : Purpose → List Written},
      g0.Flat ν n cls stem base flat ws' f' g' → g0.KeepsTerms g' := fun h' => by
    obtain ⟨remarks, hgrowing⟩ := h'.growing
    exact hgrowing.steady.fixes.keepsTerms
  refine (flattenStatements_of (I := fun done g' => ∃ f', g0.Flat ν n cls stem base flat (enterWritten ws stem cls c done) f' g')
    (P := fun id new g' => g0.Copied g' id new) ?_ ?_ ?_ flattenClass ⟨f, h⟩).imp fun _ _ hI => hI.1 ▸ hI.2
  · rintro id hid g1 ⟨f1, h1⟩
    refine (scopeCalls_plain ((hkeeps h1).tree_of (fun _ _ he => he.1) (ht id hid)) {}).imp ?_
    rintro x g2 ⟨hx, hg2, hcopied⟩
    exact ⟨hx, ⟨f1, h1.extend hg2⟩, hcopied.after (hkeeps h1), fun _ _ hc => hc.keep (Extends.keepsTerms hg2)⟩
  · rintro done purpose l g1 ⟨f1, h1⟩ hl
    refine (addAll_runs h1 hold hnames (fun l hl => (ht l (ClassDef.mem_parts hl)).imp fun _ _ he => he.1) hl purpose).imp ?_
    rintro _ g2 ⟨hg2, h2⟩
    refine ⟨?_, fun _ _ hc => hc.keep hg2.keepsTerms⟩
    rwa [enterWritten, foldl_append]
  · rintro done g1 ⟨f1, h1⟩
    obtain ⟨remarks, hgrowing⟩ := h1.growing
    exact ⟨f1, hgrowing.get?⟩

end

/-! ### Levels -/

theorem flattenLevel_nested (h : Steady ν g0 g) (hsep : g0.Separate) (hcls : g0.ClassAt cls c)
    (hkeys : c.symbols.keys.Nodup) (hparts : ∀ l ∈ c.parts, g0.PlainTree g0.size l)
    (hremarks : ∀ l ∈ c.remarks, g0.Tree (fun _ e => e.isQuiet) g0.size l) {flatten flattenClass}
    (hstem : (if instanceName.isEmpty then "" else instanceName ++ ".") = stem)
    (hsymbols : Enterable ν g0 n stem c flatten)
    (hnames : g0.names cls = (g0.components (n + 1) cls).map fun x => dottedText x.1) (hnodup : (g0.names cls).Nodup) :
    Runs (flattenLevel flatten flattenClass cls instanceName) g fun flat g' =>
      ∃ f, g0.Flat ν (n + 1) cls stem g flat (fun purpose => g0.written purpose (n + 1) stem cls) f g' := by
  have hold := h.fixes.size_le
  have hget : ∀ {g' : Graph}, Steady ν g0 g' → g'.ClassAt cls c := fun h' => h'.fixes.get? hcls rfl
  simp only [flattenLevel, ends_bind, ends_classAt (hget h), ends_alloc, hstem]
  generalize hf : ({ name := c.name, category := c.category, remarks := c.remarks, declaration := c.declaration } :
    ClassDef) = f
  have hadd : Extends g (g.add (.classDef f)).1 := (ExtendsBut.refl g).add _
  have hgrowing : g0.Growing ν g c.remarks g.size (fun _ => []) f (g.add (.classDef f)).1 := by
    subst hf
    refine ⟨h.extend hadd, .of_extends hadd, get?_add_self g _, le_rfl, ⟨rfl, rfl, rfl, rfl, rfl, rfl, rfl⟩,
      by simp [ClassDef.parts], fun purpose => ?_⟩
    cases purpose <;> exact .nil
  refine (gather_runs hgrowing hold (by rw [← hf]) hcls hkeys hsymbols (hnames ▸ hnodup)).imp ?_
  rintro _ g1 ⟨f1, h1, hcomps1⟩
  refine (settle_runs h1 hold hsep hremarks hcomps1).imp ?_
  rintro _ g2 ⟨h2, hcomps2⟩
  rw [ends_classAt h2.get?]
  have hrenewal : g0.Renewal ν g c.remarks _ cls stem g.size [] _ f1.symbols.entries f1 g2 :=
    ⟨h2, ⟨[], rfl, nodup_nil, .nil⟩, hcomps2⟩
  refine (lookUpAll_runs hrenewal hold hnames hnodup).imp ?_
  rintro _ g3 ⟨f3, h3⟩
  obtain ⟨copies, hentries, hcopies, hfinished⟩ := h3.symbols
  rw [append_nil] at hentries
  have hflat : g0.Flat ν (n + 1) cls stem g g.size
      (fun purpose => c.symbols.entries.flatMap (g0.writtenIn (g0.written purpose n) stem)) f3 g3 := by
    refine ⟨⟨c.remarks, h3.growing⟩, ?_, ?_⟩
    · rw [Table.values, hentries]
      exact hcopies
    · rw [hentries]
      exact hfinished
  rw [ends_classAt (hget h3.growing.steady)]
  refine (flattenEquations_of (I := fun done g' => ∃ f', g0.Flat ν (n + 1) cls stem g g.size
    (addWritten _ (done.map fun id => { stem, cls, id }) .equation) f' g') (fun done equation _ hl g' h' => ?_)
    ⟨f3, by rw [map_nil, addWritten_nil]; exact hflat⟩).imp ?_
  · obtain ⟨f', h'⟩ := h'
    have hrun := flattenEquation_runs h' hold hnames (hparts equation (by simp [ClassDef.parts, hl])) {}
    rwa [addWritten_addWritten, ← map_singleton (f := fun id => ({ stem, cls, id } : Written)), ← map_append]
      at hrun
  rintro _ g4 ⟨rfl, f4, h4⟩
  have hrun := addStatements_runs h4 hold hnames hparts flattenClass
  simp only [enterWritten, foldl_cons, foldl_nil] at hrun
  rw [ClassDef.having, ClassDef.having, ClassDef.having, addWritten_having] at hrun
  simp only [written, symbolsOf_eq hcls, Graph.having, show g0.get? cls = _ from hcls]
  exact hrun

/-- **A nested instance can be flattened**, from any graph that has come of its
own by flattening. -/
theorem flattenSymbolsTo_runs (hsep : g0.Separate) (hn : n ≤ g0.size + 1) (hcls : g0.Nested n cls)
    (hnodup : (g0.names cls).Nodup) (hfits : g0.FitsAll ν n stem cls) (h : Steady ν g0 g)
    (hstem : (if instanceName.isEmpty then "" else instanceName ++ ".") = stem) :
    Runs (flattenSymbolsTo n cls instanceName) g fun flat g' =>
      ∃ f, g0.Flat ν n cls stem g flat (fun purpose => g0.written purpose n stem cls) f g' := by
  induction n generalizing cls instanceName stem g with
  | zero => exact hcls.elim
  | succ n ih =>
    have hnames : g0.names cls = (g0.components (n + 1) cls).map fun x => dottedText x.1 := by
      rw [names, hcls.components_eq hn]
    obtain ⟨c, hget, hkeys, hparts, hremarks, hsymbols⟩ := hcls
    rw [FitsAll, symbolsOf_eq hget] at hfits
    rw [flattenSymbolsTo]
    refine flattenLevel_nested h hsep hget hkeys hparts hremarks hstem (fun x hx => ⟨(hfits x hx).1, ?_⟩) hnames hnodup
    refine (hsymbols x hx).imp id ?_
    rintro ⟨hname, s, t, hs, ht⟩
    refine ⟨s, t, hs, fun g1 h1 => ih (Nat.le_of_succ_le hn) ht ?_ ((hfits x hx).2 t hs.instanceOf?) h1 ?_⟩
    · exact ht.names_nodup (Nat.le_of_succ_le hn) hget hx hs (hnames ▸ hnodup)
    · rw [if_neg fun hempty => hname (String.append_eq_empty_iff.1 (String.isEmpty_iff.1 hempty)).2]

end Build
end Modelica
