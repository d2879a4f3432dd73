/-
The levels of an instance.

`Nested` is what is asked of an instance that is flattened: its components have
elementary types or are instances of the same kind, and no modification waits
for a class further out. `components` lists the components of elementary type
with their paths, and `FlatName` says which name a reference in one of them ends
up with when every level around it looks it up. The first thing that happens on
a level is that its components are entered into the flat class (`gather_runs`).
-/
import Modelica.Proofs.Flat.Rewrite

namespace Modelica

open List

/-- Whether an element calls what is given by a name. -/
def Element.isCall : Element → Bool
  | .expression (.node _) _ => true
  | _ => false

/-- An equation or statement, the instance in which it is written, and the prefix
of the names in that. -/
structure Written where
  stem : String
  cls : Id
  id : Id

theorem dottedText_cons (name : String) {path} (h : path ≠ []) :
    dottedText (name :: path) = name ++ "." ++ dottedText path := by
  obtain ⟨next, rest, rfl⟩ := exists_cons_of_ne_nil h
  simp [dottedText]

namespace Graph

/-- A symbol that stands for an instance. -/
structure Instanced (g : Graph) (id : Id) (s : Symbol) (cls : Id) : Prop where
  get? : g.get? id = some (.symbol s)
  modification : s.modification = none
  type : s.type = .node cls
  cls : ∃ c, g.get? cls = some (.classDef c) ∧ c.role = .instanced ∧ c.category ≠ builtinCategory ∧
    c.category ≠ "connector"
  keywords : ∃ words, g.get? s.keywords = some (.keywords words)
  held : ∀ l ∈ Value.nodesOfRows s.dimensions, g.TermTree g.size l
  unshared : ((Value.nodesOfRows s.dimensions).flatMap g.reach).Nodup

/-- An instance of at most `n` levels, without connectors and types derived from elementary ones,
without calls, and without arguments written further out. -/
def Nested (g : Graph) : Nat → Id → Prop
  | 0, _ => False
  | n + 1, cls => ∃ c, g.get? cls = some (.classDef c) ∧ c.symbols.keys.Nodup ∧
      (∀ l ∈ c.parts, g.Tree (fun _ e => e.isTerm = true ∧ e.isCall = false) g.size l) ∧
      (∀ l ∈ c.remarks, g.Tree (fun _ e => e.isQuiet) g.size l) ∧
      ∀ x ∈ c.symbols.entries, (∃ s s', g.Elementary x.2 s s') ∨
        x.1 ≠ "" ∧ ∃ s t, g.Instanced x.2 s t ∧ Nested g n t

/-! ### Components by their paths -/

def symbolsOf (g : Graph) (cls : Id) : Table String Id :=
  match g.get? cls with
  | some (.classDef c) => c.symbols
  | _ => {}

/-- The instance that a symbol stands for. -/
def instanceOf? (g : Graph) (symbol : Id) : Option Id :=
  match g.get? symbol with
  | some (.symbol s) =>
    match s.type with
    | .node t =>
      match g.get? t with
      | some (.classDef _) => some t
      | _ => none
    | _ => none
  | _ => none

/-- The components that a symbol brings in, given those of instances. -/
def expand (g : Graph) (parts : Id → List (List String × Id)) (x : String × Id) : List (List String × Id) :=
  match g.instanceOf? x.2 with
  | none => [([x.1], x.2)]
  | some t => (parts t).map fun y => (x.1 :: y.1, y.2)

/-- The components of elementary type in an instance of at most `n` levels. -/
def components (g : Graph) : Nat → Id → List (List String × Id)
  | 0, _ => []
  | n + 1, cls => (g.symbolsOf cls).entries.flatMap (g.expand (components g n))

/-- What a symbol brings in of equations, given those of instances. -/
def writtenIn (g : Graph) (parts : String → Id → List Written) (stem : String) (x : String × Id) : List Written :=
  match g.instanceOf? x.2 with
  | none => []
  | some t => parts (stem ++ x.1 ++ ".") t

def having (g : Graph) (cls : Id) (purpose : Purpose) : List Id :=
  match g.get? cls with
  | some (.classDef c) => c.having purpose
  | _ => []

/-- The equations in an instance of at most `n` levels: those of its components, and
then its own. -/
def written (g : Graph) (purpose : Purpose) : Nat → String → Id → List Written
  | 0, _, _ => []
  | n + 1, stem, cls => (g.symbolsOf cls).entries.flatMap (g.writtenIn (written g purpose n) stem) ++
      (g.having cls purpose).map fun id => { stem, cls, id }

def extentsOf (g : Graph) (symbol : Id) : List (List (Option Int)) :=
  match g.get? symbol with
  | some (.symbol s) => g.extents s.dimensions
  | _ => []

/-- The sizes of the components along a path. -/
def extentsAt (g : Graph) : Id → List String → List (List (Option Int))
  | _, [] => []
  | cls, name :: path =>
    match (g.symbolsOf cls).get? name with
    | none => []
    | some symbol => g.extentsOf symbol ++
      match g.instanceOf? symbol with
      | none => []
      | some t => extentsAt g t path

/-- The keywords of a component in the flat class. -/
def flatWords (g : Graph) (stem : String) (x : List String × Id) : List String :=
  if stem = "" ∧ x.1.length = 1 then g.wordsOf x.2 else reduced (g.wordsOf x.2)

/-- The dotted names of the components of elementary type. -/
def names (g : Graph) (cls : Id) : List String := (g.components (g.size + 1) cls).map fun x => dottedText x.1

/-- The name behind a prefix, if it is in a list. -/
def lookUp (names : List String) (stem r : String) : String := if r ∈ names then stem ++ r else r

/-- The name that a reference to `r` in the component of the given path ends up
with in the flat class of an instance. -/
inductive FlatName (g : Graph) : Id → String → List String → String → String → Prop
  | own {cls : Id} {stem name r : String} : FlatName g cls stem [name] r (lookUp (g.names cls) stem r)
  | part {cls symbol t : Id} {stem name r r' : String} {path : List String} :
      (g.symbolsOf cls).get? name = some symbol → g.instanceOf? symbol = some t →
      FlatName g t (stem ++ name ++ ".") path r r' →
      FlatName g cls stem (name :: path) r (lookUp (g.names cls) stem r')

variable {ν : Marks} {g0 g g' : Graph} {n : Nat} {cls : Id} {c : ClassDef}

variable {id t symbol : Id} {s s' : Symbol} {x : String × Id} {name stem : String}

theorem symbolsOf_eq (hc : g.ClassAt cls c) : g.symbolsOf cls = c.symbols := by
  simp only [symbolsOf, hc]

theorem wordsOf_eq {words} (hs : g.SymbolAt id s) (hw : g.KeywordsAt s.keywords words) : g.wordsOf id = words := by
  simp only [wordsOf, hs, hw]

theorem extentsOf_eq (hs : g.SymbolAt id s) : g.extentsOf id = g.extents s.dimensions := by
  simp only [extentsOf, hs]

theorem Elementary.instanceOf? (h : g.Elementary id s s') : g.instanceOf? id = none := by
  obtain ⟨t, ht, r, hr⟩ := h.type
  simp only [Graph.instanceOf?, h.settles.1, ht, hr]

theorem Instanced.instanceOf? (h : g.Instanced id s t) : g.instanceOf? id = some t := by
  obtain ⟨c, hc, _⟩ := h.cls
  simp only [Graph.instanceOf?, h.get?, h.type, hc]

theorem Instanced.settles (h : g.Instanced id s t) : g.Settles id s s :=
  ⟨h.get?, [], .inl ⟨h.modification, rfl⟩, by simp, (Symbol.settled_nil h.modification).symm⟩

theorem expand_elementary (h : g.Elementary x.2 s s') (parts : Id → List (List String × Id)) :
    g.expand parts x = [([x.1], x.2)] := by
  simp only [expand, h.instanceOf?]

theorem expand_instanced (h : g.Instanced x.2 s t) (parts : Id → List (List String × Id)) :
    g.expand parts x = (parts t).map fun y => (x.1 :: y.1, y.2) := by
  simp only [expand, h.instanceOf?]

theorem writtenIn_elementary (h : g.Elementary x.2 s s') (parts : String → Id → List Written) (stem : String) :
    g.writtenIn parts stem x = [] := by
  simp only [writtenIn, h.instanceOf?]

theorem writtenIn_instanced (h : g.Instanced x.2 s t) (parts : String → Id → List Written) (stem : String) :
    g.writtenIn parts stem x = parts (stem ++ x.1 ++ ".") t := by
  simp only [writtenIn, h.instanceOf?]

theorem flatWords_inner (stem name : String) {y} (hne : y.1 ≠ []) :
    g.flatWords stem (name :: y.1, y.2) = g.flatWords (stem ++ name ++ ".") y := by
  have hlen : y.1.length ≠ 0 := fun h => hne (length_eq_zero_iff.1 h)
  have hstem : stem ++ name ++ "." ≠ "" := fun h => by simp [String.append_eq_empty_iff] at h
  rw [flatWords, flatWords, if_neg fun h => hlen (Nat.succ.inj h.2), if_neg fun h => hstem h.1]

theorem components_succ (n : Nat) (hc : g.ClassAt cls c) :
    g.components (n + 1) cls = c.symbols.entries.flatMap (g.expand (g.components n)) := by
  rw [components, symbolsOf_eq hc]

theorem Nested.components_eq {m} (h : g.Nested n cls) (hm : n ≤ m) : g.components m cls = g.components n cls := by
  induction n generalizing cls m with
  | zero => exact h.elim
  | succ n ih =>
    obtain _ | m := m
    · omega
    obtain ⟨c, hc, _, _, _, hsymbols⟩ := h
    rw [components_succ m hc, components_succ n hc]
    refine flatMap_congr fun x hx => ?_
    rcases hsymbols x hx with ⟨s, s', he⟩ | ⟨_, s, t, hi, ht⟩
    · rw [expand_elementary he, expand_elementary he]
    · rw [expand_instanced hi, expand_instanced hi, ih ht (Nat.le_of_succ_le_succ hm)]

theorem components_ne_nil {x} (hx : x ∈ g.components n cls) : x.1 ≠ [] := by
  cases n with
  | zero => cases hx
  | succ n =>
    obtain ⟨e, _, hx⟩ := mem_flatMap.1 hx
    simp only [expand] at hx
    split at hx
    · rw [mem_singleton.1 hx]
      exact cons_ne_nil _ _
    · obtain ⟨y, _, rfl⟩ := mem_map.1 hx
      exact cons_ne_nil _ _

theorem Nested.names_nodup (ht : g.Nested n t) (hn : n ≤ g.size + 1) (hc : g.ClassAt cls c)
    (hx : x ∈ c.symbols.entries) (hs : g.Instanced x.2 s t)
    (hnodup : ((g.components (n + 1) cls).map fun x => dottedText x.1).Nodup) : (g.names t).Nodup := by
  rw [names, ht.components_eq hn]
  have hsub : List.Sublist ((g.components n t).map fun y => (x.1 :: y.1, y.2)) (g.components (n + 1) cls) := by
    rw [components_succ n hc, ← expand_instanced hs]
    exact sublist_flatten_of_mem (mem_map_of_mem hx)
  have hpart := hnodup.sublist (hsub.map _)
  have hmap : ((g.components n t).map fun y => (x.1 :: y.1, y.2)).map (fun z => dottedText z.1) =
      ((g.components n t).map fun y => dottedText y.1).map (x.1 ++ "." ++ ·) := by
    rw [map_map, map_map]
    exact map_congr_left fun y hy => dottedText_cons x.1 (components_ne_nil hy)
  rw [hmap] at hpart
  exact hpart.of_map

/-! ### Names and keywords -/

/-- The symbol of that name is called and marked as `ν` says. -/
def Fits (ν : Marks) (g : Graph) (stem name : String) (symbol : Id) : Prop :=
  ν.given → ∀ s, g.get? symbol = some (.symbol s) → ν.name symbol = stem ++ name ∧
    (ν.inner s.keywords ↔ stem ≠ "") ∧ ∀ words, g.get? s.keywords = some (.keywords words) → words.Nodup

/-- All symbols in an instance of at most `n` levels are called as `ν` says. -/
def FitsAll (ν : Marks) (g : Graph) : Nat → String → Id → Prop
  | 0, _, _ => True
  | n + 1, stem, cls => ∀ x ∈ (g.symbolsOf cls).entries, g.Fits ν stem x.1 x.2 ∧
      ∀ t, g.instanceOf? x.2 = some t → FitsAll ν g n (stem ++ x.1 ++ ".") t

theorem fitsAll_unknown (g : Graph) (n : Nat) (stem : String) (cls : Id) : g.FitsAll .unknown n stem cls := by
  induction n generalizing stem cls with
  | zero => trivial
  | succ n ih => exact fun x _ => ⟨fun hν => hν.elim, fun t _ => ih _ t⟩

/-- A symbol has its full name and, inside an instance, only the keywords that are
left there. -/
def Noted (ν : Marks) (g : Graph) (stem : String) (symbol keywords : Id) : Prop :=
  ν.given → (∃ s, g.get? symbol = some (.symbol s) ∧ s.name = ν.name symbol) ∧
    (stem ≠ "" → ∃ words, g.get? keywords = some (.keywords words) ∧ reduced words = words)

theorem Lasts.noted {keywords} (hg : Lasts ν g g') (h : g.Noted ν stem symbol keywords) :
    g'.Noted ν stem symbol keywords := by
  intro hν
  obtain ⟨⟨s, hs, hname⟩, hwords⟩ := h hν
  refine ⟨hg.name hν hs hname, fun hstem => ?_⟩
  obtain ⟨words, hw, hred⟩ := hwords hstem
  exact ⟨words, hg.words hν hw hred, hred⟩

theorem Noted.words {words} (h : g.Noted ν stem symbol s.keywords) (hfits : g0.Fits ν stem name symbol)
    (hsteady : Steady ν g0 g) (hs : g0.SymbolAt symbol s) (hw : g0.KeywordsAt s.keywords words) (hν : ν.given) :
    g.get? s.keywords = some (.keywords (if stem = "" then words else reduced words)) := by
  obtain ⟨_, hinner, _⟩ := hfits hν s hs
  obtain ⟨words', hw', hcases⟩ := hsteady.keywords _ words hw
  rw [hw']
  by_cases hstem : stem = ""
  · rcases hcases hν with rfl | ⟨hin, _⟩
    · rw [if_pos hstem]
    · exact absurd hstem (hinner.1 hin)
  · rw [if_neg hstem]
    obtain ⟨words'', hw'', hred⟩ := (h hν).2 hstem
    cases hw'.symm.trans hw''
    rcases hcases hν with rfl | ⟨_, rfl⟩
    · rw [hred]
    · rfl

/-! ### Flat symbols -/

/-- The symbol `new` stands for a component: no arguments wait in it, and it
refers to the names that `named` gives. -/
structure Stands (g0 g : Graph) (named : String → String → Prop) (symbol new : Id) : Prop where
  settled : ∃ s, g.Settled new s
  refers : ∀ place pos r, g0.Refers symbol place pos r → ∃ r', named r r' ∧ g.Refers new place pos r'

/-- A symbol that was made after `base`, with its keywords. -/
def Fresh (base g : Graph) (new : Id) : Prop :=
  base.size ≤ new ∧ ∀ s, g.get? new = some (.symbol s) → base.size ≤ s.keywords

theorem Fresh.mono {base base' new} (h : Fresh base' g new) (hb : base.size ≤ base'.size) : Fresh base g new :=
  ⟨hb.trans h.1, fun s hs => hb.trans (h.2 s hs)⟩

/-- What may change around the symbols that were made after `base`. -/
structure Sustains (ν : Marks) (base g g' : Graph) : Prop where
  terms : g.KeepsTerms g'
  lasts : Lasts ν g g'
  get? : ∀ {id : Id} {e : Element}, base.size ≤ id → g.get? id = some e → e.isClass = false →
    g'.get? id = some e

section
variable {base : Graph} {named : String → String → Prop} {symbol new : Id}

theorem Stands.keep (h : g0.Stands g named symbol new) (hg : g.KeepsTerms g')
    (hkeep : ∀ s, g.Settled new s → g'.get? new = g.get? new ∧ g'.get? s.keywords = g.get? s.keywords) :
    g0.Stands g' named symbol new := by
  obtain ⟨s, hs⟩ := h.settled
  obtain ⟨hnew, hwords⟩ := hkeep s hs
  refine ⟨⟨s, hs.keep hg hnew hwords⟩, fun place pos r hr => ?_⟩
  obtain ⟨r', hnamed, hr'⟩ := h.refers place pos r hr
  exact ⟨r', hnamed, hs.refers_of hg (hs.keep hg hnew hwords) (fun _ hv => hv) hr'⟩

theorem Stands.imp {named'} (h : g0.Stands g named symbol new)
    (hnamed : ∀ r r', named r r' → named' r r') : g0.Stands g named' symbol new :=
  ⟨h.settled, fun place pos r hr => (h.refers place pos r hr).imp fun r' h' => ⟨hnamed r r' h'.1, h'.2⟩⟩

theorem Sustains.same (hg : Sustains ν base g g') {s} (hs : g.Settled new s) (hf : Fresh base g new) :
    g'.get? new = g.get? new ∧ g'.get? s.keywords = g.get? s.keywords := by
  obtain ⟨words, hw⟩ := hs.keywords
  rw [hs.get?, hg.get? hf.1 hs.get? rfl, hw, hg.get? (hf.2 s hs.get?) hw rfl]
  exact ⟨rfl, rfl⟩

theorem Sustains.stands (hg : Sustains ν base g g') (h : g0.Stands g named symbol new) (hf : Fresh base g new) :
    g0.Stands g' named symbol new ∧ Fresh base g' new := by
  obtain ⟨s, hs⟩ := h.settled
  exact ⟨h.keep hg.terms fun t ht => hg.same ht hf, hf.1, fun t ht => hf.2 t ((hg.same hs hf).1 ▸ ht)⟩

theorem Sustains.shows {name words sizes} (hg : Sustains ν base g g') (h : g.Shows new name words sizes) {s}
    (hs : g.Settled new s) (hf : Fresh base g new) : g'.Shows new name words sizes :=
  h.keep hs hg.terms (hg.same hs hf).1 (hg.same hs hf).2

theorem Reworks.sustains {n} (h : Reworks ν n g g') (hn : n ≤ base.size) : Sustains ν base g g' :=
  ⟨h.keepsTerms, h.lasts, fun hid he _ => h.get? he (.inr (hn.trans hid))⟩

section

variable {changed : Id → Prop} (h : KeepsBut changed Element.isClass g g')

include h

theorem KeepsBut.keepsTerms : g.KeepsTerms g' :=
  ⟨h.base.size_le, fun he hterm => h.get? he (Element.isQuiet_of_isTerm hterm).1⟩

theorem KeepsBut.lasts : Lasts ν g g' :=
  .of_keeps fun he hm => h.get? he (by cases ‹Element› <;> first | rfl | cases hm)

theorem KeepsBut.sustains : Sustains ν base g g' := ⟨h.keepsTerms, h.lasts, fun _ he hc => h.get? he hc⟩

end

theorem Reworks.beyond {n g1} (h : Reworks ν n g g1)
    (hg : ExtendsBut (fun id => g.size ≤ id) g1 g') : Reworks ν n g g' :=
  ⟨h.size_le.trans hg.size_le, fun he hc => hg.get?_some (h.get? he hc) (Nat.not_le.2 (get?_lt he)),
    h.lasts.beyond hg⟩

end
end Graph

/-! ### Dimensions of instances -/

/-- A symbol with further dimensions in front of its own. -/
def Symbol.prepend (s : Symbol) (rows : List (List Value)) : Symbol := { s with dimensions := rows ++ s.dimensions }

theorem Symbol.place?_prepend {s : Symbol} {place v} (h : s.place? place = some v)
    (rows : List (List Value)) : (s.prepend rows).place? place = some v := by
  cases place with
  | field a =>
    rw [← h]
    cases a <;> rfl
  | dimension i =>
    have hne : s.dimensions ≠ [] := fun hnil => by simp [place?, hnil] at h
    simp only [place?, prepend, List.getLast?_append_of_ne_nil rows hne]
    exact h

theorem Symbol.children_prepend (s : Symbol) (rows : List (List Value)) :
    (s.prepend rows).children.Perm (Value.nodesOfRows rows ++ s.children) := by
  simp only [children, prepend, Value.nodesOfRows, flatMap_append, append_assoc]
  exact perm_append_comm_assoc _ _ _

namespace Graph

variable {g0 g g' : Graph} {id : Id} {s : Symbol} {rows : List (List Value)}

theorem Settled.prepend (h : g.Settled id s) (hg : g.KeepsTerms g') (hid : g'.SymbolAt id (s.prepend rows))
    (hw : g'.get? s.keywords = g.get? s.keywords) (hheld : ∀ l ∈ Value.nodesOfRows rows, g.TermTree g.size l)
    (hunshared : ((Value.nodesOfRows rows).flatMap g.reach).Nodup)
    (hapart : ∀ a ∈ (Value.nodesOfRows rows).flatMap g.reach, a ∉ g.reach id) : g'.Settled id (s.prepend rows) := by
  have hterms : ∀ l ∈ (s.prepend rows).children, g.TermTree g.size l := fun l hl => by
    rcases mem_append.1 ((s.children_prepend rows).subset hl) with hl | hl
    · exact hheld l hl
    · exact h.held l hl
  refine ⟨hid, h.modification, ?_, ?_, fun l hl => ?_, ?_⟩
  · obtain ⟨t, ht, hr⟩ := h.type
    exact ⟨t, ht, hg.isReference hr⟩
  · obtain ⟨words, hwords⟩ := h.keywords
    exact ⟨words, hw.trans hwords⟩
  · exact hg.termTree (hterms l hl)
  · rw [flatMap_congr fun l hl => hg.reach (hterms l hl)]
    have hperm : ((s.prepend rows).children.flatMap g.reach).Perm
        ((Value.nodesOfRows rows).flatMap g.reach ++ s.children.flatMap g.reach) := by
      rw [← flatMap_append]
      exact (s.children_prepend rows).flatMap_right g.reach
    refine (((hperm.cons s.keywords).trans perm_middle.symm).nodup_iff).2 ?_
    refine nodup_append.2 ⟨hunshared, h.unshared, fun a ha b hb hab => hapart a ha ?_⟩
    rw [h.reach, hab]
    exact .tail _ hb

end Graph

namespace Build

open Modelica.Graph

theorem prependAll_runs {g} {ids : List Id} (hn : ids.Nodup) (hs : ∀ id ∈ ids, ∃ s, g.SymbolAt id s)
    (rows : List (List Value)) :
    Runs (forIn ids PUnit.unit fun id _ => do
      modifySymbol id fun k => { k with dimensions := rows ++ k.dimensions }
      pure (.yield PUnit.unit)) g fun _ g' => g'.size = g.size ∧
        (∀ a, a ∉ ids → g'.get? a = g.get? a) ∧
        ∀ id ∈ ids, ∀ s, g.SymbolAt id s → g'.SymbolAt id (s.prepend rows) := by
  refine runs_forIn_prefix (fun before g1 => g1.size = g.size ∧
    (∀ a, a ∉ before → g1.get? a = g.get? a) ∧
    ∀ id ∈ before, ∀ s, g.SymbolAt id s → g1.SymbolAt id (s.prepend rows))
    (fun before id after hl g1 h1 => ?_) ⟨rfl, fun _ _ => rfl, by simp⟩
  obtain ⟨hsize, hother, hdone⟩ := h1
  obtain ⟨s, hget⟩ := hs id (by simp [hl])
  have hnot : id ∉ before := fun hmem => by
    rw [hl, nodup_append] at hn
    exact hn.2.2 id hmem id (.head _) rfl
  have hget1 : g1.SymbolAt id s := (hother id hnot).trans hget
  rw [Runs, ends_modifySymbol hget1]
  refine ⟨by rw [size_set, hsize], fun a ha => ?_, fun a ha t ht => ?_⟩
  · simp only [mem_append, mem_singleton, not_or] at ha
    rw [get?_set_other g1 _ ha.2, hother a ha.1]
  · rcases mem_append.1 ha with ha | ha
    · have hne : a ≠ id := fun heq => hnot (heq ▸ ha)
      exact (get?_set_other g1 _ hne).trans (hdone a ha t ht)
    · obtain rfl := mem_singleton.1 ha
      cases hget.symm.trans ht
      exact get?_set hget1 _

/-- A symbol of an instance gets its full name and, inside another instance, loses
the keywords that say from where its value comes. -/
theorem prepare_runs {ν g0 g symbol s s'} (h : Steady ν g0 g)
    (hs : g0.Settles symbol s s') (hw : ∃ words, g0.KeywordsAt s.keywords words) {α : Type}
    {rest} {Q : α → Graph → Prop} {stem name} (hfits : g0.Fits ν stem name symbol)
    (hrest : ∀ g' s2, Steady ν g0 g' → Reworks ν g0.size g g' → g'.SymbolAt symbol s2 →
      s2.type = s.type → s2.dimensions = s.dimensions → g'.Noted ν stem symbol s.keywords → Runs rest g' Q) :
    Runs (do
      modifySymbol symbol fun s => { s with name := stem ++ name }
      if !stem.isEmpty then stripCausality symbol
      rest) g Q := by
  obtain ⟨name1, s1, hs1, hcases⟩ := h.settles hs
  have hsame : s1.type = s.type ∧ s1.dimensions = s.dimensions ∧ s1.keywords = s.keywords := by
    rcases hcases with rfl | rfl
    · exact ⟨rfl, rfl, rfl⟩
    · exact ⟨hs.type, hs.dimensions, hs.keywords⟩
  have hname : ν.given → (s1.named (stem ++ name)).name = ν.name symbol := fun hν => (hfits hν s hs.1).1.symm
  have hsteady := h.setName hs.1 hs1.1 (stem ++ name)
  have hreworks := (Reworks.refl ν g0.size g).setMutable (get?_lt hs.1) hs1.1 rfl
    (.setSymbol hs1.1 fun hν => .inr (hname hν))
  have hget := get?_set hs1.1 (.symbol (s1.named (stem ++ name)))
  rw [Runs, ends_bind, ends_modifySymbol hs1.1]
  change Ends _ (g.set symbol (.symbol (s1.named (stem ++ name)))) Q _
  generalize g.set symbol (.symbol (s1.named (stem ++ name))) = g1 at *
  split
  · next hstem =>
    have hne : stem ≠ "" := fun hempty => by simp [hempty] at hstem
    obtain ⟨words, hw⟩ := hw
    obtain ⟨words1, hw1, hwords1⟩ := hsteady.keywords _ words hw
    have hkeywords : (s1.named (stem ++ name)).keywords = s.keywords := hsame.2.2
    have hother : symbol ≠ s.keywords := fun heq => by
      rw [← heq, hget] at hw1
      cases hw1
    -- Whether they have been reduced before or not, this is what is left.
    have hred : ν.given → ν.inner s.keywords ∧ reduced words1 = reduced words ∧ reduced (reduced words) = reduced words :=
      fun hν => by
        obtain ⟨_, hinner, hnodup⟩ := hfits hν s hs.1
        have htwice := reduced_reduced (hnodup words hw)
        rcases hwords1 hν with rfl | ⟨_, rfl⟩
        · exact ⟨hinner.2 hne, rfl, htwice⟩
        · exact ⟨hinner.2 hne, htwice, htwice⟩
    have hkeep : Lasts ν g1 (g1.set s.keywords (.keywords (reduced words1))) := .setWords hw1 fun _ hsame => hsame
    have hself := get?_set hw1 (.keywords (reduced words1))
    rw [← hkeywords] at hw1
    simp only [stripCausality, ends_bind, ends_symbolAt hget, ends_wordsAt hw1, ends_store]
    rw [hkeywords] at hw1 ⊢
    change Ends _ (Graph.set _ _ (.keywords (reduced words1))) Q _
    have hget' : (g1.set s.keywords (.keywords (reduced words1))).SymbolAt symbol (s1.named (stem ++ name)) :=
      (get?_set_other _ _ hother).trans hget
    refine hrest _ (s1.named (stem ++ name)) (hsteady.setWords hw fun hν => .inr ⟨(hred hν).1, (hred hν).2.1⟩)
      (hreworks.setMutable (get?_lt hw) hw1 rfl hkeep) hget' hsame.1 hsame.2.1 fun hν => ⟨⟨_, hget', hname hν⟩, fun _ => ?_⟩
    exact ⟨_, hself, by rw [(hred hν).2.1, (hred hν).2.2]⟩
  · next hstem =>
    have hempty : stem = "" := by simpa using hstem
    exact hrest _ _ hsteady hreworks hget hsame.1 hsame.2.1 fun hν => ⟨⟨_, hget, hname hν⟩, fun hne => absurd hempty hne⟩

end Build

/-! ### Entering symbols -/

/-- What a flat class has besides symbols, equations and statements. -/
structure ClassDef.IsFlat (f : ClassDef) (remarks : Option Id) : Prop where
  role : f.role = .declared
  imports : f.imports = []
  bases : f.bases = []
  classes : f.classes = {}
  functions : f.functions = {}
  environment : f.environment = none
  remarks : f.remarks = remarks

theorem ClassDef.IsFlat.children {f : ClassDef} {remarks} (h : f.IsFlat remarks) {id}
    (hid : id ∈ f.children) : id ∈ f.symbols.values ∨ id ∈ f.parts ∨ id ∈ remarks := by
  simp only [ClassDef.children, h.imports, h.bases, h.classes, h.functions, h.environment, h.remarks, Table.values,
    mem_append, map_nil, Option.toList_none, not_mem_nil, or_false, false_or, Option.mem_toList] at hid
  simp only [ClassDef.parts, Table.values, mem_append]
  tauto

namespace Graph

variable {ν : Marks} {g0 base g g' : Graph} {cls flat : Id} {remarks : Option Id} {stem : String} {f f' : ClassDef}
  {ws ws' : Purpose → List Written}

variable {w : Written} {comps : List (List String × Id)} {entries : List (String × Id)} {α β : Type}
  {R : α → β → Prop} {l : List α} {u : List β}

/-- What has become of an equation: its references to components have been given
full names, if it holds nothing twice. -/
def Rewritten (g0 g : Graph) (w : Written) (new : Id) : Prop :=
  g0.TermTree g0.size w.id ∧ (g0.Unshared w.id →
    ∃ φ, new = φ w.id ∧ g0.Rewrites (fun r => decide (r ∈ g0.names w.cls)) w.stem w.id φ g)

theorem Rewritten.keep {new} (h : g0.Rewritten g w new) (hg : g.KeepsTerms g') : g0.Rewritten g' w new := by
  refine ⟨h.1, fun hu => ?_⟩
  obtain ⟨φ, hnew, hr⟩ := h.2 hu
  exact ⟨φ, hnew, hr.keep h.1 hg⟩

theorem Rewritten.mark {new} (h : g0.Rewritten g w new) (hg : ExtendsBut (· = new) g g')
    (hid : ∀ e, g.get? new = some e → ∃ e', g'.get? new = some e' ∧ e'.unmarked = e.unmarked) :
    g0.Rewritten g' w new := by
  refine ⟨h.1, fun hu => ?_⟩
  obtain ⟨φ, rfl, hr⟩ := h.2 hu
  exact ⟨φ, rfl, hr.mark hg h.1 hid⟩

/-- A flat class that is being filled, from the graph `base` on. -/
structure Growing (ν : Marks) (g0 base : Graph) (remarks : Option Id) (flat : Id) (ws : Purpose → List Written)
    (f : ClassDef) (g : Graph) : Prop where
  steady : Steady ν g0 g
  later : Reworks ν g0.size base g
  get? : g.get? flat = some (.classDef f)
  fresh : base.size ≤ flat
  isFlat : f.IsFlat remarks
  parts : ∀ l ∈ f.parts, g.TermTree g.size l
  written : ∀ purpose, Forall₂ (g0.Rewritten g) (ws purpose) (f.having purpose)

namespace Growing

section

variable (h : g0.Growing ν base remarks flat ws f g)

include h

theorem rework (hsteady : Steady ν g0 g')
    (hg : Reworks ν g0.size g g') : g0.Growing ν base remarks flat ws f g' where
  steady := hsteady
  later := h.later.trans hg
  get? := hg.get? h.get? (.inl rfl)
  fresh := h.fresh
  isFlat := h.isFlat
  parts l hl := hg.keepsTerms.termTree (h.parts l hl)
  written purpose := (h.written purpose).imp fun _ _ hw => hw.keep hg.keepsTerms

theorem extend (hg : Extends g g') : g0.Growing ν base remarks flat ws f g' :=
  h.rework (h.steady.extend hg) (.of_extends hg)

theorem besides (hold : g0.size ≤ base.size)
    (hg : KeepsBesides flat g g') (hget : g'.ClassAt flat f') (hf : f'.IsFlat remarks)
    (hparts : ∀ l ∈ f'.parts, l ∈ f.parts ∨ g'.TermTree g'.size l)
    (hwritten : ∀ purpose, Forall₂ (g0.Rewritten g') (ws' purpose) (f'.having purpose)) :
    g0.Growing ν base remarks flat ws' f' g' where
  steady := h.steady.beyond (hg.base.mono fun _ _ hid => hid ▸ hold.trans h.fresh)
  later := h.later.beyond (hg.base.mono fun _ _ hid => hid ▸ h.fresh)
  get? := hget
  fresh := h.fresh
  isFlat := hf
  parts l hl := (hparts l hl).elim (fun hl => hg.keepsTerms.termTree (h.parts l hl)) id
  written := hwritten

theorem set (hold : g0.size ≤ base.size) (hf : f'.IsFlat remarks)
    (hparts : ∀ l ∈ f'.parts, l ∈ f.parts ∨ g.TermTree g.size l)
    (hwritten : ∀ purpose, Forall₂ (g0.Rewritten g) (ws' purpose) (f'.having purpose)) :
    g0.Growing ν base remarks flat ws' f' (g.set flat (.classDef f')) := by
  have hg := KeepsBesides.set h.get? f'
  refine h.besides hold hg (get?_set h.get? _) hf (fun l hl => (hparts l hl).imp id hg.keepsTerms.termTree)
    fun purpose => (hwritten purpose).imp fun _ _ hw => hw.keep hg.keepsTerms

end

end Growing

/-- The name that a reference in a component of an instance inside has there. -/
def Inner (g : Graph) (cls : Id) (stem : String) (path : List String) (r r' : String) : Prop :=
  ∃ name rest symbol t, path = name :: rest ∧ (g.symbolsOf cls).get? name = some symbol ∧
    g.instanceOf? symbol = some t ∧ g.FlatName t (stem ++ name ++ ".") rest r r'

/-- The entry of a component before arguments are applied: a symbol of the
instance itself, or what has become of one further inside. -/
def Pending (ν : Marks) (g0 base : Graph) (cls : Id) (stem : String) (g : Graph) (x : List String × Id)
    (e : String × Id) : Prop :=
  e.1 = stem ++ dottedText x.1 ∧
    ((∃ name s s', x.1 = [name] ∧ e.2 = x.2 ∧ g0.Elementary x.2 s s' ∧ (g0.symbolsOf cls).get? name = some x.2 ∧
        g0.Fits ν stem name x.2 ∧ g.Noted ν stem x.2 s.keywords) ∨
      g0.Stands g (g0.Inner cls stem x.1) x.2 e.2 ∧ Fresh base g e.2 ∧
        (ν.given → g.Shows e.2 e.1 (g0.flatWords stem x) (g0.extentsAt cls x.1)))

theorem Pending.keep {x e} (h : g0.Pending ν base cls stem g x e)
    (hg : Sustains ν base g g') : g0.Pending ν base cls stem g' x e := by
  obtain ⟨hkey, ⟨name, s, s', hpath, he, hs, hsymbol, hfits, hnoted⟩ | ⟨hstands, hfresh, hshows⟩⟩ := h
  · exact ⟨hkey, .inl ⟨name, s, s', hpath, he, hs, hsymbol, hfits, hg.lasts.noted hnoted⟩⟩
  · obtain ⟨hstands', hfresh'⟩ := hg.stands hstands hfresh
    obtain ⟨s, hs⟩ := hstands.settled
    exact ⟨hkey, .inr ⟨hstands', hfresh', fun hν => hg.shows (hshows hν) hs hfresh⟩⟩

theorem Growing.enter {more} (h : g0.Growing ν base remarks flat ws f g) (hold : g0.size ≤ base.size)
    (hcomps : Forall₂ (g0.Pending ν base cls stem g) comps f.symbols.entries)
    (hmore : Forall₂ (g0.Pending ν base cls stem g) more entries) (hf : f'.IsFlat remarks)
    (hparts : ∀ l ∈ f'.parts, l ∈ f.parts ∨ g.TermTree g.size l)
    (hwritten : ∀ purpose, Forall₂ (g0.Rewritten g) (ws' purpose) (f'.having purpose))
    (hentries : f'.symbols.entries = f.symbols.entries ++ entries) :
    ∃ f'', g0.Growing ν base remarks flat ws' f'' (g.set flat (.classDef f')) ∧
      Forall₂ (g0.Pending ν base cls stem (g.set flat (.classDef f'))) (comps ++ more) f''.symbols.entries := by
  have hkeep : Sustains ν base g (g.set flat (.classDef f')) := (KeepsBesides.set h.get? f').sustains
  refine ⟨f', h.set hold hf hparts hwritten, ?_⟩
  rw [hentries]
  exact rel_append (hcomps.imp fun _ _ hx => hx.keep hkeep) (hmore.imp fun _ _ hx => hx.keep hkeep)

/-- The entry of a component in a finished flat class. -/
structure Finished (ν : Marks) (g0 base : Graph) (cls : Id) (stem : String) (g : Graph) (x : List String × Id)
    (e : String × Id) : Prop where
  key : e.1 = stem ++ dottedText x.1
  stands : g0.Stands g (g0.FlatName cls stem x.1) x.2 e.2
  fresh : ∀ a ∈ g.reach e.2, base.size ≤ a
  shows : ν.given → g.Shows e.2 e.1 (g0.flatWords stem x) (g0.extentsAt cls x.1)

/-- The flat class of an instance of at most `n` levels. -/
structure Flat (ν : Marks) (g0 : Graph) (n : Nat) (cls : Id) (stem : String) (base : Graph) (flat : Id)
    (ws : Purpose → List Written) (f : ClassDef) (g : Graph) : Prop where
  growing : ∃ remarks, g0.Growing ν base remarks flat ws f g
  nodup : f.symbols.values.Nodup
  symbols : Forall₂ (g0.Finished ν base cls stem g) (g0.components n cls) f.symbols.entries

theorem keys_of_forall₂ {R} (h : Forall₂ R comps entries) (hR : ∀ x e, R x e → e.1 = stem ++ dottedText x.1) :
    entries.map (·.1) = comps.map fun x => stem ++ dottedText x.1 := by
  induction h with
  | nil => rfl
  | cons hx _ ih => rw [map_cons, map_cons, ih, hR _ _ hx]

theorem forall₂_mem (h : Forall₂ R l u) : Forall₂ (fun x e => x ∈ l ∧ e ∈ u ∧ R x e) l u := by
  induction h with
  | nil => exact .nil
  | cons hx _ ih =>
    refine .cons ⟨(.head _), (.head _), hx⟩ (ih.imp fun _ _ h => ?_)
    exact ⟨.tail _ h.1, .tail _ h.2.1, h.2.2⟩

theorem nodup_behind (h : (comps.map fun x => dottedText x.1).Nodup) (stem : String) :
    (comps.map fun x => stem ++ dottedText x.1).Nodup := by
  have hmap := h.map (f := (stem ++ ·)) fun a b => (String.append_right_inj stem).1
  rw [map_map] at hmap
  exact hmap

end Graph

namespace Build

open Modelica.Graph

variable {ν : Marks} {g0 base g : Graph} {cls flat : Id} {remarks : Option Id} {stem : String}
  {comps : List (List String × Id)} {f : ClassDef} {ws : Purpose → List Written}

variable {name : String} {symbol t : Id} {s : Symbol} {n : Nat}

theorem enterElementary_runs (h : g0.Growing ν base remarks flat ws f g)
    (hcomps : Forall₂ (g0.Pending ν base cls stem g) comps f.symbols.entries) (hold : g0.size ≤ base.size)
    {flatten flattenClass s'} (hs : g0.Elementary symbol s s') (hsymbol : (g0.symbolsOf cls).get? name = some symbol)
    (hfits : g0.Fits ν stem name symbol) (hnodup : ((comps ++ [([name], symbol)]).map fun x => dottedText x.1).Nodup) :
    Runs (flattenSymbol flatten flattenClass flat stem name symbol) g fun _ g' =>
      ∃ f', g0.Growing ν base remarks flat ws f' g' ∧
        Forall₂ (g0.Pending ν base cls stem g') (comps ++ [([name], symbol)]) f'.symbols.entries := by
  refine prepare_runs h.steady hs.settles hs.keywords hfits fun g1 s1 hsteady hreworks hget htype _ hnoted => ?_
  obtain ⟨t, ht, hr⟩ := hs.type
  have h1 := h.rework hsteady hreworks
  simp only [Runs, ends_bind, ends_symbolAt hget, ends_typeForm (htype.trans ht) (hsteady.fixes.isReference hr),
    ends_modifyClass h1.get?]
  have hnew : stem ++ name ∉ f.symbols.keys := by
    have hkeys : f.symbols.keys = _ := keys_of_forall₂ hcomps fun _ _ hx => hx.1
    have hn := nodup_behind hnodup stem
    rw [map_append, nodup_append, ← hkeys] at hn
    exact fun hmem => hn.2.2 _ hmem _ (mem_singleton.2 rfl) (congrArg (stem ++ ·) (dottedText_singleton name).symm)
  refine h1.enter hold (hcomps.imp fun _ _ hx => hx.keep (hreworks.sustains hold)) (.cons ⟨?_, .inl ?_⟩ .nil) ?_
    (fun l hl => .inl hl) h1.written (congrArg Table.entries (Table.insert_of_not_mem _ _ hnew))
  · rw [dottedText_singleton]
  · exact ⟨name, s, s', rfl, rfl, hs, hsymbol, hfits, hnoted⟩
  · exact { h.isFlat with }

/-- What has become of a component further inside, once the dimensions of the
instance stand in front of its own. -/
theorem prepend_stands {g1 g2 named new c} (hsteady : Steady ν g0 g) (hs : g0.Instanced c s t)
    (hold : g0.size ≤ g1.size) (hnew : g0.Stands g named symbol new) (hfresh : ∀ a ∈ g.reach new, g1.size ≤ a)
    (hg : g.KeepsTerms g2) (hkeep : ∀ {a w}, g.KeywordsAt a w → g2.KeywordsAt a w)
    (hdone : ∀ k, g.SymbolAt new k → g2.SymbolAt new (k.prepend s.dimensions)) :
    g0.Stands g2 named symbol new ∧ Fresh g1 g2 new ∧ ∀ name words sizes, g.Shows new name words sizes →
      g2.Shows new name words (g0.extents s.dimensions ++ sizes) := by
  obtain ⟨k, hk⟩ := hnew.settled
  have hterms := hsteady.fixes.keepsTerms
  have hreach : ∀ l ∈ Value.nodesOfRows s.dimensions, g.reach l = g0.reach l := fun l hl =>
    hterms.reach (hs.held l hl)
  have hk' : g2.Settled new (k.prepend s.dimensions) := by
    refine hk.prepend hg (hdone k hk.get?) ?_ (fun l hl => ?_) ?_ fun a ha hmem => ?_
    · obtain ⟨words, hw⟩ := hk.keywords
      rw [hw, hkeep hw]
    · exact hterms.termTree (hs.held l hl)
    · rw [flatMap_congr hreach]
      exact hs.unshared
    · -- The dimensions were there before, the symbol is new.
      obtain ⟨l, hl, ha⟩ := mem_flatMap.1 ha
      rw [hreach l hl] at ha
      obtain ⟨d, _, ht⟩ := tree_of_mem_reach (hs.held l hl) ha
      obtain ⟨e, he⟩ := ht.get?
      exact Nat.not_lt.2 (hold.trans (hfresh a hmem)) (get?_lt he)
  have hmem := hk.reach ▸ hfresh
  refine ⟨⟨⟨_, hk'⟩, fun place pos r hr => ?_⟩, ⟨hmem new (.head _), fun k' hget => ?_⟩,
    fun name words sizes hshows => ?_⟩
  · obtain ⟨r', hnamed, hr'⟩ := hnew.refers place pos r hr
    exact ⟨r', hnamed, hk.refers_of hg hk' (fun _ hv => Symbol.place?_prepend hv _) hr'⟩
  · rw [hk'.get?] at hget
    cases hget
    exact hmem k.keywords (by simp)
  · obtain ⟨k1, hk1, hname, hw, hsizes⟩ := hshows
    rw [hk.get?] at hk1
    cases hk1
    refine ⟨_, hk'.get?, hname, hkeep hw, ?_⟩
    rw [← hsizes, ← hg.extents fun l hl => hk.held l (by simp [Symbol.children, hl]),
      ← (hterms.trans hg).extents hs.held, extents, extents, extents, ← map_append]
    rfl

theorem prependFlat_runs {g1} {sub : Id} {k} (hk : g0.Flat ν n t stem g1 sub ws k g)
    (hs : g0.Instanced symbol s t) (hold : g0.size ≤ g1.size) :
    Runs (forIn k.symbols.values PUnit.unit fun id _ => do
      modifySymbol id fun k => { k with dimensions := s.dimensions ++ k.dimensions }
      pure (.yield PUnit.unit)) g fun _ g' => ExtendsBut (fun id => g1.size ≤ id) g g' ∧ g.KeepsTerms g' ∧
        g'.ClassAt sub k ∧ Forall₂ (fun y e => e.1 = stem ++ dottedText y.1 ∧
          g0.Stands g' (g0.FlatName t stem y.1) y.2 e.2 ∧ Fresh g1 g' e.2 ∧ (ν.given →
            g'.Shows e.2 e.1 (g0.flatWords stem y) (g0.extents s.dimensions ++ g0.extentsAt t y.1)))
          (g0.components n t) k.symbols.entries := by
  obtain ⟨⟨remarks, hgrowing⟩, hvalues, hsymbols⟩ := hk
  have hids : ∀ id ∈ k.symbols.values, (∃ s, g.SymbolAt id s) ∧ g1.size ≤ id := by
    refine forall_mem_map.2 fun e he => ?_
    obtain ⟨x, hx⟩ := exists_of_forall₂ hsymbols he
    obtain ⟨s, hs⟩ := hx.stands.settled
    exact ⟨⟨s, hs.get?⟩, hx.fresh e.2 (self_mem_reach hs.tree)⟩
  refine (prependAll_runs hvalues (fun id hid => (hids id hid).1) s.dimensions).imp ?_
  rintro _ g' ⟨hsize, hother, hdone⟩
  have hkeep : ∀ {a : Id} {e : Element}, g.get? a = some e → e.isSymbol = false → g'.get? a = some e :=
    fun {a e} he hsym => by
      rw [hother a fun hmem => ?_, he]
      obtain ⟨s, hs⟩ := (hids a hmem).1
      cases hs.symm.trans he
      cases hsym
  have hterms : g.KeepsTerms g' :=
    ⟨Nat.le_of_eq hsize.symm, fun he hterm => hkeep he (Element.isQuiet_of_isTerm hterm).2⟩
  refine ⟨⟨Nat.le_of_eq hsize.symm, fun id _ hlt => hother id fun hmem => hlt (hids id hmem).2⟩, hterms,
    hkeep hgrowing.get? rfl, (forall₂_mem hsymbols).imp ?_⟩
  rintro y e ⟨_, he, hy⟩
  obtain ⟨hstands, hfresh, hshows⟩ := prepend_stands hgrowing.steady hs hold hy.stands hy.fresh hterms
    (fun hw => hkeep hw rfl) (hdone e.2 (mem_map_of_mem he))
  exact ⟨hy.key, hstands, hfresh, fun hν => hshows _ _ _ (hy.shows hν)⟩

theorem enterInstance_runs (h : g0.Growing ν base remarks flat ws f g)
    (hcomps : Forall₂ (g0.Pending ν base cls stem g) comps f.symbols.entries) (hold : g0.size ≤ base.size)
    {flatten flattenClass} (hs : g0.Instanced symbol s t) (hsymbol : (g0.symbolsOf cls).get? name = some symbol)
    (hfits : g0.Fits ν stem name symbol)
    (hflatten : ∀ g1, Steady ν g0 g1 → Runs (flatten t (stem ++ name)) g1 fun sub g' =>
      ∃ k, g0.Flat ν n t (stem ++ name ++ ".") g1 sub (fun purpose => g0.written purpose n (stem ++ name ++ ".") t) k g')
    (hnodup : ((comps ++ (g0.components n t).map fun y => (name :: y.1, y.2)).map fun x => dottedText x.1).Nodup) :
    Runs (flattenSymbol flatten flattenClass flat stem name symbol) g fun _ g' =>
      ∃ f', g0.Growing ν base remarks flat
          (fun purpose => ws purpose ++ g0.written purpose n (stem ++ name ++ ".") t) f' g' ∧
        Forall₂ (g0.Pending ν base cls stem g')
          (comps ++ (g0.components n t).map fun y => (name :: y.1, y.2)) f'.symbols.entries := by
  refine prepare_runs h.steady hs.settles hs.keywords hfits fun g1 s1 hsteady hreworks hget htype hdims _ => ?_
  obtain ⟨c, hc, hrole, hbuiltin, hconnector⟩ := hs.cls
  have hc1 : g1.ClassAt t c := hsteady.fixes.get? hc rfl
  simp only [Runs, ends_bind, ends_symbolAt hget, ends_typeForm_instanced (htype.trans hs.type) hc1 hrole,
    ends_classAt hc1, hbuiltin, hconnector, if_false]
  refine (hflatten g1 hsteady).imp ?_
  rintro sub g2 ⟨k, hk⟩
  obtain ⟨remarks', hgrowing⟩ := hk.growing
  obtain ⟨name2, s2, hs2, hcases⟩ := hgrowing.steady.settles hs.settles
  have hdims2 : s2.dimensions = s.dimensions := by
    rcases hcases with rfl | rfl <;> rfl
  simp only [ends_symbolAt hs2.1, ends_classAt hgrowing.get?, hdims2]
  refine (prependFlat_runs hk hs hsteady.fixes.size_le).imp ?_
  rintro _ g3 ⟨hbeyond, hterms, hsub, hsymbols⟩
  have hreworks3 := hreworks.trans (hgrowing.later.beyond hbeyond)
  have hsteady3 := hgrowing.steady.beyond (hbeyond.mono fun _ _ => Nat.le_trans hsteady.fixes.size_le)
  have h3 := h.rework hsteady3 hreworks3
  simp only [ends_classAt hsub, ends_modifyClass h3.get?, ends_pure]
  have hmore : Forall₂ (g0.Pending ν base cls stem g3) ((g0.components n t).map fun y => (name :: y.1, y.2))
      k.symbols.entries := by
    rw [forall₂_map_left_iff]
    refine (forall₂_mem hsymbols).imp ?_
    rintro y e ⟨hy, _, hkey, hstands, hfresh, hshows⟩
    have hne := components_ne_nil hy
    refine ⟨?_, .inr ⟨hstands.imp fun r r' hr => ?_,
      hfresh.mono (h.later.size_le.trans hreworks.size_le), fun hν => ?_⟩⟩
    · rw [hkey, dottedText_cons name hne, String.append_assoc, String.append_assoc, String.append_assoc]
    · exact ⟨name, y.1, symbol, t, rfl, hsymbol, hs.instanceOf?, hr⟩
    · simp only [extentsAt, hsymbol, hs.instanceOf?, extentsOf_eq hs.get?, flatWords_inner stem name hne]
      exact hshows hν
  have hkeys : (f.symbols.keys ++ k.symbols.keys).Nodup := by
    have hn := nodup_behind hnodup stem
    rw [map_append, ← keys_of_forall₂ hcomps fun _ _ hx => hx.1, ← keys_of_forall₂ hmore fun _ _ hx => hx.1] at hn
    exact hn
  refine h3.enter hold (hcomps.imp fun _ _ hx => hx.keep (hreworks3.sustains hold)) hmore ?_ (fun l hl => ?_)
    (fun purpose => ?_) (congrArg Table.entries (Table.insertAll_of_nodup hkeys))
  · have hclasses : f.classes.insertAll k.classes = {} := by rw [h.isFlat.classes, hgrowing.isFlat.classes]; rfl
    have hfunctions : f.functions.insertAll k.functions = {} := by rw [h.isFlat.functions, hgrowing.isFlat.functions]; rfl
    exact { h.isFlat with classes := hclasses, functions := hfunctions }
  · have hcases : l ∈ f.parts ∨ l ∈ k.parts := by
      simp only [ClassDef.parts, ClassDef.absorb, mem_append] at hl ⊢
      tauto
    refine hcases.imp id fun hl => ?_
    exact hterms.termTree (hgrowing.parts l hl)
  · have hparts := rel_append (h3.written purpose) ((hgrowing.written purpose).imp fun _ _ hw => hw.keep hterms)
    cases purpose <;> exact hparts

/-- The symbols of a class can be entered, those of instances with `flatten`. -/
def Enterable (ν : Marks) (g0 : Graph) (n : Nat) (stem : String) (c : ClassDef) (flatten : Id → String → Build Id) : Prop :=
  ∀ x ∈ c.symbols.entries, g0.Fits ν stem x.1 x.2 ∧
    ((∃ s s', g0.Elementary x.2 s s') ∨ ∃ s t, g0.Instanced x.2 s t ∧
      ∀ g, Steady ν g0 g → Runs (flatten t (stem ++ x.1)) g fun sub g' =>
        ∃ k, g0.Flat ν n t (stem ++ x.1 ++ ".") g sub (fun purpose => g0.written purpose n (stem ++ x.1 ++ ".") t) k g')

theorem gather_runs {c} (h : g0.Growing ν base remarks flat (fun _ => []) f g) (hold : g0.size ≤ base.size)
    (hf : f.symbols.entries = []) (hc : g0.ClassAt cls c) (hkeys : c.symbols.keys.Nodup)
    {flatten flattenClass} (hsymbols : Enterable ν g0 n stem c flatten)
    (hnodup : ((g0.components (n + 1) cls).map fun x => dottedText x.1).Nodup) :
    Runs (forIn c.symbols.entries PUnit.unit fun x _ => do
      flattenSymbol flatten flattenClass flat stem x.1 x.2
      pure (.yield PUnit.unit)) g fun _ g' => ∃ f', g0.Growing ν base remarks flat
          (fun purpose => c.symbols.entries.flatMap (g0.writtenIn (g0.written purpose n) stem)) f' g' ∧
        Forall₂ (g0.Pending ν base cls stem g') (g0.components (n + 1) cls) f'.symbols.entries := by
  rw [components_succ n hc] at hnodup ⊢
  refine runs_forIn_prefix (fun before g' => ∃ f', g0.Growing ν base remarks flat
      (fun purpose => before.flatMap (g0.writtenIn (g0.written purpose n) stem)) f' g' ∧
    Forall₂ (g0.Pending ν base cls stem g') (before.flatMap (g0.expand (g0.components n))) f'.symbols.entries)
    (fun before x after hl g1 h1 => ?_) ⟨f, h, by rw [hf]; exact .nil⟩
  obtain ⟨f1, h1, hcomps⟩ := h1
  have hmem : x ∈ c.symbols.entries := by rw [hl]; simp
  have hsub : List.Sublist (before.flatMap (g0.expand (g0.components n)) ++ g0.expand (g0.components n) x)
      (c.symbols.entries.flatMap (g0.expand (g0.components n))) := by
    rw [hl, flatMap_append, flatMap_cons, ← append_assoc]
    exact sublist_append_left _ _
  have hn := hnodup.sublist (hsub.map _)
  have hsymbol : (g0.symbolsOf cls).get? x.1 = some x.2 := by
    rw [symbolsOf_eq hc]
    exact Table.get?_of_mem_entries hkeys hmem
  simp only [flatMap_append, flatMap_singleton]
  obtain ⟨hfits, ⟨s, s', hs⟩ | ⟨s, t, hs, hflatten⟩⟩ := hsymbols x hmem
  · rw [expand_elementary hs] at hn ⊢
    simp only [writtenIn_elementary hs, append_nil]
    exact enterElementary_runs h1 hcomps hold hs hsymbol hfits hn
  · rw [expand_instanced hs] at hn ⊢
    simp only [writtenIn_instanced hs]
    exact enterInstance_runs h1 hcomps hold hs hsymbol hfits hflatten hn

end Build
end Modelica
