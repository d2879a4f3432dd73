/-
Components of an instance while it is flattened.

`Elementary` is what is asked of a symbol of elementary type. While an instance
is flattened its symbols get their full names, lose keywords, and have their
arguments applied. `Steady` says that no more than that happens to what was
there: what a symbol will be once its arguments are applied stays the same, and
so do the references in it (`Steady.refers`).
-/
import Modelica.Proofs.Flat.Arguments
import Modelica.Proofs.Flat.Connector
import Modelica.Proofs.Flat.Outer

namespace Modelica

open List Element

/-- What expressions and equations are made of. -/
def Element.isTerm : Element → Bool
  | .classDef _ | .symbol _ | .argument .. | .modification _ | .keywords _ => false
  | _ => true

/-- A tree of expressions. -/
abbrev Graph.TermTree (g : Graph) (d : Nat) (id : Id) : Prop := g.Tree (fun _ e => e.isTerm = true) d id

namespace Element

variable {e : Element}

theorem isQuiet_of_isTerm (h : e.isTerm = true) : e.isQuiet := by
  cases e <;> simp_all [isTerm, isQuiet, isClass, isSymbol]

theorem isMutable_of_isTerm (h : e.isTerm = true) : e.isMutable = false := by
  cases e <;> simp_all [isTerm, isMutable]

theorem hasSource_of_isTerm (h : e.isTerm = true) : e.hasSource = false := by
  cases e <;> simp_all [isTerm, hasSource]

theorem isTerm_rename (φ : Id → Id) (e : Element) : (e.rename φ).isTerm = e.isTerm := by
  cases e <;> rfl

end Element

/-- A place of a symbol where a reference can stand: an attribute, or one of the
dimensions that it was declared with. -/
inductive Symbol.Place where
  | field (a : Attribute)
  | dimension (i : Nat)

namespace Symbol

def place? (s : Symbol) : Symbol.Place → Option Value
  | .field a => some (s.attribute a)
  | .dimension i => (s.dimensions.getLast?.getD [])[i]?

variable {s : Symbol} {place : Symbol.Place}

theorem nodes_subset_nodesAll {v vs} (h : v ∈ vs) : v.nodes ⊆ Value.nodesAll vs := by
  induction vs with
  | nil => cases h
  | cons w vs ih =>
    intro a ha
    rw [Value.nodesAll, mem_append]
    rcases mem_cons.1 h with rfl | h
    · exact .inl ha
    · exact .inr (ih h ha)

theorem mem_children_of_place? {v} (h : s.place? place = some (.node v)) : v ∈ s.children := by
  cases place with
  | field a =>
    cases a <;> simp only [place?, Symbol.attribute, Option.some.injEq] at h <;> simp [children, h, Value.nodes]
  | dimension i =>
    have hmem : v ∈ Value.nodesOfRows s.dimensions := by
      simp only [place?] at h
      cases hlast : s.dimensions.getLast? with
      | none => simp [hlast] at h
      | some row =>
        rw [hlast] at h
        refine mem_flatMap.2 ⟨row, mem_of_getLast? hlast, ?_⟩
        exact nodes_subset_nodesAll (mem_of_getElem? h) (.head _)
    simp [children, hmem]

theorem place?_rename (φ : Id → Id) : (s.rename φ).place? place = (s.place? place).map (Value.rename φ) := by
  cases place with
  | field a => cases a <;> rfl
  | dimension i =>
    simp only [place?, rename, List.getLast?_map]
    cases s.dimensions.getLast? with
    | none => rfl
    | some row =>
      simp [Value.renameAll_eq_map]

@[simp] theorem setAll_keywords (s : Symbol) (xs : List Setting) : (s.setAll xs).keywords = s.keywords :=
  setAll_induction (P := fun t => t.keywords = s.keywords) s xs rfl fun _ _ _ h => by rw [setAttribute_keywords, h]

@[simp] theorem setAll_dimensions (s : Symbol) (xs : List Setting) : (s.setAll xs).dimensions = s.dimensions :=
  setAll_induction (P := fun t => t.dimensions = s.dimensions) s xs rfl fun _ _ _ h => by
    rw [setAttribute_dimensions, h]

/-- The symbol under another name. -/
def named (s : Symbol) (name : String) : Symbol := { s with name }

/-- The symbol once arguments have been applied. -/
def settled (s : Symbol) (xs : List Setting) : Symbol := { s.setAll xs with modification := none }

theorem setAll_named (s : Symbol) (xs : List Setting) (name : String) :
    (s.named name).setAll xs = (s.setAll xs).named name := by
  induction xs generalizing s with
  | nil => rfl
  | cons x xs ih =>
    have hset : (s.named name).setAttribute x.field x.value = (s.setAttribute x.field x.value).named name := by
      cases x.field <;> rfl
    exact (congrArg (setAll · xs) hset).trans (ih _)

theorem settled_nil {s : Symbol} (h : s.modification = none) : s.settled [] = s := by
  rw [settled, setAll, foldl_nil, ← h]

end Symbol

/-- The keywords that are left of those of a symbol that stands inside an instance:
they do not say from where its value comes. -/
def reduced (words : List String) : List String := (words.erase "input").erase "output"

theorem reduced_reduced {words} (h : words.Nodup) : reduced (reduced words) = reduced words := by
  have hinput : "input" ∉ reduced words := fun hmem => h.not_mem_erase (mem_of_mem_erase hmem)
  have houtput : "output" ∉ reduced words := (h.erase _).not_mem_erase
  rw [reduced, erase_of_not_mem hinput, erase_of_not_mem houtput]

/-- What the symbols of an instance are called in the end, and which keywords are
those of symbols further inside. Where not `given`, neither says anything. -/
structure Marks where
  given : Prop
  name : Id → String
  inner : Id → Prop

def Marks.unknown : Marks := ⟨False, fun _ => "", fun _ => False⟩

namespace Graph

variable {ν : Marks} {g0 g g' : Graph} {id : Id} {s s' : Symbol}

variable {words : List String} {rows : List (List Value)}

/-- A symbol, and what it is once its arguments are applied. All of them are
written with the declaration. -/
def Settles (g : Graph) (id : Id) (s s' : Symbol) : Prop :=
  g.get? id = some (.symbol s) ∧ ∃ xs, g.Pends s.modification xs ∧ (∀ x ∈ xs, x.scope = none) ∧
    s' = s.settled xs

/-- A symbol of elementary type. It holds nothing twice. -/
structure Elementary (g : Graph) (id : Id) (s s' : Symbol) : Prop where
  settles : g.Settles id s s'
  type : ∃ t, s.type = .node t ∧ g.IsReference t
  keywords : ∃ words, g.get? s.keywords = some (.keywords words)
  visited : ∀ l ∈ s.children, g.Tree (fun _ e => e.isQuiet) g.size l
  held : ∀ l ∈ s'.children, g.TermTree g.size l
  unshared : (s'.keywords :: s'.children.flatMap g.reach).Nodup

/-- A symbol refers, in the given place, to a dotted name. -/
def Refers (g : Graph) (symbol : Id) (place : Symbol.Place) (pos : List Nat) (r : String) : Prop :=
  ∃ s s' v a rs, g.Settles symbol s s' ∧ s'.place? place = some (.node v) ∧ g.Outer v pos a ∧ g.Chain a rs ∧
    dotted rs = r

theorem Sets.unique {arg x y} (hx : g.Sets arg x) (hy : g.Sets arg y) : x.field = y.field ∧ x.value = y.value := by
  obtain ⟨v, scope, redeclare, source, c, vs, r, harg, _, hv, hc, hr⟩ := hx
  obtain ⟨v', scope', redeclare', source', c', vs', r', harg', _, hv', hc', hr'⟩ := hy
  cases harg.symm.trans harg'
  rw [hv] at hv'
  simp only [Option.some.injEq, elementModification.injEq, cons.injEq] at hv'
  obtain ⟨rfl, hvalue, _⟩ := hv'
  cases hc.symm.trans hc'
  rw [hr] at hr'
  exact ⟨Option.some.inj hr', hvalue⟩

theorem Settles.unique {t t'} (h : g.Settles id s s') (h' : g.Settles id t t') : s = t ∧ s' = t' := by
  obtain ⟨hs, xs, hx, hscope, rfl⟩ := h
  obtain ⟨ht, ys, hy, hscope', rfl⟩ := h'
  cases hs.symm.trans ht
  refine ⟨rfl, ?_⟩
  suffices hsame : xs = ys by rw [hsame]
  rcases hx with ⟨hm, rfl⟩ | ⟨m, args, hm, hargs, hsets⟩
  · rcases hy with ⟨_, rfl⟩ | ⟨m', _, hm', _⟩
    · rfl
    · cases hm.symm.trans hm'
  · rcases hy with ⟨hm', _⟩ | ⟨m', args', hm', hargs', hsets'⟩
    · cases hm.symm.trans hm'
    · cases hm.symm.trans hm'
      rw [hargs] at hargs'
      cases hargs'
      clear hargs
      induction hsets generalizing ys with
      | nil =>
        cases hsets' with
        | nil => rfl
      | @cons arg x args xs hx _ ih =>
        cases hsets' with
        | @cons _ y _ ys hy hsets' =>
          obtain ⟨hfield, hvalue⟩ := hx.unique hy
          have hsame : x = y := by
            obtain ⟨sx, _, _⟩ := x
            obtain ⟨sy, _, _⟩ := y
            have hx := hscope _ (.head _)
            have hy := hscope' _ (.head _)
            simp only at hx hy hfield hvalue
            rw [hx, hy, hfield, hvalue]
          rw [hsame, ih (fun z hz => hscope z (.tail _ hz)) ys
            (fun z hz => hscope' z (.tail _ hz)) hsets']

section

variable (h : g.Settles id s s')

include h

theorem Settles.type : s'.type = s.type := by
  obtain ⟨_, xs, _, _, rfl⟩ := h
  exact Symbol.setAll_type s xs

theorem Settles.keywords : s'.keywords = s.keywords := by
  obtain ⟨_, xs, _, _, rfl⟩ := h
  exact Symbol.setAll_keywords s xs

theorem Settles.dimensions : s'.dimensions = s.dimensions := by
  obtain ⟨_, xs, _, _, rfl⟩ := h
  exact Symbol.setAll_dimensions s xs

theorem Settles.modification {m} (hm : s.modification = some m) : ∃ args, g.get? m = some (.modification args) := by
  obtain ⟨_, xs, ⟨hnone, _⟩ | ⟨m', args, hsm, hargs, _⟩, _⟩ := h
  · cases hnone.symm.trans hm
  · cases hsm.symm.trans hm
    exact ⟨args, hargs⟩

end

/-! ### What stays the same -/

/-- All that expressions and equations are made of is kept. -/
structure KeepsTerms (g g' : Graph) : Prop where
  size_le : g.size ≤ g'.size
  get? : ∀ {id : Id} {e : Element}, g.get? id = some e → e.isTerm = true → g'.get? id = some e

theorem Fixes.keepsTerms (h : g.Fixes g') : g.KeepsTerms g' :=
  ⟨h.size_le, fun he hterm => h.get? he (isMutable_of_isTerm hterm)⟩

theorem Extends.keepsTerms (h : Extends g g') : g.KeepsTerms g' := ⟨h.size_le, fun he _ => Extends.get?_some h he⟩

namespace KeepsTerms

theorem refl (g : Graph) : g.KeepsTerms g := ⟨le_rfl, fun he _ => he⟩

theorem trans {g1} (h : g.KeepsTerms g1) (h' : g1.KeepsTerms g') : g.KeepsTerms g' :=
  ⟨h.size_le.trans h'.size_le, fun he hterm => h'.get? (h.get? he hterm) hterm⟩

theorem isReference (h : g.KeepsTerms g') (hr : g.IsReference id) : g'.IsReference id := by
  obtain ⟨r, hr⟩ := hr
  exact ⟨r, h.get? hr rfl⟩

theorem chain (h : g.KeepsTerms g') {rs} (hc : g.Chain id rs) : g'.Chain id rs :=
  hc.imp fun _ _ hr => h.get? hr rfl

variable {p : Id → Element → Prop} {d : Nat}

section

variable (h : g.KeepsTerms g')

include h

theorem tree_of (hp : ∀ id e, p id e → e.isTerm = true) (ht : g.Tree p d id) : g'.Tree p d id :=
  ht.unchanged (fun _ => h.isReference) fun id e he hpe => ⟨h.get? he (hp id e hpe), hpe⟩

theorem tree (ht : g.TermTree d id) : g'.TermTree d id := h.tree_of (fun _ _ hterm => hterm) ht

theorem termTree (ht : g.TermTree g.size id) : g'.TermTree g'.size id := (h.tree ht).mono h.size_le

theorem reach (ht : g.TermTree d id) : g'.reach id = g.reach id := by
  induction d generalizing id with
  | zero => exact ht.elim
  | succ d ih =>
    have ht' := h.tree ht
    have htree := ht
    obtain ⟨e, he, hterm, _, hl⟩ := ht
    rw [reach_eq htree he, reach_eq ht' (h.get? he hterm)]
    congr 1
    exact flatMap_congr fun l hmem => ih (hl l hmem)

theorem outer {a pos} (ht : g.TermTree d id) (ha : g.Outer id pos a) : g'.Outer id pos a := by
  induction ha generalizing d with
  | here hr => exact .here (h.isReference hr)
  | part he hr hs hl _ ih =>
    obtain ⟨hterm, _, hlinks⟩ := ht.element he
    have hlink := mem_links_of_mem_children (mem_of_getElem? hl)
    exact .part (h.get? he hterm) hr hs hl (ih (hlinks _ hlink))

end

end KeepsTerms

/-- Once a symbol has its full name and its keywords are reduced, they stay so. -/
structure Lasts (ν : Marks) (g g' : Graph) : Prop where
  name : ν.given → ∀ {id : Id} {s : Symbol}, g.get? id = some (.symbol s) → s.name = ν.name id →
    ∃ s', g'.get? id = some (.symbol s') ∧ s'.name = ν.name id
  words : ν.given → ∀ {id : Id} {words : List String}, g.get? id = some (.keywords words) →
    reduced words = words → g'.get? id = some (.keywords words)

namespace Lasts

variable {g1 : Graph}

theorem of_keeps (h : ∀ {id : Id} {e : Element}, g.get? id = some e → e.isMutable = true → g'.get? id = some e) :
    Lasts ν g g' :=
  ⟨fun _ _ s hs hname => ⟨s, h hs rfl, hname⟩, fun _ _ _ hw _ => h hw rfl⟩

theorem trans (h : Lasts ν g g1) (h' : Lasts ν g1 g') : Lasts ν g g' := by
  refine ⟨fun hν id s hs hname => ?_, fun hν id words hw hred => h'.words hν (h.words hν hw hred) hred⟩
  obtain ⟨s1, hs1, hname1⟩ := h.name hν hs hname
  exact h'.name hν hs1 hname1

theorem beyond (h : Lasts ν g g1) (hg : ExtendsBut (fun id => g.size ≤ id) g1 g') : Lasts ν g g' := by
  have hkeep : ∀ {id : Id} {e e1 : Element}, g.get? id = some e → g1.get? id = some e1 → g'.get? id = some e1 :=
    fun he he1 => hg.get?_some he1 (Nat.not_le.2 (get?_lt he))
  refine ⟨fun hν id s hs hname => ?_, fun hν id words hw hred => hkeep hw (h.words hν hw hred)⟩
  obtain ⟨s1, hs1, hname1⟩ := h.name hν hs hname
  exact ⟨s1, hkeep hs hs1, hname1⟩

theorem setSymbol (hs : g.SymbolAt id s) (hname : ν.given → s'.name = s.name ∨ s'.name = ν.name id) :
    Lasts ν g (g.set id (.symbol s')) := by
  refine ⟨fun hν a t ht htn => ?_, fun hν a words hw _ => ?_⟩
  · by_cases ha : a = id
    · subst ha
      cases hs.symm.trans ht
      exact ⟨s', get?_set hs _, (hname hν).elim (fun h => h.trans htn) fun h => h⟩
    · exact ⟨t, by rw [get?_set_other g _ ha, ht], htn⟩
  · rw [get?_set_other g _ ?_, hw]
    rintro rfl
    cases hs.symm.trans hw

theorem setWords {words words'} (hw : g.KeywordsAt id words)
    (hsame : ν.given → reduced words = words → words' = words) : Lasts ν g (g.set id (.keywords words')) := by
  refine ⟨fun hν a t ht htn => ⟨t, ?_, htn⟩, fun hν a words1 hw1 hred => ?_⟩
  · rw [get?_set_other g _ ?_, ht]
    rintro rfl
    cases hw.symm.trans ht
  · by_cases ha : a = id
    · subst ha
      cases hw.symm.trans hw1
      rw [get?_set hw _, hsame hν hred]
    · rw [get?_set_other g _ ha, hw1]

end Lasts

/-- Nothing changes but symbols, modifications and keywords among the first `n`
elements. -/
structure Reworks (ν : Marks) (n : Nat) (g g' : Graph) : Prop where
  size_le : g.size ≤ g'.size
  get? : ∀ {id : Id} {e : Element}, g.get? id = some e → e.isMutable = false ∨ n ≤ id → g'.get? id = some e
  lasts : Lasts ν g g'

namespace Reworks

variable {n : Nat}

theorem of_extends (h : Extends g g') : Reworks ν n g g' :=
  ⟨h.size_le, fun he _ => Extends.get?_some h he, .of_keeps fun he _ => Extends.get?_some h he⟩

theorem refl (ν : Marks) (n : Nat) (g : Graph) : Reworks ν n g g := .of_extends (ExtendsBut.refl g)

theorem trans {g1} (h : Reworks ν n g g1) (h' : Reworks ν n g1 g') : Reworks ν n g g' :=
  ⟨h.size_le.trans h'.size_le, fun he hc => h'.get? (h.get? he hc) hc, h.lasts.trans h'.lasts⟩

theorem keepsTerms (h : Reworks ν n g g') : g.KeepsTerms g' :=
  ⟨h.size_le, fun he hterm => h.get? he (.inl (isMutable_of_isTerm hterm))⟩

theorem setMutable (h : Reworks ν n g g') (hid : id < n) {e} (he : g'.get? id = some e)
    (hm : e.isMutable = true) {e'} (hlasts : Lasts ν g' (g'.set id e')) : Reworks ν n g (g'.set id e') := by
  refine ⟨by rw [size_set]; exact h.size_le, fun {a e1} he1 hc => ?_, h.lasts.trans hlasts⟩
  have hget := h.get? he1 hc
  rw [get?_set_other g' e' ?_, hget]
  rintro rfl
  rcases hc with hc | hc
  · cases hget.symm.trans he
    cases hm.symm.trans hc
  · exact Nat.not_lt.2 hc hid

end Reworks

/-- What flattening an instance leaves of the graph in which the instance
stands. -/
structure Steady (ν : Marks) (g0 g : Graph) : Prop where
  fixes : g0.Fixes g
  modification : ∀ id args, g0.get? id = some (.modification args) →
    g.get? id = some (.modification args) ∨ g.get? id = some (.modification [])
  keywords : ∀ id words, g0.get? id = some (.keywords words) → ∃ words', g.get? id = some (.keywords words') ∧
    (ν.given → words' = words ∨ ν.inner id ∧ words' = reduced words)
  symbol : ∀ id s s', g0.Settles id s s' → ∃ name,
    g.get? id = some (.symbol (s.named name)) ∧ (∀ m ∈ s.modification, g.get? m = g0.get? m) ∨
      g.get? id = some (.symbol (s'.named name))

def modificationOf (g : Graph) (id : Id) : Option Id :=
  match g.get? id with
  | some (.symbol s) => s.modification
  | _ => none

theorem modificationOf_eq (h : g.SymbolAt id s) : g.modificationOf id = s.modification := by
  simp only [modificationOf, h]

/-- No two symbols have the same modification. -/
def Separate (g : Graph) : Prop := ∀ a b m, g.modificationOf a = some m → g.modificationOf b = some m → a = b

instance decidableSeparate (g : Graph) : Decidable g.Separate :=
  decidable_of_iff (∀ a < g.size, ∀ b < g.size, ∀ m ∈ g.modificationOf a, g.modificationOf b = some m → a = b) (by
    have hlt : ∀ {a m}, g.modificationOf a = some m → a < g.size := fun {a m} h => by
      simp only [modificationOf] at h
      split at h
      · next hs => exact get?_lt hs
      · cases h
    exact ⟨fun h a b m ha hb => h a (hlt ha) b (hlt hb) m ha hb, fun h a _ b _ m => h a b m⟩)

namespace Steady

theorem refl (ν : Marks) (g : Graph) : Steady ν g g :=
  ⟨⟨le_rfl, fun he _ => he⟩, fun _ _ h => .inl h, fun _ _ h => ⟨_, h, fun _ => .inl rfl⟩,
    fun _ s _ h => ⟨s.name, .inl ⟨h.1, fun _ _ => rfl⟩⟩⟩

theorem quiet (h : Steady ν g0 g) {d} (ht : g0.Tree (fun _ e => e.isQuiet) d id) :
    g.Tree (fun _ e => e.isQuiet) d id := by
  refine ht.transfer (fun _ => h.fixes.isReference) fun id e d he hq hf hl => ?_
  cases hm : e.isMutable with
  | false => exact ⟨e, h.fixes.get? he hm, hq, fun hr => hf.imp hr, hl⟩
  | true =>
    cases e with
    | symbol s => exact absurd hq.2 (by simp [isSymbol])
    | modification args =>
      rcases h.modification id args he with h' | h'
      · exact ⟨_, h', hq, fun _ => trivial, hl⟩
      · exact ⟨_, h', ⟨rfl, rfl⟩, fun _ => trivial, by simp [links, children]⟩
    | keywords words =>
      obtain ⟨words', h', _⟩ := h.keywords id words he
      exact ⟨_, h', ⟨rfl, rfl⟩, fun _ => trivial, by simp [links, children]⟩
    | _ => simp [isMutable] at hm

theorem settles (h : Steady ν g0 g) (hs : g0.Settles id s s') :
    ∃ name s1, g.Settles id s1 (s'.named name) ∧ (s1 = s.named name ∨ s1 = s'.named name) := by
  obtain ⟨name, ⟨hget, hm⟩ | hget⟩ := h.symbol id s s' hs
  · obtain ⟨_, xs, hx, hscope, rfl⟩ := hs
    refine ⟨name, s.named name, ⟨hget, xs, ?_, hscope, ?_⟩, .inl rfl⟩
    · rcases hx with hx | ⟨m, args, hsm, hargs, hsets⟩
      · exact .inl hx
      · exact .inr ⟨m, args, hsm, (hm m hsm).trans hargs, hsets.imp fun _ _ => h.fixes.sets⟩
    · rw [Symbol.settled, Symbol.settled, Symbol.setAll_named]
      rfl
  · obtain ⟨_, xs, _, _, rfl⟩ := hs
    exact ⟨name, _, ⟨hget, [], .inl ⟨rfl, rfl⟩, by simp, rfl⟩, .inr rfl⟩

theorem elementary (h : Steady ν g0 g) (he : g0.Elementary id s s') :
    ∃ name s1, g.Elementary id s1 (s'.named name) ∧ (s1 = s.named name ∨ s1 = s'.named name) := by
  obtain ⟨name, s1, hs, hcases⟩ := h.settles he.settles
  have hheld : ∀ l ∈ s'.children, g.TermTree g.size l := fun l hl =>
    h.fixes.keepsTerms.termTree (he.held l hl)
  have htype : s1.type = s.type ∧ s1.keywords = s.keywords := by
    rcases hcases with rfl | rfl
    · exact ⟨rfl, rfl⟩
    · exact ⟨he.settles.type, he.settles.keywords⟩
  refine ⟨name, s1, ⟨hs, ?_, ?_, ?_, hheld, ?_⟩, hcases⟩
  · obtain ⟨t, ht, hr⟩ := he.type
    exact ⟨t, htype.1.trans ht, h.fixes.isReference hr⟩
  · obtain ⟨words, hw⟩ := he.keywords
    rw [htype.2]
    exact (h.keywords _ words hw).imp fun _ hw' => hw'.1
  · intro l hl
    rcases hcases with rfl | rfl
    · exact (h.quiet (he.visited l hl)).mono h.fixes.size_le
    · exact (hheld l hl).imp fun _ _ => isQuiet_of_isTerm
  · have hreach : s'.children.flatMap g.reach = s'.children.flatMap g0.reach :=
      flatMap_congr fun l hl => h.fixes.keepsTerms.reach (he.held l hl)
    have hu := he.unshared
    rw [← hreach] at hu
    exact hu

theorem place?_named (s : Symbol) (name : String) (place : Symbol.Place) :
    (s.named name).place? place = s.place? place := by
  cases place with
  | field a => cases a <;> rfl
  | dimension i => rfl

section

variable (h : Steady ν g0 g)

include h

theorem refers (he : g0.Elementary id s s') {place pos r}
    (hr : g0.Refers id place pos r) : g.Refers id place pos r := by
  obtain ⟨t, t', v, a, rs, ht, hv, ha, hc, rfl⟩ := hr
  obtain ⟨rfl, rfl⟩ := he.settles.unique ht
  obtain ⟨name, s1, hs, _⟩ := h.settles ht
  have htree := he.held v (Symbol.mem_children_of_place? hv)
  exact ⟨s1, _, v, a, rs, hs, (place?_named s' name place).trans hv, h.fixes.keepsTerms.outer htree ha,
    h.fixes.keepsTerms.chain hc, rfl⟩

/-! ### Steps that keep it -/

theorem beyond (hg : ExtendsBut (fun id => g0.size ≤ id) g g') : Steady ν g0 g' := by
  have hkeep : ∀ {id : Id} {e0 e : Element}, g0.get? id = some e0 → g.get? id = some e → g'.get? id = some e :=
    fun h0 he => hg.get?_some he (Nat.not_le.2 (get?_lt h0))
  refine ⟨⟨h.fixes.size_le.trans hg.size_le, fun he hm => hkeep he (h.fixes.get? he hm)⟩,
    fun id args he => (h.modification id args he).imp (hkeep he) (hkeep he), fun id words he => ?_,
    fun id s s' hs => ?_⟩
  · obtain ⟨words', h', hcases⟩ := h.keywords id words he
    exact ⟨words', hkeep he h', hcases⟩
  · obtain ⟨name, ⟨hget, hm⟩ | hget⟩ := h.symbol id s s' hs
    · refine ⟨name, .inl ⟨hkeep hs.1 hget, fun m hmem => ?_⟩⟩
      obtain ⟨args, hargs⟩ := hs.modification hmem
      rw [hargs, hkeep hargs ((hm m hmem).trans hargs)]
    · exact ⟨name, .inr (hkeep hs.1 hget)⟩

theorem extend (hg : Extends g g') : Steady ν g0 g' := h.beyond (Extends.but hg)

theorem set (hid : id < g.size) {e'}
    (hfix : ∀ e, g0.get? id = some e → e.isSymbol = true ∨ ∃ words, e = .keywords words)
    (hwords : ∀ words, g0.KeywordsAt id words → ∃ words', e' = .keywords words' ∧
      (ν.given → words' = words ∨ ν.inner id ∧ words' = reduced words))
    (hsymbol : ∀ s s', g0.Settles id s s' → ∃ name,
      e' = .symbol (s.named name) ∧ (∀ m ∈ s.modification, g.get? m = g0.get? m) ∨ e' = .symbol (s'.named name)) :
    Steady ν g0 (g.set id e') := by
  have hself := get?_set_self g e' hid
  have hother : ∀ {a : Id} {e0 e : Element}, g0.get? a = some e0 → (∀ s, e0 ≠ .symbol s) →
      (∀ words, e0 ≠ .keywords words) → g.get? a = some e → (g.set id e').get? a = some e := by
    intro a e0 e h0 hs hw he
    rw [get?_set_other g e' ?_, he]
    rintro rfl
    rcases hfix e0 h0 with hsym | ⟨words, rfl⟩
    · cases e0 with
      | symbol s => exact hs s rfl
      | _ => simp [isSymbol] at hsym
    · exact hw words rfl
  refine ⟨⟨by rw [size_set]; exact h.fixes.size_le, fun he hm => ?_⟩, fun a args he => ?_, fun a words he => ?_,
    fun a s s' hs => ?_⟩
  · exact hother he (by rintro s rfl; cases hm) (by rintro words rfl; cases hm) (h.fixes.get? he hm)
  · exact (h.modification a args he).imp (hother he (by simp) (by simp)) (hother he (by simp) (by simp))
  · by_cases ha : a = id
    · subst ha
      obtain ⟨words', rfl, hcases⟩ := hwords words he
      exact ⟨words', hself, hcases⟩
    · obtain ⟨words', h', hcases⟩ := h.keywords a words he
      exact ⟨words', by rw [get?_set_other g e' ha, h'], hcases⟩
  · have hmods : (∀ m ∈ s.modification, g.get? m = g0.get? m) →
        ∀ m ∈ s.modification, (g.set id e').get? m = g0.get? m := fun hm m hmem => by
      obtain ⟨args, hargs⟩ := hs.modification hmem
      rw [hother hargs (by simp) (by simp) ((hm m hmem).trans hargs), hargs]
    by_cases ha : a = id
    · subst ha
      obtain ⟨name, ⟨rfl, hm⟩ | rfl⟩ := hsymbol s s' hs
      · exact ⟨name, .inl ⟨hself, hmods hm⟩⟩
      · exact ⟨name, .inr hself⟩
    · obtain ⟨name, ⟨hget, hm⟩ | hget⟩ := h.symbol a s s' hs
      · exact ⟨name, .inl ⟨by rw [get?_set_other g e' ha, hget], hmods hm⟩⟩
      · exact ⟨name, .inr (by rw [get?_set_other g e' ha, hget])⟩

theorem setName {s0} (h0 : g0.SymbolAt id s0)
    (hs : g.SymbolAt id s) (name : String) : Steady ν g0 (g.set id (.symbol (s.named name))) := by
  refine h.set (get?_lt hs) (fun e he => ?_) (fun words he => ?_) fun s1 s1' hs1 => ?_
  · cases h0.symm.trans he
    exact .inl rfl
  · cases h0.symm.trans he
  · obtain ⟨name1, ⟨hget, hm⟩ | hget⟩ := h.symbol id s1 s1' hs1
    · cases hs.symm.trans hget
      exact ⟨name, .inl ⟨rfl, hm⟩⟩
    · cases hs.symm.trans hget
      exact ⟨name, .inr rfl⟩

theorem setWords {words0 words} (h0 : g0.KeywordsAt id words0)
    (hwords : ν.given → words = words0 ∨ ν.inner id ∧ words = reduced words0) :
    Steady ν g0 (g.set id (.keywords words)) := by
  refine h.set ((get?_lt h0).trans_le h.fixes.size_le) (fun e he => ?_) (fun words' he => ?_)
    fun s1 s1' hs1 => ?_
  · cases h0.symm.trans he
    exact .inr ⟨words0, rfl⟩
  · cases h0.symm.trans he
    exact ⟨words, rfl, hwords⟩
  · have hs := hs1.1
    cases h0.symm.trans hs

theorem settle (hsep : g0.Separate) {s0 s0'} (h0 : g0.Settles id s0 s0') {name}
    (hg : KeepsBut (fun a => a = id ∨ s0.modification = some a) isMutable g g')
    (hs : g'.SymbolAt id (s0'.named name))
    (hm : ∀ m ∈ s0.modification, g'.get? m = some (.modification [])) : Steady ν g0 g' := by
  have hother : ∀ {a : Id} {e0 e : Element}, g0.get? a = some e0 → a ≠ id → s0.modification ≠ some a →
      g.get? a = some e → g'.get? a = some e := fun _ hne hnm he =>
    hg.base.get?_some he fun hc => hc.elim hne hnm
  refine ⟨⟨h.fixes.size_le.trans hg.base.size_le, fun he hmut => hg.get? (h.fixes.get? he hmut) hmut⟩,
    fun a args he => ?_, fun a words he => ?_, fun a s s' hsa => ?_⟩
  · have hne : a ≠ id := by
      rintro rfl
      cases h0.1.symm.trans he
    by_cases hma : s0.modification = some a
    · exact .inr (hm a hma)
    · exact (h.modification a args he).imp (hother he hne hma) (hother he hne hma)
  · have hne : a ≠ id := by
      rintro rfl
      cases h0.1.symm.trans he
    obtain ⟨words', hw, hcases⟩ := h.keywords a words he
    refine ⟨words', hother he hne (fun hma => ?_) hw, hcases⟩
    obtain ⟨args, hargs⟩ := h0.modification hma
    cases hargs.symm.trans he
  · by_cases ha : a = id
    · subst ha
      obtain ⟨rfl, rfl⟩ := h0.unique hsa
      exact ⟨name, .inr hs⟩
    · have hna : s0.modification ≠ some a := fun hma => by
        obtain ⟨args, hargs⟩ := h0.modification hma
        have hget := hsa.1
        cases hargs.symm.trans hget
      obtain ⟨name', ⟨hget, hms⟩ | hget⟩ := h.symbol a s s' hsa
      · refine ⟨name', .inl ⟨hother hsa.1 ha hna hget, fun m hmem => ?_⟩⟩
        obtain ⟨args, hargs⟩ := hsa.modification hmem
        have hnm : s0.modification ≠ some m := fun hma =>
          ha (hsep a id m ((modificationOf_eq hsa.1).trans hmem) ((modificationOf_eq h0.1).trans hma))
        rw [hother hargs ?_ hnm ((hms m hmem).trans hargs), hargs]
        rintro rfl
        cases h0.1.symm.trans hargs
      · exact ⟨name', .inr (hother hsa.1 ha hna hget)⟩

end

end Steady

/-! ### Symbols whose arguments have been applied -/

theorem keywords_tree (hw : g.KeywordsAt id words) (p : Id → Element → Prop)
    (hp : ∀ id words, p id (.keywords words)) : g.Tree p 1 id :=
  ⟨_, hw, hp _ _, trivial, by simp [links, children]⟩

theorem symbol_tree {p q : Id → Element → Prop} (hs : g.SymbolAt id s) (hw : ∃ words, g.KeywordsAt s.keywords words)
    (hl : ∀ l ∈ s.children, g.Tree p g.size l) (hpq : ∀ id e, p id e → q id e) (hq : q id (.symbol s))
    (hwords : ∀ id words, q id (.keywords words)) : g.Tree q g.size id := by
  obtain ⟨words, hw⟩ := hw
  refine Tree.join hs hq trivial fun l hmem => ?_
  rcases mem_cons.1 hmem with rfl | hmem
  · exact (keywords_tree hw q hwords).bounded
  · exact (hl l hmem).imp hpq

theorem reach_symbol (hs : g.SymbolAt id s) (hw : ∃ words, g.KeywordsAt s.keywords words)
    (hl : ∀ l ∈ s.children, g.TermTree g.size l) : g.reach id = id :: s.keywords :: s.children.flatMap g.reach := by
  have htree := symbol_tree hs hw hl (q := fun _ _ => True) (fun _ _ _ => trivial) trivial fun _ _ => trivial
  obtain ⟨words, hw⟩ := hw
  have hlinks : (symbol s).links = s.keywords :: s.children := rfl
  rw [reach_eq htree hs, hlinks, flatMap_cons, reach_eq (keywords_tree hw (fun _ _ => True) fun _ _ => trivial) hw]
  rfl

/-- A symbol of elementary type without arguments. -/
structure Settled (g : Graph) (id : Id) (s : Symbol) : Prop where
  get? : g.get? id = some (.symbol s)
  modification : s.modification = none
  type : ∃ t, s.type = .node t ∧ g.IsReference t
  keywords : ∃ words, g.get? s.keywords = some (.keywords words)
  held : ∀ l ∈ s.children, g.TermTree g.size l
  unshared : (s.keywords :: s.children.flatMap g.reach).Nodup

theorem Elementary.settled (h : g.Elementary id s s') (hm : s.modification = none) : g.Settled id s := by
  obtain ⟨hget, xs, ⟨_, rfl⟩ | ⟨m, _, hsm, _⟩, _, rfl⟩ := h.settles
  · have hsame := Symbol.settled_nil hm
    have hheld := h.held
    have hunshared := h.unshared
    rw [hsame] at hheld hunshared
    exact ⟨hget, hm, h.type, h.keywords, hheld, hunshared⟩
  · cases hm.symm.trans hsm

namespace Settled

variable {place : Symbol.Place} {pos : List Nat} {r : String}

section

variable (h : g.Settled id s)

include h

theorem settles : g.Settles id s s :=
  ⟨h.get?, [], .inl ⟨h.modification, rfl⟩, by simp, (Symbol.settled_nil h.modification).symm⟩

theorem refers_iff :
    g.Refers id place pos r ↔ ∃ v a rs, s.place? place = some (.node v) ∧ g.Outer v pos a ∧ g.Chain a rs ∧
      dotted rs = r := by
  constructor
  · rintro ⟨t, t', v, a, rs, ht, hv, ha, hc, hr⟩
    obtain ⟨rfl, rfl⟩ := h.settles.unique ht
    exact ⟨v, a, rs, hv, ha, hc, hr⟩
  · rintro ⟨v, a, rs, hv, ha, hc, hr⟩
    exact ⟨s, s, v, a, rs, h.settles, hv, ha, hc, hr⟩

theorem tree : g.Tree (fun _ e => e.hasSource = false) g.size id :=
  symbol_tree h.get? h.keywords h.held (fun _ _ => hasSource_of_isTerm) rfl fun _ _ => rfl

theorem reach : g.reach id = id :: s.keywords :: s.children.flatMap g.reach :=
  reach_symbol h.get? h.keywords h.held

theorem isTerm_of_mem {a} (ha : a ∈ s.children.flatMap g.reach) : ∃ e, g.get? a = some e ∧ e.isTerm = true := by
  obtain ⟨l, hl, ha⟩ := mem_flatMap.1 ha
  obtain ⟨d, _, ht⟩ := tree_of_mem_reach (h.held l hl) ha
  obtain ⟨e, he⟩ := ht.get?
  exact ⟨e, he, (ht.element he).1⟩

theorem unshared_reach : g.Unshared id := by
  rw [Unshared, h.reach]
  refine nodup_cons.2 ⟨fun hmem => ?_, h.unshared⟩
  obtain ⟨words, hw⟩ := h.keywords
  rcases mem_cons.1 hmem with hid | hmem
  · have hget := h.get?
    rw [hid, hw] at hget
    cases hget
  · obtain ⟨e, he, hterm⟩ := h.isTerm_of_mem hmem
    rw [h.get?] at he
    cases he
    simp [isTerm] at hterm

variable (hg : g.KeepsTerms g')

include hg

theorem refers_of (h' : g'.Settled id s') (hplace : ∀ v, s.place? place = some v → s'.place? place = some v)
    (hr : g.Refers id place pos r) : g'.Refers id place pos r := by
  obtain ⟨v, a, rs, hv, ha, hc, rfl⟩ := h.refers_iff.1 hr
  have htree := h.held v (Symbol.mem_children_of_place? hv)
  exact h'.refers_iff.2 ⟨v, a, rs, hplace _ hv, hg.outer htree ha, hg.chain hc, rfl⟩

theorem keep (hid : g'.get? id = g.get? id) (hw : g'.get? s.keywords = g.get? s.keywords) : g'.Settled id s where
  get? := hid.trans h.get?
  modification := h.modification
  type := by
    obtain ⟨t, ht, hr⟩ := h.type
    exact ⟨t, ht, hg.isReference hr⟩
  keywords := by
    obtain ⟨words, hwords⟩ := h.keywords
    exact ⟨words, hw.trans hwords⟩
  held l hl := hg.termTree (h.held l hl)
  unshared := by
    rw [flatMap_congr fun l hl => hg.reach (h.held l hl)]
    exact h.unshared

end

end Settled

/-! ### What a flat symbol shows -/

/-- The size that a dimension gives as a number. -/
def extent? (g : Graph) : Value → Option Int
  | .node id =>
    match g.get? id with
    | some (.primary (.int i)) => some i
    | _ => none
  | _ => none

def extents (g : Graph) (rows : List (List Value)) : List (List (Option Int)) := rows.map (·.map g.extent?)

/-- The name of a symbol, its keywords and the sizes of its dimensions. -/
def Shows (g : Graph) (id : Id) (name : String) (words : List String) (sizes : List (List (Option Int))) : Prop :=
  ∃ s, g.get? id = some (.symbol s) ∧ s.name = name ∧ g.get? s.keywords = some (.keywords words) ∧
    g.extents s.dimensions = sizes

theorem extents_congr {f} (h : ∀ row ∈ rows, ∀ v ∈ row, g'.extent? (f v) = g.extent? v) :
    g'.extents (rows.map (·.map f)) = g.extents rows := by
  simp only [extents, map_map]
  refine map_congr_left fun row hrow => ?_
  simp only [Function.comp, map_map]
  exact map_congr_left fun v hv => h row hrow v hv

theorem nodes_subset_nodesOfRows {row} (hrow : row ∈ rows) {v} (hv : v ∈ row) :
    v.nodes ⊆ Value.nodesOfRows rows := fun _ ha =>
  mem_flatMap.2 ⟨row, hrow, Symbol.nodes_subset_nodesAll hv ha⟩

theorem KeepsTerms.extents (h : g.KeepsTerms g') (hheld : ∀ l ∈ Value.nodesOfRows rows, g.TermTree g.size l) :
    g'.extents rows = g.extents rows := by
  have hsame : ∀ row ∈ rows, ∀ v ∈ row, g'.extent? v = g.extent? v := fun row hrow v hv => by
    cases v with
    | node id =>
      have ht := hheld id (nodes_subset_nodesOfRows hrow hv (.head _))
      obtain ⟨e, he⟩ := ht.get?
      simp only [extent?, he, h.get? he (ht.element he).1]
    | _ => rfl
  simpa using extents_congr (f := fun v => v) hsame

theorem FlatCopy.extents {found stem φ} (h : g.FlatCopy found stem id φ g')
    {p d} (ht : g.Tree p d id) (hrows : ∀ l ∈ Value.nodesOfRows rows, l ∈ g.reach id) :
    g'.extents (rows.map (Value.renameAll φ)) = g.extents rows := by
  have hrename : Value.renameAll φ = (·.map (Value.rename φ)) := funext fun row => Value.renameAll_eq_map φ row
  rw [hrename]
  refine extents_congr fun row hrow v hv => ?_
  cases v with
  | node a =>
    have ha := hrows a (nodes_subset_nodesOfRows hrow hv (.head _))
    obtain ⟨_, _, hta⟩ := tree_of_mem_reach ht ha
    obtain ⟨e, he⟩ := hta.get?
    cases e with
    | reference r =>
      obtain ⟨r', hr'⟩ := h.isReference ha ⟨r, he⟩
      simp only [extent?, Value.rename, he, hr']
    | primary v =>
      simp only [extent?, Value.rename, he, h.get?_of_isReference ha he rfl, rename]
      cases v <;> rfl
    | _ => simp only [extent?, Value.rename, he, h.get?_of_isReference ha he rfl, rename]
  | _ => rfl

theorem Shows.keep {name sizes} (h : g.Shows id name words sizes) (hs : g.Settled id s) (hg : g.KeepsTerms g')
    (hid : g'.get? id = g.get? id) (hw : g'.get? s.keywords = g.get? s.keywords) : g'.Shows id name words sizes := by
  obtain ⟨t, ht, hname, hwords, hsizes⟩ := h
  rw [hs.get?] at ht
  cases ht
  refine ⟨s, hid.trans hs.get?, hname, hw.trans hwords, ?_⟩
  rw [hg.extents fun l hl => hs.held l (by simp [Symbol.children, hl]), hsizes]

end Graph

/-- The name by which a class knows what a reference denotes: that of a symbol
behind the prefix, if there is one. -/
def ClassDef.lookUp (k : ClassDef) (stem r : String) : String :=
  if k.symbols.contains (stem ++ r) then stem ++ r else r

namespace Build

open Modelica.Graph

variable {g : Graph} {id : Id} {s : Symbol}

theorem flattenReferences_settled {container k} (hk : g.ClassAt container k) (stem : String) (hs : g.Settled id s) :
    Runs (flattenReferences container stem id) g fun new g' => Extends g g' ∧
      (∃ s', g'.Settled new s') ∧ (∀ a ∈ g'.reach new, g.size ≤ a) ∧
      (∀ place pos r, g.Refers id place pos r → g'.Refers new place pos (k.lookUp stem r)) ∧
      ∀ name words sizes, g.Shows id name words sizes → g'.Shows new name words sizes := by
  refine (flattenReferences_exact (fun _ _ he => he) hk stem hs.tree hs.unshared_reach).imp ?_
  rintro new g' ⟨φ, rfl, hcopy⟩
  have hself := self_mem_reach hs.tree
  have hlink : ∀ l ∈ (symbol s).links, g.reach l ⊆ g.reach id := fun l hl => reach_link hs.tree hs.get? hl
  have hmem : ∀ l ∈ s.children, l ∈ g.reach id := fun l hl =>
    hlink l (.tail _ hl) (self_mem_reach (hs.held l hl))
  have hget : g'.SymbolAt (φ id) (s.rename φ) := hcopy.get?_of_isReference hself hs.get? rfl
  have hchildren : (s.rename φ).children = s.children.map φ := children_rename φ (e := .symbol s) rfl
  have hreach : (g'.reach (φ id)).Sublist ((g.reach id).map φ) :=
    (hcopy.tree_reach (q := fun _ => True) (fun _ _ he => he) (fun _ _ _ => trivial) (fun _ => trivial) hs.tree hself
      hs.tree).2
  have hwords : ∀ words, g.KeywordsAt s.keywords words →
      g'.KeywordsAt (s.rename φ).keywords words := fun words hw => by
    refine hcopy.get?_of_isReference (hlink _ (.head _) ?_) hw rfl
    exact self_mem_reach (keywords_tree hw (fun _ _ => True) fun _ _ => trivial)
  have hkeywords : ∃ words, g'.KeywordsAt (s.rename φ).keywords words := hs.keywords.imp hwords
  have hheld : ∀ l ∈ (s.rename φ).children, g'.TermTree g'.size l := by
    rw [hchildren]
    refine forall_mem_map.2 fun l hl => ?_
    refine (hcopy.tree_reach (q := fun e => e.isTerm = true) (fun _ _ => hasSource_of_isTerm)
      (fun _ e he => ?_) (fun _ => rfl) hs.tree (hmem l hl) (hs.held l hl)).1.bounded
    rw [isTerm_rename]
    exact he
  have hsettled : g'.Settled (φ id) (s.rename φ) := by
    refine ⟨hget, by simp [Symbol.rename, hs.modification], ?_, hkeywords, hheld, ?_⟩
    · obtain ⟨t, ht, hr⟩ := hs.type
      have hchild : t ∈ s.children := by simp [Symbol.children, ht, Value.nodes]
      exact ⟨φ t, by simp only [Symbol.rename, ht, Value.rename], hcopy.isReference (hmem t hchild) hr⟩
    · have hu := hcopy.unshared (fun _ _ he => he) hs.tree hs.unshared_reach
      rw [Unshared, reach_symbol hget hkeywords hheld] at hu
      exact (nodup_cons.1 hu).2
  refine ⟨hcopy.base, ⟨_, hsettled⟩, fun a ha => ?_, fun place pos r hr => ?_, fun name words sizes hshows => ?_⟩
  · obtain ⟨b, hb, rfl⟩ := mem_map.1 (hreach.subset ha)
    exact hcopy.fresh b hb
  · obtain ⟨v, a, rs, hv, ha, hc, rfl⟩ := hs.refers_iff.1 hr
    have hchild := Symbol.mem_children_of_place? hv
    obtain ⟨i, hi⟩ := mem_iff_getElem?.1 hchild
    obtain ⟨rs', hc', hname⟩ := hcopy.outer_chain hs.tree hs.unshared_reach (.part hs.get? rfl rfl hi ha) hc
    refine hsettled.refers_iff.2 ⟨φ v, φ a, rs', ?_, ?_, hc', hname⟩
    · rw [Symbol.place?_rename, hv]
      rfl
    · exact hcopy.outer (fun _ _ he => he) hs.tree (hmem v hchild)
        ((hs.held v hchild).imp fun _ _ => hasSource_of_isTerm) ha
  · obtain ⟨t, ht, hname, hw, hsizes⟩ := hshows
    rw [hs.get?] at ht
    cases ht
    refine ⟨_, hget, hname, hwords words hw, ?_⟩
    exact (hcopy.extents hs.tree fun l hl => hmem l (by simp [Symbol.children, hl])).trans hsizes

end Build
end Modelica
