/-
Parts of a graph that hang together like a tree.

`Tree p g d id` says that what is reached from `id` exists, has the property
`p` element by element, and is left behind after at most `d` links. Two ways
may lead to one element, but no way leads back. `Chain` lists the parts of a
dotted reference, and `ends_path` says that `path` reads them.
-/
import Modelica.Flat
import Modelica.Proofs.Graph.Steps
import Mathlib.Data.List.Perm.Subperm

namespace Modelica

open List Element

/-- The elements that are copied together with an element: those it holds,
and the keywords it may share with others. -/
def Element.links : Element → List Id
  | .symbol s => s.keywords :: s.children
  | .clause c => c.keywords :: (clause c).children
  | e => e.children

theorem Element.mem_links_of_mem_children {e : Element} {id} (h : id ∈ e.children) : id ∈ e.links := by
  cases e with
  | symbol s => exact .tail _ h
  | clause c => exact .tail _ h
  | _ => exact h

theorem Element.links_eq (e : Element) : ∃ ids, e.links = ids ++ e.children := by
  cases e with
  | symbol s => exact ⟨[s.keywords], rfl⟩
  | clause c => exact ⟨[c.keywords], rfl⟩
  | _ => exact ⟨[], rfl⟩

def Element.isClass : Element → Bool
  | .classDef _ => true
  | _ => false

namespace Graph

def IsReference (g : Graph) (id : Id) : Prop := ∃ r, g.get? id = some (.reference r)

/-- Where a reference has to stand there is one. -/
def Formed (g : Graph) : Element → Prop
  | .reference r => ∀ c ∈ r.child, g.IsReference c
  | .connect l r _ _ _ => g.IsReference l ∧ g.IsReference r
  | _ => True

/-- What is reached from an element in at most `d` steps has the property `p`
element by element, and nothing else is reached. -/
def Tree (p : Id → Element → Prop) (g : Graph) : Nat → Id → Prop
  | 0, _ => False
  | d + 1, id => ∃ e, g.get? id = some e ∧ p id e ∧ g.Formed e ∧ ∀ l ∈ e.links, Tree p g d l

instance decidableIsReference (g : Graph) (id : Id) : Decidable (g.IsReference id) :=
  decidable_of_iff ((g.get? id).any (· matches .reference _) = true) (by
    simp only [Option.any_eq_true, IsReference]
    constructor
    · rintro ⟨e, he, hr⟩
      cases e with
      | reference r => exact ⟨r, he⟩
      | _ => cases hr
    · rintro ⟨r, hr⟩
      exact ⟨_, hr, rfl⟩)

/-- Where a reference has to stand. -/
def referencesIn : Element → List Id
  | .reference r => r.child
  | .connect l r _ _ _ => [l, r]
  | _ => []

instance decidableFormed (g : Graph) (e : Element) : Decidable (g.Formed e) :=
  decidable_of_iff (∀ c ∈ referencesIn e, g.IsReference c) (by cases e <;> simp [Formed, referencesIn])

instance decidableTree (p : Id → Element → Prop) [∀ id e, Decidable (p id e)] (g : Graph) : (d : Nat) → (id : Id) →
    Decidable (Tree p g d id)
  | 0, _ => isFalse id
  | d + 1, id =>
    match h : g.get? id with
    | none => isFalse (by
        rintro ⟨e, he, _⟩
        rw [h] at he
        cases he)
    | some e =>
      have := decidableTree p g d
      decidable_of_iff (p id e ∧ g.Formed e ∧ ∀ l ∈ e.links, Tree p g d l) (by
        constructor
        · exact fun he => ⟨e, h, he⟩
        · rintro ⟨e', he', hrest⟩
          cases h.symm.trans he'
          exact hrest)

variable {p q : Id → Element → Prop} {g g' : Graph} {d : Nat} {id : Id}

variable {e : Element} {rs : List Reference} {r : Reference} {c : ClassDef}

theorem IsReference.extends (h : g.IsReference id) (hg : Extends g g') : g'.IsReference id := by
  obtain ⟨r, hr⟩ := h
  exact ⟨r, Extends.get?_some hg hr⟩

namespace Tree

variable (h : Tree p g d id)

include h

theorem pos : 0 < d := by
  cases d with
  | zero => exact h.elim
  | succ d => exact Nat.succ_pos d

theorem element {e} (he : g.get? id = some e) : p id e ∧ g.Formed e ∧ ∀ l ∈ e.links, Tree p g (d - 1) l := by
  cases d with
  | zero => exact h.elim
  | succ d =>
    obtain ⟨e', he', h⟩ := h
    cases he.symm.trans he'
    exact h

theorem get? : ∃ e, g.get? id = some e := by
  cases d with
  | zero => exact h.elim
  | succ d =>
    obtain ⟨e, he, _⟩ := h
    exact ⟨e, he⟩

theorem mono {d'} (hd : d ≤ d') : Tree p g d' id := by
  induction d generalizing d' id with
  | zero => exact h.elim
  | succ d ih =>
    obtain ⟨e, he, hp, hf, hl⟩ := h
    obtain ⟨d', rfl⟩ : ∃ k, d' = k + 1 := ⟨d' - 1, by omega⟩
    exact ⟨e, he, hp, hf, fun l hmem => ih (hl l hmem) (by omega)⟩

/-- A tree stays one when references stay references and each of its elements
keeps what is asked of it and leads to trees only. -/
theorem transfer (hr : ∀ id, g.IsReference id → g'.IsReference id)
    (he : ∀ id e d, g.get? id = some e → p id e → g.Formed e → (∀ l ∈ e.links, Tree p g d l) →
      ∃ e', g'.get? id = some e' ∧ q id e' ∧ ((∀ id, g.IsReference id → g'.IsReference id) → g'.Formed e') ∧
        ∀ l ∈ e'.links, Tree p g d l) : Tree q g' d id := by
  induction d generalizing id with
  | zero => exact h.elim
  | succ d ih =>
    obtain ⟨e, hget, hp, hf, hl⟩ := h
    obtain ⟨e', hget', hq, hf', hl'⟩ := he id e d hget hp hf hl
    exact ⟨e', hget', hq, hf' hr, fun l hmem => ih (hl' l hmem)⟩

end Tree

theorem Formed.imp (h : g.Formed e) (hr : ∀ id, g.IsReference id → g'.IsReference id) : g'.Formed e := by
  cases e with
  | reference r => exact fun c hc => hr c (h c hc)
  | connect l r c li ri => exact ⟨hr l h.1, hr r h.2⟩
  | _ => trivial

theorem Tree.unchanged (h : Tree p g d id) (hr : ∀ id, g.IsReference id → g'.IsReference id)
    (he : ∀ id e, g.get? id = some e → p id e → g'.get? id = some e ∧ q id e) : Tree q g' d id :=
  h.transfer hr fun id e _ hget hp hf hl =>
    ⟨e, (he id e hget hp).1, (he id e hget hp).2, fun hr => hf.imp hr, hl⟩

theorem Tree.extends (h : Tree p g d id) (hg : Extends g g') : Tree p g' d id :=
  h.unchanged (fun _ hr => hr.extends hg) fun _ _ hget hp => ⟨Extends.get?_some hg hget, hp⟩

theorem Tree.imp (h : Tree p g d id) (hpq : ∀ id e, p id e → q id e) : Tree q g d id :=
  h.unchanged (fun _ hr => hr) fun id e hget hp => ⟨hget, hpq id e hp⟩

/-- The way that takes longest leads through elements of which each is left
behind later than the next. -/
theorem Tree.longest (h : Tree p g (d + 1) id) (hd : ¬ Tree p g d id) :
    ∃ ids : List Id, ids.length = d + 1 ∧ ids.Nodup ∧ ∀ a ∈ ids, Tree p g (d + 1) a := by
  induction d generalizing id with
  | zero => exact ⟨[id], rfl, by simp, fun a ha => by rwa [mem_singleton.1 ha]⟩
  | succ d ih =>
    obtain ⟨e, he, hp, hf, hl⟩ := h
    obtain ⟨l, hmem, hlast⟩ : ∃ l ∈ e.links, ¬ Tree p g d l := by
      by_contra hall
      exact hd ⟨e, he, hp, hf, fun l hmem => Classical.byContradiction fun hnot => hall ⟨l, hmem, hnot⟩⟩
    obtain ⟨ids, hlen, hnodup, htree⟩ := ih (hl l hmem) hlast
    refine ⟨id :: ids, by simp [hlen], nodup_cons.2 ⟨fun hid => hd (htree id hid), hnodup⟩, fun a ha => ?_⟩
    rcases mem_cons.1 ha with rfl | ha
    · exact ⟨e, he, hp, hf, hl⟩
    · exact (htree a ha).mono (Nat.le_succ _)

theorem Tree.bounded (h : Tree p g d id) : Tree p g g.size id := by
  induction d with
  | zero => exact h.elim
  | succ d ih =>
    by_cases hd : Tree p g d id
    · exact ih hd
    · obtain ⟨ids, hlen, hnodup, htree⟩ := h.longest hd
      have hsub : ids ⊆ range g.size := fun a ha => by
        obtain ⟨e, he⟩ := (htree a ha).get?
        exact mem_range.2 (get?_lt he)
      have hle := (subperm_of_subset hnodup hsub).length_le
      rw [hlen, length_range] at hle
      exact h.mono hle

theorem Tree.join (he : g.get? id = some e) (hp : p id e) (hf : g.Formed e)
    (hl : ∀ l ∈ e.links, Tree p g g.size l) : Tree p g g.size id :=
  Tree.bounded (d := g.size + 1) ⟨e, he, hp, hf, hl⟩

/-! ### Dotted references -/

/-- The parts of a dotted reference. -/
def Chain (g : Graph) : Id → List Reference → Prop
  | _, [] => False
  | id, r :: rest =>
    g.get? id = some (.reference r) ∧
      match r.child with
      | [] => rest = []
      | c :: _ => Chain g c rest

theorem Tree.chain (h : Tree p g d id) (hr : g.IsReference id) : ∃ rs, g.Chain id rs ∧ rs.length ≤ d := by
  induction d generalizing id with
  | zero => exact h.elim
  | succ d ih =>
    obtain ⟨r, hr⟩ := hr
    obtain ⟨_, hf, hl⟩ := h.element hr
    cases hc : r.child with
    | nil => exact ⟨[r], ⟨hr, by simp [hc]⟩, by simp⟩
    | cons c rest =>
      have hmem : c ∈ r.child := by simp [hc]
      have hlink : c ∈ (reference r).links := by
        simp only [links, children, mem_append]
        exact .inr hmem
      obtain ⟨rs, hrs, hlen⟩ := ih (hl c hlink) (hf c hmem)
      exact ⟨r :: rs, ⟨hr, by simpa [hc] using hrs⟩, by simpa using hlen⟩

section

variable (h : g.Chain id rs)

include h

theorem Chain.isReference : g.IsReference id := by
  cases rs with
  | nil => exact h.elim
  | cons r rest => exact ⟨r, h.1⟩

theorem Chain.head (hr : g.ReferenceAt id r) : ∃ rest, rs = r :: rest := by
  cases rs with
  | nil => exact h.elim
  | cons r' rest =>
    obtain ⟨hr', _⟩ := h
    cases hr.symm.trans hr'
    exact ⟨rest, rfl⟩

theorem Chain.unique {rs'} (h' : g.Chain id rs') : rs = rs' := by
  induction rs generalizing id rs' with
  | nil => exact h.elim
  | cons r rest ih =>
    obtain ⟨rest', rfl⟩ := h'.head h.1
    obtain ⟨_, h⟩ := h
    obtain ⟨_, h'⟩ := h'
    cases hc : r.child with
    | nil =>
      simp only [hc] at h h'
      rw [h, h']
    | cons c cs =>
      simp only [hc] at h h'
      rw [ih h h']

theorem Chain.imp (hg : ∀ a r, g.ReferenceAt a r → g'.ReferenceAt a r) : g'.Chain id rs := by
  induction rs generalizing id with
  | nil => exact h
  | cons r rest ih =>
    obtain ⟨hr, hnext⟩ := h
    refine ⟨hg id r hr, ?_⟩
    cases hc : r.child with
    | nil => simpa [hc] using hnext
    | cons c cs =>
      simp only [hc] at hnext ⊢
      exact ih hnext

theorem Chain.second (hr : g.ReferenceAt id r) (hc : r.child ≠ []) : ∃ r' rest, rs = r :: r' :: rest := by
  obtain ⟨rest, rfl⟩ := h.head hr
  cases hchild : r.child with
  | nil => exact absurd hchild hc
  | cons c cs =>
    have h' : g.Chain c rest := by simpa [Chain, hr, hchild] using h
    cases rest with
    | nil => exact h'.elim
    | cons r' rest => exact ⟨r', rest, rfl⟩

end

/-! ### Changing elements of one kind -/

/-- Everything is kept but for some elements, all of one kind, which is not that
of references. -/
structure KeepsBut (changed : Id → Prop) (kind : Element → Bool) (g g' : Graph) : Prop where
  base : ExtendsBut changed g g'
  ofKind : ∀ id e, changed id → g.get? id = some e → kind e = true
  references : ∀ r, kind (.reference r) = false

namespace KeepsBut

variable {changed : Id → Prop} {kind : Element → Bool} (h : KeepsBut changed kind g g')

include h

theorem get? {e} (he : g.get? id = some e) (hc : kind e = false) : g'.get? id = some e := by
  refine h.base.get?_some he fun hid => ?_
  rw [h.ofKind id e hid he] at hc
  cases hc

theorem isReference (hr : g.IsReference id) : g'.IsReference id := by
  obtain ⟨r, hr⟩ := hr
  exact ⟨r, h.get? hr (h.references r)⟩

theorem tree (hp : ∀ id e, p id e → kind e = false) (ht : g.Tree p d id) : g'.Tree p d id :=
  ht.unchanged (fun _ => h.isReference) fun id e he hpe => ⟨h.get? he (hp id e hpe), hpe⟩

theorem chain {rs} (hrs : g.Chain id rs) : g'.Chain id rs := hrs.imp fun _ r hr => h.get? hr (h.references r)

end KeepsBut

/-- Everything is kept but for one class. -/
abbrev KeepsBesides (cls : Id) (g g' : Graph) : Prop := KeepsBut (· = cls) isClass g g'

theorem ExtendsBut.keepsBesides {cls} (h : ExtendsBut (· = cls) g g') (hc : g.ClassAt cls c) :
    KeepsBesides cls g g' := by
  refine ⟨h, fun id e hid he => ?_, fun _ => rfl⟩
  rw [hid, hc] at he
  cases he
  rfl

theorem KeepsBesides.set {cls} (h : g.ClassAt cls c) (c' : ClassDef) :
    KeepsBesides cls g (g.set cls (.classDef c')) :=
  ((ExtendsBut.refl (p := (· = cls)) g).set (.inl rfl) _).keepsBesides h

theorem Extends.keepsBut (h : Extends g g') {kind} (hr : ∀ r, kind (.reference r) = false) :
    KeepsBut (fun _ => False) kind g g' := ⟨h, fun _ _ => False.elim, hr⟩

theorem Extends.keeps (h : Extends g g') : KeepsBut (fun _ => False) isClass g g' :=
  Extends.keepsBut h fun _ => rfl

end Graph

namespace Build

variable {g : Graph} {id : Id} {F : Fault → Graph → Prop}

variable {rs : List Reference} {Q : List String → Graph → Prop}

theorem ends_pathTo (h : g.Chain id rs) {n} (hn : rs.length ≤ n) :
    Ends (pathTo n id) g Q F ↔ Q (rs.map (·.name)) g := by
  induction rs generalizing id n Q with
  | nil => exact h.elim
  | cons r rest ih =>
    obtain _ | n := n
    · simp at hn
    obtain ⟨hr, h⟩ := h
    simp only [pathTo, ends_bind, ends_referenceAt hr]
    cases hc : r.child with
    | nil =>
      obtain rfl : rest = [] := by simpa [hc] using h
      exact ends_pure
    | cons c cs =>
      simp only [hc] at h
      simp [ih h (by simpa using hn)]

theorem ends_path (h : g.Chain id rs) (hn : rs.length ≤ g.size) : Ends (path id) g Q F ↔ Q (rs.map (·.name)) g := by
  simp [path, ends_pathTo h (Nat.le_succ_of_le hn)]

end Build

theorem ReferenceSearch.ends_laterIndices {g id r rest} (h : g.Chain id (r :: rest)) {n} (hn : rest.length < n) {F Q} :
    Build.Ends (laterIndices n r.child) g Q F ↔ Q (rest.flatMap (·.indices)) g := by
  induction rest generalizing id r n Q with
  | nil =>
    obtain _ | n := n
    · simp at hn
    cases hc : r.child with
    | nil => exact Build.ends_pure
    | cons c cs => simp [Graph.Chain, hc] at h
  | cons r' rest ih =>
    obtain _ | n := n
    · omega
    obtain ⟨_, h⟩ := h
    cases hc : r.child with
    | nil => simp [hc] at h
    | cons c cs =>
      simp only [hc] at h
      simp [laterIndices, Build.ends_referenceAt h.1, ih h (by simpa using hn)]

end Modelica
