/-
What is reached from an element.

`reach g id` lists the elements that hang at `id`, itself first, each as often
as a way leads to it. Where none is listed twice (`Unshared`), what hangs at
two links of an element has nothing in common, so that a change at one of them
is not seen at the other.
-/
import Modelica.Proofs.Graph.Copy
import Mathlib.Data.List.Nodup
import Mathlib.Data.List.Pairwise

namespace Modelica.Graph

open List Element

def linksOf (g : Graph) (id : Id) : List Id := ((g.get? id).map links).getD []

/-- What is reached in at most `n` steps. -/
def reachTo (g : Graph) : Nat → Id → List Id
  | 0, _ => []
  | n + 1, id => id :: (g.linksOf id).flatMap (reachTo g n)

def reach (g : Graph) (id : Id) : List Id := g.reachTo g.size id

/-- No element is reached on two ways. -/
def Unshared (g : Graph) (id : Id) : Prop := (g.reach id).Nodup

instance (g : Graph) (id : Id) : Decidable (g.Unshared id) := inferInstanceAs (Decidable (List.Nodup _))

variable {p q : Id → Element → Prop} {g g' : Graph} {d n : Nat} {id a : Id} {e : Element}

variable {rs : List Reference}

theorem linksOf_eq (he : g.get? id = some e) : g.linksOf id = e.links := by
  simp [linksOf, he]

section

variable (h : g.Tree p d id)

include h

theorem reachTo_of_le (hn : d ≤ n) : g.reachTo n id = g.reachTo d id := by
  induction d generalizing id n with
  | zero => exact h.elim
  | succ d ih =>
    obtain _ | n := n
    · omega
    obtain ⟨e, he, _, _, hl⟩ := h
    simp only [reachTo, linksOf_eq he]
    congr 1
    exact flatMap_congr fun l hmem => ih (hl l hmem) (by omega)

theorem reach_eq (he : g.get? id = some e) : g.reach id = id :: e.links.flatMap g.reach := by
  have htree := h.bounded
  obtain ⟨k, hk⟩ : ∃ k, g.size = k + 1 := ⟨g.size - 1, by have := htree.pos; omega⟩
  rw [hk] at htree
  have hl : ∀ l ∈ e.links, g.Tree p k l := (htree.element he).2.2
  simp only [reach, hk, reachTo, linksOf_eq he]
  congr 1
  refine flatMap_congr fun l hmem => ?_
  rw [reach, hk, reachTo_of_le (hl l hmem) (Nat.le_succ k)]

theorem self_mem_reach : id ∈ g.reach id := by
  obtain ⟨e, he⟩ := h.get?
  rw [reach_eq h he]
  exact (.head _)

theorem reach_link (he : g.get? id = some e) {l} (hl : l ∈ e.links) : g.reach l ⊆ g.reach id := by
  intro a ha
  rw [reach_eq h he]
  exact .tail _ (mem_flatMap.2 ⟨l, hl, ha⟩)

/-- What holds of an element, and with each element of its links, holds of all it reaches. -/
theorem reach_induction {P : Id → Prop} (hid : P id)
    (hlink : ∀ {d id e}, g.Tree p d id → g.get? id = some e → P id → ∀ l ∈ e.links, P l) (ha : a ∈ g.reach id) :
    P a ∧ ∃ d' ≤ d, g.Tree p d' a := by
  induction d generalizing id with
  | zero => exact h.elim
  | succ d ih =>
    have htree := h
    obtain ⟨e, he, _, _, hl⟩ := h
    rw [reach_eq htree he] at ha
    rcases mem_cons.1 ha with rfl | ha
    · exact ⟨hid, d + 1, le_rfl, htree⟩
    · obtain ⟨l, hmem, ha⟩ := mem_flatMap.1 ha
      obtain ⟨hP, d', hd', ht⟩ := ih (hl l hmem) (hlink htree he hid l hmem) ha
      exact ⟨hP, d', by omega, ht⟩

theorem tree_of_mem_reach (ha : a ∈ g.reach id) : ∃ d' ≤ d, g.Tree p d' a :=
  (reach_induction h trivial (fun _ _ _ _ _ => trivial) ha).2

theorem reach_subset (ha : a ∈ g.reach id) : g.reach a ⊆ g.reach id :=
  (reach_induction (P := fun b => g.reach b ⊆ g.reach id) h (List.Subset.refl _)
    (fun ht he hb _ hl => List.Subset.trans (reach_link ht he hl) hb) ha).1

end

/-! ### Elements that are held once -/

namespace Unshared

section

variable (h : g.Unshared id) (ht : g.Tree p d id) (he : g.get? id = some e)

include h ht he

theorem links : id ∉ e.links.flatMap g.reach ∧ (e.links.flatMap g.reach).Nodup := by
  rw [Unshared, reach_eq ht he] at h
  exact nodup_cons.1 h

theorem link {l} (hl : l ∈ e.links) : g.Unshared l := (nodup_flatMap.1 (h.links ht he).2).1 l hl

theorem link_unique {l l'} (hl : l ∈ e.links)
    (hl' : l' ∈ e.links) (ha : a ∈ g.reach l) (ha' : a ∈ g.reach l') : l = l' := by
  by_contra hne
  have hpairwise := (nodup_flatMap.1 (h.links ht he).2).2
  have hsymm : Std.Symm (Function.onFun List.Disjoint g.reach) := ⟨fun _ _ hd _ ha ha' => hd ha' ha⟩
  exact hpairwise.forall hl hl' hne ha ha'

end

theorem of_mem (h : g.Unshared id) (ht : g.Tree p d id) (ha : a ∈ g.reach id) : g.Unshared a :=
  (reach_induction ht h (fun ht he hu _ hl => hu.link ht he hl) ha).1

end Unshared

/-! ### Dotted references -/

/-- The subscripts along a dotted reference. -/
def subscripts (rs : List Reference) : List Id := rs.flatMap fun r => Value.nodesOfRows r.indices

theorem reach_subscripts (h : g.Tree p d id) (hc : g.Chain id rs) :
    (id :: (subscripts rs).flatMap g.reach).Sublist (g.reach id) := by
  induction rs generalizing id d with
  | nil => exact hc.elim
  | cons r rest ih =>
    obtain ⟨hr, hnext⟩ := hc
    rw [reach_eq h hr]
    refine List.Sublist.cons_cons id ?_
    simp only [subscripts, links, children, flatMap_cons, flatMap_append]
    refine List.Sublist.append (List.Sublist.refl _) ?_
    cases hchild : r.child with
    | nil =>
      simp only [hchild] at hnext
      simp [hnext]
    | cons c cs =>
      simp only [hchild] at hnext
      have hct := (h.element hr).2.2 c (by simp [links, children, hchild])
      rw [flatMap_cons]
      exact ((sublist_cons_self c _).trans (ih hct hnext)).trans (sublist_append_left _ _)

/-! ### Graphs that agree on what is reached -/

/-- The elements of a list are the same in both graphs. -/
def Agree (g g' : Graph) (ids : List Id) : Prop := ∀ a ∈ ids, g'.get? a = g.get? a

theorem Agree.mono {ids ids'} (h : Agree g g' ids) (hs : ids' ⊆ ids) : Agree g g' ids' :=
  fun a ha => h a (hs ha)

section

variable (h : Agree g g' (g.reach id)) (ht : g.Tree p d id)

include h ht

theorem Agree.get? : g'.get? id = g.get? id := h id (self_mem_reach ht)

theorem Agree.link (he : g.get? id = some e) {l} (hl : l ∈ e.links) : Agree g g' (g.reach l) := h.mono (reach_link ht he hl)

theorem Agree.chain (hc : g.Chain id rs) : g'.Chain id rs := by
  induction rs generalizing id d with
  | nil => exact hc.elim
  | cons r rest ih =>
    obtain ⟨hr, hnext⟩ := hc
    refine ⟨(h.get? ht).trans hr, ?_⟩
    cases hchild : r.child with
    | nil => simpa [hchild] using hnext
    | cons c cs =>
      simp only [hchild] at hnext ⊢
      have hlink : c ∈ (reference r).links := by simp [links, children, hchild]
      exact ih (h.link ht hr hlink) ((ht.element hr).2.2 c hlink) hnext

end

/-! ### Copies -/

theorem flatMap_map_sublist {φ} {f h : Id → List Id} {ls : List Id}
    (hs : ∀ l ∈ ls, (h (φ l)).Sublist ((f l).map φ)) : ((ls.map φ).flatMap h).Sublist ((ls.flatMap f).map φ) := by
  induction ls with
  | nil => exact List.Sublist.refl _
  | cons l ls ih =>
    simp only [map_cons, flatMap_cons, map_append]
    exact (hs l (.head _)).append (ih fun l' hl' => hs l' (.tail _ hl'))

theorem subscripts_rename (φ : Id → Id) (rs : List Reference) :
    subscripts (rs.map (Reference.rename φ)) = (subscripts rs).map φ := by
  simp only [subscripts, flatMap_map, map_flatMap, Reference.rename]
  exact flatMap_congr fun r _ => Value.nodesOfRows_rename φ r.indices

section

variable {s : Id → Prop} {φ : Id → Id} (h : Image s φ g g')

include h

theorem Image.reach (hp : ∀ id e, p id e → e.hasSource = false)
    (ha : s id) (ht : g.Tree p d id) : g'.reach (φ id) = (g.reach id).map φ := by
  induction d generalizing id with
  | zero => exact ht.elim
  | succ d ih =>
    have htree := ht
    have htree' : g'.Tree (fun _ _ => True) (d + 1) (φ id) := h.tree hp (fun _ _ _ _ _ => trivial) ha ht
    obtain ⟨e, he, hpe, _, hl⟩ := ht
    obtain ⟨he', hs⟩ := h.get? ha he
    rw [reach_eq htree he, reach_eq htree' he', links_rename φ (hp id e hpe), map_cons, map_flatMap,
      flatMap_map]
    congr 1
    exact flatMap_congr fun l hmem => ih (hs l hmem) (hl l hmem)

theorem Image.mem (ha : s id) (ht : g.Tree p d id) (hb : a ∈ g.reach id) : s a :=
  (reach_induction ht ha (fun _ he ha => (h.get? ha he).2) hb).1

theorem Image.unshared (hp : ∀ id e, p id e → e.hasSource = false)
    (ha : s id) (ht : g.Tree p d id) (hu : g.Unshared id) : g'.Unshared (φ id) := by
  rw [Unshared, h.reach hp ha ht]
  exact hu.map_on fun a hmem b hmem' heq => h.injective a b (h.mem ha ht hmem) (h.mem ha ht hmem') heq

end

end Modelica.Graph
