/-
Outermost references, and what becomes of them in a flattened copy.

`Outer` gives a reference that stands in no other one by the way that leads to
it. A copy in which references have been flattened hangs together like the
original (`FlatCopy.tree_reach`), has its outermost references in the same
places (`FlatCopy.outer`), and gives each the name of a symbol if there is one
(`FlatCopy.outer_chain`).
-/
import Modelica.Proofs.Flat.References

namespace Modelica

open List Element

namespace Graph

variable {p : Id → Element → Prop} {g g' : Graph} {found : String → Bool} {stem : String} {d : Nat} {id a : Id}
  {e : Element} {rs : List Reference} {φ : Id → Id} {pos : List Nat}

/-! ### Outermost references -/

/-- An outermost reference, by the way that leads to it. -/
inductive Outer (g : Graph) : Id → List Nat → Id → Prop
  | here {id : Id} : g.IsReference id → Outer g id [] id
  | part {id l a : Id} {e : Element} {i : Nat} {pos : List Nat} : g.get? id = some e → e.isReference = false →
      e.isScoped = false → e.children[i]? = some l → Outer g l pos a → Outer g id (i :: pos) a

namespace Outer

theorem mem_reach (h : g.Outer id pos a) (ht : g.Tree p d id) : a ∈ g.reach id := by
  induction h generalizing d with
  | here => exact self_mem_reach ht
  | part he _ _ hl _ ih =>
    have hlink := mem_links_of_mem_children (mem_of_getElem? hl)
    exact reach_link ht he hlink (ih ((ht.element he).2.2 _ hlink))

/-- What is replaced in an outermost reference is replaced on the way through
it. -/
theorem resolved_iff (h : g.Outer id pos a) (ht : g.Tree p d id) (hu : g.Unshared id) {b} (hb : b ∈ g.reach a) :
    g.Resolved found id b ↔ g.Resolved found a b := by
  induction h generalizing d with
  | here => exact Iff.rfl
  | part he hr hs hl h ih =>
    have hmem := mem_of_getElem? hl
    have hlink := mem_links_of_mem_children hmem
    have htree := (ht.element he).2.2
    rw [Resolved.part_iff he hr hs, ← ih (htree _ hlink) (hu.link ht he hlink) hb]
    constructor
    · rintro ⟨l', hl', h'⟩
      have hlink' := mem_links_of_mem_children hl'
      -- only one link leads there
      have hsame := hu.link_unique ht he hlink' hlink (h'.mem_reach (htree _ hlink'))
        (reach_subset (htree _ hlink) (h.mem_reach (htree _ hlink)) hb)
      rwa [hsame] at h'
    · exact fun h' => ⟨_, hmem, h'⟩

end Outer

/-! ### Flattened copies -/

namespace FlatCopy

variable (h : g.FlatCopy found stem id φ g')

variable {p' : Id → Element → Prop} {d' : Nat}

include h

theorem isReference (ha : a ∈ g.reach id) (hr : g.IsReference a) : g'.IsReference (φ a) := by
  obtain ⟨r, hr⟩ := hr
  by_cases hres : g.Resolved found id a
  · obtain ⟨rs, hc⟩ := hres.chain
    exact ⟨_, h.resolved a rs hres hc⟩
  · exact ⟨_, h.other a _ ha hres hr⟩

theorem get?_of_isReference (ha : a ∈ g.reach id) (he : g.get? a = some e) (hr : e.isReference = false) :
    g'.get? (φ a) = some (e.rename φ) := by
  refine h.other a e ha (fun hres => ?_) he
  obtain ⟨rs, hc⟩ := hres.chain
  exact Resolved.not_chain he hr hc

theorem formed (ht : g.Tree p d id) (ha : a ∈ g.reach id) (hta : g.Tree p' d' a) (he : g.get? a = some e)
    (hf : g.Formed e) : g'.Formed (e.rename φ) :=
  hf.rename fun l hl =>
    h.isReference (reach_subset ht ha (reach_link hta he hl (self_mem_reach ((hta.element he).2.2 l hl))))

/-- A flattened copy hangs together like a tree, and no element of it is
reached on more ways than the one it was copied from. -/
theorem tree_reach {q : Element → Prop} (hp : ∀ id e, p' id e → e.hasSource = false)
    (hq : ∀ id e, p' id e → q (e.rename φ)) (hqr : ∀ r, q (.reference r)) (ht : g.Tree p d id) (ha : a ∈ g.reach id)
    (hta : g.Tree p' d' a) : g'.Tree (fun _ e => q e) d' (φ a) ∧ (g'.reach (φ a)).Sublist ((g.reach a).map φ) := by
  induction d' generalizing a with
  | zero => exact hta.elim
  | succ d' ih =>
    have htree := hta
    obtain ⟨e, he, hpe, hf, hl⟩ := hta
    have hin : ∀ l ∈ g.reach a, l ∈ g.reach id := fun l hmem => reach_subset ht ha hmem
    by_cases hres : g.Resolved found id a
    · obtain ⟨rs, hc⟩ := hres.chain
      have hget := h.resolved a rs hres hc
      have hsub := reach_subscripts htree hc
      have hlinks : (reference ((join stem rs).rename φ)).links = (subscripts rs).map φ := by
        rw [← ReferenceSearch.children_join stem rs]
        exact children_rename φ (e := .reference (join stem rs)) rfl
      have hih : ∀ l ∈ subscripts rs, g'.Tree (fun _ e => q e) d' (φ l) ∧
          (g'.reach (φ l)).Sublist ((g.reach l).map φ) := fun l hmem => by
        have htl := tree_subscripts htree hc l hmem
        refine ih (hin l (hsub.subset ?_)) htl
        exact .tail _ (mem_flatMap.2 ⟨l, hmem, self_mem_reach htl⟩)
      have htree' : g'.Tree (fun _ e => q e) (d' + 1) (φ a) := by
        refine ⟨_, hget, hqr _, by simp [Formed, join, Reference.rename], fun l hl' => ?_⟩
        rw [hlinks] at hl'
        obtain ⟨l, hmem, rfl⟩ := mem_map.1 hl'
        exact (hih l hmem).1
      refine ⟨htree', ?_⟩
      rw [reach_eq htree' hget, hlinks]
      exact ((flatMap_map_sublist fun l hmem => (hih l hmem).2).cons_cons (φ a)).trans (hsub.map φ)
    · have hget := h.other a e ha hres he
      have hlinks := links_rename φ (hp a e hpe)
      have hih : ∀ l ∈ e.links, g'.Tree (fun _ e => q e) d' (φ l) ∧
          (g'.reach (φ l)).Sublist ((g.reach l).map φ) := fun l hmem =>
        ih (hin l (reach_link htree he hmem (self_mem_reach (hl l hmem)))) (hl l hmem)
      have htree' : g'.Tree (fun _ e => q e) (d' + 1) (φ a) := by
        refine ⟨_, hget, hq a e hpe, h.formed ht ha htree he hf, fun l hl' => ?_⟩
        rw [hlinks] at hl'
        obtain ⟨l, hmem, rfl⟩ := mem_map.1 hl'
        exact (hih l hmem).1
      refine ⟨htree', ?_⟩
      rw [reach_eq htree' hget, hlinks, reach_eq htree he, map_cons]
      exact (flatMap_map_sublist fun l hmem => (hih l hmem).2).cons_cons (φ a)

theorem unshared (hp : ∀ id e, p id e → e.hasSource = false) (ht : g.Tree p d id) (hu : g.Unshared id) :
    g'.Unshared (φ id) :=
  (hu.map_on h.injective).sublist
    (h.tree_reach (q := fun _ => True) hp (fun _ _ _ => trivial) (fun _ => trivial) ht (self_mem_reach ht) ht).2

theorem outer {v x} (hp : ∀ id e, p id e → e.hasSource = false) (ht : g.Tree p d id) (hv : v ∈ g.reach id)
    (htv : g.Tree p d' v) (hx : g.Outer v pos x) : g'.Outer (φ v) pos (φ x) := by
  induction hx generalizing d' with
  | here hr => exact .here (h.isReference hv hr)
  | @part v l x e i pos he hr hs hl _ ih =>
    have hlink := mem_links_of_mem_children (mem_of_getElem? hl)
    obtain ⟨hpe, _, hlinks⟩ := htv.element he
    have hget := h.get?_of_isReference hv he hr
    refine .part hget ?_ ?_ ?_ (ih ?_ (hlinks l hlink))
    · rw [isReference_rename, hr]
    · rw [isScoped_rename, hs]
    · rw [children_rename φ (hp v e hpe), List.getElem?_map, hl]
      rfl
    · exact reach_subset ht hv (reach_link htv he hlink (self_mem_reach (hlinks l hlink)))

theorem chain_kept (ht : g.Tree p d id) (ha : a ∈ g.reach id) (hta : g.Tree p d' a) (hc : g.Chain a rs)
    (hkept : ∀ b ∈ g.reach a, ¬ g.Resolved found id b) : g'.Chain (φ a) (rs.map (Reference.rename φ)) := by
  refine hc.rename (s := (· ∈ g.reach a)) (fun b r hb hr => ⟨?_, fun l hl => ?_⟩) (self_mem_reach hta)
  · exact h.other b _ (reach_subset ht ha hb) (hkept b hb) hr
  · obtain ⟨_, _, htb⟩ := tree_of_mem_reach hta hb
    exact reach_subset hta hb (reach_link htb hr hl (self_mem_reach ((htb.element hr).2.2 l hl)))

theorem outer_chain (ht : g.Tree p d id) (hu : g.Unshared id) (hx : g.Outer id pos a) (hc : g.Chain a rs) :
    ∃ rs', g'.Chain (φ a) rs' ∧
      dotted rs' = if found (dotted rs) = true then stem ++ dotted rs else dotted rs := by
  have ha := hx.mem_reach ht
  obtain ⟨d', _, hta⟩ := tree_of_mem_reach ht ha
  by_cases hf : found (dotted rs) = true
  · have hres : g.Resolved found id a := (hx.resolved_iff ht hu (self_mem_reach hta)).2 (.here hc hf)
    refine ⟨[(join stem rs).rename φ], ⟨h.resolved a rs hres hc, rfl⟩, ?_⟩
    rw [if_pos hf]
    simp [dotted, dottedText, join, Reference.rename, String.intercalate_singleton]
  · have hkept : ∀ b ∈ g.reach a, ¬ g.Resolved found id b := fun b hb hres => by
      rw [hx.resolved_iff ht hu hb, Resolved.reference_iff hc] at hres
      exact hf hres.1
    exact ⟨_, h.chain_kept ht ha hta hc hkept, by rw [if_neg hf, dotted_rename]⟩

end FlatCopy

end Graph
end Modelica
