/-
The groups of joined flow variables are the connected components of the
graph of connections.

`Flows.Sound fs edges` says that the numbers in the index of `fs` tell the
components of `edges` apart, and that the group under such a number holds the
variables of one component. Joining two variables adds an edge
(`Sound.join`), so after any sequence of joins the groups in order are the
components, each once (`Sound.components`).
-/
import Modelica.Flat.Connection
import Modelica.Proofs.Table
import Mathlib.Logic.Relation
import Mathlib.Data.List.Basic

namespace Modelica

open List Option

/-- A connection of two flow variables. -/
abbrev FlowEdge := FlowKey × FlowKey

/-- A flow variable that is connected to something. -/
def IsVertex (edges : List FlowEdge) (k : FlowKey) : Prop := ∃ e ∈ edges, k = e.1 ∨ k = e.2

/-- Joined directly, or through others. -/
def Connected (edges : List FlowEdge) : FlowKey → FlowKey → Prop :=
  Relation.EqvGen fun a b => (a, b) ∈ edges

/-- The components of a graph of connections, each as the list of its
variables. -/
structure Components (edges : List FlowEdge) (comps : List (List FlowKey)) : Prop where
  nonempty : ∀ vs ∈ comps, vs ≠ []
  /-- No variable stands in two components, or in one of them twice. -/
  nodup : comps.flatten.Nodup
  connected : ∀ vs ∈ comps, ∀ v ∈ vs, ∀ w, w ∈ vs ↔ Connected edges v w
  mem_iff : ∀ v, (∃ vs ∈ comps, v ∈ vs) ↔ IsVertex edges v

namespace Connected

variable {edges : List FlowEdge}

variable {v w : FlowKey}

theorem refl (v : FlowKey) : Connected edges v v := Relation.EqvGen.refl v

theorem symm (h : Connected edges v w) : Connected edges w v := Relation.EqvGen.symm _ _ h

theorem trans {u} (h1 : Connected edges u v) (h2 : Connected edges v w) : Connected edges u w :=
  Relation.EqvGen.trans _ _ _ h1 h2

theorem mono {more} (hsub : edges ⊆ more) (h : Connected edges v w) :
    Connected more v w := Relation.EqvGen.mono (fun _ _ hm => hsub hm) v w h

theorem eq_or_vertices (h : Connected edges v w) : v = w ∨ IsVertex edges v ∧ IsVertex edges w := by
  induction h with
  | rel a b hm => exact .inr ⟨⟨_, hm, .inl rfl⟩, ⟨_, hm, .inr rfl⟩⟩
  | refl v => exact .inl rfl
  | symm v w _ ih => exact ih.imp Eq.symm And.symm
  | trans u v w _ _ ih1 ih2 =>
    rcases ih1 with rfl | ⟨hu, hv⟩
    · exact ih2
    · rcases ih2 with rfl | ⟨_, hw⟩
      · exact .inr ⟨hu, hv⟩
      · exact .inr ⟨hu, hw⟩

theorem snoc_iff {a b} : Connected (edges ++ [(a, b)]) v w ↔ Connected edges v w ∨
      ((Connected edges a v ∨ Connected edges b v) ∧ (Connected edges a w ∨ Connected edges b w)) := by
  have hsub : edges ⊆ edges ++ [(a, b)] := subset_append_left _ _
  have hab : Connected (edges ++ [(a, b)]) a b := Relation.EqvGen.rel _ _ (by simp)
  constructor
  · intro h
    induction h with
    | rel v w hm =>
      rcases mem_append.1 hm with hm | hm
      · exact .inl (Relation.EqvGen.rel _ _ hm)
      · simp only [mem_singleton, Prod.mk.injEq] at hm
        obtain ⟨rfl, rfl⟩ := hm
        exact .inr ⟨.inl (refl _), .inr (refl _)⟩
    | refl v => exact .inl (refl v)
    | symm v w _ ih => exact ih.imp symm And.symm
    | trans u v w _ _ ih1 ih2 =>
      rcases ih1 with h1 | ⟨hu, hv⟩
      · rcases ih2 with h2 | ⟨hv, hw⟩
        · exact .inl (h1.trans h2)
        · exact .inr ⟨hv.imp (·.trans h1.symm) (·.trans h1.symm), hw⟩
      · rcases ih2 with h2 | ⟨_, hw⟩
        · exact .inr ⟨hu, hv.imp (·.trans h2) (·.trans h2)⟩
        · exact .inr ⟨hu, hw⟩
  · have reach : ∀ {u}, Connected edges a u ∨ Connected edges b u → Connected (edges ++ [(a, b)]) a u := by
      rintro u (hu | hu)
      · exact hu.mono hsub
      · exact hab.trans (hu.mono hsub)
    rintro (h | ⟨hv, hw⟩)
    · exact h.mono hsub
    · exact (reach hv).symm.trans (reach hw)

end Connected

theorem isVertex_snoc {edges a b k} : IsVertex (edges ++ [(a, b)]) k ↔ IsVertex edges k ∨ k = a ∨ k = b := by
  simp [IsVertex, or_and_right, exists_or]

namespace Flows

/-- What the index and the groups have to do with the connections made. -/
structure Sound (fs : Flows) (edges : List FlowEdge) : Prop where
  nodup : fs.index.keys.Nodup
  /-- The group of a number that is in use holds the variables of that number,
  each once. -/
  group : ∀ {k i}, fs.index.get? k = some i → ∃ grp, fs.groups[i]? = some grp ∧ grp.keys.Nodup ∧
    ∀ k', k' ∈ grp.keys ↔ fs.index.get? k' = some i
  connected : ∀ {k i}, fs.index.get? k = some i → ∀ k', fs.index.get? k' = some i ↔ Connected edges k k'
  vertex : ∀ k, (∃ i, fs.index.get? k = some i) ↔ IsVertex edges k

theorem sound_empty : Sound {} [] where
  nodup := nodup_nil
  group h := by cases h
  connected h := by cases h
  vertex k := by simp [Table.get?, Table.lookup, IsVertex]

variable {fs : Flows} {edges : List FlowEdge}

section

variable (h : fs.Sound edges)

variable {left k : FlowKey}

include h

theorem Sound.mem_groupOf (k k' : FlowKey) : k' ∈ (fs.groupOf k).keys ∨ k' = k ↔ Connected edges k k' := by
  cases hk : fs.index.get? k with
  | some i =>
    obtain ⟨grp, hgrp, -, hmem⟩ := h.group hk
    have hg : fs.groupOf k = grp := by simp [groupOf, hk, hgrp]
    rw [hg, hmem, h.connected hk]
    refine ⟨?_, .inl⟩
    rintro (hc | rfl)
    · exact hc
    · exact .refl _
  | none =>
    have hg : (fs.groupOf k).keys = [] := by simp [groupOf, hk, Table.keys]
    have hnot : ¬ IsVertex edges k := fun hv => by
      obtain ⟨i, hi⟩ := (h.vertex k).2 hv
      cases hk.symm.trans hi
    rw [hg]
    constructor
    · rintro (hm | rfl)
      · cases hm
      · exact .refl _
    · intro hc
      rcases hc.eq_or_vertices with rfl | ⟨hv, _⟩
      · exact .inr rfl
      · exact absurd hv hnot

theorem Sound.nodup_groupOf (k : FlowKey) : (fs.groupOf k).keys.Nodup := by
  cases hk : fs.index.get? k with
  | some i =>
    obtain ⟨grp, hgrp, hn, -⟩ := h.group hk
    simpa [groupOf, hk, hgrp] using hn
  | none => simp [groupOf, hk, Table.keys]

theorem Sound.mem_merged {right leftRef rightRef} :
    k ∈ (fs.merged left leftRef right rightRef).keys ↔ Connected edges left k ∨ Connected edges right k := by
  rw [merged, Table.mem_keys_insert, Table.mem_keys_insert, Table.mem_keys_insertAll,
    ← h.mem_groupOf left k, ← h.mem_groupOf right k]
  constructor
  · rintro (hk | hk | hk | hk)
    · exact .inr (.inr hk)
    · exact .inl (.inr hk)
    · exact .inl (.inl hk)
    · exact .inr (.inl hk)
  · rintro ((hk | hk) | (hk | hk))
    · exact .inr (.inr (.inl hk))
    · exact .inr (.inl hk)
    · exact .inr (.inr (.inr hk))
    · exact .inl hk

theorem Sound.getElem?_lt {i} (hk : fs.index.get? k = some i) : i < fs.groups.length := by
  obtain ⟨grp, hgrp, -⟩ := h.group hk
  exact (List.getElem?_eq_some_iff.1 hgrp).1

theorem Sound.ne_number {i} (hk : fs.index.get? k = some i) (hnot : ¬ Connected edges left k) : i ≠ fs.number left := by
  rintro rfl
  cases hl : fs.index.get? left with
  | some j =>
    simp only [number, hl, getD_some] at hk
    exact hnot ((h.connected hl k).1 hk)
  | none =>
    simp only [number, hl, getD_none] at hk
    exact absurd (h.getElem?_lt hk) (Nat.lt_irrefl _)

theorem Sound.number_le (left : FlowKey) : fs.number left ≤ fs.groups.length := by
  cases hl : fs.index.get? left with
  | some j =>
    simp only [number, hl, getD_some]
    exact Nat.le_of_lt (h.getElem?_lt hl)
  | none => simp [number, hl]

section

variable (left : FlowKey) (leftRef : Id) (right : FlowKey) (rightRef : Id)

theorem Sound.join_groups :
    (fs.join left leftRef right rightRef).groups[fs.number left]? = some (fs.merged left leftRef right rightRef) ∧
      ∀ i < fs.groups.length, i ≠ fs.number left →
        (fs.join left leftRef right rightRef).groups[i]? = fs.groups[i]? := by
  have hle := h.number_le left
  simp only [join]
  split
  · next hlt =>
    refine ⟨by rw [List.getElem?_set_self hlt], fun i _ hne => ?_⟩
    rw [List.getElem?_set_ne (Ne.symm hne)]
  · next hlt =>
    have heq : fs.number left = fs.groups.length := by omega
    refine ⟨by simp [heq], fun i hi _ => ?_⟩
    rw [List.getElem?_append_left hi]

theorem Sound.join_index (k : FlowKey) : (Connected edges left k ∨ Connected edges right k →
      (fs.join left leftRef right rightRef).index.get? k = some (fs.number left)) ∧
    (¬ (Connected edges left k ∨ Connected edges right k) →
      (fs.join left leftRef right rightRef).index.get? k = fs.index.get? k) := by
  simp only [join]
  rw [Table.get?_foldl_insert]
  exact ⟨fun hk => if_pos (h.mem_merged.2 hk), fun hk => if_neg fun hm => hk (h.mem_merged.1 hm)⟩

/-- After a join the variables of the joined group are exactly those with its
number. -/
theorem Sound.join_index_iff
    (k : FlowKey) : (fs.join left leftRef right rightRef).index.get? k = some (fs.number left) ↔
      Connected edges left k ∨ Connected edges right k := by
  obtain ⟨hin, hout⟩ := h.join_index left leftRef right rightRef k
  refine ⟨fun hk => ?_, hin⟩
  by_contra hnot
  rw [hout hnot] at hk
  exact h.ne_number hk (fun hc => hnot (.inl hc)) rfl

theorem Sound.join : (fs.join left leftRef right rightRef).Sound (edges ++ [(left, right)]) := by
  obtain ⟨hnew, hold⟩ := h.join_groups left leftRef right rightRef
  have hindex := h.join_index left leftRef right rightRef
  have hiff := h.join_index_iff left leftRef right rightRef
  -- a number in use is that of the joined group, or belongs to a variable outside of it
  have cases_ : ∀ {k i}, (fs.join left leftRef right rightRef).index.get? k = some i →
      (i = fs.number left ∧ (Connected edges left k ∨ Connected edges right k)) ∨
      (fs.index.get? k = some i ∧ ¬ (Connected edges left k ∨ Connected edges right k)) := by
    intro k i hk
    by_cases hc : Connected edges left k ∨ Connected edges right k
    · rw [(hindex k).1 hc] at hk
      exact .inl ⟨(some.inj hk).symm, hc⟩
    · exact .inr ⟨(hindex k).2 hc ▸ hk, hc⟩
  refine { nodup := Table.nodup_keys_foldl_insert h.nodup _ _, group := ?_, connected := ?_, vertex := ?_ }
  · intro k i hk
    rcases cases_ hk with ⟨rfl, -⟩ | ⟨hk, hnot⟩
    · refine ⟨_, hnew, ?_, fun k' => h.mem_merged.trans (hiff k').symm⟩
      exact Table.nodup_keys_insert (Table.nodup_keys_insert
        (Table.nodup_keys_insertAll (h.nodup_groupOf left) _) _ _) _ _
    · have hne := h.ne_number hk fun hc => hnot (.inl hc)
      obtain ⟨grp, hgrp, hn, hmem⟩ := h.group hk
      refine ⟨grp, (hold i (h.getElem?_lt hk) hne).trans hgrp, hn, fun k' => ?_⟩
      rw [hmem]
      by_cases hc : Connected edges left k' ∨ Connected edges right k'
      · rw [(hindex k').1 hc]
        refine ⟨fun hk' => absurd ?_ hnot, fun hi => absurd (some.inj hi).symm hne⟩
        have hkk := (h.connected hk' k).1 hk
        exact hc.imp (·.trans hkk) (·.trans hkk)
      · rw [(hindex k').2 hc]
  · intro k i hk k'
    rw [Connected.snoc_iff]
    rcases cases_ hk with ⟨rfl, hc⟩ | ⟨hk, hnot⟩
    · rw [hiff]
      refine ⟨fun hk' => .inr ⟨hc, hk'⟩, ?_⟩
      rintro (hkk | ⟨_, hk'⟩)
      · exact hc.imp (·.trans hkk) (·.trans hkk)
      · exact hk'
    · have hne := h.ne_number hk fun hc => hnot (.inl hc)
      rw [or_iff_left (fun hb => hnot hb.1), ← h.connected hk]
      by_cases hc : Connected edges left k' ∨ Connected edges right k'
      · rw [(hindex k').1 hc]
        refine ⟨fun hi => absurd (some.inj hi).symm hne, fun hk' => absurd ?_ hnot⟩
        have hkk := (h.connected hk' k).1 hk
        exact hc.imp (·.trans hkk) (·.trans hkk)
      · rw [(hindex k').2 hc]
  · intro k
    rw [isVertex_snoc, ← h.vertex k]
    by_cases hc : Connected edges left k ∨ Connected edges right k
    · refine ⟨fun _ => ?_, fun _ => ⟨_, (hindex k).1 hc⟩⟩
      rcases hc with hc | hc
      · rcases hc.eq_or_vertices with rfl | ⟨_, hv⟩
        · exact .inr (.inl rfl)
        · exact .inl ((h.vertex k).2 hv)
      · rcases hc.eq_or_vertices with rfl | ⟨_, hv⟩
        · exact .inr (.inr rfl)
        · exact .inl ((h.vertex k).2 hv)
    · rw [(hindex k).2 hc]
      refine ⟨.inl, ?_⟩
      rintro (hi | rfl | rfl)
      · exact hi
      · exact absurd (.inl (.refl _)) hc
      · exact absurd (.inr (.refl _)) hc

end

end

theorem nodup_eraseDups {α : Type} [BEq α] [LawfulBEq α] (l : List α) : l.eraseDups.Nodup := by
  induction hn : l.length using Nat.strongRecOn generalizing l with
  | _ n ih =>
    cases l with
    | nil => simp
    | cons a as =>
      rw [eraseDups_cons, nodup_cons]
      have hlt : (as.filter fun b => !b == a).length < n := by
        rw [← hn, length_cons]
        exact Nat.lt_succ_of_le (length_filter_le _ _)
      exact ⟨by simp [mem_eraseDups], ih _ hlt _ rfl⟩

variable (h : fs.Sound edges)

include h

theorem Sound.mem_ordered {grp} (hm : grp ∈ fs.ordered) :
    ∃ k i, fs.index.get? k = some i ∧ grp.keys.Nodup ∧ ∀ k', k' ∈ grp.keys ↔ fs.index.get? k' = some i := by
  obtain ⟨i, hi, hgrp⟩ := mem_filterMap.1 hm
  obtain ⟨e, he, rfl⟩ := mem_map.1 (mem_eraseDups.1 hi)
  have hk := Table.get?_of_mem_entries h.nodup he
  obtain ⟨grp', hgrp', hn, hmem⟩ := h.group hk
  cases hgrp.symm.trans hgrp'
  exact ⟨e.1, e.2, hk, hn, hmem⟩

theorem Sound.ordered_mem {k i} (hk : fs.index.get? k = some i) : ∃ grp ∈ fs.ordered, k ∈ grp.keys := by
  obtain ⟨grp, hgrp, -, hmem⟩ := h.group hk
  refine ⟨grp, mem_filterMap.2 ⟨i, mem_eraseDups.2 ?_, hgrp⟩, (hmem k).2 hk⟩
  exact mem_map.2 ⟨(k, i), Table.mem_entries_of_get? hk, rfl⟩

theorem Sound.pairwise_ordered : fs.ordered.Pairwise fun grp grp' => grp.keys.Disjoint grp'.keys := by
  rw [ordered, pairwise_filterMap]
  refine (nodup_eraseDups fs.index.values).imp_of_mem fun {i j} hi hj hne grp hgrp grp' hgrp' => ?_
  obtain ⟨e, he, rfl⟩ := mem_map.1 (mem_eraseDups.1 hi)
  obtain ⟨e', he', rfl⟩ := mem_map.1 (mem_eraseDups.1 hj)
  obtain ⟨_, hg, -, hmem⟩ := h.group (Table.get?_of_mem_entries h.nodup he)
  obtain ⟨_, hg', -, hmem'⟩ := h.group (Table.get?_of_mem_entries h.nodup he')
  cases hg.symm.trans hgrp
  cases hg'.symm.trans hgrp'
  intro v hv hv'
  exact hne (some.inj (((hmem v).1 hv).symm.trans ((hmem' v).1 hv')))

theorem Sound.components : Components edges (fs.ordered.map Table.keys) where
  nonempty vs hvs := by
    obtain ⟨grp, hm, rfl⟩ := mem_map.1 hvs
    obtain ⟨k, i, hk, -, hmem⟩ := h.mem_ordered hm
    exact ne_nil_of_mem ((hmem k).2 hk)
  nodup := by
    rw [nodup_flatten, pairwise_map]
    refine ⟨fun vs hvs => ?_, h.pairwise_ordered⟩
    obtain ⟨grp, hm, rfl⟩ := mem_map.1 hvs
    obtain ⟨_, _, _, hn, -⟩ := h.mem_ordered hm
    exact hn
  connected vs hvs v hv w := by
    obtain ⟨grp, hm, rfl⟩ := mem_map.1 hvs
    obtain ⟨_, _, _, -, hmem⟩ := h.mem_ordered hm
    rw [hmem, h.connected ((hmem v).1 hv)]
  mem_iff v := by
    rw [← h.vertex v]
    constructor
    · rintro ⟨vs, hvs, hv⟩
      obtain ⟨grp, hm, rfl⟩ := mem_map.1 hvs
      obtain ⟨_, i, _, -, hmem⟩ := h.mem_ordered hm
      exact ⟨i, (hmem v).1 hv⟩
    · rintro ⟨i, hi⟩
      obtain ⟨grp, hm, hv⟩ := h.ordered_mem hi
      exact ⟨_, mem_map.2 ⟨grp, hm, rfl⟩, hv⟩

end Flows
end Modelica
