/-
Look-ups in tables after several changes: which entries a table has once keys
were entered or erased one after the other.
-/
import Modelica.Table
import Mathlib.Data.List.Nodup

namespace Modelica.Table

open List

variable {κ α : Type} [DecidableEq κ]

variable {k k' : κ} {t other : Table κ α} {a : α} {e : κ × α}

theorem get?_insert (t : Table κ α) (k : κ) (a : α) (k' : κ) :
    (t.insert k a).get? k' = if k' = k then some a else t.get? k' := by
  by_cases h : k' = k
  · rw [if_pos h, h, get?_insert_self]
  · rw [if_neg h, get?_insert_other t a h]

theorem get?_erase_other (t : Table κ α) (h : k' ≠ k) : (t.erase k).get? k' = t.get? k' := by
  obtain ⟨es⟩ := t
  simp only [erase, get?]
  induction es with
  | nil => rfl
  | cons e es ih =>
    by_cases hk : e.1 = k
    · have hne : ¬ e.1 = k' := fun he => h (he.symm.trans hk)
      simp only [hk, ne_eq, not_true_eq_false, decide_false, Bool.false_eq_true, not_false_eq_true,
        filter_cons_of_neg]
      rw [ih, lookup, if_neg hne]
    · simp only [hk, ne_eq, not_false_eq_true, decide_true, filter_cons_of_pos, lookup, ih]

theorem get?_erase (t : Table κ α) (k k' : κ) : (t.erase k).get? k' = if k' = k then none else t.get? k' := by
  by_cases h : k' = k
  · rw [if_pos h, h, get?_erase_self]
  · rw [if_neg h, get?_erase_other t h]

theorem get?_foldl_erase (ks : List κ) (t : Table κ α) (k : κ) :
    (ks.foldl erase t).get? k = if k ∈ ks then none else t.get? k := by
  induction ks generalizing t with
  | nil => simp
  | cons k' ks ih =>
    rw [foldl_cons, ih, get?_erase]
    by_cases hk : k = k'
    · simp [hk]
    · simp [hk]

/-! ### Keys -/

theorem mem_keys_iff : k ∈ t.keys ↔ ∃ a, t.get? k = some a := by
  obtain ⟨es⟩ := t
  simp only [keys, get?]
  induction es with
  | nil => simp [lookup]
  | cons e es ih =>
    by_cases hk : e.1 = k
    · simp [lookup, hk]
    · have hne : ¬ k = e.1 := fun he => hk he.symm
      simp only [map_cons, mem_cons, hne, false_or, lookup, hk, if_false]
      exact ih

theorem mem_keys_insert : k' ∈ (t.insert k a).keys ↔ k' = k ∨ k' ∈ t.keys := by
  by_cases h : k ∈ t.keys
  · rw [keys_insert_of_mem t a h]
    refine ⟨.inr, ?_⟩
    rintro (rfl | hm)
    · exact h
    · exact hm
  · rw [keys_insert_of_not_mem t a h, mem_append, mem_singleton, or_comm]

theorem nodup_keys_insert (h : t.keys.Nodup) (k : κ) (a : α) : (t.insert k a).keys.Nodup := by
  by_cases hk : k ∈ t.keys
  · rwa [keys_insert_of_mem t a hk]
  · rw [keys_insert_of_not_mem t a hk]
    refine nodup_append.2 ⟨h, by simp, fun x hx y hy => ?_⟩
    rw [mem_singleton.1 hy]
    rintro rfl
    exact hk hx

theorem mem_keys_insertAll : k ∈ (t.insertAll other).keys ↔ k ∈ t.keys ∨ k ∈ other.keys := by
  obtain ⟨es⟩ := other
  simp only [insertAll]
  induction es generalizing t with
  | nil => simp [keys]
  | cons e es ih =>
    rw [foldl_cons, ih, mem_keys_insert]
    simp only [keys, map_cons, mem_cons]
    exact ⟨fun h => h.elim (·.elim (.inr ∘ .inl) .inl) (.inr ∘ .inr),
      fun h => h.elim (.inl ∘ .inr) (·.elim (.inl ∘ .inl) .inr)⟩

theorem keys_prefix_insertAll (t other : Table κ α) : t.keys <+: (t.insertAll other).keys := by
  obtain ⟨es⟩ := other
  simp only [insertAll]
  induction es generalizing t with
  | nil => exact prefix_refl _
  | cons e es ih =>
    refine .trans ?_ (ih (t.insert e.1 e.2))
    by_cases h : e.1 ∈ t.keys
    · exact (keys_insert_of_mem t e.2 h).symm ▸ prefix_refl _
    · exact (keys_insert_of_not_mem t e.2 h).symm ▸ prefix_append _ _

theorem nodup_keys_insertAll (h : t.keys.Nodup) (other : Table κ α) : (t.insertAll other).keys.Nodup := by
  obtain ⟨es⟩ := other
  simp only [insertAll]
  induction es generalizing t with
  | nil => exact h
  | cons e es ih => exact ih (nodup_keys_insert h e.1 e.2)

theorem get?_foldl_insert (ks : List κ) (a : α) (t : Table κ α) (k : κ) :
    (ks.foldl (fun t k => t.insert k a) t).get? k = if k ∈ ks then some a else t.get? k := by
  induction ks generalizing t with
  | nil => simp
  | cons k' ks ih =>
    rw [foldl_cons, ih, get?_insert]
    by_cases hk : k = k'
    · simp [hk]
    · simp [hk]

theorem nodup_keys_foldl_insert (h : t.keys.Nodup) (ks : List κ) (a : α) :
    (ks.foldl (fun t k => t.insert k a) t).keys.Nodup := by
  induction ks generalizing t with
  | nil => exact h
  | cons k ks ih => exact ih (nodup_keys_insert h k a)

theorem nodup_keys_erase (h : t.keys.Nodup) (k : κ) : (t.erase k).keys.Nodup :=
  h.sublist (filter_sublist.map _)

/-! ### Entries -/

theorem mem_entries_of_get? (h : t.get? k = some a) : (k, a) ∈ t.entries := by
  obtain ⟨es⟩ := t
  simp only [get?] at h
  induction es with
  | nil => cases h
  | cons e es ih =>
    by_cases hk : e.1 = k
    · simp only [lookup, hk, if_true, Option.some.injEq] at h
      rw [← hk, ← h]
      exact (.head _)
    · simp only [lookup, hk, if_false] at h
      exact .tail _ (ih h)

theorem get?_of_mem_entries (hn : t.keys.Nodup) (h : (k, a) ∈ t.entries) : t.get? k = some a := by
  obtain ⟨es⟩ := t
  simp only [get?, keys] at h hn ⊢
  induction es with
  | nil => cases h
  | cons e es ih =>
    rw [map_cons, nodup_cons] at hn
    rcases mem_cons.1 h with rfl | h
    · simp [lookup]
    · have hne : ¬ e.1 = k := fun he => hn.1 (mem_map.2 ⟨(k, a), h, he.symm⟩)
      simp only [lookup, hne, if_false]
      exact ih hn.2 h

theorem map_some_values (h : t.keys.Nodup) : t.values.map some = t.keys.map t.get? := by
  rw [values, keys, map_map, map_map]
  exact map_congr_left fun e he => (get?_of_mem_entries h he).symm

/-- Tables with the same keys in the same order and the same look-ups are the same. -/
theorem eq_of_get? {t'} (hn : t.keys.Nodup) (hkeys : t'.keys = t.keys) (hget : ∀ k, t'.get? k = t.get? k) : t' = t := by
  have hvalues : t'.values.map some = t.values.map some := by
    rw [map_some_values hn, map_some_values (hkeys ▸ hn), hkeys]
    exact map_congr_left fun k _ => hget k
  have hzip : ∀ t : Table κ α, t.entries = t.keys.zip t.values := fun t => by simp [keys, values, zip_map']
  have hentries : t'.entries = t.entries := by
    rw [hzip, hzip t, hkeys, map_inj_right (fun _ _ => Option.some.inj) |>.1 hvalues]
  cases t
  cases t'
  exact congrArg _ hentries

theorem mem_entries_insert (h : e ∈ (t.insert k a).entries) : e = (k, a) ∨ e ∈ t.entries := by
  obtain ⟨es⟩ := t
  simp only [insert] at h ⊢
  induction es with
  | nil => exact .inl (mem_singleton.1 h)
  | cons e' es ih =>
    by_cases hk : e'.1 = k
    · simp only [put, hk, if_true, mem_cons] at h
      exact h.imp_right (mem_cons_of_mem _)
    · simp only [put, hk, if_false, mem_cons] at h
      rcases h with rfl | h
      · exact .inr (.head _)
      · exact (ih h).imp_right (mem_cons_of_mem _)

theorem mem_entries_insertAll (h : e ∈ (t.insertAll other).entries) : e ∈ t.entries ∨ e ∈ other.entries := by
  obtain ⟨es⟩ := other
  simp only [insertAll] at h ⊢
  induction es generalizing t with
  | nil => exact .inl h
  | cons e' es ih =>
    rcases ih h with h | h
    · rcases mem_entries_insert h with rfl | h
      · exact .inr (.head _)
      · exact .inl h
    · exact .inr (.tail _ h)

theorem forall_values_insertAll {p : α → Prop} (ht : ∀ a ∈ t.values, p a) (hother : ∀ a ∈ other.values, p a) :
    ∀ a ∈ (t.insertAll other).values, p a := by
  simp only [values, forall_mem_map] at ht hother ⊢
  exact fun e he => (mem_entries_insertAll he).elim (ht e) (hother e)

theorem insert_of_not_mem (t : Table κ α) (a : α) (h : k ∉ t.keys) : t.insert k a = ⟨t.entries ++ [(k, a)]⟩ := by
  obtain ⟨es⟩ := t
  simp only [insert, mk.injEq]
  induction es with
  | nil => rfl
  | cons e es ih =>
    simp only [keys, map_cons, mem_cons, not_or] at h
    simp [put, if_neg (fun he => h.1 (Eq.symm he)), ih h.2]

theorem insert_at (before after : List (κ × α)) (a b : α) (h : k ∉ before.map (·.1)) :
    (Table.mk (before ++ (k, b) :: after)).insert k a = ⟨before ++ (k, a) :: after⟩ := by
  simp only [insert, mk.injEq]
  induction before with
  | nil => simp [put]
  | cons e es ih =>
    simp only [map_cons, mem_cons, not_or] at h
    simp [put, if_neg (fun he => h.1 (Eq.symm he)), ih h.2]

omit [DecidableEq κ] in
theorem key_not_mem_of_nodup {l before after} (h : (l.map (·.1)).Nodup) (hl : l = before ++ e :: after) :
    e.1 ∉ before.map (·.1) := by
  rw [hl, map_append, nodup_append] at h
  exact fun hmem => h.2.2 e.1 hmem e.1 (.head _) rfl

theorem insertAll_of_nodup (h : (t.keys ++ other.keys).Nodup) : t.insertAll other = ⟨t.entries ++ other.entries⟩ := by
  suffices hs : ∀ (es before : List (κ × α)), ((before ++ es).map (·.1)).Nodup →
      es.foldl (fun acc e => acc.insert e.1 e.2) (⟨before⟩ : Table κ α) = ⟨before ++ es⟩ from
    hs other.entries t.entries (by simpa [keys] using h)
  intro es
  induction es with
  | nil => simp
  | cons e es ih =>
    intro before hn
    rw [foldl_cons, insert_of_not_mem ⟨before⟩ e.2 (key_not_mem_of_nodup hn rfl), ih (before ++ [e]) (by simpa using hn)]
    simp

theorem insertAll_empty (h : t.keys.Nodup) : ({} : Table κ α).insertAll t = t :=
  insertAll_of_nodup (by simpa [keys] using h)

end Modelica.Table
