/-
The symbols of a flat model.

A flat model is a tree with a flat class and the functions it calls. In each of
them different keys stand for different symbols (`flatten_distinct`), whatever
the names of the symbols are. In a flat class made of nested instances alone the
keys are the names (`flattenSymbols_layout`).
-/
import Modelica.Proofs.Flat.Clauses

namespace Modelica

namespace Graph

variable {g g' : Graph} {flat tree id : Id} {p : Path}

theorem Distinct.gained {es} (h : g.Distinct id) (hg : g.Gains flat es g') : g'.Distinct id :=
  h.keep hg.parts fun c hc hinst => by
    by_cases hid : id = flat
    · subst hid
      obtain ⟨c', hc', hgrows⟩ := hg.gained c hc hinst
      exact ⟨c', es, hc', hgrows⟩
    · obtain ⟨e', he', -, hlasting⟩ := hg.kept id _ hc
      obtain ⟨c', rfl, hgrows⟩ := ClassDef.Grows.of_lasting hinst (hlasting (.inl hid))
      exact ⟨c', [], he', hgrows⟩

theorem Distinct.completed (h : g.Distinct id) (hg : g.Completes flat tree g') : g'.Distinct id := by
  by_cases hid : id = flat
  · subst hid
    obtain ⟨c, hc, htabled, hvalues⟩ := h
    obtain ⟨c', bindings, -, -, hc', hgrows, -⟩ := hg.moves c hc htabled.role
    -- the functions of the class count for nothing here
    have htabled' := htabled.keep hg.parts ⟨bindings, hgrows⟩
    exact ⟨c', hc', ⟨htabled'.role, htabled'.classes, htabled'.keys, htabled'.symbols⟩, hvalues.sublist (hgrows.symbols.map _)⟩
  · exact h.keep hg.parts fun c hc hinst => by
      obtain ⟨c', hc', hgrows⟩ := hg.others id c hid hc hinst
      exact ⟨c', [], hc', hgrows⟩

/-- What lies on paths from the root of a flat model: the root, and classes without classes. -/
theorem along_of_flat {t} (ht : g.ClassAt tree t) (hflat : ∀ f ∈ t.classes.values, g.Distinct f)
    (hp : g.along tree p = some id) : id = tree ∨ g.Distinct id := by
  cases p with
  | nil => exact .inl (Option.some.inj hp).symm
  | cons name rest =>
    rw [along_cons, nested_eq ht] at hp
    obtain ⟨child, hchild, hrest⟩ := Option.bind_eq_some_iff.1 hp
    have hdistinct := hflat child (List.mem_map_of_mem (Table.mem_entries_of_get? hchild))
    cases rest with
    | nil => exact .inr (Option.some.inj hrest ▸ hdistinct)
    | cons name' rest =>
      obtain ⟨c, hc, htabled, -⟩ := hdistinct
      rw [along_cons, nested_eq hc, htabled.classes] at hrest
      cases hrest

end Graph

namespace Build

open Modelica.Graph (Distinct Tabled)

/-- **Keys of a flat model.** In every class of the tree the keys differ, and so do
the symbols under them. -/
theorem flatten_distinct (root : Id) (path : List String) (g : Graph) :
    Yields (flatten root path) g fun tree g' => ∀ p id, g'.along tree p = some id →
      ∃ c, g'.get? id = some (.classDef c) ∧ c.symbols.keys.Nodup ∧ c.symbols.values.Nodup ∧
        ∀ s ∈ c.symbols.values, g'.IsSymbol s := by
  refine (flatten_yields root path g).imp ?_
  rintro tree g' ⟨orig, g₀, flat, g₁, g₂, horig, hflat, hexpand, hcompletes⟩ p id hp
  obtain ⟨c, hc, htabled, hnodup, hequations, hfunctions⟩ := (yields_iff.1 (flattenClass_readies orig g₀) flat g₁ hflat).forms
  obtain ⟨-, -, es, zeros, -, hgains, -⟩ := yields_iff.1
    (expandConnections_yields hc fun e he => Graph.exists_get? (hequations e he)) _ g₂ hexpand
  have hself : (emptied flat c g₁).get? flat = some (.classDef { c with equations := [] }) :=
    Graph.get?_set_self g₁ _ (Graph.get?_lt hc)
  obtain ⟨c₂, hc₂, hgrows₂⟩ := hgains.gained _ hself htabled.role
  obtain ⟨-, -, t, name, -, -, -, ht, hsymbols, hclasses⟩ := hcompletes.moves c₂ hc₂ (hgrows₂.role ▸ htabled.role)
  have hkept : ∀ id, g₁.Distinct id → g'.Distinct id := fun id h =>
    ((h.set hc rfl (.inr ⟨rfl, rfl⟩) : (emptied flat c g₁).Distinct id).gained hgains).completed hcompletes
  have hall : ∀ f ∈ t.classes.values, g'.Distinct f := fun f hf => by
    rw [hclasses] at hf
    obtain ⟨e, he, rfl⟩ := List.mem_map.1 hf
    rcases Table.mem_entries_insert he with rfl | he
    · exact hkept flat ⟨c, hc, htabled, hnodup⟩
    · obtain ⟨entry, hentry, rfl⟩ := List.mem_map.1 he
      rw [hgrows₂.functions] at hentry
      exact hkept entry.2 (hfunctions entry.2 (List.mem_map_of_mem hentry)).2
  rcases Graph.along_of_flat ht hall hp with rfl | ⟨k, hk, hktabled, hkvalues⟩
  · refine ⟨t, ht, ?_⟩
    rw [hsymbols]
    exact ⟨.nil, .nil, nofun⟩
  · exact ⟨k, hk, hktabled.keys, hkvalues, hktabled.symbols⟩

end Build
end Modelica
