/-
The shape of what is read.

`read_shaped`: the tree of a text has exactly the classes that are written in the text, each
in the class around it, under its own name and linked to it. In each class of the tree the
symbols stand under their names in the order of their declarations, and wherever an element
below the root has lists that go together, their lengths do. A text that cannot be read
leaves everything as it was.
-/
import Modelica.Proofs.Library.Layout
import Modelica.Proofs.Read.File
import Mathlib.Logic.Relation

namespace Modelica

open List

namespace Graph

variable {g g0 : Graph} {a b root id : Id}

/-- One element is held by another one. -/
def Carries (g : Graph) (a b : Id) : Prop := ∃ e, g.get? a = some e ∧ b ∈ e.children

/-- The symbols of a class stand under their own names, each with a higher number than those
before it. -/
def SymbolsInOrder (g : Graph) (c : ClassDef) : Prop :=
  ∃ symbols : List Symbol, c.symbols.values.map g.get? = symbols.map (fun s => some (.symbol s)) ∧
    c.symbols.keys = symbols.map Symbol.name ∧ (symbols.map Symbol.order).Pairwise (· < ·)

theorem symbol_of_label {l} (h : g.label id = some l) : ∃ s, g.SymbolAt id s ∧ (s.name, s.order) = l := by
  obtain ⟨e, he, hl⟩ := Option.bind_eq_some_iff.1 h
  cases e with
  | symbol s => exact ⟨s, he, Option.some.inj hl⟩
  | _ => cases hl

theorem symbols_of_labels {ids : List Id} {labels} (h : ids.map g.label = labels.map some) :
    ∃ symbols : List Symbol, ids.map g.get? = symbols.map (fun s => some (.symbol s)) ∧
      symbols.map (fun s => (s.name, s.order)) = labels := by
  induction ids generalizing labels with
  | nil => exact ⟨[], rfl, by cases labels <;> simp_all⟩
  | cons id ids ih =>
    cases labels with
    | nil => cases h
    | cons l labels =>
      obtain ⟨hl, hlabels⟩ := cons.inj h
      obtain ⟨s, hs, rfl⟩ := symbol_of_label hl
      obtain ⟨symbols, hsymbols, rfl⟩ := ih hlabels
      exact ⟨s :: symbols, by rw [map_cons, map_cons, hs, hsymbols], rfl⟩

theorem Listed.symbolsInOrder {c : ClassDef} {count} (h : g.Listed c.symbols count) : g.SymbolsInOrder c := by
  obtain ⟨labels, hlabels, hkeys, horder, -⟩ := h
  obtain ⟨symbols, hsymbols, rfl⟩ := symbols_of_labels (show c.symbols.values.map g.label = _ by
    rw [Table.values, map_map, ← hlabels]
    rfl)
  refine ⟨symbols, hsymbols, ?_, ?_⟩
  · rw [← hkeys, map_map]
    rfl
  · rw [pairwise_map] at horder ⊢
    exact horder

end Graph

namespace Read.Grown

open Modelica.Graph

variable {g0 g : Graph} {f : Syntax.File} {root id : Id}

theorem new_of_carries (h : Grown g0 f root g) (hid : Relation.ReflTransGen g.Carries root id) : g0.New id := by
  induction hid with
  | refl => exact h.fresh [] root rfl
  | tail _ hstep ih =>
    obtain ⟨e, he, hmem⟩ := hstep
    exact (h.made _ e ih he).1 _ hmem

end Read.Grown

namespace Build

/-- Reading a text makes the tree of the file it is, or fails and leaves alone what was there. -/
theorem read_ends (text : String) (g : Graph) :
    Ends (read text) g (fun l g' => ∃ file rest, Syntax.parse (tokens text) = .ok (file, rest) ∧ Read.Grown g file l.root g')
      fun _ g' => Graph.Extends g g' := by
  rcases hparse : Syntax.parse (tokens text) with rest | ⟨file, rest⟩
  · obtain ⟨p, hp⟩ := read_of_error hparse g
    rw [Ends, hp]
    exact .refl g
  · obtain ⟨n, hn⟩ := read_of_ok hparse
    rw [hn]
    simp only [ends_bind, ends_pure]
    exact (Read.treeOf_ends file g).imp (fun root g' hgrown => ⟨file, rest, rfl, hgrown⟩) fun _ _ hg => hg

/-- **The shape of a tree that was read.** The path from the root to a class is the one on
which the class is written; all below the root has the shape it should have. -/
theorem read_shaped (text : String) (g : Graph) :
    Ends (read text) g
      (fun l g' => ∃ file rest, Syntax.parse (tokens text) = .ok (file, rest) ∧
        g'.Rooted l.root ∧ (∀ p, (g'.along l.root p).bind g'.heading = file.heading p) ∧
        ∀ id e, Relation.ReflTransGen g'.Carries l.root id → g'.get? id = some e →
          e.Shaped ∧ ∀ c, e = .classDef c → g'.SymbolsInOrder c)
      fun _ g' => Graph.Extends g g' := by
  refine (read_ends text g).imp (fun l g' hread => ?_) fun _ _ hg => hg
  obtain ⟨file, rest, hparse, hgrown⟩ := hread
  refine ⟨file, rest, hparse, hgrown.rooted, hgrown.heading, fun id e hid he => ?_⟩
  have hnew := hgrown.new_of_carries hid
  refine ⟨(hgrown.made id e hnew he).2, ?_⟩
  rintro c rfl
  obtain ⟨count, hlists⟩ := hgrown.tables
  exact (hlists id c hnew he).symbolsInOrder

end Build
end Modelica
