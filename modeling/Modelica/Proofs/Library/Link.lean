/-
Linking classes to the classes they stand in.

Below a treelike class `linkAll` gives every class the link to the class it stands in and
does nothing else (`linkAll_runs`). Like merging, it only rearranges classes
(`Rearranges`): what a class consists of stays the same.
-/
import Modelica.Proofs.Library.Merge
import Mathlib.Data.List.Induction

namespace Modelica

open List

/-- The element without what other classes stand in it and in which one it stands. -/
def Element.content : Element → Element
  | .classDef c => .classDef { c with classes := {}, parent := none }
  | e => e

namespace Graph

variable {g g' g1 : Graph} {root other id x y : Id} {c : ClassDef} {name : Option String} {p q : Path}

/-- Classes may stand in other classes than before; nothing else is different. -/
structure Rearranges (g g' : Graph) : Prop where
  size_eq : g'.size = g.size
  content : ∀ x, (g'.get? x).map Element.content = (g.get? x).map Element.content

namespace Rearranges

theorem refl (g : Graph) : g.Rearranges g := ⟨rfl, fun _ => rfl⟩

theorem trans (h : g.Rearranges g1) (h' : g1.Rearranges g') : g.Rearranges g' :=
  ⟨h'.size_eq.trans h.size_eq, fun x => (h'.content x).trans (h.content x)⟩

theorem symm (h : g.Rearranges g') : g'.Rearranges g := ⟨h.size_eq.symm, fun x => (h.content x).symm⟩

theorem bind_eq {α : Type} {f : Element → Option α} (h : g.Rearranges g') (hf : ∀ e, f e.content = f e) (x : Id) :
    (g'.get? x).bind f = (g.get? x).bind f := by
  have hbind : ∀ o : Option Element, o.bind f = (o.map Element.content).bind f := fun o => by
    cases o with
    | none => rfl
    | some e => exact (hf e).symm
  rw [hbind, h.content, ← hbind]

theorem set (hc : g.ClassAt id c) {c'} (hsame : (Element.classDef c').content = (Element.classDef c).content) :
    g.Rearranges (g.set id (.classDef c')) := by
  refine ⟨size_set _ _ _, fun x => ?_⟩
  by_cases hx : x = id
  · rw [hx, get?_set hc _, hc, Option.map_some, Option.map_some, hsame]
  · rw [get?_set_other _ _ hx]

end Rearranges

theorem Regroups.rearranges {P} (h : g.Regroups P g') (hclass : ∀ x, P x → g.IsClass x) : g.Rearranges g' := by
  refine ⟨h.size_eq, fun x => ?_⟩
  by_cases hx : P x
  · obtain ⟨c, hc⟩ := hclass x hx
    obtain ⟨t, ht, -⟩ := h.classDef x c hx hc
    rw [hc, ht]
    rfl
  · rw [h.get? x hx]

/-! ### Links -/

/-- The classes below the given ones are linked to the classes they stand in. -/
structure Linking (g : Graph) (id : Id) (done : List Id) (g' : Graph) : Prop where
  rearranges : g.Rearranges g'
  get? : ∀ x, (∀ child ∈ done, ∀ q, g.along child q ≠ some x) → g'.get? x = g.get? x
  child : ∀ child ∈ done, ∀ c, g.get? child = some (.classDef c) → g'.get? child = some (.classDef { c with parent := some id })
  below : ∀ child ∈ done, ∀ p x name y c, g.along child p = some x → g.nested x name = some y →
    g.get? y = some (.classDef c) → g'.get? y = some (.classDef { c with parent := some x })

/-- All classes below a class are linked to the classes they stand in. -/
structure Linked (g : Graph) (id : Id) (g' : Graph) : Prop where
  rearranges : g.Rearranges g'
  get? : ∀ x, (∀ name q, g.along id (name :: q) ≠ some x) → g'.get? x = g.get? x
  below : ∀ p x name y c, g.along id p = some x → g.nested x name = some y →
    g.get? y = some (.classDef c) → g'.get? y = some (.classDef { c with parent := some x })

theorem Treelike.mem_values (h : g.Treelike id) (hc : g.ClassAt id c) :
    x ∈ c.classes.values ↔ ∃ name, g.nested id name = some x := by
  simp only [Table.values, mem_map, nested_eq hc]
  constructor
  · rintro ⟨e, he, rfl⟩
    exact ⟨e.1, Table.get?_of_mem_entries (h.nodup [] id c rfl hc) he⟩
  · rintro ⟨name, hname⟩
    exact ⟨(name, x), Table.mem_entries_of_get? hname, rfl⟩

theorem Treelike.nodup_values (h : g.Treelike id) (hc : g.ClassAt id c) : c.classes.values.Nodup := by
  have hnodup := h.nodup [] id c rfl hc
  have hentries : c.classes.entries.Nodup := List.Nodup.of_map _ hnodup
  refine (nodup_map_iff_inj_on hentries).2 fun a ha b hb hab => ?_
  have hpath : ∀ e ∈ c.classes.entries, g.along id [e.1] = some e.2 := by
    intro e he
    rw [along_singleton, nested_eq hc]
    exact Table.get?_of_mem_entries hnodup he
  have := h.injective [a.1] [b.1] a.2 (hpath a ha) (by rw [hab]; exact hpath b hb)
  exact Prod.ext (cons.inj this).1 hab

namespace Linked

section

variable (h : g.Linked id g') (htree : g.Treelike id)

include h htree

theorem get?_self : g'.get? id = g.get? id :=
  h.get? id fun name q hq => by cases htree.injective _ [] id hq rfl

theorem exists_classDef (hp : g.along id p = some x)
    (hc : g.ClassAt x c) : ∃ c', g'.ClassAt x c' ∧ c'.classes = c.classes := by
  cases p using reverseRecOn with
  | nil =>
    cases hp
    exact ⟨c, (h.get?_self htree).trans hc, rfl⟩
  | append_singleton p name =>
    obtain ⟨y, hy, hx⟩ := exists_of_along_concat hp
    exact ⟨_, h.below p y name x c hy hx hc, rfl⟩

theorem get?_cases (x : Id) : g'.get? x = g.get? x ∨
    ∃ c y, g.ClassAt x c ∧ g'.get? x = some (.classDef { c with parent := some y }) := by
  by_cases hx : ∃ p name, g.along id (p ++ [name]) = some x
  · obtain ⟨p, name, hp⟩ := hx
    obtain ⟨y, hy, hname⟩ := exists_of_along_concat hp
    obtain ⟨c, hc⟩ := htree.isClass _ x hp
    exact .inr ⟨c, y, hc, h.below p y name x c hy hname hc⟩
  · refine .inl (h.get? x fun name q hq => hx ?_)
    exact ⟨(name :: q).dropLast, _, by rwa [dropLast_append_getLast (cons_ne_nil name q)]⟩

theorem names (hp : g.along id p = some x) : g'.classNames x = g.classNames x := by
  obtain ⟨c, hc⟩ := htree.isClass p x hp
  obtain ⟨c', hc', hsame⟩ := h.exists_classDef htree hp hc
  rw [classNames_eq hc', classNames_eq hc, hsame]

end

end Linked

namespace Linking

variable {done : List Id} {child : Id}

theorem start (g : Graph) (id : Id) : g.Linking id [] g := ⟨.refl g, fun _ _ => rfl, by simp, by simp⟩

theorem finish (h : g.Linking id c.classes.values g') (htree : g.Treelike id) (hc : g.ClassAt id c) :
    g.Linked id g' := by
  refine ⟨h.rearranges, fun x hx => h.get? x fun child hchild q hq => ?_, fun p x name y k hp hy hk => ?_⟩
  · obtain ⟨name, hname⟩ := (htree.mem_values hc).1 hchild
    exact hx name q (by rwa [along_cons, hname])
  · cases p with
    | nil =>
      cases hp
      exact h.child y ((htree.mem_values hc).2 ⟨name, hy⟩) k hk
    | cons first p =>
      rw [along_cons, Option.bind_eq_some_iff] at hp
      obtain ⟨child, hchild, hp⟩ := hp
      exact h.below child ((htree.mem_values hc).2 ⟨first, hchild⟩) p x name y k hp hy hk

section

variable (h : g.Linking id done g1) (htree : g.Treelike id) (hdone : ∀ a ∈ done, ∃ name, g.nested id name = some a)
  (hname : g.nested id name = some child) (hnew : child ∉ done)

include h htree hdone hname hnew

theorem untouched (hq : g.along child q = some x) : g1.get? x = g.get? x := by
  refine h.get? x fun a ha r hr => ?_
  obtain ⟨name', hname'⟩ := hdone a ha
  refine htree.apart_nested hname hname' ?_ hq hr
  rintro rfl
  cases hname.symm.trans hname'
  exact hnew ha

theorem linked_child (hc : g.ClassAt child c) :
    (g1.set child (.classDef { c with parent := some id })).Treelike child ∧
      ∀ p, (g1.set child (.classDef { c with parent := some id })).along child p = g.along child p := by
  refine (htree.nested hname).congr fun q x k hq hk => ?_
  have hsame := h.untouched htree hdone hname hnew hq
  by_cases hx : x = child
  · subst hx
    cases hc.symm.trans hk
    exact ⟨_, get?_set (hsame.trans hc) _, rfl⟩
  · exact ⟨k, (get?_set_other _ _ hx).trans (hsame.trans hk), rfl⟩

theorem next {g2} (hc : g.ClassAt child c)
    (hlinked : (g1.set child (.classDef { c with parent := some id })).Linked child g2) :
    g.Linking id (done ++ [child]) g2 := by
  have hfree : ∀ q x, g.along child q = some x → g1.get? x = g.get? x := fun _ _ => h.untouched htree hdone hname hnew
  obtain ⟨-, halong⟩ := h.linked_child htree hdone hname hnew hc
  have hget : g1.ClassAt child c := (hfree [] child rfl).trans hc
  have hmid : g1.Rearranges (g1.set child (.classDef { c with parent := some id })) := .set hget rfl
  have hout : ∀ x, (∀ q, g.along child q ≠ some x) → g2.get? x = g1.get? x := by
    intro x hx
    rw [hlinked.get? x fun name' q => by rw [halong]; exact hx _]
    exact get?_set_other _ _ fun he => hx [] (by rw [he, along_nil])
  -- what is below the classes that were done before stays as it is
  have hold : ∀ a ∈ done, ∀ q y, g.along a q = some y → g2.get? y = g1.get? y := by
    intro a ha q y hy
    obtain ⟨name', hname'⟩ := hdone a ha
    refine hout y fun r => htree.apart_nested hname' hname ?_ hy
    rintro rfl
    cases hname.symm.trans hname'
    exact hnew ha
  refine ⟨(h.rearranges.trans hmid).trans hlinked.rearranges, fun x hx => ?_, fun a ha k hk => ?_,
    fun a ha p x nm y k hp hy hk => ?_⟩
  · rw [hout x (hx child (by simp))]
    exact h.get? x fun a ha => hx a (mem_append_left _ ha)
  · rcases mem_append.1 ha with ha | ha
    · rw [hold a ha [] a rfl, h.child a ha k hk]
    · rw [mem_singleton.1 ha] at hk ⊢
      cases hc.symm.trans hk
      rw [hlinked.get? child fun name' q hq => ?_, get?_set hget _]
      rw [halong] at hq
      cases (htree.nested hname).injective _ [] child hq rfl
  · rcases mem_append.1 ha with ha | ha
    · rw [hold a ha (p ++ [nm]) y (by rw [along_concat hp, hy]), h.below a ha p x nm y k hp hy hk]
    · rw [mem_singleton.1 ha] at hp
      have hyc : g.along child (p ++ [nm]) = some y := by rw [along_concat hp, hy]
      have hne : y ≠ child := by
        rintro rfl
        have := (htree.nested hname).injective _ [] y hyc rfl
        simp at this
      have hx : (g1.set child (.classDef { c with parent := some id })).along child p = some x := by rw [halong, hp]
      refine hlinked.below p x nm y k hx ?_ ?_
      · rw [← along_concat hx, halong, hyc]
      · rw [get?_set_other _ _ hne, hfree _ y hyc, hk]

end

end Linking
end Graph

namespace Build

open Modelica.Graph

theorem linkParents_runs {n g id} (h : g.Treelike id)
    (hn : ∀ p x, g.along id p = some x → p.length < n) : Runs (linkParents n id) g fun _ g' => g.Linked id g' := by
  induction n generalizing g id with
  | zero => exact absurd (hn [] id rfl) (Nat.not_lt_zero _)
  | succ n ih =>
    obtain ⟨c, hc⟩ := h.classDef
    simp only [linkParents, ends_bind, ends_classAt hc]
    refine (runs_forIn_yield (fun before _ g' => g.Linking id before g') (fun before child after hl _ g1 hJ => ?_)
      (Linking.start g id)).imp fun _ g' hJ => hJ.finish h hc
    have hmem : ∀ a ∈ before ++ [child], ∃ name, g.nested id name = some a := by
      intro a ha
      refine (h.mem_values hc).1 ?_
      rw [hl]
      rcases mem_append.1 ha with ha | ha
      · exact mem_append_left _ ha
      · exact mem_append_right _ (by rw [mem_singleton.1 ha]; exact (.head _))
    have hnew : child ∉ before := by
      intro hb
      have hnodup := h.nodup_values hc
      rw [hl] at hnodup
      exact (nodup_append.1 hnodup).2.2 child hb child (.head _) rfl
    obtain ⟨name, hname⟩ := hmem child (by simp)
    have hdone : ∀ a ∈ before, ∃ name, g.nested id name = some a := fun a ha => hmem a (mem_append_left _ ha)
    obtain ⟨k, hk⟩ := (h.nested hname).classDef
    obtain ⟨htree, halong⟩ := hJ.linked_child h hdone hname hnew hk
    have hget : g1.ClassAt child k := (hJ.untouched h hdone hname hnew (q := []) rfl).trans hk
    simp only [ends_bind, ends_modifyClass hget, ends_pure]
    refine (ih htree fun p x hp => ?_).imp fun _ g2 hlinked => ⟨⟨⟩, trivial, hJ.next h hdone hname hnew hk hlinked⟩
    rw [halong] at hp
    have := hn (name :: p) x (by rwa [along_cons, hname])
    simpa using this

theorem linkAll_runs {g id} (h : g.Treelike id) : Runs (linkAll id) g fun _ g' => g.Linked id g' := by
  simp only [linkAll, ends_bind, ends_size]
  exact linkParents_runs h fun p x hp => Nat.lt_succ_of_lt (h.length_lt hp)

end Build
end Modelica
