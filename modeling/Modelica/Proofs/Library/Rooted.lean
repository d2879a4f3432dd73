/-
Class trees.

In a tree that is `Rooted` every class stands in its class under its own name and is linked
to it. No class stands in two places then (`Rooted.treelike`), two trees have nothing in
common (`Rooted.apart`), and the way outwards from a class is the way on which it is found:
it ends at the root (`ends_rootOf`), and the names on it are the path (`Rooted.hasPath`).

`extend_runs`: two trees can always be merged, and `Merged` says what comes out.
-/
import Modelica.Proofs.Flat.Arguments
import Modelica.Proofs.Library.Link

namespace Modelica.Graph

open List

variable {g g' : Graph} {root other id x y : Id} {c : ClassDef} {name : Option String} {p q : Path}

/-- Every class below the root stands under its own name and is linked to the class it
stands in. -/
structure Rooted (g : Graph) (root : Id) : Prop where
  top : ∃ c, g.get? root = some (.classDef c) ∧ c.parent = none
  held : ∀ p x name y, g.along root p = some x → g.nested x name = some y →
    ∃ d, g.get? y = some (.classDef d) ∧ d.name = name ∧ d.parent = some x
  nodup : ∀ p x c, g.along root p = some x → g.get? x = some (.classDef c) → c.classes.keys.Nodup

namespace Rooted

section

variable (h : g.Rooted root)

include h

theorem held_concat (hp : g.along root (p ++ [name]) = some y) :
    ∃ x d, g.along root p = some x ∧ g.ClassAt y d ∧ d.name = name ∧ d.parent = some x := by
  obtain ⟨x, hx, hy⟩ := exists_of_along_concat hp
  obtain ⟨d, hd, hname, hparent⟩ := h.held p x name y hx hy
  exact ⟨x, d, hx, hd, hname, hparent⟩

theorem isClass (hp : g.along root p = some x) : g.IsClass x := by
  cases p using reverseRecOn with
  | nil =>
    cases hp
    obtain ⟨c, hc, -⟩ := h.top
    exact ⟨c, hc⟩
  | append_singleton p name =>
    obtain ⟨-, d, -, hd, -⟩ := h.held_concat hp
    exact ⟨d, hd⟩

/-- Two ways to one class in two trees come from one root and have the same names: each
name and each class around it is told by the class. -/
theorem along_unique (h' : g.Rooted other) (hp : g.along root p = some x)
    (hq : g.along other q = some x) : root = other ∧ p = q := by
  induction p using reverseRecOn generalizing x q with
  | nil =>
    obtain ⟨c, hc, hnone⟩ := h.top
    cases hp
    cases q using reverseRecOn with
    | nil =>
      cases hq
      exact ⟨rfl, rfl⟩
    | append_singleton q name =>
      obtain ⟨_, d, -, hd, -, hparent⟩ := h'.held_concat hq
      cases hc.symm.trans hd
      cases hnone.symm.trans hparent
  | append_singleton p name ih =>
    obtain ⟨y, d, hy, hd, hname, hparent⟩ := h.held_concat hp
    cases q using reverseRecOn with
    | nil =>
      cases hq
      obtain ⟨c, hc, hnone⟩ := h'.top
      cases hc.symm.trans hd
      cases hnone.symm.trans hparent
    | append_singleton q name' =>
      obtain ⟨y', d', hy', hd', hname', hparent'⟩ := h'.held_concat hq
      cases hd.symm.trans hd'
      cases hparent.symm.trans hparent'
      obtain ⟨hroot, hpq⟩ := ih hy hy'
      exact ⟨hroot, by rw [hpq, ← hname, ← hname']⟩

theorem treelike : g.Treelike root :=
  ⟨fun _ _ => h.isClass, fun _ _ _ hp hq => (h.along_unique h hp hq).2, h.nodup⟩

theorem apart (h' : g.Rooted other) (hne : root ≠ other) : g.Apart root other :=
  fun _ _ _ hp hq => hne (h.along_unique h' hp hq).1

theorem unchanged (hsame : ∀ p x, g.along root p = some x → g'.get? x = g.get? x) :
    g'.Rooted root ∧ ∀ p, g'.along root p = g.along root p := by
  have halong : ∀ p, g'.along root p = g.along root p := fun p =>
    along_congr fun q x hx name => nested_congr (hsame q x hx)
  refine ⟨⟨?_, fun p x name y hp hy => ?_, fun p x c hp hc => ?_⟩, halong⟩
  · rw [hsame [] root rfl]
    exact h.top
  · rw [halong] at hp
    rw [nested_congr (hsame p x hp)] at hy
    rw [hsame (p ++ [name]) y (by rw [along_concat hp, hy])]
    exact h.held p x name y hp hy
  · rw [halong] at hp
    rw [hsame p x hp] at hc
    exact h.nodup p x c hp hc

theorem grown (hg : Extends g g') : g'.Rooted root ∧ ∀ p, g'.along root p = g.along root p :=
  h.unchanged fun _ _ hp => by
    obtain ⟨c, hc⟩ := h.isClass hp
    rw [hc, Extends.get?_some hg hc]

end

theorem of_linked (h : g.Treelike root) (hroot : ∀ c, g.ClassAt root c → c.parent = none)
    (hnames : ∀ p x name y, g.along root p = some x → g.nested x name = some y →
      ∀ d, g.ClassAt y d → d.name = name)
    (hlinked : g.Linked root g') : g'.Rooted root ∧ ∀ p, g'.along root p = g.along root p := by
  obtain ⟨htree, halong⟩ := h.congr fun p x c hp hc => hlinked.exists_classDef h hp hc
  refine ⟨⟨?_, fun p x name y hp hy => ?_, htree.nodup⟩, halong⟩
  · obtain ⟨c, hc⟩ := h.classDef
    exact ⟨c, by rw [hlinked.get?_self h, hc], hroot c hc⟩
  · have hy' : g.along root (p ++ [name]) = some y := by rw [← halong, along_concat hp, hy]
    obtain ⟨x', hx', hy'⟩ := exists_of_along_concat hy'
    rw [halong, hx'] at hp
    cases hp
    obtain ⟨d, hd⟩ := h.isClass (p ++ [name]) y (by rw [along_concat hx', hy'])
    exact ⟨_, hlinked.below p x name y d hx' hy' hd, hnames p x name y hx' hy' d hd, rfl⟩

theorem merged (h : g.Rooted root) (h' : g.Rooted other) (hapart : g.Apart root other)
    (halong : ∀ p, g'.along root p = (g.along root p).or (g.along other p))
    (hregroups : g.Regroups (fun x => ∃ p, g.along root p = some x) g') :
    g'.Treelike root ∧ (∀ c, g'.ClassAt root c → c.parent = none) ∧
      ∀ p x name y, g'.along root p = some x → g'.nested x name = some y →
        ∀ d, g'.ClassAt y d → d.name = name := by
  -- each class of the merged tree comes from one of the two
  have hcases : ∀ p x, g'.along root p = some x → g.along root p = some x ∨ g.along other p = some x := by
    intro p x hp
    rw [halong] at hp
    exact (Option.or_eq_some_iff.1 hp).imp_right And.right
  have hclass : ∀ p x, g'.along root p = some x → ∃ c t, g.ClassAt x c ∧ c.classes.keys.Nodup ∧
      g'.ClassAt x { c with classes := t } ∧ t.keys.Nodup := by
    intro p x hp
    obtain ⟨c, hc, hnodup⟩ : ∃ c, g.ClassAt x c ∧ c.classes.keys.Nodup := by
      rcases hcases p x hp with hp | hp
      · obtain ⟨c, hc⟩ := h.isClass hp
        exact ⟨c, hc, h.nodup p x c hp hc⟩
      · obtain ⟨c, hc⟩ := h'.isClass hp
        exact ⟨c, hc, h'.nodup p x c hp hc⟩
    obtain ⟨t, ht, hkeys⟩ := hregroups.exists_classDef hc
    exact ⟨c, t, hc, hnodup, ht, hkeys hnodup⟩
  refine ⟨⟨fun p x hp => ?_, fun p q x hp hq => ?_, fun p x c hp hc => ?_⟩, fun c hc => ?_,
    fun p x name y hp hy d hd => ?_⟩
  · obtain ⟨c, t, -, -, ht, -⟩ := hclass p x hp
    exact ⟨_, ht⟩
  · rcases hcases p x hp with hp | hp <;> rcases hcases q x hq with hq | hq
    · exact h.treelike.injective p q x hp hq
    · exact absurd hq (hapart p q x hp)
    · exact absurd hp (hapart q p x hq)
    · exact h'.treelike.injective p q x hp hq
  · obtain ⟨c0, t, -, -, ht, hkeys⟩ := hclass p x hp
    cases ht.symm.trans hc
    exact hkeys
  · obtain ⟨c0, hc0, hparent⟩ := h.top
    obtain ⟨t, ht, -⟩ := hregroups.exists_classDef hc0
    cases ht.symm.trans hc
    exact hparent
  · have hy' : g'.along root (p ++ [name]) = some y := by rw [along_concat hp, hy]
    obtain ⟨c, t, hc, -, ht, -⟩ := hclass _ y hy'
    cases ht.symm.trans hd
    rcases hcases _ y hy' with hy' | hy'
    · obtain ⟨_, d, -, hd, hname, -⟩ := h.held_concat hy'
      cases hc.symm.trans hd
      exact hname
    · obtain ⟨_, d, -, hd, hname, -⟩ := h'.held_concat hy'
      cases hc.symm.trans hd
      exact hname

end Rooted

/-! ### Merged trees -/

/-- The names of the classes that stand in the class at a path, in their order. -/
def namesAt (g : Graph) (root : Id) (p : Path) : List (Option String) := (g.along root p).elim [] g.classNames

/-- The second graph is the first one with the tree `other` merged into the tree `root`. The
paths are those of both. Where both have a class it is the one of the first tree, and the
names that are new to it come behind its own. All classes keep their content, and what is in
neither of the two trees stays as it is. -/
structure Merged (g : Graph) (root other : Id) (g' : Graph) : Prop where
  rooted : g'.Rooted root
  rearranges : g.Rearranges g'
  along : ∀ p, g'.along root p = (g.along root p).or (g.along other p)
  names : ∀ p, g'.namesAt root p = g.namesAt root p ++ (g.namesAt other p).filter (· ∉ g.namesAt root p)
  get? : ∀ x, (∀ p, g.along root p ≠ some x) → (∀ p, g.along other p ≠ some x) → g'.get? x = g.get? x

/-! ### The way outwards -/

theorem Rooted.ancestry (h : g.Rooted root) (hp : g.along root p = some x) :
    ∃ around, g.Ancestry x around ∧ around.length = p.length + 1 ∧ (around.map (·.1)).getLast? = some root ∧
      (around.map (·.2.name)).dropLast.reverse = p := by
  induction p using reverseRecOn generalizing x with
  | nil =>
    cases hp
    obtain ⟨c, hc, hnone⟩ := h.top
    exact ⟨[(root, c)], .root hc hnone, rfl, rfl, rfl⟩
  | append_singleton p name ih =>
    obtain ⟨y, d, hy, hd, hname, hparent⟩ := h.held_concat hp
    obtain ⟨around, haround, hlength, hlast, hnames⟩ := ih hy
    have hne : around.map (·.2.name) ≠ [] := by
      rw [ne_eq, map_eq_nil_iff, ← length_eq_zero_iff, hlength]
      exact Nat.succ_ne_zero _
    refine ⟨(x, d) :: around, .inside hd hparent haround, ?_, ?_, ?_⟩
    · rw [length_cons, hlength, length_append, length_singleton]
    · rw [map_cons, List.getLast?_cons, hlast, Option.getD_some]
    · rw [map_cons, dropLast_cons_of_ne_nil hne, reverse_cons, hnames, hname]

theorem Rooted.hasPath (h : g.Rooted root) (hp : g.along root p = some x) (hne : p ≠ []) : g.HasPath x p := by
  obtain ⟨around, haround, hlength, -, hnames⟩ := h.ancestry hp
  exact ⟨around, haround, hlength ▸ h.treelike.length_lt hp, hnames, hne⟩

end Modelica.Graph

namespace Modelica.Build

open Modelica.Graph Option

variable {g : Graph} {root x : Id} {p : Path} {F : Fault → Graph → Prop}

theorem ends_rootOf (h : g.Rooted root) (hp : g.along root p = some x) {Q} : Ends (rootOf x) g Q F ↔ Q root g := by
  obtain ⟨around, haround, hlength, hlast, -⟩ := h.ancestry hp
  have hle : around.length ≤ g.size + 1 := hlength ▸ Nat.succ_le_succ (h.treelike.length_lt hp).le
  simp [rootOf, enclosing, ends_ancestors haround hle, hlast]

/-! ### Merging -/

theorem extend_runs {other} (h : g.Rooted root) (h' : g.Rooted other) (hne : root ≠ other) :
    Runs (extend root other) g fun _ g' => g.Merged root other g' := by
  have hapart := h.apart h' hne
  simp only [extend, ends_bind, ends_size]
  refine (merge_runs h.treelike h'.treelike hapart fun p x hp =>
    Nat.lt_succ_of_lt (h'.treelike.length_lt hp)).imp fun _ g1 hmerged => ?_
  obtain ⟨halong, hnames, hregroups⟩ := hmerged
  obtain ⟨htree, hroot, hown⟩ := h.merged h' hapart halong hregroups
  refine (linkAll_runs htree).imp fun _ g2 hlinked => ?_
  obtain ⟨hrooted, halong'⟩ := Rooted.of_linked htree hroot hown hlinked
  refine ⟨hrooted, (hregroups.rearranges ?_).trans hlinked.rearranges, fun p => by rw [halong', halong], fun p => ?_,
    fun x hx hx' => ?_⟩
  · rintro x ⟨p, hp⟩
    exact h.isClass hp
  · have hnames' : ∀ x, g1.along root p = some x → g2.classNames x = g1.classNames x := fun x hp => hlinked.names htree hp
    rw [halong] at hnames'
    rw [namesAt, namesAt, namesAt, halong', halong]
    cases hp : g.along root p with
    | some x =>
      rw [hp, some_or] at hnames'
      rw [some_or, elim_some, elim_some, hnames' x rfl, hnames p x hp, namesWith]
    | none =>
      rw [hp, none_or] at hnames'
      rw [none_or, elim_none, List.nil_append, List.filter_eq_self.2 (by simp)]
      cases hq : g.along other p with
      | none => rfl
      | some x =>
        rw [elim_some, elim_some, hnames' x hq]
        exact classNames_congr (hregroups.get? x fun hmem => hmem.elim fun q hq' => hapart q p x hq' hq)
  · rw [hlinked.get? x fun name q hq => ?_, hregroups.get? x fun hmem => hmem.elim hx]
    rw [halong] at hq
    rcases or_eq_some_iff.1 hq with hq | ⟨-, hq⟩
    · exact hx _ hq
    · exact hx' _ hq

end Modelica.Build
