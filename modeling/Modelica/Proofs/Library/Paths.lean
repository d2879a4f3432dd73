/-
Paths of class names.

`along g id path` is the class that a path leads to from the class `id`. Below a class
that is `Treelike` no two paths lead to the same class, so that a change to a class shows
on one path only, and no path is longer than the graph is large (`Treelike.length_lt`).
-/
import Modelica.Library
import Modelica.Proofs.Graph.Duplicate
import Modelica.Proofs.Table

namespace Modelica

open List Option

/-- Class names from the outside inwards. A class without a name stands under `none`. -/
abbrev Path := List (Option String)

namespace Graph

/-- The class that stands in another one under a name. -/
def nested (g : Graph) (id : Id) (name : Option String) : Option Id :=
  match g.get? id with
  | some (.classDef c) => c.classes.get? name
  | _ => none

/-- The names of the classes that stand in a class, in order. -/
def classNames (g : Graph) (id : Id) : List (Option String) :=
  match g.get? id with
  | some (.classDef c) => c.classes.keys
  | _ => []

/-- The class that a path leads to. -/
def along (g : Graph) : Id → Path → Option Id
  | id, [] => some id
  | id, name :: rest => (g.nested id name).bind fun child => g.along child rest

variable {g g' : Graph} {id child x y : Id} {c : ClassDef} {name : Option String} {p q : Path}

theorem nested_eq (hc : g.ClassAt id c) : g.nested id name = c.classes.get? name := by
  simp only [nested, hc]

theorem classNames_eq (hc : g.ClassAt id c) : g.classNames id = c.classes.keys := by
  simp only [classNames, hc]

theorem mem_classNames_iff : name ∈ g.classNames id ↔ ∃ child, g.nested id name = some child := by
  unfold classNames nested
  split
  · exact Table.mem_keys_iff
  · simp

@[simp] theorem along_nil : g.along id [] = some id := rfl

theorem along_cons : g.along id (name :: p) = (g.nested id name).bind fun child => g.along child p := rfl

theorem along_singleton : g.along id [name] = g.nested id name := by
  rw [along_cons]
  cases g.nested id name <;> rfl

theorem along_append : g.along id (p ++ q) = (g.along id p).bind fun x => g.along x q := by
  induction p generalizing id with
  | nil => rfl
  | cons name p ih =>
    rw [cons_append, along_cons, along_cons, bind_assoc]
    cases g.nested id name with
    | none => rfl
    | some child => exact ih

theorem along_concat (hx : g.along id p = some x) : g.along id (p ++ [name]) = g.nested x name := by
  rw [along_append, hx, bind_some, along_singleton]

theorem exists_of_along_concat (h : g.along id (p ++ [name]) = some y) :
    ∃ x, g.along id p = some x ∧ g.nested x name = some y := by
  rw [along_append, bind_eq_some_iff] at h
  obtain ⟨x, hx, hy⟩ := h
  rw [along_singleton] at hy
  exact ⟨x, hx, hy⟩

/-- Paths lead where they led if no class on the way has changed its nested ones. -/
theorem along_congr (h : ∀ p x, g.along id p = some x → ∀ name, g'.nested x name = g.nested x name) :
    g'.along id p = g.along id p := by
  induction p generalizing id with
  | nil => rfl
  | cons name p ih =>
    rw [along_cons, along_cons, h [] id rfl name]
    cases hchild : g.nested id name with
    | none => rfl
    | some child =>
      refine ih fun q x hx => h (name :: q) x ?_
      rw [along_cons, hchild]
      exact hx

theorem nested_congr (h : g'.get? id = g.get? id) : g'.nested id name = g.nested id name := by
  simp only [nested, h]

theorem classNames_congr (h : g'.get? id = g.get? id) : g'.classNames id = g.classNames id := by
  simp only [classNames, h]

/-- No two paths from a class lead to the same class. -/
structure Treelike (g : Graph) (id : Id) : Prop where
  isClass : ∀ p x, g.along id p = some x → g.IsClass x
  injective : ∀ p q x, g.along id p = some x → g.along id q = some x → p = q
  nodup : ∀ p x c, g.along id p = some x → g.get? x = some (.classDef c) → c.classes.keys.Nodup

namespace Treelike

section

variable (h : g.Treelike id)

include h

theorem classDef : ∃ c, g.ClassAt id c := h.isClass [] id rfl

section

variable (hchild : g.nested id name = some child)

include hchild

theorem nested : g.Treelike child := by
  have hcons : ∀ q, g.along id (name :: q) = g.along child q := fun q => by rw [along_cons, hchild, bind_some]
  refine ⟨fun p x hx => h.isClass (name :: p) x (by rwa [hcons]), fun p q x hp hq => ?_,
    fun p x c hx => h.nodup (name :: p) x c (by rwa [hcons])⟩
  have := h.injective (name :: p) (name :: q) x (by rwa [hcons]) (by rwa [hcons])
  exact (cons.inj this).2

theorem not_along_nested : g.along child p ≠ some id := by
  intro hp
  have := h.injective (name :: p) [] id (by rw [along_cons, hchild, bind_some, hp]) rfl
  cases this

theorem apart_nested {name' child'} (hchild' : g.nested id name' = some child')
    (hne : name' ≠ name) (hp : g.along child p = some x) : g.along child' q ≠ some x := by
  intro hq
  have := h.injective (name :: p) (name' :: q) x (by rwa [along_cons, hchild]) (by rwa [along_cons, hchild'])
  exact hne (cons.inj this).1.symm

end

theorem exists_nodup (hp : g.along id p = some x) :
    ∃ ids : List Id, ids.length = p.length + 1 ∧ ids.Nodup ∧ ∀ a ∈ ids, ∃ q, g.along id q = some a := by
  induction p generalizing id with
  | nil => exact ⟨[id], rfl, by simp, fun a ha => ⟨[], by rw [mem_singleton.1 ha, along_nil]⟩⟩
  | cons name p ih =>
    rw [along_cons, bind_eq_some_iff] at hp
    obtain ⟨child, hchild, hp⟩ := hp
    obtain ⟨ids, hlen, hnodup, hmem⟩ := ih (h.nested hchild) hp
    refine ⟨id :: ids, by simp [hlen], nodup_cons.2 ⟨fun hid => ?_, hnodup⟩, fun a ha => ?_⟩
    · obtain ⟨q, hq⟩ := hmem id hid
      exact h.not_along_nested hchild hq
    · rcases mem_cons.1 ha with rfl | ha
      · exact ⟨[], rfl⟩
      · obtain ⟨q, hq⟩ := hmem a ha
        exact ⟨name :: q, by rw [along_cons, hchild, bind_some, hq]⟩

theorem length_lt (hp : g.along id p = some x) : p.length < g.size := by
  obtain ⟨ids, hlen, hnodup, hmem⟩ := h.exists_nodup hp
  have hsub : ids ⊆ range g.size := by
    intro a ha
    obtain ⟨q, hq⟩ := hmem a ha
    obtain ⟨c, hc⟩ := h.isClass q a hq
    exact mem_range.2 (get?_lt hc)
  have hle := (subperm_of_subset hnodup hsub).length_le
  rw [hlen, length_range] at hle
  exact hle

/-- Whether classes hang like a tree depends on their tables of nested classes only. -/
theorem congr (hsame : ∀ p x c, g.along id p = some x → g.ClassAt x c →
    ∃ c', g'.ClassAt x c' ∧ c'.classes = c.classes) : g'.Treelike id ∧ ∀ p, g'.along id p = g.along id p := by
  have halong : ∀ p, g'.along id p = g.along id p := fun p => along_congr fun q x hx name => by
    obtain ⟨c, hc⟩ := h.isClass q x hx
    obtain ⟨c', hc', hclasses⟩ := hsame q x c hx hc
    rw [nested_eq hc, nested_eq hc', hclasses]
  refine ⟨⟨fun p x hx => ?_, fun p q x hp hq => ?_, fun p x c hx hc => ?_⟩, halong⟩
  · rw [halong] at hx
    obtain ⟨c, hc⟩ := h.isClass p x hx
    obtain ⟨c', hc', -⟩ := hsame p x c hx hc
    exact ⟨c', hc'⟩
  · rw [halong] at hp hq
    exact h.injective p q x hp hq
  · rw [halong] at hx
    obtain ⟨c0, hc0⟩ := h.isClass p x hx
    obtain ⟨c', hc', hclasses⟩ := hsame p x c0 hx hc0
    cases hc.symm.trans hc'
    rw [hclasses]
    exact h.nodup p x c0 hx hc0

/-- What hangs below a class stays as it is where none of its classes is touched. -/
theorem unchanged (hsame : ∀ p x, g.along id p = some x → g'.get? x = g.get? x) : g'.Treelike id :=
  (h.congr fun p x c hx hc => ⟨c, (hsame p x hx).trans hc, rfl⟩).1

end

end Treelike
end Graph
end Modelica
