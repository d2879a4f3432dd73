/-
Looking a class up by its name.

Where every class is linked to the one it stands in (`Hangs`), the classes around a class
are those on the path to it (`Hangs.ancestry`). So a look-up can be said by paths from the
root alone: the name is put behind every beginning of the path, and the longest one that
leads to a class decides (`findOriginal_innermost`).
-/
import Modelica.Proofs.Flat.Arguments
import Modelica.Proofs.Library.Paths
import Mathlib.Data.List.Infix
import Mathlib.Data.List.Induction

namespace Modelica

open List

namespace Graph

variable {g : Graph} {root id x : Id} {p : Path} {around around' : List (Id × ClassDef)}

/-- Every class below the root is linked to the class it stands in. -/
structure Hangs (g : Graph) (root : Id) : Prop where
  top : ∃ c, g.get? root = some (.classDef c) ∧ c.parent = none
  held : ∀ p x name y, g.along root p = some x → g.nested x name = some y →
    ∃ d, g.get? y = some (.classDef d) ∧ d.parent = some x

theorem entry_of_nested {name} (h : g.nested id name = some x) :
    ∃ c, g.ClassAt id c ∧ (name, x) ∈ c.classes.entries := by
  unfold nested at h
  split at h
  · next c hc => exact ⟨c, hc, Table.mem_entries_of_get? h⟩
  · cases h

namespace Ancestry

variable (h : g.Ancestry id around)

include h

theorem unique (h' : g.Ancestry id around') : around = around' := by
  induction h generalizing around' with
  | root hc hparent =>
    cases h' with
    | root hc' _ => grind
    | inside hc' hparent' _ => grind
  | inside hc hparent _ ih =>
    cases h' with
    | root hc' hparent' => grind
    | inside hc' hparent' h' =>
      cases hc.symm.trans hc'
      cases hparent.symm.trans hparent'
      rw [ih h']

/-- The classes around one of the classes around a class are the last ones of these. -/
theorem suffix_of_mem (hx : x ∈ around.map (·.1)) : ∃ outer, g.Ancestry x outer ∧ outer.length ≤ around.length := by
  induction h with
  | root hc hparent =>
    cases mem_singleton.1 hx
    exact ⟨_, .root hc hparent, le_rfl⟩
  | inside hc hparent h ih =>
    rcases mem_cons.1 hx with rfl | hx
    · exact ⟨_, .inside hc hparent h, le_rfl⟩
    · obtain ⟨outer, houter, hlen⟩ := ih hx
      exact ⟨outer, houter, hlen.trans (Nat.le_succ _)⟩

theorem nodup : (around.map (·.1)).Nodup := by
  induction h with
  | root => exact nodup_singleton _
  | inside hc hparent h ih =>
    refine nodup_cons.2 ⟨fun hmem => ?_, ih⟩
    -- A class among those around it would have a longer and a shorter way outwards.
    obtain ⟨outer, houter, hlen⟩ := h.suffix_of_mem hmem
    rw [houter.unique (.inside hc hparent h)] at hlen
    exact absurd hlen (Nat.not_succ_le_self _)

theorem isClass (hx : x ∈ around.map (·.1)) : x < g.size := by
  obtain ⟨outer, houter, -⟩ := h.suffix_of_mem hx
  cases houter with
  | root hc _ => exact get?_lt hc
  | inside hc _ _ => exact get?_lt hc

theorem length_le : around.length ≤ g.size := by
  have hsub : around.map (·.1) ⊆ range g.size := fun x hx => mem_range.2 (h.isClass hx)
  simpa using (subperm_of_subset h.nodup hsub).length_le

end Ancestry

namespace Hangs

variable (h : g.Hangs root)

include h

theorem classDef (hp : g.along root p = some x) : ∃ c, g.ClassAt x c := by
  cases p using reverseRecOn with
  | nil =>
    cases hp
    obtain ⟨c, hc, -⟩ := h.top
    exact ⟨c, hc⟩
  | append_singleton p name =>
    obtain ⟨y, hy, hx⟩ := exists_of_along_concat hp
    obtain ⟨d, hd, -⟩ := h.held p y name x hy hx
    exact ⟨d, hd⟩

/-- The classes around a class, from the inside outwards, are those at the beginnings of its
path, from the longest to the shortest. -/
theorem ancestry (hp : g.along root p = some x) :
    ∃ around, g.Ancestry x around ∧ around.map (fun a => some a.1) = p.inits.reverse.map (g.along root) := by
  induction p using reverseRecOn generalizing x with
  | nil =>
    cases hp
    obtain ⟨c, hc, hnone⟩ := h.top
    exact ⟨[(root, c)], .root hc hnone, rfl⟩
  | append_singleton p name ih =>
    obtain ⟨y, hy, hx⟩ := exists_of_along_concat hp
    obtain ⟨d, hd, hparent⟩ := h.held p y name x hy hx
    obtain ⟨around, haround, hids⟩ := ih hy
    refine ⟨(x, d) :: around, .inside hd hparent haround, ?_⟩
    simp [hids, hp]

end Hangs
end Graph

namespace Build

open Modelica.Graph

variable {g : Graph} {root s id : Id} {p : Path} {name : String} {rest r : List String}

theorem follow_eq (h : g.Hangs root) (hp : g.along root p = some id) (name : String) (rest : List String) :
    follow id (name :: rest) g = .ok (g.along id ((name :: rest).map some)) g := by
  induction rest generalizing p id name with
  | nil =>
    obtain ⟨c, hc⟩ := h.classDef hp
    have hrun : Runs (follow id [name]) g fun o g' => o = g.nested id (some name) ∧ g' = g := by
      simp [follow, ends_classAt hc, nested_eq hc]
    obtain ⟨o, g', hrun, rfl, rfl⟩ := runs_iff.1 hrun
    rw [hrun, map_cons, map_nil, along_singleton]
  | cons next rest ih =>
    obtain ⟨c, hc⟩ := h.classDef hp
    have hrun : Runs (follow id (name :: next :: rest)) g fun o g' =>
        o = g.along id ((name :: next :: rest).map some) ∧ g' = g := by
      rw [map_cons, along_cons, nested_eq hc]
      simp only [follow, ends_bind, ends_classAt hc]
      cases hname : c.classes.get? (some name) with
      | none => exact ⟨rfl, rfl⟩
      | some child =>
        have hchild : g.along root (p ++ [some name]) = some child := by rw [along_concat hp, nested_eq hc, hname]
        exact runs_iff.2 ⟨_, _, ih hchild next, rfl, rfl⟩
    obtain ⟨o, g', hrun, rfl, rfl⟩ := runs_iff.1 hrun
    exact hrun

theorem searchIn_eq {scopes} {paths : List Path} (h : g.Hangs root)
    (hscopes : scopes.map some = paths.map (g.along root)) :
    searchIn (name :: rest) scopes g = match paths.findSome? fun q => g.along root (q ++ (name :: rest).map some) with
      | some c => .ok c g
      | none => .error (.classNotFound (dottedText (name :: rest))) g := by
  induction scopes generalizing paths with
  | nil =>
    obtain rfl := map_eq_nil_iff.1 hscopes.symm
    rfl
  | cons scope scopes ih =>
    obtain ⟨q, paths, rfl, hq, hrest⟩ := map_eq_cons_iff.1 hscopes.symm
    have hfollow : g.along root (q ++ (name :: rest).map some) = g.along scope ((name :: rest).map some) := by
      rw [along_append, hq, Option.bind_some]
    rw [List.findSome?_cons, hfollow]
    simp only [searchIn, bind, EStateM.bind, follow_eq h hq]
    cases g.along scope ((name :: rest).map some) with
    | some c => rfl
    | none => exact ih hrest.symm

theorem search_eq (h : g.Hangs root) (hs : g.along root p = some s) :
    search s (name :: rest) g = match p.inits.reverse.findSome? fun q => g.along root (q ++ (name :: rest).map some) with
      | some c => .ok c g
      | none => .error (.classNotFound (dottedText (name :: rest))) g := by
  obtain ⟨around, haround, hids⟩ := h.ancestry hs
  have hrun : Runs (enclosing s) g fun l g' => l = around.map (·.1) ∧ g' = g := by
    simp [enclosing, ends_ancestors haround (Nat.le_succ_of_le haround.length_le)]
  obtain ⟨_, _, hrun, rfl, rfl⟩ := runs_iff.1 hrun
  simp only [search, bind, EStateM.bind, hrun]
  exact searchIn_eq h (by rw [map_map, ← hids]; rfl)

end Build

/-- Of the beginnings of a path, looked at from the longest on, the first with an answer is
the longest with one. -/
theorem findSome?_inits_reverse {α β : Type} {f} {p : List α} {b : β} : p.inits.reverse.findSome? f = some b ↔
      ∃ q, q <+: p ∧ f q = some b ∧ ∀ q', q' <+: p → q.length < q'.length → f q' = none := by
  induction p using reverseRecOn with
  | nil => simp
  | append_singleton p a ih =>
    have hinits : (p ++ [a]).inits.reverse = (p ++ [a]) :: p.inits.reverse := by simp
    have hshort : ∀ {q}, q <+: p → q.length < (p ++ [a]).length := fun hq => by
      simpa using Nat.lt_succ_of_le hq.length_le
    rw [hinits, List.findSome?_cons]
    cases hwhole : f (p ++ [a]) with
    | some b' =>
      constructor
      · rintro ⟨⟩
        refine ⟨p ++ [a], prefix_rfl, hwhole, fun q' hq' hlt => ?_⟩
        exact absurd hq'.length_le (Nat.not_le.2 hlt)
      · rintro ⟨q, hq, hb, hlonger⟩
        rcases prefix_concat_iff.1 hq with rfl | hq
        · rw [← hwhole, hb]
        · cases hwhole.symm.trans (hlonger _ prefix_rfl (hshort hq))
    | none =>
      rw [ih]
      constructor
      · rintro ⟨q, hq, hb, hlonger⟩
        refine ⟨q, hq.trans (prefix_append _ _), hb, fun q' hq' hlt => ?_⟩
        rcases prefix_concat_iff.1 hq' with rfl | hq'
        · exact hwhole
        · exact hlonger q' hq' hlt
      · rintro ⟨q, hq, hb, hlonger⟩
        rcases prefix_concat_iff.1 hq with rfl | hq
        · cases hwhole.symm.trans hb
        · exact ⟨q, hq, hb, fun q' hq' => hlonger q' (hq'.trans (prefix_append _ _))⟩

namespace Build

open Modelica.Graph

/-- **Looking a class up.** From the class at the path `p` a name leads to the class at the
path it makes behind the longest beginning of `p` behind which it leads anywhere. If there is
none, the look-up fails and says the whole name. -/
theorem findOriginal_innermost {g : Graph} {root s : Id} {p : Path} {name : String} (rest : List String)
    (h : g.Hangs root) (hs : g.along root p = some s) (hname : name ∉ elementaryNames) :
    (∀ c g', findOriginal s (name :: rest) g = .ok c g' ↔ g' = g ∧
      ∃ q, q <+: p ∧ g.along root (q ++ (name :: rest).map some) = some c ∧
        ∀ q', q' <+: p → q.length < q'.length → g.along root (q' ++ (name :: rest).map some) = none) ∧
    ∀ f g', findOriginal s (name :: rest) g = .error f g' ↔ g' = g ∧ f = .classNotFound (dottedText (name :: rest)) ∧
      ∀ q, q <+: p → g.along root (q ++ (name :: rest).map some) = none := by
  have hfind : findOriginal s (name :: rest) = search s (name :: rest) := by
    simp [findOriginal, isElementary, hname]
  rw [hfind, search_eq h hs]
  have hnone : (p.inits.reverse.findSome? fun q => g.along root (q ++ (name :: rest).map some)) = none ↔
      ∀ q, q <+: p → g.along root (q ++ (name :: rest).map some) = none := by simp
  constructor
  · intro c g'
    rw [← findSome?_inits_reverse]
    cases p.inits.reverse.findSome? fun q => g.along root (q ++ (name :: rest).map some) <;>
      simp [eq_comm, and_comm]
  · intro f g'
    rw [← hnone]
    cases p.inits.reverse.findSome? fun q => g.along root (q ++ (name :: rest).map some) <;>
      simp [eq_comm, and_comm]

/-- The class `A` with `B` in it, and beside it `M` with another `A` that has no `B`. -/
def shadowed : Graph where
  elements := #[
    .classDef { role := .tree, classes := ⟨[(some "A", 1), (some "M", 3)]⟩ },
    .classDef { name := some "A", classes := ⟨[(some "B", 2)]⟩, parent := some 0 },
    .classDef { name := some "B", parent := some 1 },
    .classDef { name := some "M", classes := ⟨[(some "A", 4)]⟩, parent := some 0 },
    .classDef { name := some "A", parent := some 3 }]

theorem shadowed_hangs : shadowed.Hangs 0 := by
  refine ⟨⟨_, rfl, rfl⟩, fun p x name y _ hy => ?_⟩
  obtain ⟨c, hc, hmem⟩ := entry_of_nested hy
  rcases x with _ | _ | _ | _ | _ | x <;> cases hc <;> simp at hmem
  · rcases hmem with ⟨-, rfl⟩ | ⟨-, rfl⟩ <;> exact ⟨_, rfl, rfl⟩
  · obtain ⟨-, rfl⟩ := hmem
    exact ⟨_, rfl, rfl⟩
  · obtain ⟨-, rfl⟩ := hmem
    exact ⟨_, rfl, rfl⟩

/-- In `M` the name `A` means the `A` of `M`, but `A.B` the `B` of the other one, and there is
no `A.C`. -/
theorem findOriginal_innermost_shadowed : findOriginal 3 ["A"] shadowed = .ok 4 shadowed ∧
    findOriginal 3 ["A", "B"] shadowed = .ok 2 shadowed ∧
    findOriginal 3 ["A", "C"] shadowed = .error (.classNotFound "A.C") shadowed := by
  have hA : "A" ∉ elementaryNames := by decide
  have hs : shadowed.along 0 [some "M"] = some 3 := rfl
  refine ⟨((findOriginal_innermost [] shadowed_hangs hs hA).1 4 _).2 ⟨rfl, [some "M"], List.prefix_rfl, rfl, ?_⟩,
    ((findOriginal_innermost ["B"] shadowed_hangs hs hA).1 2 _).2 ⟨rfl, [], List.nil_prefix, rfl, ?_⟩,
    ((findOriginal_innermost ["C"] shadowed_hangs hs hA).2 _ _).2 ⟨rfl, rfl, ?_⟩⟩
  · exact fun q hq hlt => absurd hq.length_le (Nat.not_le.2 hlt)
  · intro q hq hlt
    rcases List.prefix_concat_iff.1 (show q <+: [] ++ [some "M"] from hq) with rfl | hq
    · rfl
    · simp [List.prefix_nil.1 hq] at hlt
  · intro q hq
    rcases List.prefix_concat_iff.1 (show q <+: [] ++ [some "M"] from hq) with rfl | hq
    · rfl
    · cases List.prefix_nil.1 hq
      rfl

end Build
end Modelica
