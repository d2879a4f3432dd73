/-
Adding classes to a tree and removing them.

A class may be added to a class of a tree together with all that hangs below it, if it
stands in no class yet (`addClass_runs`). When a class is removed, it is no longer part of
the tree, and neither is what hangs below it (`removeClass_ends`); a class that is not there
cannot be removed, and the attempt changes nothing. Both write to two classes only: one gets
another table, the other one another link (`Relinked`).
-/
import Modelica.Graph.Edit
import Modelica.Proofs.Library.Rooted
import Modelica.Proofs.Read.Classes

namespace Modelica.Graph

open List

variable {g g' : Graph} {root new id x y c : Id} {k : ClassDef} {name : Option String} {p q : Path}

/-- The name of a class. -/
def nameOf (g : Graph) (id : Id) : Option String :=
  match g.get? id with
  | some (.classDef c) => c.name
  | _ => none

theorem nameOf_eq (hk : g.ClassAt id k) : g.nameOf id = k.name := by
  simp only [nameOf, hk]

theorem extends_withClass (g : Graph) (k : ClassDef) : Extends g (g.withClass k) :=
  ⟨by simp, fun _ hid _ => get?_withClass_of_lt k hid⟩

theorem rooted_withClass (g : Graph) (hclasses : k.classes = {}) (hparent : k.parent = none) :
    (g.withClass k).Rooted g.size := by
  have hself := get?_withClass_self g k
  have hnested : ∀ name, (g.withClass k).nested g.size name = none := fun name => by
    rw [nested_eq hself, hclasses]
    rfl
  have halong : ∀ p x, (g.withClass k).along g.size p = some x → x = g.size := fun p x hp => by
    cases p with
    | nil => exact (Option.some.inj hp).symm
    | cons name p =>
      rw [along_cons, hnested] at hp
      cases hp
  refine ⟨⟨_, hself, hparent⟩, fun p x name y hp hy => ?_, fun p x c hp hc => ?_⟩
  · rw [halong p x hp, hnested] at hy
    cases hy
  · rw [halong p x hp, hself] at hc
    cases hc
    show k.classes.keys.Nodup
    rw [hclasses]
    exact nodup_nil

/-- The class `x` has another table of classes, and the class `c` another link. -/
structure Relinked (g : Graph) (x c : Id) (t : Table (Option String) Id → Table (Option String) Id) (parent : Option Id)
    (g' : Graph) : Prop where
  holder : ∀ k, g.get? x = some (.classDef k) → g'.get? x = some (.classDef { k with classes := t k.classes })
  moved : ∀ k, g.get? c = some (.classDef k) → g'.get? c = some (.classDef { k with parent })
  other : ∀ y, y ≠ x → y ≠ c → g'.get? y = g.get? y

namespace Relinked

variable {t : Table (Option String) Id → Table (Option String) Id} {parent : Option Id}

variable (h : g.Relinked x c t parent g')

include h

theorem nested_other (hc : g.IsClass c) (hy : y ≠ x) : g'.nested y name = g.nested y name := by
  by_cases hyc : y = c
  · obtain ⟨k, hk⟩ := hc
    rw [hyc, nested_eq (h.moved k hk), nested_eq hk]
  · exact nested_congr (h.other y hy hyc)

theorem exists_classDef (hy : y ≠ c) (hk : g.ClassAt y k) :
    ∃ k', g'.ClassAt y k' ∧ k'.name = k.name ∧ k'.parent = k.parent := by
  by_cases hyx : y = x
  · subst hyx
    exact ⟨_, h.holder k hk, rfl, rfl⟩
  · exact ⟨k, (h.other y hyx hy).trans hk, rfl, rfl⟩

theorem nodup (hxc : x ≠ c) (hc : g.IsClass c) (hx : g.IsClass x) (hy : g.IsClass y)
    (ht : ∀ t', t'.keys.Nodup → (t t').keys.Nodup) (hold : ∀ k, g.ClassAt y k → k.classes.keys.Nodup) :
    ∀ k, g'.ClassAt y k → k.classes.keys.Nodup := by
  intro k hk
  obtain ⟨k0, hk0⟩ := hy
  by_cases hyx : y = x
  · subst hyx
    cases (h.holder k0 hk0).symm.trans hk
    exact ht _ (hold k0 hk0)
  · by_cases hyc : y = c
    · subst hyc
      cases (h.moved k0 hk0).symm.trans hk
      exact hold k0 hk0
    · exact hold k ((h.other y hyx hyc).symm.trans hk)

end Relinked

/-! ### Adding -/

/-- A class has been added to another one. -/
abbrev Added (g : Graph) (x new : Id) (g' : Graph) : Prop :=
  g.Relinked x new (fun t => t.insert (g.nameOf new) new) (some x) g'

namespace Added

theorem nested_self (h : g.Added x new g') (hx : g.IsClass x) :
    g'.nested x name = if name = g.nameOf new then some new else g.nested x name := by
  obtain ⟨k, hk⟩ := hx
  rw [nested_eq (h.holder k hk), Table.get?_insert, nested_eq hk]

variable (hadd : g.Added x new g') (h : g.Rooted root) (hp : g.along root p = some x) (h' : g.Rooted new) (hne : root ≠ new)

include hadd h hp h' hne

/-- The paths in the new tree are those in the old one, or lead through the new class. -/
theorem along_cases (hq : g'.along root q = some y) :
    g.along root q = some y ∨ ∃ r, q = p ++ g.nameOf new :: r ∧ g.along new r = some y := by
  have hnew := h'.isClass (p := []) rfl
  induction q using reverseRecOn generalizing y with
  | nil => exact .inl hq
  | append_singleton q name ih =>
    obtain ⟨z, hz, hy⟩ := exists_of_along_concat hq
    rcases ih hz with hz | ⟨r, hq', hz⟩
    · by_cases hzx : z = x
      · subst hzx
        rw [hadd.nested_self (h.isClass hp)] at hy
        split at hy
        · next hname =>
          cases hy
          exact .inr ⟨[], by rw [(h.along_unique h hz hp).2, hname], rfl⟩
        · exact .inl (by rw [along_concat hz, hy])
      · rw [hadd.nested_other hnew hzx] at hy
        exact .inl (by rw [along_concat hz, hy])
    · have hzx : z ≠ x := fun he => h.apart h' hne p r x hp (he ▸ hz)
      rw [hadd.nested_other hnew hzx] at hy
      exact .inr ⟨r ++ [name], by rw [hq', append_assoc, cons_append], by rw [along_concat hz, hy]⟩

theorem rooted : g'.Rooted root := by
  have hapart := h.apart h' hne
  have hxn : x ≠ new := fun he => hapart p [] x hp (by rw [he, along_nil])
  obtain ⟨kn, hkn, hnone⟩ := h'.top
  have hnew : g.IsClass new := ⟨kn, hkn⟩
  have hcases : ∀ q y, g'.along root q = some y → _ := fun q y hq => hadd.along_cases h hp h' hne hq
  have hold : ∀ q y d, g.along root q = some y → g.ClassAt y d →
      ∃ d', g'.ClassAt y d' ∧ d'.name = d.name ∧ d'.parent = d.parent := fun q y d hq hd =>
    hadd.exists_classDef (fun he => hapart q [] y hq (by rw [he, along_nil])) hd
  have hheld : ∀ q z name y, g.along root q = some z → g.nested z name = some y →
      ∃ d, g'.ClassAt y d ∧ d.name = name ∧ d.parent = some z := by
    intro q z name y hz hy
    obtain ⟨d, hd, hname, hparent⟩ := h.held q z name y hz hy
    obtain ⟨d', hd', hname', hparent'⟩ := hold (q ++ [name]) y d (by rw [along_concat hz, hy]) hd
    exact ⟨d', hd', hname'.trans hname, hparent'.trans hparent⟩
  refine ⟨?_, fun q z name y hq hy => ?_, fun q z d hq hd => ?_⟩
  · obtain ⟨c, hc, htop⟩ := h.top
    obtain ⟨d, hd, -, hparent⟩ := hold [] root c rfl hc
    exact ⟨d, hd, hparent.trans htop⟩
  · rcases hcases q z hq with hz | ⟨r, -, hz⟩
    · by_cases hzx : z = x
      · subst hzx
        rw [hadd.nested_self (h.isClass hp)] at hy
        split at hy
        · next hname =>
          cases hy
          exact ⟨_, hadd.moved kn hkn, by rw [hname, nameOf_eq hkn], rfl⟩
        · exact hheld q z name y hz hy
      · rw [hadd.nested_other hnew hzx] at hy
        exact hheld q z name y hz hy
    · -- what hangs below the new class is as before
      have hzx : z ≠ x := fun he => hapart p r x hp (he ▸ hz)
      rw [hadd.nested_other hnew hzx] at hy
      obtain ⟨d, hd, hname, hparent⟩ := h'.held r z name y hz hy
      refine ⟨d, ?_, hname, hparent⟩
      rw [hadd.other y (fun he => hapart p (r ++ [name]) x hp (by rw [along_concat hz, hy, he])) ?_, hd]
      rintro rfl
      cases hkn.symm.trans hd
      cases hnone.symm.trans hparent
  · have hnodup : g.IsClass z ∧ ∀ k, g.ClassAt z k → k.classes.keys.Nodup := by
      rcases hcases q z hq with hz | ⟨r, -, hz⟩
      · exact ⟨h.isClass hz, fun k => h.nodup q z k hz⟩
      · exact ⟨h'.isClass hz, fun k => h'.nodup r z k hz⟩
    exact hadd.nodup hxn hnew (h.isClass hp) hnodup.1 (fun t ht => Table.nodup_keys_insert ht _ _) hnodup.2 d hd

end Added

/-! ### Removing -/

/-- A class has been removed from another one. -/
abbrev Removed (g : Graph) (x c : Id) (g' : Graph) : Prop :=
  g.Relinked x c (fun t => t.erase (g.nameOf c)) none g'

namespace Removed

variable (hrem : g.Removed x c g') (h : g.Rooted root) (hp : g.along root p = some x) (hc : g.IsClass c)
  (honly : ∀ q, g.along root q = some c → q = p ++ [g.nameOf c])

include hrem h hp hc honly

/-- The paths in the new tree are those in the old one that do not lead to the class. -/
theorem along_cases (hq : g'.along root q = some y) : g.along root q = some y ∧ y ≠ c := by
  induction q using reverseRecOn generalizing y with
  | nil =>
    refine ⟨hq, ?_⟩
    rintro rfl
    cases hq
    exact append_ne_nil_of_right_ne_nil p (cons_ne_nil _ _) (honly [] rfl).symm
  | append_singleton q name ih =>
    obtain ⟨z, hz, hy⟩ := exists_of_along_concat hq
    obtain ⟨hz, -⟩ := ih hz
    have hnested : g.nested z name = some y ∧ ¬ (z = x ∧ name = g.nameOf c) := by
      by_cases hzx : z = x
      · subst hzx
        obtain ⟨k, hk⟩ := h.isClass hp
        rw [nested_eq (hrem.holder k hk), Table.get?_erase, ← nested_eq hk] at hy
        split at hy
        · cases hy
        · next hname => exact ⟨hy, fun hand => hname hand.2⟩
      · rw [hrem.nested_other hc hzx] at hy
        exact ⟨hy, fun hand => hzx hand.1⟩
    have hy' : g.along root (q ++ [name]) = some y := by rw [along_concat hz, hnested.1]
    refine ⟨hy', ?_⟩
    rintro rfl
    obtain ⟨rfl, hname⟩ := append_inj' (honly _ hy') rfl
    rw [hz] at hp
    exact hnested.2 ⟨Option.some.inj hp, (cons.inj hname).1⟩

theorem rooted : g'.Rooted root := by
  have hx := h.isClass hp
  have hxc : x ≠ c := by
    rintro rfl
    simpa using honly p hp
  have hcases : ∀ q y, g'.along root q = some y → g.along root q = some y ∧ y ≠ c := fun q y hq =>
    hrem.along_cases h hp hc honly hq
  refine ⟨?_, fun q z name y hq hy => ?_, fun q z k hq hk => ?_⟩
  · obtain ⟨k, hk, htop⟩ := h.top
    obtain ⟨d, hd, -, hparent⟩ := hrem.exists_classDef (hcases [] root rfl).2 hk
    exact ⟨d, hd, hparent.trans htop⟩
  · obtain ⟨hy', hyc⟩ := hcases (q ++ [name]) y (by rw [along_concat hq, hy])
    obtain ⟨z', hz', hnested⟩ := exists_of_along_concat hy'
    rw [(hcases q z hq).1] at hz'
    cases hz'
    obtain ⟨d, hd, hname, hparent⟩ := h.held q z name y (hcases q z hq).1 hnested
    obtain ⟨d', hd', hname', hparent'⟩ := hrem.exists_classDef hyc hd
    exact ⟨d', hd', hname'.trans hname, hparent'.trans hparent⟩
  · have hz := (hcases q z hq).1
    exact hrem.nodup hxc hc hx (h.isClass hz) (fun t ht => Table.nodup_keys_erase ht _) (fun k => h.nodup q z k hz) k hk

end Removed

end Modelica.Graph

namespace Modelica.Build

open Modelica.Graph

variable {g : Graph} {root new x c : Id} {p : Path}

theorem relink_runs (t : Table (Option String) Id → Table (Option String) Id) (parent : Option Id) (hx : g.IsClass x)
    (hc : g.IsClass c) (hxc : x ≠ c) :
    Runs (do
      modifyClass x fun k => { k with classes := t k.classes }
      modifyClass c fun k => { k with parent }) g fun _ g' => g.Relinked x c t parent g' := by
  obtain ⟨kx, hkx⟩ := hx
  obtain ⟨kc, hkc⟩ := hc
  have hkc' : (g.set x (.classDef { kx with classes := t kx.classes })).ClassAt c kc := by
    exact (get?_set_other _ _ hxc.symm).trans hkc
  simp only [ends_bind, ends_modifyClass hkx, ends_modifyClass hkc']
  refine ⟨fun k hk => ?_, fun k hk => ?_, fun y hyx hyc => ?_⟩
  · cases hkx.symm.trans hk
    rw [get?_set_other _ _ hxc, get?_set hkx _]
  · cases hkc.symm.trans hk
    rw [get?_set hkc' _]
  · rw [get?_set_other _ _ hyc, get?_set_other _ _ hyx]

theorem addClass_runs (h : g.Rooted root) (hp : g.along root p = some x) (h' : g.Rooted new) (hne : root ≠ new) :
    Runs (addClass x new) g fun _ g' => g'.Rooted root ∧ g.Added x new g' := by
  obtain ⟨k, hk, -⟩ := h'.top
  have hxn : x ≠ new := fun he => h.apart h' hne p [] x hp (by rw [he, along_nil])
  simp only [addClass, ends_bind, ends_classAt hk, ← nameOf_eq hk]
  rw [← ends_bind]
  exact (relink_runs (fun t => t.insert (g.nameOf new) new) (some x) (h.isClass hp) ⟨k, hk⟩ hxn).imp fun _ _ hadd =>
    ⟨Added.rooted hadd h hp h' hne, hadd⟩

/-- A class can be removed where there is one with its name, if it stands nowhere else in
the tree. -/
theorem removeClass_ends (h : g.Rooted root) (hp : g.along root p = some x) (hc : g.IsClass c)
    (honly : ∀ q, g.along root q = some c → q = p ++ [g.nameOf c]) :
    Ends (removeClass x c) g (fun _ g' => g'.Rooted root ∧ g.Removed x c g')
      fun f g' => f = .noEntry ∧ g.nested x (g.nameOf c) = none ∧ g' = g := by
  obtain ⟨kx, hkx⟩ := h.isClass hp
  obtain ⟨kc, hkc⟩ := hc
  have hxc : x ≠ c := by
    rintro rfl
    simpa using honly p hp
  simp only [removeClass, ends_bind, ends_classAt hkc, ends_classAt hkx, ← nameOf_eq hkc]
  split
  · next habsent =>
    refine ⟨rfl, ?_, rfl⟩
    rw [nested_eq hkx]
    simpa [Table.contains] using habsent
  · refine Ends.imp (relink_runs (fun t => t.erase (g.nameOf c)) none ⟨kx, hkx⟩ ⟨kc, hkc⟩ hxc)
      (fun _ _ hrem => ⟨Removed.rooted hrem h hp ⟨kc, hkc⟩ honly, hrem⟩) fun _ _ => False.elim

end Modelica.Build
