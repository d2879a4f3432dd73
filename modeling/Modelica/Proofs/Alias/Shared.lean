/-
Shared alias relations, and copies of them.

`Holds j st r`: over the sets `st`, the shared relation `r` answers as the
relation of the journal `j` does. That depends only on the sets that `r` owns,
and a step on `r` writes only to those and to new ones (`Within`). A copy owns
no set of the original, so neither notices what is done to the other.
-/
import Modelica.Alias.Shared
import Modelica.Proofs.Alias.Runs

namespace Modelica

open List

theorem Table.get?_map {κ α β : Type} [DecidableEq κ] (f : α → β) (t : Table κ α) (k : κ) :
    (t.map f).get? k = (t.get? k).map f := by
  obtain ⟨es⟩ := t
  simp only [get?, map]
  induction es with
  | nil => rfl
  | cons e es ih => by_cases h : e.1 = k <;> simp [lookup, h, ih]

namespace NameSets

/-- The sets of the first store are in the second one, unchanged but for
some. -/
structure Keeps (changed : Nat → Prop) (st st' : NameSets) : Prop where
  size_le : st.size ≤ st'.size
  names : ∀ s < st.size, ¬ changed s → st'.names s = st.names s

/-- All sets of the first store are in the second one, unchanged. -/
abbrev Grows (st st' : NameSets) : Prop := Keeps (fun _ => False) st st'

theorem Grows.refl (st : NameSets) : Grows st st := ⟨Nat.le_refl _, fun _ _ _ => rfl⟩

variable {p q : Nat → Prop} {st st1 st2 : NameSets}

theorem Keeps.trans (h1 : Keeps p st st1) (h2 : Keeps p st1 st2) : Keeps p st st2 where
  size_le := Nat.le_trans h1.size_le h2.size_le
  names s hs hp := (h2.names s (Nat.lt_of_lt_of_le hs h1.size_le) hp).trans (h1.names s hs hp)

theorem Keeps.mono (h : Keeps p st st1) (hpq : ∀ s, p s → q s) : Keeps q st st1 where
  size_le := h.size_le
  names s hs hq := h.names s hs fun hp => hq (hpq s hp)

theorem names_push (st : NameSets) (xs : List String) (s : Nat) :
    (st.push xs).names s = if s = st.size then xs else st.names s := by
  simp only [names, push, Array.getElem?_push]
  split <;> rfl

@[simp] theorem size_push (xs : List String) : (st.push xs).size = st.size + 1 := by simp [size, push]

theorem keeps_push (st : NameSets) (xs : List String) : Keeps p st (st.push xs) where
  size_le := by simp
  names s hs _ := by rw [names_push, if_neg (Nat.ne_of_lt hs)]

theorem names_put {s} (hs : s < st.size) (xs : List String) (t : Nat) :
    (st.put s xs).names t = if t = s then xs else st.names t := by
  simp only [names, put, Array.getElem?_setIfInBounds]
  by_cases h : s = t
  · subst h
    simp [hs]
  · simp [h, Ne.symm h]

@[simp] theorem size_put (s : Nat) (xs : List String) : (st.put s xs).size = st.size := by simp [size, put]

theorem keeps_put (st : NameSets) (s : Nat) (xs : List String) : Keeps (· = s) st (st.put s xs) where
  size_le := by simp
  names t _ hne := by simp [NameSets.names, put, Ne.symm hne]

end NameSets

open NameSets AliasRelation

namespace SharedRelation

theorem get_run (st : NameSets) : (get : Sharing NameSets) st = .ok st st := rfl

variable {r r' q : SharedRelation} {st st' : NameSets}

/-- The sets of a relation: that of the representatives and those of its
groups. -/
def Owns (r : SharedRelation) (s : Nat) : Prop := s = r.canonical ∨ ∃ name, r.groups.get? name = some s

/-- Over the sets `st`, the shared relation `r` is the relation `v`. Its sets
exist, and no group is kept in the set of the representatives. -/
structure Represents (v : AliasRelation) (st : NameSets) (r : SharedRelation) : Prop where
  lt : ∀ {s}, r.Owns s → s < st.size
  ne : ∀ {name s}, r.groups.get? name = some s → s ≠ r.canonical
  groups : ∀ name, (r.groups.get? name).map st.names = v.groups.get? name
  leaders : r.leaders.get? = v.leaders.get?
  canonical : st.names r.canonical = v.canonical

namespace Represents

variable {v : AliasRelation}

section

variable (h : Represents v st r)

include h

theorem leader_view (name : String) : (r.view st).leader name = v.leader name := by
  simp only [leader, view, h.leaders]

theorem groups_view (name : String) : (r.view st).groups.get? name = v.groups.get? name :=
  (Table.get?_map ..).trans (h.groups name)

theorem aliases_view (name : String) : (r.view st).aliases name = v.aliases name := by
  simp only [aliases, h.groups_view]

theorem canonical_view : (r.view st).canonical = v.canonical := h.canonical

theorem aliases_eq {name s} (hs : r.groups.get? name = some s) : st.names s = v.aliases name := by
  rw [aliases, ← h.groups, hs]
  rfl

theorem group_runs {p st1} (hk : Keeps p st st1) (name : String) :
    ∃ s st2, r.group name st1 = .ok s st2 ∧ Grows st1 st2 ∧ (r.groups.get? name = some s ∨ st.size ≤ s) ∧
      s < st2.size ∧ ((∀ s, p s → r.groups.get? name ≠ some s) → st2.names s = v.aliases name) := by
  cases hg : r.groups.get? name with
  | some s =>
    have hlt := h.lt (.inr ⟨name, hg⟩)
    refine ⟨s, st1, ?_, .refl st1, .inl rfl, Nat.lt_of_lt_of_le hlt hk.size_le, fun hp => ?_⟩
    · simp only [group, hg]
      rfl
    · rw [hk.names s hlt fun hs => hp s hs rfl, h.aliases_eq hg]
  | none =>
    refine ⟨st1.size, st1.push [name], ?_, keeps_push st1 _, .inr hk.size_le, by simp, fun _ => ?_⟩
    · simp only [group, hg]
      rfl
    · rw [names_push, if_pos rfl, aliases, ← h.groups, hg]
      rfl

end

/-- The sets `g` and `n`, each that of a group of `r` or a new one, have taken
in the joined groups. The second one needs that `a` is not in the set of the
negative of `b`, which has grown by then if it is that of `a`. -/
structure Grown (v : AliasRelation) (st : NameSets) (r : SharedRelation) (a b : String) (g n : Nat) (st' : NameSets) :
    Prop where
  keeps : Keeps (fun s => s = g ∨ s = n ∨ s = r.canonical) st st'
  group : r.groups.get? a = some g ∨ st.size ≤ g
  negatives : r.groups.get? (negate a) = some n ∨ st.size ≤ n
  group_lt : g < st'.size
  negatives_lt : n < st'.size
  group_names : st'.names g = union (v.aliases a) (v.aliases b)
  negatives_names : a ∉ v.aliases (negate b) → st'.names n = union (v.aliases (negate a)) (v.aliases (negate b))

section

variable (h : Represents v st r) {a b : String} (ha : IsSigned a) (hb : IsSigned b) (hmem : a ∈ v.aliases a)
  (hfree : a ∉ v.aliases (negate a))

include h ha hb hmem hfree

theorem join_runs : ∃ g n st', r.join a b st = .ok (g, n) st' ∧ Grown v st r a b g n st' := by
  obtain ⟨g, st1, hg, k1, og, lg, ng⟩ := h.group_runs (Grows.refl st) a
  obtain ⟨n, st2, hn, k2, on, ln, nn⟩ := h.group_runs k1 (negate a)
  obtain ⟨s, st3, hs, k3, -, -, ns⟩ := h.group_runs (k1.trans k2) b
  have k : Grows st st3 := (k1.trans k2).trans k3
  have lg3 : g < st3.size := Nat.lt_of_lt_of_le lg (k2.trans k3).size_le
  have ln3 : n < st3.size := Nat.lt_of_lt_of_le ln k3.size_le
  have ng3 : st3.names g = v.aliases a := by rw [(k2.trans k3).names g lg id, ng (by simp)]
  have nn3 : st3.names n = v.aliases (negate a) := by rw [k3.names n ln id, nn (by simp)]
  have hne : n ≠ g := by
    rintro rfl
    rw [← ng3, nn3] at hmem
    exact hfree hmem
  have k4 := keeps_put st3 g (union (st3.names g) (st3.names s))
  obtain ⟨m, st5, hm, k5, -, -, nm⟩ := h.group_runs ((k.mono (by simp)).trans k4) (negate b)
  have names5 : ∀ t < st3.size, st5.names t =
      if t = g then union (v.aliases a) (v.aliases b) else st3.names t := fun t ht => by
    rw [k5.names t (by simpa using ht) id, names_put lg3, ng3, ns (by simp)]
  have size5 : st3.size ≤ st5.size := by simpa using k5.size_le
  have ln5 : n < st5.size := Nat.lt_of_lt_of_le ln3 size5
  refine ⟨g, n, st5.put n (union (st5.names n) (st5.names m)), ?_, ?_, og, on, ?_, ?_, ?_, fun hab => ?_⟩
  · simp only [join, bind, EStateM.bind, hg, ha.toggleSign, hb.toggleSign, ofExcept, hn, hs, absorb, pure,
      EStateM.pure, hm]
  · exact (((k.mono (by simp)).trans (k4.mono fun _ => .inl)).trans (k5.mono (by simp))).trans
      ((keeps_put ..).mono fun _ h => .inr (.inl h))
  · simpa using Nat.lt_of_lt_of_le lg3 size5
  · simpa using ln5
  · rw [names_put ln5, if_neg hne.symm, names5 g lg3, if_pos rfl]
  · have hgb : r.groups.get? (negate b) ≠ some g := fun hget => by
      rw [← h.aliases_eq hget, ← k.names g (h.lt (.inr ⟨_, hget⟩)) id, ng3] at hab
      exact hab hmem
    rw [names_put ln5, if_pos rfl, names5 n ln3, if_neg hne, nn3, nm (by simpa using hgb)]

/-- What joining two groups writes where, whether or not a name and its
negative come together. -/
theorem add_runs (hnot : b ∉ v.aliases a) (hs : ∀ w ∈ union (v.aliases a) (v.aliases b), IsSigned w) :
    ∃ r' st' g n la lb, r.add a b st = .ok r' st' ∧ v.leader a = .ok la ∧ v.leader b = .ok lb ∧
      enterGroups g n (union (v.aliases a) (v.aliases b)) r.groups = .ok r'.groups ∧
      enterLeaders la.1 la.2 (union (v.aliases a) (v.aliases b)) r.leaders = .ok r'.leaders ∧
      r'.canonical = r.canonical ∧ st'.names r.canonical = (union v.canonical [la.1]).filter (· ≠ lb.1) ∧
      g ≠ r.canonical ∧ n ≠ r.canonical ∧ Grown v st r a b g n st' := by
  obtain ⟨la, hla⟩ := v.leader_ok ha
  obtain ⟨lb, hlb⟩ := v.leader_ok hb
  obtain ⟨g, n, st1, hjoin, hg⟩ := h.join_runs ha hb hmem hfree
  have hgs := enterGroups_eq hs g n r.groups
  have hls := enterLeaders_eq hs la.1 la.2 r.leaders
  have lc := h.lt (.inl rfl)
  have lc1 := Nat.lt_of_lt_of_le lc hg.keeps.size_le
  have neg : g ≠ r.canonical := hg.group.elim h.ne fun hs => by omega
  have nen : n ≠ r.canonical := hg.negatives.elim h.ne fun hs => by omega
  have hcontains : (v.aliases a).contains b = false := by simpa using hnot
  refine ⟨{ r with groups := _, leaders := _ }, st1.put r.canonical ((union v.canonical [la.1]).filter (· ≠ lb.1)),
    g, n, la, lb, ?_, hla, hlb, hgs, hls, rfl, ?_, neg, nen, ?_, hg.group, hg.negatives, ?_, ?_, ?_, fun hab => ?_⟩
  · simp only [add, bind, EStateM.bind, get_run, h.aliases_view, hcontains,
      Bool.false_eq_true, if_false, hjoin, hg.group_names, hgs, ofExcept, pure, EStateM.pure, h.leader_view, hla, hlb,
      write, hls, h.canonical_view]
  · rw [names_put lc1, if_pos rfl]
  · exact hg.keeps.trans ((keeps_put ..).mono fun s hs => .inr (.inr hs))
  · simpa using hg.group_lt
  · simpa using hg.negatives_lt
  · rw [names_put lc1, if_neg neg, hg.group_names]
  · rw [names_put lc1, if_neg nen, hg.negatives_names hab]

end

end Represents

/-- A step on `r` writes to its own sets and to new ones only, and takes none
of the others. -/
structure Within (r : SharedRelation) (st : NameSets) (r' : SharedRelation) (st' : NameSets) : Prop where
  keeps : Keeps r.Owns st st'
  owns : ∀ {s}, r'.Owns s → r.Owns s ∨ st.size ≤ s

theorem Within.refl (r : SharedRelation) (st : NameSets) : Within r st r st := ⟨⟨Nat.le_refl _, fun _ _ _ => rfl⟩, .inl⟩

namespace Represents

variable {v v' : AliasRelation} {pairs : List (String × String)}

theorem stay (h : Represents v st r) (hcan : r'.canonical = r.canonical) (hk : Keeps r.Owns st st')
    (hplace : ∀ {name s}, r'.groups.get? name = some s → s < st'.size ∧ s ≠ r.canonical ∧ (r.Owns s ∨ st.size ≤ s))
    (hgroups : ∀ name, (r'.groups.get? name).map st'.names = v'.groups.get? name)
    (hleaders : ∀ name, r'.leaders.get? name = v'.leaders.get? name) (hc : st'.names r.canonical = v'.canonical) :
    Represents v' st' r' ∧ Within r st r' st' := by
  refine ⟨{ lt := ?_, ne := ?_, groups := hgroups, leaders := funext hleaders, canonical := hcan ▸ hc }, hk, ?_⟩
  · rintro s (rfl | ⟨name, hget⟩)
    · exact hcan ▸ Nat.lt_of_lt_of_le (h.lt (.inl rfl)) hk.size_le
    · exact (hplace hget).1
  · exact fun hget => hcan ▸ (hplace hget).2.1
  · rintro s (rfl | ⟨name, hget⟩)
    · exact .inl (.inl hcan)
    · exact (hplace hget).2.2

section

variable (h : Represents v st r) (hv : v.Sound pairs) {a b} (ha : IsSigned a) (hb : IsSigned b)
  (hc : Consistent (pairs ++ [(a, b)]))

include h hv ha hb hc

/-- Joining two groups has the same outcome on the shared relation. A group
that is not among the joined ones keeps its set: the set of a name holds the
name, so it is neither of the two that have grown. -/
theorem join (hnot : ¬ AliasOf pairs a b) :
    ∃ v' r' st', v.add a b = .ok v' ∧ r.add a b st = .ok r' st' ∧ Represents v' st' r' ∧ Within r st r' st' := by
  obtain ⟨hsu, hfree⟩ := hv.joined_free ha hb hc
  have hab : b ∉ v.aliases a := fun hm => hnot (hv.mem_aliases.1 hm)
  obtain ⟨v', la, lb, hadd, hla, hlb, hgroups, hleaders, hcanonical⟩ := v.add_joins ha hb hab hsu hfree
  have haa : a ∉ v.aliases (negate a) := fun hm => hv.consistent a ha (hv.mem_aliases.1 hm).symm
  have hnb : a ∉ v.aliases (negate b) := fun hm =>
    not_joined_both ha hc (.inl (.refl a)) (.inr (hv.mem_aliases.1 hm))
  obtain ⟨r', st', g, n, la', lb', hadd', hla', hlb', hgs, hls, hcan, nc, neg, nen, hg⟩ :=
    h.add_runs ha hb (hv.mem_aliases.2 (.refl a)) haa hab hsu
  cases hla.symm.trans hla'
  cases hlb.symm.trans hlb'
  obtain ⟨gs, hgs', he⟩ := enterGroups_entered hsu hfree g n r.groups
  cases hgs.symm.trans hgs'
  obtain ⟨ls, hls', hel⟩ := enterLeaders_entered hsu hfree la.1 la.2 r.leaders
  cases hls.symm.trans hls'
  refine ⟨v', r', st', hadd, hadd', h.stay hcan ⟨hg.keeps.size_le, fun s hs hnone => hg.keeps.names s hs ?_⟩
    (fun {name s} hget => ?_) (fun name => ?_) (fun name => ?_) (nc.trans hcanonical.symm)⟩
  · rintro (rfl | rfl | rfl)
    · exact hnone (.inr ⟨a, hg.group.resolve_right (by omega)⟩)
    · exact hnone (.inr ⟨negate a, hg.negatives.resolve_right (by omega)⟩)
    · exact hnone (.inl rfl)
  · rw [he name] at hget
    split at hget
    · cases hget
      exact ⟨hg.group_lt, neg, hg.group.imp_left fun hg => .inr ⟨a, hg⟩⟩
    · split at hget
      · cases hget
        exact ⟨hg.negatives_lt, nen, hg.negatives.imp_left fun hn => .inr ⟨negate a, hn⟩⟩
      · have hown : r.Owns s := .inr ⟨name, hget⟩
        exact ⟨Nat.lt_of_lt_of_le (h.lt hown) hg.keeps.size_le, h.ne hget, .inl hown⟩
  · rw [he name, hgroups name]
    split
    · exact congrArg some hg.group_names
    · next hj =>
      split
      · exact congrArg some (hg.negatives_names hnb)
      · next hn =>
        rw [← h.groups name]
        cases hget : r.groups.get? name with
        | none => rfl
        | some s =>
          have hlt := h.lt (.inr ⟨name, hget⟩)
          have hown : name ∈ st.names s := h.aliases_eq hget ▸ hv.mem_aliases.2 (.refl name)
          refine congrArg some (hg.keeps.names s hlt ?_)
          rintro (rfl | rfl | rfl)
          · rw [h.aliases_eq (hg.group.resolve_right (by omega))] at hown
            exact hj (mem_union.2 (.inl hown))
          · rw [h.aliases_eq (hg.negatives.resolve_right (by omega))] at hown
            exact hn ((hv.mem_map_negate ha hb).2 (.inl (hv.mem_aliases.1 hown)))
          · exact h.ne hget rfl
  · rw [hel name, hleaders name, h.leaders]

theorem add :
    ∃ v' r' st', v.add a b = .ok v' ∧ r.add a b st = .ok r' st' ∧ Represents v' st' r' ∧ Within r st r' st' := by
  by_cases hab : AliasOf pairs a b
  · have hba : (v.aliases a).contains b = true ∧ (v.aliases b).contains a = true := by
      simp [hv.mem_aliases, hab, hab.symm]
    refine ⟨v, r, st, ?_, ?_, h, .refl r st⟩
    · simp only [AliasRelation.add, hba, if_true]
      rfl
    · simp only [SharedRelation.add, bind, EStateM.bind, get_run, h.aliases_view, hba, if_true]
      rfl
  · exact h.join hv ha hb hc hab

end

theorem remove (h : Represents v st r) (hv : v.Sound pairs) (c : String) :
    ∃ v' r' st', v.remove c = .ok v' ∧ r.remove c st = .ok r' st' ∧ Represents v' st' r' ∧ Within r st r' st' := by
  by_cases hc : c ∈ v.canonical
  · obtain ⟨⟨g, hg⟩, ⟨gn, hgn⟩⟩ := hv.groups_ne_none hc
    have lc := h.lt (.inl rfl)
    refine ⟨_, ⟨(union g gn).foldl Table.erase r.groups, (union g gn).foldl Table.erase r.leaders, r.canonical⟩,
      st.put r.canonical (v.canonical.filter (· ≠ c)), hv.remove_eq hc hg hgn, ?_,
      h.stay rfl ((keeps_put ..).mono fun _ => .inl) (fun {name s} hget => ?_) (fun name => ?_) (fun name => ?_)
        ((names_put lc ..).trans (if_pos rfl))⟩
    · simp only [SharedRelation.remove, bind, EStateM.bind, get_run,
        h.canonical_view, contains_eq_mem, hc, decide_true, Bool.not_true, Bool.false_eq_true, if_false,
        (hv.canonical hc).1.isSigned.toggleSign, ofExcept, h.groups_view, hg, hgn, write, pure, EStateM.pure]
    · rw [Table.get?_foldl_erase] at hget
      split at hget
      · cases hget
      · exact ⟨by simpa using h.lt (.inr ⟨name, hget⟩), h.ne hget, .inl (.inr ⟨name, hget⟩)⟩
    · rw [Table.get?_foldl_erase, Table.get?_foldl_erase, ← h.groups]
      split
      · rfl
      · cases hget : r.groups.get? name with
        | none => rfl
        | some s => exact congrArg some ((names_put lc ..).trans (if_neg (h.ne hget)))
    · rw [Table.get?_foldl_erase, Table.get?_foldl_erase, h.leaders]
  · refine ⟨v, r, st, remove_of_not_canonical hc, ?_, h, .refl r st⟩
    simp only [SharedRelation.remove, bind, EStateM.bind, get_run, h.canonical_view,
      contains_eq_mem, hc, decide_false, Bool.not_false, if_true]
    rfl

end Represents

/-! ### Runs -/

def step (r : SharedRelation) : AliasStep → Sharing SharedRelation
  | .add a b => r.add a b
  | .remove name => r.remove name

def run (r : SharedRelation) (steps : List AliasStep) : Sharing SharedRelation := steps.foldlM step r

/-- A shared relation that is where a journal is. -/
structure Holds (j : Journal) (st : NameSets) (r : SharedRelation) : Prop where
  sound : j.Sound
  represents : Represents j.relation st r

variable {j : Journal}

theorem Holds.step (h : Holds j st r) {s} (hs : j.Allows s) :
    ∃ j' r' st', j.step s = .ok j' ∧ r.step s st = .ok r' st' ∧ Holds j' st' r' ∧ Within r st r' st' := by
  obtain ⟨j', hstep, hsound⟩ := h.sound.step hs
  cases s with
  | add a b =>
    obtain ⟨v', r', st', hv, hr, hrep, hw⟩ := h.represents.add h.sound hs.1 hs.2.1 hs.2.2
    simp only [Journal.step, hv] at hstep
    cases hstep
    exact ⟨_, r', st', by simp only [Journal.step, hv]; rfl, hr, ⟨hsound, hrep⟩, hw⟩
  | remove c =>
    obtain ⟨v', r', st', hv, hr, hrep, hw⟩ := h.represents.remove h.sound c
    simp only [Journal.step, hv] at hstep
    cases hstep
    exact ⟨_, r', st', by simp only [Journal.step, hv]; rfl, hr, ⟨hsound, hrep⟩, hw⟩

theorem Holds.run (h : Holds j st r) {steps} (hp : j.Permits steps) :
    ∃ j' r' st', j.run steps = .ok j' ∧ r.run steps st = .ok r' st' ∧ Holds j' st' r' := by
  induction steps generalizing j r st with
  | nil => exact ⟨j, r, st, rfl, rfl, h⟩
  | cons s rest ih =>
    obtain ⟨j1, r1, st1, hj, hr, h1, -⟩ := h.step hp.1
    obtain ⟨j', r', st', hj', hr', h'⟩ := ih h1 (hp.2 j1 hj)
    refine ⟨j', r', st', ?_, ?_, h'⟩
    · rw [Journal.run, foldlM_cons, hj]
      exact hj'
    · simp only [SharedRelation.run, foldlM_cons, bind, EStateM.bind, hr]
      exact hr'

/-- A new relation, after the given steps. -/
def alone (steps : List AliasStep) : Sharing SharedRelation := do (← start).run steps

theorem alone_snoc {steps} (h : alone steps {} = .ok r st) (s : AliasStep) : alone (steps ++ [s]) {} = r.step s st := by
  have heq : alone (steps ++ [s]) = alone steps >>= fun r => r.step s := by
    simp only [alone, run, foldlM_append, foldlM_cons, foldlM_nil, bind_assoc, bind_pure]
  simp only [heq, bind, EStateM.bind, h]

theorem holds_start : ∃ r st, start {} = .ok r st ∧ Holds {} st r := by
  have hnone : ∀ {α : Type} (name : String), ({} : Table String α).get? name = none := fun _ => rfl
  refine ⟨⟨{}, {}, 0⟩, ⟨#[[]]⟩, rfl, Journal.sound_empty, ?_⟩
  refine { lt := ?_, ne := fun hget => by simp [hnone] at hget, groups := fun _ => rfl, leaders := rfl, canonical := rfl }
  rintro s (rfl | ⟨name, hget⟩)
  · exact Nat.zero_lt_one
  · simp [hnone] at hget

theorem alone_runs {steps} (hp : Journal.Permits {} steps) :
    ∃ j r st, Journal.run {} steps = .ok j ∧ alone steps {} = .ok r st ∧ Holds j st r := by
  obtain ⟨r, st, hstart, h⟩ := holds_start
  obtain ⟨j, r', st', hj, hrun, h'⟩ := h.run hp
  refine ⟨j, r', st', hj, ?_, h'⟩
  simp only [alone, bind, EStateM.bind, hstart, hrun]

end SharedRelation
end Modelica
