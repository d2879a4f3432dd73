/-
Pairs that make a variable an alias of its own negative.

The name that leads both classes of such a pair is struck off the
representatives, since it leads the second name, and goes on leading the
first (`Holds.add_contradiction`). Pairs that are added one by one therefore
leave every name with a representative exactly when none of them contradicts
those before it: `regular_iff_consistent`.
-/
import Modelica.Proofs.Alias.Shared
import Mathlib.Data.List.Induction

namespace Modelica

open AliasRelation Journal

/-- Being an alias is symmetric, and each name of a pair of different names is
led by a representative. -/
def AliasRelation.Regular (v : AliasRelation) (pairs : List (String × String)) : Prop :=
  (∀ u w, w ∈ v.aliases u ↔ u ∈ v.aliases w) ∧
    ∀ p ∈ pairs, p.1 ≠ p.2 → ∀ u ∈ [p.1, p.2], ∃ l, v.leader u = .ok l ∧ l.1 ∈ v.canonical

theorem splitSign_negate {a} (ha : IsSigned a) {la lb} (hla : splitSign a = .ok la)
    (hlb : splitSign (negate a) = .ok lb) : la.1 = lb.1 := by
  obtain ⟨x, hx, rfl | rfl⟩ := ha
  · rw [negate_variable hx, splitSign_minus] at hlb
    cases hx.splitSign.symm.trans hla
    cases hlb
    rfl
  · rw [negate_minus] at hlb
    cases (splitSign_minus x).symm.trans hla
    cases hx.splitSign.symm.trans hlb
    rfl

theorem AliasRelation.Sound.leader_fst_eq {v : AliasRelation} {pairs} (h : v.Sound pairs)
    {a b} (ha : IsSigned a) (hab : AliasOf pairs (negate a) b) {la lb}
    (hla : v.leader a = .ok la) (hlb : v.leader b = .ok lb) : la.1 = lb.1 := by
  cases hget : v.leaders.get? a with
  | some l =>
    rw [leader, hget] at hla
    rw [leader, ← h.leader_congr hab, h.leader_negate ha hget] at hlb
    cases hla
    cases hlb
    rfl
  | none =>
    have hnone : v.leaders.get? (negate a) = none := by
      cases hn : v.leaders.get? (negate a) with
      | none => rfl
      | some l =>
        have h' := h.leader_negate ha.negate hn
        rw [negate_negate ha, hget] at h'
        cases h'
    have heq : negate a = b := by
      by_contra hne
      obtain ⟨l, hl⟩ := h.leader_iff.2 ⟨b, hne, hab⟩
      cases hnone.symm.trans hl
    subst heq
    rw [leader, hget] at hla
    rw [leader, hnone] at hlb
    exact splitSign_negate ha hla hlb

namespace SharedRelation

variable {r : SharedRelation} {st : NameSets} {j : Journal}

/-- A pair that contradicts the others leaves its first name without a
representative. -/
theorem Holds.add_contradiction (h : Holds j st r) {a b : String} (ha : IsSigned a) (hb : IsSigned b)
    (hab : AliasOf j.pairs (negate a) b) :
    ∃ r' st', r.add a b st = .ok r' st' ∧ ∃ l, (r'.view st').leader a = .ok l ∧ l.1 ∉ (r'.view st').canonical := by
  have hv := h.sound
  have hnot : b ∉ j.relation.aliases a := fun hm =>
    hv.consistent a ha ((hv.mem_aliases.1 hm).trans hab.symm)
  have hfree : a ∉ j.relation.aliases (negate a) := fun hm => hv.consistent a ha (hv.mem_aliases.1 hm).symm
  have hs : ∀ w ∈ union (j.relation.aliases a) (j.relation.aliases b), IsSigned w :=
    fun w hw => hv.joined_signed ha hb (hv.mem_joined.1 hw)
  have hmem := hv.mem_aliases.2 (.refl a)
  obtain ⟨r', st', g, n, la, lb, hadd, hla, hlb, -, hls, hcan, nc, -⟩ :=
    h.represents.add_runs ha hb hmem hfree hnot hs
  have hleaders := Except.ok.inj (hls.symm.trans (enterLeaders_eq hs la.1 la.2 r.leaders))
  obtain ⟨l, hget, hl⟩ := leader_foldl la.1 la.2 (t := r.leaders) (.inl (mem_union.2 (.inl hmem)))
  refine ⟨r', st', hadd, l, ?_, ?_⟩
  · rw [leader, view, hleaders, hget]
    rfl
  · rw [view, hcan, nc, hl, hv.leader_fst_eq ha hab hla hlb]
    simp

/-- **Contradictions are all that harms a relation.** Pairs of signed names
are added one by one. After each of them the relation is symmetric and every
name of a pair of different names is led by a representative, if and only if
no pair makes a name an alias of its negative. -/
theorem regular_iff_consistent {pairs : List (String × String)} (hs : ∀ p ∈ pairs, IsSigned p.1 ∧ IsSigned p.2) :
    (∀ done, done <+: pairs → ∃ r st, alone (adding done) {} = .ok r st ∧ (r.view st).Regular done) ↔
      Consistent pairs := by
  constructor
  · intro hreg
    induction pairs using List.reverseRecOn with
    | nil => exact AliasRelation.sound_empty.consistent
    | append_singleton pairs p ih =>
      have hs' : ∀ q ∈ pairs, IsSigned q.1 ∧ IsSigned q.2 := fun q hq => hs q (List.mem_append_left _ hq)
      have hc : Consistent pairs := ih hs' fun done hd => hreg done (hd.trans (List.prefix_append ..))
      obtain ⟨hp₁, hp₂⟩ := hs p (by simp)
      by_contra hn
      have hab : AliasOf pairs (negate p.1) p.2 := by
        by_contra hab
        exact hn (hc.snoc hp₁ hp₂ hab)
      obtain ⟨j, r, st, hj, hrun, h⟩ := alone_runs (permits_adding (j := {}) hs' hc)
      have hpairs : j.pairs = pairs := run_adding_pairs hj
      obtain ⟨r', st', hadd, l, hl, hnot⟩ := h.add_contradiction hp₁ hp₂ (hpairs ▸ hab)
      obtain ⟨r₁, st₁, hrun₁, -, hled⟩ := hreg _ (List.prefix_refl _)
      have hlast : alone (adding (pairs ++ [p])) {} = .ok r' st' := by
        rw [adding, List.map_append]
        exact (alone_snoc hrun _).trans hadd
      cases hlast.symm.trans hrun₁
      have hne : p.1 ≠ p.2 := by
        intro he
        rw [← he] at hab
        exact hc p.1 hp₁ hab.symm
      obtain ⟨l', hl', hmem⟩ := hled p (by simp) hne p.1 (by simp)
      cases hl.symm.trans hl'
      exact hnot hmem
  · intro hc done hd
    have hs' : ∀ q ∈ done, IsSigned q.1 ∧ IsSigned q.2 := fun q hq => hs q (hd.subset hq)
    obtain ⟨j, r, st, hj, hrun, h⟩ := alone_runs (permits_adding (j := {}) hs' (hc.mono hd.subset))
    have hpairs : j.pairs = done := run_adding_pairs hj
    refine ⟨r, st, hrun, fun u w => ?_, fun p hp hne u hu => ?_⟩
    · rw [h.represents.aliases_view, h.represents.aliases_view, h.sound.mem_aliases, h.sound.mem_aliases]
      exact ⟨.symm, .symm⟩
    · have hpair : AliasOf j.pairs p.1 p.2 := .pair (hpairs ▸ hp)
      have hmany : IsSigned u ∧ ∃ w, u ≠ w ∧ AliasOf j.pairs u w := by
        rcases List.mem_pair.1 hu with rfl | rfl
        · exact ⟨(hs' p hp).1, p.2, hne, hpair⟩
        · exact ⟨(hs' p hp).2, p.1, hne.symm, hpair.symm⟩
      obtain ⟨l, hl⟩ := j.relation.leader_ok hmany.1
      rw [h.represents.leader_view, h.represents.canonical_view]
      exact ⟨l, hl, h.sound.leader_mem hmany.2 hl⟩

theorem regular_iff_consistent_self : (∀ p ∈ [("x", "-x")], IsSigned p.1 ∧ IsSigned p.2) ∧
    ¬ ∀ done, done <+: [("x", "-x")] → ∃ r st, alone (adding done) {} = .ok r st ∧ (r.view st).Regular done := by
  have hs : ∀ p ∈ [("x", "-x")], IsSigned p.1 ∧ IsSigned p.2 := by
    intro p hp
    rw [List.mem_singleton.1 hp]
    exact ⟨⟨"x", by decide, .inl rfl⟩, "x", by decide, .inr rfl⟩
  refine ⟨hs, fun hreg => (regular_iff_consistent hs).1 hreg "x" (hs ("x", "-x") (by simp)).1 ?_⟩
  rw [negate_variable (by decide)]
  exact .pair (by simp)

end SharedRelation
end Modelica
