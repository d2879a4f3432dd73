/-
Copies of shared alias relations.

A copy is made of new sets only (`Represents.copy`), and a step on one relation
leaves alone what another one owns (`Within.separate`). Hence
`copy_independent`: whatever is done to a relation and to a copy of it, in
whatever order, each of them answers as if the other were not there.
-/
import Modelica.Proofs.Alias.Shared

namespace Modelica

open NameSets AliasRelation List

theorem Journal.Permits.of_append {j j' : Journal} {first steps} (h : j.Permits (first ++ steps))
    (hrun : j.run first = .ok j') : j'.Permits steps := by
  induction first generalizing j with
  | nil =>
    cases hrun
    exact h
  | cons s first ih =>
    cases hs : j.step s with
    | error f =>
      rw [run, foldlM_cons, hs] at hrun
      cases hrun
    | ok j1 =>
      rw [run, foldlM_cons, hs] at hrun
      exact ih (h.2 j1 hs) hrun

/-- What can be asked of a relation. -/
structure AliasAnswers where
  aliases : String → List String
  leader : String → Except Fault (String × Sign)
  canonical : List String
  classes : List (String × List String)

def AliasRelation.answers (v : AliasRelation) : AliasAnswers := ⟨v.aliases, v.leader, v.canonical, v.classes⟩

namespace SharedRelation

variable {r r' q : SharedRelation} {st st' : NameSets} {v : AliasRelation} {j k : Journal}

theorem Represents.answers_view (h : Represents v st r) : (r.view st).answers = v.answers := by
  have haliases : (r.view st).aliases = v.aliases := funext h.aliases_view
  have hleader : (r.view st).leader = v.leader := funext h.leader_view
  simp only [answers, classes, haliases, hleader, h.canonical_view]

theorem Represents.frame {p} (h : Represents v st r) (hk : Keeps p st st')
    (hp : ∀ {s}, r.Owns s → ¬ p s) : Represents v st' r where
  lt hs := Nat.lt_of_lt_of_le (h.lt hs) hk.size_le
  ne := h.ne
  groups name := by
    rw [← h.groups name]
    cases hget : r.groups.get? name with
    | none => rfl
    | some s => exact congrArg some (hk.names s (h.lt (.inr ⟨name, hget⟩)) (hp (.inr ⟨name, hget⟩)))
  leaders := h.leaders
  canonical := (hk.names _ (h.lt (.inl rfl)) (hp (.inl rfl))).trans h.canonical

/-- Two relations own no set in common. -/
def Separate (r q : SharedRelation) : Prop := ∀ s, r.Owns s → ¬ q.Owns s

theorem Separate.symm (h : Separate r q) : Separate q r := fun s hq hr => h s hr hq

theorem Within.separate (hw : Within r st r' st') (hq : Represents v st q) (hs : Separate r q) :
    Represents v st' q ∧ Separate r' q := by
  refine ⟨hq.frame hw.keeps fun ho hr => hs _ hr ho, fun s hr' ho => ?_⟩
  rcases hw.owns hr' with hr | hnew
  · exact hs s hr ho
  · exact absurd (hq.lt ho) (by omega)

/-! ### Copying -/

theorem makeAll_runs (entries : List (String × List String)) (st : NameSets) :
    ∃ own st', (entries.mapM fun e => do pure (e.1, ← make e.2) : Sharing (List (String × Nat))) st = .ok own st' ∧
      Grows st st' ∧ own.map (fun e => (e.1, st'.names e.2)) = entries ∧
      ∀ e ∈ own, st.size ≤ e.2 ∧ e.2 < st'.size := by
  induction entries generalizing st with
  | nil => exact ⟨[], st, rfl, .refl st, rfl, by simp⟩
  | cons e entries ih =>
    obtain ⟨own, st', hrun, hk, hnames, hown⟩ := ih (st.push e.2)
    have hlt : st.size < (st.push e.2).size := by simp
    refine ⟨(e.1, st.size) :: own, st', ?_, (keeps_push st e.2).trans hk, ?_, ?_⟩
    · rw [mapM_cons]
      simp only [bind, EStateM.bind, make, pure, EStateM.pure] at hrun ⊢
      rw [hrun]
    · rw [map_cons, hnames, hk.names _ hlt id, names_push, if_pos rfl]
    · intro f hf
      rcases mem_cons.1 hf with rfl | hf
      · exact ⟨Nat.le_refl _, Nat.lt_of_lt_of_le hlt hk.size_le⟩
      · have := hown f hf
        exact ⟨by omega, this.2⟩

theorem Represents.copy (h : Represents v st r) :
    ∃ q st', r.copy st = .ok q st' ∧ Represents v st' r ∧ Represents v st' q ∧ Separate r q := by
  obtain ⟨own, st', hrun, hk, hnames, hown⟩ :=
    makeAll_runs (r.view st).groups.entries (st.push (r.view st).canonical)
  have hlt : st.size < (st.push (r.view st).canonical).size := by simp
  have hgrows : Grows st st' := (keeps_push st _).trans hk
  have hnew : ∀ {name s}, (Table.mk own).get? name = some s → st.size < s ∧ s < st'.size := by
    intro name s hget
    have := hown _ (Table.mem_entries_of_get? hget)
    exact ⟨by omega, this.2⟩
  refine ⟨⟨⟨own⟩, r.leaders, st.size⟩, st', ?_, h.frame hgrows fun _ => id, ?_, ?_⟩
  · simp only [SharedRelation.copy, bind, EStateM.bind, get_run, make, pure,
      EStateM.pure] at hrun ⊢
    rw [hrun]
    rfl
  · refine { lt := ?_, ne := fun hget => Nat.ne_of_gt (hnew hget).1, groups := ?_, leaders := h.leaders, canonical := ?_ }
    · rintro s (rfl | ⟨name, hget⟩)
      · exact Nat.lt_of_lt_of_le hlt hk.size_le
      · exact (hnew hget).2
    · intro name
      have hmap : (Table.mk own).map st'.names = (r.view st).groups := by
        rw [Table.map, hnames]
      rw [← Table.get?_map, hmap, h.groups_view]
    · rw [hk.names _ hlt id, names_push, if_pos rfl, h.canonical_view]
  · intro s hr
    have hold := h.lt hr
    rintro (rfl | ⟨name, hget⟩)
    · exact Nat.lt_irrefl _ hold
    · exact Nat.lt_asymm hold (hnew hget).1

/-! ### Runs on a relation and its copy -/

/-- A step on one of two relations. -/
def stepEither (p : SharedRelation × SharedRelation) :
    AliasStep ⊕ AliasStep → Sharing (SharedRelation × SharedRelation)
  | .inl s => do pure (← p.1.step s, p.2)
  | .inr s => do pure (p.1, ← p.2.step s)

def runBoth (p : SharedRelation × SharedRelation) (moves : List (AliasStep ⊕ AliasStep)) :
    Sharing (SharedRelation × SharedRelation) := moves.foldlM stepEither p

theorem runBoth_runs (hr : Holds j st r) (hq : Holds k st q) (hs : Separate r q) {moves}
    (hl : j.Permits (moves.filterMap Sum.getLeft?)) (hm : k.Permits (moves.filterMap Sum.getRight?)) :
    ∃ j' k' p st', j.run (moves.filterMap Sum.getLeft?) = .ok j' ∧ k.run (moves.filterMap Sum.getRight?) = .ok k' ∧
      runBoth (r, q) moves st = .ok p st' ∧ Holds j' st' p.1 ∧ Holds k' st' p.2 := by
  induction moves generalizing j k st r q with
  | nil => exact ⟨j, k, (r, q), st, rfl, rfl, rfl, hr, hq⟩
  | cons move moves ih =>
    cases move with
    | inl s =>
      obtain ⟨j1, r1, st1, hj, hstep, hr1, hw⟩ := hr.step hl.1
      obtain ⟨hq1, hs1⟩ := hw.separate hq.represents hs
      obtain ⟨j', k', p, st', hj', hk', hrun, hp⟩ := ih hr1 ⟨hq.sound, hq1⟩ hs1 (hl.2 j1 hj) hm
      refine ⟨j', k', p, st', ?_, hk', ?_, hp⟩
      · simp only [filterMap_cons, Sum.getLeft?, Journal.run, foldlM_cons, hj]
        exact hj'
      · simp only [runBoth, foldlM_cons, stepEither, bind, EStateM.bind, hstep, pure, EStateM.pure]
        exact hrun
    | inr s =>
      obtain ⟨k1, q1, st1, hk, hstep, hq1, hw⟩ := hq.step hm.1
      obtain ⟨hr1, hs1⟩ := hw.separate hr.represents hs.symm
      obtain ⟨j', k', p, st', hj', hk', hrun, hp⟩ := ih ⟨hr.sound, hr1⟩ hq1 hs1.symm hl (hm.2 k1 hk)
      refine ⟨j', k', p, st', hj', ?_, ?_, hp⟩
      · simp only [filterMap_cons, Sum.getRight?, Journal.run, foldlM_cons, hk]
        exact hk'
      · simp only [runBoth, foldlM_cons, stepEither, bind, EStateM.bind, hstep, pure, EStateM.pure]
        exact hrun

/-- A new relation and a copy that is made of it after the first steps. -/
def withCopy (first : List AliasStep) (moves : List (AliasStep ⊕ AliasStep)) :
    Sharing (SharedRelation × SharedRelation) := do
  let r ← alone first
  runBoth (r, ← r.copy) moves

/-- A relation that is where the journal of some steps is answers as one that
made these steps alone. -/
theorem Holds.answers_alone {first steps : List AliasStep} {j'} (h : Holds j' st r)
    (hp : Journal.Permits {} (first ++ steps)) (hfirst : Journal.run {} first = .ok j) (hsteps : j.run steps = .ok j') :
    ∃ q st', alone (first ++ steps) {} = .ok q st' ∧ (r.view st).answers = (q.view st').answers := by
  obtain ⟨j1, q, st', hrun, halone, hq⟩ := alone_runs hp
  rw [Journal.run, foldlM_append] at hrun
  rw [Journal.run] at hfirst
  rw [hfirst] at hrun
  cases hsteps.symm.trans hrun
  exact ⟨q, st', halone, h.represents.answers_view.trans hq.represents.answers_view.symm⟩

/-- **A copy is independent.** Take any steps that never make a name an alias
of its negative, copy the relation, and go on with such steps on the original
and on the copy, in any order. Every step succeeds, and each of the two answers
all questions as a relation does that has only made its own steps. -/
theorem copy_independent {first : List AliasStep} {moves : List (AliasStep ⊕ AliasStep)}
    (hl : Journal.Permits {} (first ++ moves.filterMap Sum.getLeft?))
    (hm : Journal.Permits {} (first ++ moves.filterMap Sum.getRight?)) :
    ∃ p st, withCopy first moves {} = .ok p st ∧
      (∃ r st', alone (first ++ moves.filterMap Sum.getLeft?) {} = .ok r st' ∧
        (p.1.view st).answers = (r.view st').answers) ∧
      ∃ r st', alone (first ++ moves.filterMap Sum.getRight?) {} = .ok r st' ∧
        (p.2.view st).answers = (r.view st').answers := by
  obtain ⟨j, r, st, hj, hrun, h⟩ := alone_runs (hl.of_prefix (List.prefix_append ..))
  obtain ⟨q, st₁, hcopy, hr, hq, hs⟩ := h.represents.copy
  obtain ⟨j', k', p, st', hj', hk', hboth, hp₁, hp₂⟩ :=
    runBoth_runs ⟨h.sound, hr⟩ ⟨h.sound, hq⟩ hs (hl.of_append hj) (hm.of_append hj)
  refine ⟨p, st', ?_, hp₁.answers_alone hl hj hj', hp₂.answers_alone hm hj hk'⟩
  simp only [withCopy, bind, EStateM.bind, hrun, hcopy, hboth]

theorem copy_independent_zigzag :
    Journal.Permits {} [.add "a" "-b", .add "b" "c"] ∧ Journal.Permits {} [.add "a" "-b", .remove "a"] ∧
      ∃ p st, withCopy [.add "a" "-b"] [.inl (.add "b" "c"), .inr (.remove "a")] {} = .ok p st ∧
        (∃ r st', alone [.add "a" "-b", .add "b" "c"] {} = .ok r st' ∧ (p.1.view st).answers = (r.view st').answers) ∧
        ∃ r st', alone [.add "a" "-b", .remove "a"] {} = .ok r st' ∧ (p.2.view st).answers = (r.view st').answers := by
  have hl : Journal.Permits {} [.add "a" "-b", .add "b" "c"] :=
    Journal.permits_zigzag.of_prefix ⟨[.remove "a"], rfl⟩
  have hm : Journal.Permits {} [.add "a" "-b", .remove "a"] :=
    ⟨Journal.permits_zigzag.1, fun _ _ => ⟨trivial, fun _ _ => trivial⟩⟩
  exact ⟨hl, hm, @copy_independent [.add "a" "-b"] [.inl (.add "b" "c"), .inr (.remove "a")] hl hm⟩

end SharedRelation
end Modelica
