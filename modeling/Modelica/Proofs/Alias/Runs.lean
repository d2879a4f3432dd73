/-
Alias relations along runs of `add` and `remove`.

A `Journal` keeps, beside a relation, the pairs that were added and are still
in force: removing a representative withdraws the pairs of its class and of
the mirror image, removing any other name withdraws nothing. For every run in
which no `add` makes a variable an alias of its own negative:
`aliases_eq_closure`: the aliases of a name are its class under the least
relation that holds the pairs in force; `leaders_represent`: each class that is
not a single name shares one representative with its mirror image.
-/
import Modelica.Proofs.Alias.Invariant

namespace Modelica

open List

/-- What can be done to an alias relation. -/
inductive AliasStep where
  | add (a b : String)
  | remove (name : String)

/-- A relation, and the pairs it was made from that are still in force. -/
structure Journal where
  relation : AliasRelation := {}
  pairs : List (String × String) := []

namespace Journal

variable {j j' : Journal} {adds : List (String × String)}

open Classical in
noncomputable def step (j : Journal) : AliasStep → Except Fault Journal
  | .add a b => do pure ⟨← j.relation.add a b, j.pairs ++ [(a, b)]⟩
  | .remove c => do
    pure ⟨← j.relation.remove c, if c ∈ j.relation.canonical then withdraw j.pairs c else j.pairs⟩

noncomputable def run (j : Journal) (steps : List AliasStep) : Except Fault Journal := steps.foldlM step j

/-- A step on signed names after which no name is an alias of its negative. -/
def Allows (j : Journal) : AliasStep → Prop
  | .add a b => IsSigned a ∧ IsSigned b ∧ Consistent (j.pairs ++ [(a, b)])
  | .remove _ => True

/-- Each step of a run is allowed where it is made. -/
def Permits (j : Journal) : List AliasStep → Prop
  | [] => True
  | s :: rest => j.Allows s ∧ ∀ j', j.step s = .ok j' → j'.Permits rest

def Sound (j : Journal) : Prop := j.relation.Sound j.pairs

theorem sound_empty : Sound {} := AliasRelation.sound_empty

theorem Sound.step (h : j.Sound) {s} (hs : j.Allows s) : ∃ j', j.step s = .ok j' ∧ j'.Sound := by
  cases s with
  | add a b =>
    obtain ⟨ha, hb, hc⟩ := hs
    obtain ⟨r', hadd, hsound⟩ := AliasRelation.Sound.add h ha hb hc
    exact ⟨⟨r', _⟩, by simp only [Journal.step, hadd]; rfl, hsound⟩
  | remove c =>
    by_cases hc : c ∈ j.relation.canonical
    · obtain ⟨r', hremove, hsound⟩ := AliasRelation.Sound.dissolve h hc
      exact ⟨⟨r', withdraw j.pairs c⟩, by simp only [Journal.step, hremove, if_pos hc]; rfl, hsound⟩
    · exact ⟨j, by simp only [Journal.step, AliasRelation.remove_of_not_canonical hc, if_neg hc]; rfl, h⟩

theorem Sound.run (h : j.Sound) {steps} (hp : j.Permits steps) : ∃ j', j.run steps = .ok j' ∧ j'.Sound := by
  induction steps generalizing j with
  | nil => exact ⟨j, rfl, h⟩
  | cons s rest ih =>
    obtain ⟨hs, hrest⟩ := hp
    obtain ⟨j1, hstep, h1⟩ := h.step hs
    obtain ⟨j', hrun, h'⟩ := ih h1 (hrest j1 hstep)
    refine ⟨j', ?_, h'⟩
    rw [Journal.run, foldlM_cons, hstep]
    exact hrun

theorem Permits.of_prefix {done steps} (h : j.Permits steps) (hd : done <+: steps) : j.Permits done := by
  induction done generalizing j steps with
  | nil => trivial
  | cons s done ih =>
    obtain ⟨rest, rfl⟩ := hd
    exact ⟨h.1, fun j' hj' => ih (h.2 j' hj') (prefix_append done rest)⟩

/-! ### Adds in any order -/

/-- The steps that add the given pairs. -/
def adding (pairs : List (String × String)) : List AliasStep := pairs.map fun p => .add p.1 p.2

theorem step_add_pairs {a b} (h : j.step (.add a b) = .ok j') : j'.pairs = j.pairs ++ [(a, b)] := by
  simp only [step, bind, Except.bind] at h
  split at h
  · cases h
  · cases h
    rfl

theorem run_adding_pairs (h : j.run (adding adds) = .ok j') : j'.pairs = j.pairs ++ adds := by
  induction adds generalizing j with
  | nil =>
    cases h
    simp
  | cons p adds ih =>
    rw [run, adding, map_cons, foldlM_cons] at h
    cases hs : j.step (.add p.1 p.2) with
    | error f =>
      rw [hs] at h
      cases h
    | ok j1 =>
      rw [hs] at h
      rw [ih h, step_add_pairs hs, append_assoc, singleton_append]

theorem permits_adding (hs : ∀ p ∈ adds, IsSigned p.1 ∧ IsSigned p.2) (hc : Consistent (j.pairs ++ adds)) :
    j.Permits (adding adds) := by
  induction adds generalizing j with
  | nil => trivial
  | cons p adds ih =>
    obtain ⟨ha, hb⟩ := hs p (.head _)
    refine ⟨⟨ha, hb, hc.mono ?_⟩, fun j' hj' => ih (fun q hq => hs q (.tail _ hq)) ?_⟩
    · rintro q hq
      simp only [mem_append, mem_cons, not_mem_nil, or_false] at hq ⊢
      exact hq.imp_right .inl
    · rwa [step_add_pairs hj', append_assoc, singleton_append]

theorem Permits.signed (h : j.Sound) (hp : j.Permits (adding adds)) : ∀ p ∈ adds, IsSigned p.1 ∧ IsSigned p.2 := by
  induction adds generalizing j with
  | nil => simp
  | cons p adds ih =>
    obtain ⟨j', hstep, h'⟩ := h.step hp.1
    intro q hq
    rcases mem_cons.1 hq with rfl | hq
    · exact ⟨hp.1.1, hp.1.2.1⟩
    · exact ih h' (hp.2 j' hstep) q hq

theorem aliasOf_perm {pairs more more'} (h : more.Perm more') {v w} :
    AliasOf (pairs ++ more) v w ↔ AliasOf (pairs ++ more') v w :=
  ⟨AliasOf.mono (h.append_left pairs).subset, AliasOf.mono (h.symm.append_left pairs).subset⟩

/-- Pairs that can be added in one order can be added in any other, with the
same aliases in the end. -/
theorem Sound.run_perm (h : j.Sound) {adds'} (hp : j.Permits (adding adds)) (hperm : adds.Perm adds') :
    ∃ j1 j2, j.run (adding adds) = .ok j1 ∧ j.run (adding adds') = .ok j2 ∧
      ∀ v w, w ∈ j1.relation.aliases v ↔ w ∈ j2.relation.aliases v := by
  obtain ⟨j1, hrun1, h1⟩ := h.run hp
  have hc : Consistent (j.pairs ++ adds') := by
    intro v hv hvv
    refine h1.consistent v hv ?_
    rw [run_adding_pairs hrun1]
    exact (aliasOf_perm hperm).2 hvv
  have hs : ∀ p ∈ adds', IsSigned p.1 ∧ IsSigned p.2 := fun p hm => hp.signed h p (hperm.mem_iff.2 hm)
  obtain ⟨j2, hrun2, h2⟩ := h.run (permits_adding hs hc)
  refine ⟨j1, j2, hrun1, hrun2, fun v w => ?_⟩
  rw [AliasRelation.Sound.mem_aliases h1, AliasRelation.Sound.mem_aliases h2, run_adding_pairs hrun1,
    run_adding_pairs hrun2, aliasOf_perm hperm]

/-! ### Runs -/

open AliasRelation

/-- A run through both signs: `a` and the negative of `b`, then `b` and `c`,
and the group of `a` is dissolved again. -/
def zigzag : List AliasStep := [.add "a" "-b", .add "b" "c", .remove "a"]

theorem isSigned_minus_b : IsSigned "-b" := ⟨"b", by decide, .inr (by decide)⟩

theorem permits_zigzag : Permits {} zigzag := by
  have ha : IsSigned "a" := ⟨"a", by decide, .inl rfl⟩
  have hb : IsSigned "b" := ⟨"b", by decide, .inl rfl⟩
  have hc : IsSigned "c" := ⟨"c", by decide, .inl rfl⟩
  have hall : Consistent [("a", "-b"), ("b", "c")] := by
    refine consistent_of_valued (fun x => if x = "a" then 1 else -1) (fun x => by split <;> simp) ?_
    intro p hp
    rcases mem_cons.1 hp with rfl | hp
    · exact ⟨ha, isSigned_minus_b, by decide⟩
    · rw [mem_singleton.1 hp]
      exact ⟨hb, hc, by decide⟩
  refine ⟨⟨ha, isSigned_minus_b, hall.mono (by simp)⟩, fun j1 h1 => ⟨⟨hb, hc, ?_⟩, fun j2 _ => ⟨trivial, ?_⟩⟩⟩
  · rw [step_add_pairs h1]
    exact hall
  · exact fun j3 _ => trivial

/-- **Aliases are the closure of the pairs in force.** After every step of a
permitted run, which never fails, the aliases of a signed name are its class
in the least relation that joins the pairs in force and, with two names, their
negatives. So being an alias is symmetric, the aliases of the negative are the
negatives of the aliases, and pairs may be added in any order. -/
theorem aliases_eq_closure {steps done : List AliasStep} (h : Permits {} steps) (hd : done <+: steps) :
    ∃ j, run {} done = .ok j ∧
      (∀ v, IsSigned v → ∀ w, w ∈ j.relation.aliases v ↔ AliasOf j.pairs v w) ∧
      (∀ v w, IsSigned v → IsSigned w → (w ∈ j.relation.aliases v ↔ v ∈ j.relation.aliases w)) ∧
      (∀ v, IsSigned v → ∀ w, w ∈ j.relation.aliases (negate v) ↔ ∃ u ∈ j.relation.aliases v, negate u = w) ∧
      ∀ adds adds' : List (String × String), j.Permits (adding adds) → adds.Perm adds' →
        ∃ j₁ j₂, j.run (adding adds) = .ok j₁ ∧ j.run (adding adds') = .ok j₂ ∧
          ∀ v w, w ∈ j₁.relation.aliases v ↔ w ∈ j₂.relation.aliases v := by
  obtain ⟨j, hrun, hj⟩ := sound_empty.run (h.of_prefix hd)
  have hmem : ∀ {v w}, w ∈ j.relation.aliases v ↔ AliasOf j.pairs v w := AliasRelation.Sound.mem_aliases hj
  refine ⟨j, hrun, fun v _ w => hmem, fun v w _ _ => ?_, fun v hv w => ?_, fun adds adds' => hj.run_perm⟩
  · rw [hmem, hmem]
    exact ⟨.symm, .symm⟩
  · rw [hmem]
    constructor
    · intro hw
      have hsw := hw.signed hj.signed hv.negate
      refine ⟨negate w, hmem.2 ?_, negate_negate hsw⟩
      have h' := hw.negate
      rwa [negate_negate hv] at h'
    · rintro ⟨u, hu, rfl⟩
      exact (hmem.1 hu).negate

theorem aliases_eq_closure_zigzag : Permits {} zigzag ∧ [.add "a" "-b", .add "b" "c"] <+: zigzag ∧
    ∃ j, run {} [.add "a" "-b", .add "b" "c"] = .ok j ∧ ("-c" ∈ j.relation.aliases "a" ↔ AliasOf j.pairs "a" "-c") := by
  have hd : [.add "a" "-b", .add "b" "c"] <+: zigzag := ⟨[.remove "a"], rfl⟩
  obtain ⟨j, hrun, hmem, -⟩ := aliases_eq_closure permits_zigzag hd
  exact ⟨permits_zigzag, hd, j, hrun, hmem "a" ⟨"a", by decide, .inl rfl⟩ "-c"⟩

/-- **Every class has one representative.** In every state of a permitted run
the representatives are variables, one for each class of more than one name
together with its mirror image. A name of such a class is led by a
representative that, with the sign, is one of its aliases; any other name
leads itself with its own sign. When two classes are joined, the leader of the
first name leads the joined class, with the sign that the first name had. -/
theorem leaders_represent {steps done : List AliasStep} (h : Permits {} steps) (hd : done <+: steps) :
    ∃ j, run {} done = .ok j ∧ j.relation.canonical.Nodup ∧
      (∀ c ∈ j.relation.canonical, IsVariable c ∧ ∃ w ∈ j.relation.aliases c, c ≠ w) ∧
      (∀ v, IsSigned v → (∃ w ∈ j.relation.aliases v, v ≠ w) →
        ∃! c, c ∈ j.relation.canonical ∧ (c ∈ j.relation.aliases v ∨ c ∈ j.relation.aliases (negate v))) ∧
      (∀ v, IsSigned v → (∃ w ∈ j.relation.aliases v, v ≠ w) →
        ∃ c s, j.relation.leader v = .ok (c, s) ∧ c ∈ j.relation.canonical ∧
          (s = .plus → c ∈ j.relation.aliases v) ∧ (s = .minus → "-" ++ c ∈ j.relation.aliases v)) ∧
      (∀ x, IsVariable x → ((∀ w ∈ j.relation.aliases x, x = w) → j.relation.leader x = .ok (x, .plus)) ∧
        ((∀ w ∈ j.relation.aliases ("-" ++ x), "-" ++ x = w) →
          j.relation.leader ("-" ++ x) = .ok (x, .minus))) ∧
      ∀ a b, j.Allows (.add a b) → b ∉ j.relation.aliases a →
        ∃ r l, j.relation.add a b = .ok r ∧ j.relation.leader a = .ok l ∧ l.1 ∈ r.canonical ∧
          (∀ v, v ∈ r.aliases a ↔ v ∈ j.relation.aliases a ∨ v ∈ j.relation.aliases b) ∧
          ∀ v ∈ r.aliases a, r.leader v = .ok l := by
  obtain ⟨j, hrun, hj⟩ := sound_empty.run (h.of_prefix hd)
  have hmem : ∀ {v w}, w ∈ j.relation.aliases v ↔ AliasOf j.pairs v w := AliasRelation.Sound.mem_aliases hj
  refine ⟨j, hrun, hj.nodup, fun c hc => ?_, fun v hv => ?_, fun v hv => ?_, fun x hx => ?_, fun a b hab hnot => ?_⟩
  · obtain ⟨hvar, hl⟩ := hj.canonical hc
    obtain ⟨w, hne, hal⟩ := hj.leader_iff.1 ⟨_, hl⟩
    exact ⟨hvar, w, hmem.2 hal, hne⟩
  · rintro ⟨w, hw, hne⟩
    exact hj.existsUnique_canonical hv ⟨w, hne, hmem.1 hw⟩
  · rintro ⟨w, hw, hne⟩
    obtain ⟨⟨c, s⟩, hl⟩ := hj.leader_iff.2 ⟨w, hne, hmem.1 hw⟩
    obtain ⟨hc, hal⟩ := hj.led hl
    refine ⟨c, s, by rw [leader, hl]; rfl, hc, ?_, ?_⟩
    · rintro rfl
      exact hmem.2 hal
    · rintro rfl
      rw [← negate_variable (hj.canonical hc).1]
      exact hmem.2 hal
  · have alone : ∀ {v}, (∀ w ∈ j.relation.aliases v, v = w) → j.relation.leader v = splitSign v := by
      intro v hv
      rw [leader]
      split
      · next l hl =>
        obtain ⟨w, hne, hal⟩ := hj.leader_iff.1 ⟨l, hl⟩
        exact absurd (hv w (hmem.2 hal)) hne
      · rfl
    exact ⟨fun hv => (alone hv).trans hx.splitSign, fun hv => (alone hv).trans (splitSign_minus x)⟩
  · obtain ⟨ha, hb, hc⟩ := hab
    have hnot' : ¬ AliasOf j.pairs a b := fun h' => hnot (hmem.2 h')
    obtain ⟨r, l, hadd, hr, hla, hled⟩ := AliasRelation.Sound.join hj ha hb hc hnot'
    have hclass : ∀ v, v ∈ r.aliases a ↔ Joined j.pairs a b v := fun v => by
      rw [hr.mem_aliases]
      exact hj.aliasOf_left_snoc ha hb hc
    refine ⟨r, l, hadd, hla, ?_, fun v => ?_, fun v hv => hled v ((hclass v).1 hv)⟩
    · have hl := hled a (.inl (.refl a))
      exact hr.leader_mem ⟨b, fun he => hnot' (he ▸ .refl a), .pair (by simp)⟩ hl
    · rw [hclass, Joined, hmem, hmem]

theorem leaders_represent_zigzag : Permits {} zigzag ∧ zigzag <+: zigzag ∧
    ∃ j, run {} zigzag = .ok j ∧ j.relation.canonical.Nodup ∧
      ((∀ w ∈ j.relation.aliases "-b", "-b" = w) → j.relation.leader "-b" = .ok ("b", .minus)) := by
  obtain ⟨j, hrun, hnodup, -, -, -, halone, -⟩ := leaders_represent permits_zigzag (List.prefix_refl zigzag)
  exact ⟨permits_zigzag, List.prefix_refl zigzag, j, hrun, hnodup, (halone "b" (by decide)).2⟩

end Journal
end Modelica
