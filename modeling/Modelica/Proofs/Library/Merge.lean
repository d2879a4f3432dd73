/-
Merging class trees.

`merge_runs`: of two trees without a common class the merged one has the paths of both,
and where both have a class it is the one of the first tree, with the names that are new to
it behind its own. Only the tables of nested classes change (`Regroups`), and only those of the first tree; what hangs in the second one
is taken over as it is.
-/
import Modelica.Proofs.Library.Paths

namespace Modelica

open List Option

namespace Graph

/-- The classes of which `p` holds may have other nested ones; nothing else is different. -/
structure Regroups (p : Id → Prop) (g g' : Graph) : Prop where
  size_eq : g'.size = g.size
  get? : ∀ x, ¬ p x → g'.get? x = g.get? x
  classDef : ∀ x c, p x → g.get? x = some (.classDef c) →
    ∃ t, g'.get? x = some (.classDef { c with classes := t }) ∧ (c.classes.keys.Nodup → t.keys.Nodup)

namespace Regroups

variable {p q : Id → Prop} {g g1 g' : Graph} {id : Id} {c : ClassDef}

theorem refl (g : Graph) : g.Regroups p g := ⟨rfl, fun _ _ => rfl, fun _ c _ hc => ⟨c.classes, hc, fun h => h⟩⟩

theorem trans (h : g.Regroups p g1) (h' : g1.Regroups p g') : g.Regroups p g' := by
  refine ⟨h'.size_eq.trans h.size_eq, fun x hx => (h'.get? x hx).trans (h.get? x hx), fun x c hx hc => ?_⟩
  obtain ⟨t, ht, hnodup⟩ := h.classDef x c hx hc
  obtain ⟨t', ht', hnodup'⟩ := h'.classDef x _ hx ht
  exact ⟨t', ht', fun hc => hnodup' (hnodup hc)⟩

theorem mono (h : g.Regroups p g') (hpq : ∀ x, p x → q x) : g.Regroups q g' := by
  refine ⟨h.size_eq, fun x hx => h.get? x fun hp => hx (hpq x hp), fun x c _ hc => ?_⟩
  by_cases hp : p x
  · exact h.classDef x c hp hc
  · exact ⟨c.classes, by rw [h.get? x hp, hc], fun h => h⟩

theorem set (h : g.Regroups p g') (hid : p id) (hc : g'.ClassAt id c) {t}
    (ht : c.classes.keys.Nodup → t.keys.Nodup) : g.Regroups p (g'.set id (.classDef { c with classes := t })) := by
  refine h.trans ⟨size_set _ _ _, fun x hx => get?_set_other _ _ ?_, fun x c' hx hc' => ?_⟩
  · rintro rfl
    exact hx hid
  · by_cases he : x = id
    · subst he
      cases hc.symm.trans hc'
      exact ⟨t, get?_set hc _, ht⟩
    · exact ⟨c'.classes, by rw [get?_set_other _ _ he, hc'], fun h => h⟩

theorem exists_classDef (h : g.Regroups p g') (hc : g.ClassAt id c) :
    ∃ t, g'.get? id = some (.classDef { c with classes := t }) ∧ (c.classes.keys.Nodup → t.keys.Nodup) := by
  by_cases hid : p id
  · exact h.classDef id c hid hc
  · exact ⟨c.classes, by rw [h.get? id hid, hc], fun h => h⟩

end Regroups

/-- Of the given names those that a class does not have, behind those it has. -/
def namesWith (g : Graph) (id : Id) (more : List (Option String)) : List (Option String) :=
  g.classNames id ++ more.filter (· ∉ g.classNames id)

/-- How far a merge has come when the given names of the other tree are done. -/
structure Merging (g : Graph) (id other : Id) (done : List (Option String)) (g' : Graph) : Prop where
  along : ∀ name q, g'.along id (name :: q) =
    if name ∈ done then (g.along id (name :: q)).or (g.along other (name :: q)) else g.along id (name :: q)
  names : g'.classNames id = g.namesWith id done
  namesBelow : ∀ name ∈ done, ∀ q x, g.along id (name :: q) = some x →
    g'.classNames x = g.namesWith x ((g.along other (name :: q)).elim [] g.classNames)
  regroups : g.Regroups (fun x => x = id ∨ ∃ name ∈ done, ∃ q, g.along id (name :: q) = some x) g'

/-- No class hangs below both of two classes. -/
def Apart (g : Graph) (id other : Id) : Prop := ∀ p q x, g.along id p = some x → g.along other q ≠ some x

namespace Merging

variable {g g1 g2 : Graph} {id other mine theirs : Id} {done : List (Option String)} {name : Option String} {p : Path}

theorem start (g : Graph) (id other : Id) : g.Merging id other [] g := 
  ⟨by simp, by simp [namesWith], by simp, .refl g⟩

section

variable (h : g.Merging id other done g1)

variable {x : Id}

include h

theorem get?_mine (hid : g.Treelike id) (hname : name ∉ done) (hmine : g.nested id name = some mine)
    (hx : g.along mine p = some x) : g1.get? x = g.get? x := by
  refine h.regroups.get? x ?_
  rintro (rfl | ⟨name', hdone, q, hq⟩)
  · exact hid.not_along_nested hmine hx
  · have := hid.injective (name :: p) (name' :: q) x (by rwa [along_cons, hmine]) hq
    exact hname ((cons.inj this).1 ▸ hdone)

theorem get?_theirs (hapart : g.Apart id other) (htheirs : g.nested other name = some theirs)
    (hx : g.along theirs p = some x) : g1.get? x = g.get? x := by
  have hother : g.along other (name :: p) = some x := by rwa [along_cons, htheirs]
  refine h.regroups.get? x ?_
  rintro (rfl | ⟨name', -, q, hq⟩)
  · exact hapart [] (name :: p) x rfl hother
  · exact hapart (name' :: q) (name :: p) x hq hother

theorem along_mine (hid : g.Treelike id) (hname : name ∉ done)
    (hmine : g.nested id name = some mine) (p : Path) : g1.along mine p = g.along mine p :=
  along_congr fun _ _ hx _ => nested_congr (h.get?_mine hid hname hmine hx)

theorem along_theirs (hapart : g.Apart id other)
    (htheirs : g.nested other name = some theirs) (p : Path) : g1.along theirs p = g.along theirs p :=
  along_congr fun _ _ hx _ => nested_congr (h.get?_theirs hapart htheirs hx)

theorem along_cases {q} (hx : g1.along id (name :: q) = some x) :
    g.along id (name :: q) = some x ∨ g.along other (name :: q) = some x := by
  rw [h.along] at hx
  split at hx
  · rcases or_eq_some_iff.1 hx with hx | ⟨-, hx⟩
    · exact .inl hx
    · exact .inr hx
  · exact .inl hx

/-- After one more name the merge has come as far as this name says, if below the others
nothing has changed since. -/
theorem next (hsame : ∀ name' q, name' ≠ name → g2.along id (name' :: q) = g1.along id (name' :: q))
    (hname : ∀ q, g2.along id (name :: q) = (g.along id (name :: q)).or (g.along other (name :: q)))
    (hnames : g2.classNames id = g.namesWith id (done ++ [name]))
    (hbelow : ∀ q x, g.along id (name :: q) = some x →
      g2.classNames x = g.namesWith x ((g.along other (name :: q)).elim [] g.classNames))
    (hid : g.Treelike id) (hdone : name ∉ done)
    (hregroups : g1.Regroups (fun x => x = id ∨ ∃ q, g.along id (name :: q) = some x) g2) :
    g.Merging id other (done ++ [name]) g2 := by
  refine ⟨fun name' q => ?_, hnames, fun name' hmem q x hx => ?_, (h.regroups.mono ?_).trans (hregroups.mono ?_)⟩
  · by_cases he : name' = name
    · subst he
      rw [hname, if_pos (by simp)]
    · rw [hsame name' q he, h.along]
      simp [he]
  · rcases mem_append.1 hmem with hmem | hmem
    · rw [← h.namesBelow name' hmem q x hx]
      refine classNames_congr (hregroups.get? x ?_)
      rintro (rfl | ⟨r, hr⟩)
      · cases hid.injective _ [] x hx rfl
      · have := hid.injective _ _ x hx hr
        exact hdone ((cons.inj this).1 ▸ hmem)
    · rw [mem_singleton.1 hmem] at hx ⊢
      exact hbelow q x hx
  · rintro x (hx | ⟨name', hdone, hq⟩)
    · exact .inl hx
    · exact .inr ⟨name', mem_append_left _ hdone, hq⟩
  · rintro x (hx | hq)
    · exact .inl hx
    · exact .inr ⟨name, by simp, hq⟩

theorem merged (hid : g.Treelike id) (hapart : g.Apart id other) (hname : name ∉ done)
    (hmine : g.nested id name = some mine) (htheirs : g.nested other name = some theirs)
    (halong : ∀ p, g2.along mine p = (g1.along mine p).or (g1.along theirs p))
    (hnames : ∀ p x, g1.along mine p = some x → g2.classNames x = g1.namesWith x ((g1.along theirs p).elim [] g1.classNames))
    (hregroups : g1.Regroups (fun x => ∃ p, g1.along mine p = some x) g2) : g.Merging id other (done ++ [name]) g2 := by
  have hbelow : ∀ x, (∃ p, g1.along mine p = some x) → ∃ q, g.along id (name :: q) = some x := by
    rintro x ⟨p, hp⟩
    rw [h.along_mine hid hname hmine] at hp
    exact ⟨p, by rwa [along_cons, hmine]⟩
  have hself : g2.get? id = g1.get? id := by
    refine hregroups.get? id ?_
    rintro ⟨p, hp⟩
    rw [h.along_mine hid hname hmine] at hp
    exact hid.not_along_nested hmine hp
  refine h.next (fun name' q he => ?_) (fun q => ?_) ?_ (fun q x hx => ?_) hid hname
    (hregroups.mono fun x hx => .inr (hbelow x hx))
  · rw [along_cons, along_cons, nested_congr hself]
    cases hchild : g1.nested id name' with
    | none => rfl
    | some child =>
      refine along_congr fun q x hx _ => nested_congr (hregroups.get? x fun hmem => ?_)
      obtain ⟨r, hr⟩ := hbelow x hmem
      have hq : g1.along id (name' :: q) = some x := by rwa [along_cons, hchild]
      rcases h.along_cases hq with hq | hq
      · have := hid.injective (name :: r) (name' :: q) x hr hq
        exact he (cons.inj this).1.symm
      · exact hapart _ _ x hr hq
  · have hnested : g1.nested id name = some mine := by
      rw [← along_singleton, h.along, if_neg hname, along_singleton, hmine]
    rw [along_cons, nested_congr hself, hnested, bind_some, halong, h.along_mine hid hname hmine,
      h.along_theirs hapart htheirs, along_cons, hmine, along_cons, htheirs, bind_some, bind_some]
  · have hmem : name ∈ g.classNames id := mem_classNames_iff.2 ⟨mine, hmine⟩
    rw [classNames_congr hself, h.names, namesWith, namesWith, filter_append,
      filter_cons_of_neg (by simpa using hmem), filter_nil, append_nil]
  · rw [along_cons, hmine, bind_some] at hx
    rw [hnames q x (by rwa [h.along_mine hid hname hmine]), h.along_theirs hapart htheirs, along_cons, htheirs,
      bind_some, namesWith, namesWith, classNames_congr (h.get?_mine hid hname hmine hx)]
    cases hy : g.along theirs q with
    | none => rfl
    | some y => rw [elim_some, elim_some, classNames_congr (h.get?_theirs hapart htheirs hy)]

theorem taken (hid : g.Treelike id) (hapart : g.Apart id other) (hname : name ∉ done) (hmine : g.nested id name = none)
    (htheirs : g.nested other name = some theirs) {c} (hc : g1.ClassAt id c) :
    g.Merging id other (done ++ [name]) (g1.set id (.classDef { c with classes := c.classes.insert name theirs })) := by
  have hset := get?_set hc (.classDef { c with classes := c.classes.insert name theirs })
  -- from where the class is not reached, paths lead where they led
  have hfree : ∀ x q, (∀ r, g1.along x r ≠ some id) →
      (g1.set id (.classDef { c with classes := c.classes.insert name theirs })).along x q = g1.along x q :=
    fun x q hx => along_congr fun r y hy _ => nested_congr (get?_set_other _ _ fun he => hx r (he ▸ hy))
  have hfresh : name ∉ c.classes.keys := by
    intro hmem
    obtain ⟨a, ha⟩ := Table.mem_keys_iff.1 hmem
    rw [← nested_eq hc, ← along_singleton, h.along, if_neg hname, along_singleton, hmine] at ha
    cases ha
  refine h.next (fun name' q he => ?_) (fun q => ?_) ?_ (fun q x hx => ?_) hid hname ?_
  · rw [along_cons, along_cons, nested_eq hset, nested_eq hc, Table.get?_insert_other _ _ he, ← nested_eq hc]
    cases hchild : g1.nested id name' with
    | none => rfl
    | some child =>
      refine hfree child q fun r hr => ?_
      have hr : g1.along id (name' :: r) = some id := by rwa [along_cons, hchild]
      rcases h.along_cases hr with hr | hr
      · cases hid.injective _ [] id hr rfl
      · exact hapart [] _ id rfl hr
  · rw [along_cons, nested_eq hset, Table.get?_insert_self, bind_some, hfree theirs q fun r hr => ?_,
      h.along_theirs hapart htheirs, along_cons, hmine, along_cons, htheirs]
    · rfl
    · rw [h.along_theirs hapart htheirs] at hr
      exact hapart [] (name :: r) id rfl (by rwa [along_cons, htheirs])
  · have hnew : name ∉ g.classNames id := fun hmem => by
      obtain ⟨a, ha⟩ := mem_classNames_iff.1 hmem
      cases hmine.symm.trans ha
    rw [classNames_eq hset, Table.keys_insert_of_not_mem _ _ hfresh, ← classNames_eq hc, h.names, namesWith, namesWith,
      filter_append, filter_cons_of_pos (by simpa using hnew), filter_nil, append_assoc]
  · rw [along_cons, hmine] at hx
    cases hx
  · exact (Regroups.refl g1).set (.inl rfl) hc fun hn => Table.nodup_keys_insert hn _ _

end

end Merging
end Graph

namespace Build

open Modelica.Graph

/-- **Merging by paths**: the first tree keeps its classes, and those of the second one are
added where it has none. -/
theorem merge_runs {n g id other} (hid : g.Treelike id) (hother : g.Treelike other)
    (hapart : g.Apart id other) (hn : ∀ p x, g.along other p = some x → p.length < n) :
    Runs (merge n id other) g fun _ g' =>
      (∀ p, g'.along id p = (g.along id p).or (g.along other p)) ∧
        (∀ p x, g.along id p = some x → g'.classNames x = g.namesWith x ((g.along other p).elim [] g.classNames)) ∧
        g.Regroups (fun x => ∃ p, g.along id p = some x) g' := by
  induction n generalizing g id other with
  | zero => exact absurd (hn [] other rfl) (Nat.not_lt_zero _)
  | succ n ih =>
    obtain ⟨c, hc⟩ := hid.classDef
    obtain ⟨d, hd⟩ := hother.classDef
    have hnodup : (d.classes.entries.map (·.1)).Nodup := hother.nodup [] other d rfl hd
    simp only [merge, ends_bind, ends_classAt hd]
    refine (runs_forIn_yield (fun before _ g' => g.Merging id other (before.map (·.1)) g')
      (fun before b after hl _ g1 hJ => ?_) (Merging.start g id other)).imp fun _ g' hJ => ?_
    · obtain ⟨name, theirs⟩ := b
      have htheirs : g.nested other name = some theirs := by
        rw [nested_eq hd]
        exact Table.get?_of_mem_entries hnodup (by simp [hl])
      have hname : name ∉ before.map (·.1) := by
        intro hmem
        rw [hl, map_append, map_cons] at hnodup
        exact (nodup_append.1 hnodup).2.2 name hmem name (by simp) rfl
      obtain ⟨t, ht, -⟩ := hJ.regroups.exists_classDef hc
      have hnested : g.nested id name = t.get? name := by
        rw [← along_singleton, ← (hJ.along name []).trans (if_neg hname), along_singleton, nested_eq ht]
      simp only [ends_bind, ends_classAt ht, map_append, map_singleton]
      cases hmine : t.get? name with
      | some mine =>
        rw [hmine] at hnested
        have hsame := hJ.along_theirs hapart htheirs
        simp only [ends_bind, ends_pure]
        have hmineTree : g1.Treelike mine := (hid.nested hnested).unchanged fun _ _ => hJ.get?_mine hid hname hnested
        have htheirTree : g1.Treelike theirs := (hother.nested htheirs).unchanged fun _ _ => hJ.get?_theirs hapart htheirs
        refine (ih hmineTree htheirTree (fun p q x hp hq => ?_) fun p x hp => ?_).imp fun _ g2 h2 =>
            ⟨⟨⟩, trivial, hJ.merged hid hapart hname hnested htheirs h2.1 h2.2.1 h2.2.2⟩
        · rw [hJ.along_mine hid hname hnested] at hp
          rw [hsame] at hq
          exact hapart (name :: p) (name :: q) x (by rwa [along_cons, hnested]) (by rwa [along_cons, htheirs])
        · rw [hsame] at hp
          have := hn (name :: p) x (by rwa [along_cons, htheirs])
          simpa using this
      | none =>
        rw [hmine] at hnested
        simp only [ends_bind, ends_modifyClass ht, ends_pure]
        exact ⟨⟨⟩, trivial, hJ.taken hid hapart hname hnested htheirs ht⟩
    · have habsent : ∀ name ∉ d.classes.entries.map (·.1), ∀ q, g.along other (name :: q) = none := by
        intro name hnone q
        cases hnested : g.nested other name with
        | none => rw [along_cons, hnested, bind_none]
        | some a =>
          rw [nested_eq hd] at hnested
          exact absurd (Table.mem_keys_iff.2 ⟨a, hnested⟩) hnone
      refine ⟨fun p => ?_, fun p x hx => ?_, hJ.regroups.mono ?_⟩
      · cases p with
        | nil => rfl
        | cons name q =>
          rw [hJ.along]
          split
          · rfl
          · next hnone => rw [habsent name hnone, or_none]
      · cases p with
        | nil =>
          cases hx
          rw [hJ.names, along_nil, elim_some, classNames_eq hd]
          rfl
        | cons name q =>
          by_cases hmem : name ∈ d.classes.entries.map (·.1)
          · exact hJ.namesBelow name hmem q x hx
          · rw [habsent name hmem, elim_none, namesWith, filter_nil, append_nil]
            refine classNames_congr (hJ.regroups.get? x ?_)
            rintro (rfl | ⟨name', hdone, r, hr⟩)
            · cases hid.injective _ [] x hx rfl
            · have := hid.injective _ _ x hx hr
              exact hmem ((cons.inj this).1 ▸ hdone)
      · rintro x (rfl | ⟨name, -, q, hq⟩)
        · exact ⟨[], rfl⟩
        · exact ⟨name :: q, hq⟩

end Build
end Modelica
