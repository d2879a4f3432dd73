/-
Which references are flattened, and into what.

A visit to a tree in which nothing is held twice replaces exactly the
references that `Resolved` describes: those with the name of a symbol that are
reached without passing through a reference of another kind or through an
argument with a scope. Each becomes one name with all subscripts, and all else
stays as it was (`walk_exact`, `flattenReferences_exact`).
-/
import Modelica.Library
import Modelica.Proofs.Flat.Passes
import Modelica.Proofs.Graph.Reach
import Modelica.Proofs.Graph.Yield

namespace Modelica

open List Element StateT

def Element.isScoped : Element → Bool
  | .argument _ (some _) _ _ => true
  | _ => false

/-- The dotted name of a reference. -/
def dotted (rs : List Reference) : String := dottedText (rs.map (·.name))

theorem dottedText_singleton (name : String) : dottedText [name] = name := by
  simp [dottedText]

namespace Graph

variable {p : Id → Element → Prop} {g g' g'' : Graph} {found : String → Bool} {d : Nat} {id a : Id} {e : Element}
  {rs : List Reference}

/-- A visit to the first element replaces the reference at the second one. The
references in the subscripts of a reference are looked at only if it is
replaced itself. -/
inductive Resolved (g : Graph) (found : String → Bool) : Id → Id → Prop
  | here {id : Id} {rs : List Reference} : g.Chain id rs → found (dotted rs) = true → Resolved g found id id
  | subscript {id l a : Id} {rs : List Reference} : g.Chain id rs → found (dotted rs) = true → l ∈ subscripts rs →
      Resolved g found l a → Resolved g found id a
  | part {id l a : Id} {e : Element} : g.get? id = some e → e.isReference = false → e.isScoped = false →
      l ∈ e.children → Resolved g found l a → Resolved g found id a

namespace Resolved

theorem chain (h : g.Resolved found id a) : ∃ rs, g.Chain a rs := by
  induction h with
  | here hc => exact ⟨_, hc⟩
  | subscript _ _ _ _ ih => exact ih
  | part _ _ _ _ _ ih => exact ih

theorem reference_iff (hc : g.Chain id rs) :
    g.Resolved found id a ↔ found (dotted rs) = true ∧ (a = id ∨ ∃ l ∈ subscripts rs, g.Resolved found l a) := by
  constructor
  · intro h
    cases h with
    | here hc' hf =>
      rw [hc'.unique hc] at hf
      exact ⟨hf, .inl rfl⟩
    | subscript hc' hf hl h =>
      rw [hc'.unique hc] at hf hl
      exact ⟨hf, .inr ⟨_, hl, h⟩⟩
    | part he hr =>
      obtain ⟨r, hget⟩ := hc.isReference
      cases hget.symm.trans he
      simp [Element.isReference] at hr
  · rintro ⟨hf, rfl | ⟨l, hl, h⟩⟩
    · exact .here hc hf
    · exact .subscript hc hf hl h

theorem not_chain (he : g.get? id = some e) (hr : e.isReference = false) : ¬ g.Chain id rs := by
  intro hc
  obtain ⟨r, hget⟩ := hc.isReference
  cases hget.symm.trans he
  simp [Element.isReference] at hr

theorem not_scoped (he : g.get? id = some e) (hs : e.isScoped = true) : ¬ g.Resolved found id a := by
  have hr : e.isReference = false := by cases e <;> simp_all [isScoped, Element.isReference]
  intro h
  cases h with
  | here hc => exact not_chain he hr hc
  | subscript hc => exact not_chain he hr hc
  | part he' _ hs' =>
    cases he.symm.trans he'
    cases hs.symm.trans hs'

theorem part_iff (he : g.get? id = some e) (hr : e.isReference = false) (hs : e.isScoped = false) :
    g.Resolved found id a ↔ ∃ l ∈ e.children, g.Resolved found l a := by
  constructor
  · intro h
    cases h with
    | here hc => exact absurd hc (not_chain he hr)
    | subscript hc => exact absurd hc (not_chain he hr)
    | part he' _ _ hl h =>
      cases he.symm.trans he'
      exact ⟨_, hl, h⟩
  · rintro ⟨l, hl, h⟩
    exact .part he hr hs hl h

end Resolved

theorem tree_subscripts (h : g.Tree p (d + 1) id) (hc : g.Chain id rs) : ∀ l ∈ subscripts rs, g.Tree p d l := by
  cases rs with
  | nil => exact hc.elim
  | cons r rest =>
    have hl := (h.element hc.1).2.2
    intro l hmem
    simp only [subscripts, flatMap_cons, mem_append] at hmem
    rcases hmem with hmem | hmem
    · exact hl l (by simp [links, children, hmem])
    · obtain ⟨r', hr', hmem⟩ := mem_flatMap.1 hmem
      exact ReferenceSearch.tree_later hc hl r' hr' l hmem

theorem Resolved.mem_reach (h : g.Resolved found id a) (ht : g.Tree p d id) : a ∈ g.reach id := by
  induction h generalizing d with
  | here => exact self_mem_reach ht
  | @subscript id l a rs hc _ hl _ ih =>
    obtain ⟨d, rfl⟩ := Nat.exists_eq_add_one.2 ht.pos
    have hsub := (reach_subscripts ht hc).subset
    exact hsub (.tail _ (mem_flatMap.2 ⟨l, hl, ih (tree_subscripts ht hc l hl)⟩))
  | part he _ _ hl _ ih =>
    have hlink := mem_links_of_mem_children hl
    exact reach_link ht he hlink (ih ((ht.element he).2.2 _ hlink))

/-- The one name that stands for a dotted reference. -/
def join (stem : String) (rs : List Reference) : Reference :=
  { name := stem ++ dotted rs, indices := rs.flatMap (·.indices), child := [] }

/-- The references of `g` that `R` describes are replaced in the second graph
that follows, all else is as in the first. -/
structure Updated (g : Graph) (stem : String) (R : Id → Prop) (g' g'' : Graph) : Prop where
  size : g''.size = g'.size
  resolved : ∀ a rs, R a → g.Chain a rs → g''.get? a = some (.reference (join stem rs))
  other : ∀ a, ¬ R a → g''.get? a = g'.get? a

namespace Updated

variable {stem : String} {R R' : Id → Prop}

theorem refl (h : ∀ a, ¬ R a) : Updated g stem R g' g' := ⟨rfl, fun a _ ha => absurd ha (h a), fun _ _ => rfl⟩

theorem congr (h : Updated g stem R g' g'') (hR : ∀ a, R' a ↔ R a) : Updated g stem R' g' g'' :=
  ⟨h.size, fun a rs ha => h.resolved a rs ((hR a).1 ha), fun a ha => h.other a fun h' => ha ((hR a).2 h')⟩

theorem replace (hid : id < g'.size) (hc : g.Chain id rs) (hR : ¬ R id)
    (h : Updated g stem R (g'.set id (.reference (join stem rs))) g'') :
    Updated g stem (fun a => a = id ∨ R a) g' g'' := by
  refine ⟨h.size.trans (size_set g' _ _), ?_, fun a ha => ?_⟩
  · rintro a rs' (rfl | ha) hrs
    · rw [h.other a hR, get?_set_self g' _ hid, hrs.unique hc]
    · exact h.resolved a rs' ha hrs
  · rw [h.other a fun h' => ha (.inr h'), get?_set_other g' _ fun h' => ha (.inl h')]

/-- Two sets of references that have nothing in common are replaced one after
the other. -/
theorem trans {g1} (h1 : Updated g stem R g' g1) (h2 : Updated g stem R' g1 g'') (hR : ∀ a, R a → ¬ R' a) :
    Updated g stem (fun a => R a ∨ R' a) g' g'' := by
  refine ⟨h2.size.trans h1.size, ?_, fun a ha => ?_⟩
  · rintro a rs (ha | ha) hrs
    · rw [h2.other a (hR a ha), h1.resolved a rs ha hrs]
    · exact h2.resolved a rs ha hrs
  · rw [h2.other a fun h' => ha (.inr h'), h1.other a fun h' => ha (.inl h')]

end Updated

end Graph

namespace ReferenceSearch

open Build Modelica.Graph

variable {p : Id → Element → Prop} {g g' : Graph} {d n : Nat} {id container : Id} {e : Element} {k : ClassDef}
  {st : ReferenceSearch} {F : Fault → Graph → Prop}

variable {Q : Unit × ReferenceSearch → Graph → Prop} {rs : List Reference}

/-! ### Places where references are left alone -/

/-- Where a reference that is entered is left alone: in one that was, or in an
argument with a scope. -/
def Frozen (st : ReferenceSearch) : Prop :=
  (∃ c, st.cutoff = some c ∧ c ≤ st.depth) ∨ (st.cutoff = none ∧ 0 < st.inArguments)

/-- What leaving an element does to the state. -/
def exited (st : ReferenceSearch) : Element → ReferenceSearch
  | .reference _ =>
    let depth := st.depth - 1
    { st with depth, cutoff := if st.cutoff.any fun c => depth < c then none else st.cutoff }
  | .argument _ (some _) _ _ => { st with inArguments := st.inArguments - 1 }
  | _ => st

theorem ends_exit (stem : String) (he : g.get? id = some e) :
    Ends (((visitor container stem).exit id).run st) g Q F ↔ Q ((), st.exited e) g := by
  simp only [visitor, ends_lift_bind, ends_element he]
  cases e with
  | argument v scope redeclare source => cases scope <;> exact Iff.rfl
  | _ => exact Iff.rfl

/-- What entering an element that is no reference does to the state. -/
def entered (st : ReferenceSearch) (e : Element) : ReferenceSearch :=
  if e.isScoped then { st with inArguments := st.inArguments + 1 } else st

theorem ends_enter (stem : String) (he : g.get? id = some e) (hr : e.isReference = false) :
    Ends (((visitor container stem).enter id).run st) g Q F ↔ Q ((), st.entered e) g := by
  simp only [visitor, ends_lift_bind, ends_element he]
  cases e with
  | reference r => simp [Element.isReference] at hr
  | argument v scope redeclare source => cases scope <;> exact Iff.rfl
  | _ => exact Iff.rfl

theorem exited_entered (st : ReferenceSearch) {e} (hr : e.isReference = false) : (st.entered e).exited e = st := by
  cases e with
  | reference r => simp [Element.isReference] at hr
  | argument v scope redeclare source => cases scope <;> rfl
  | _ => rfl

theorem Frozen.entered (h : st.Frozen) (e : Element) : (st.entered e).Frozen := by
  unfold ReferenceSearch.entered
  split
  · rcases h with h | ⟨hc, hi⟩
    · exact .inl h
    · exact .inr ⟨hc, Nat.lt_succ_of_lt hi⟩
  · exact h

variable (stem : String)

theorem enter_missed {r} (hr : g.ReferenceAt id r) (hc : g.Chain id rs)
    (hlen : rs.length ≤ g.size) (hk : g.ClassAt container k)
    (h : st.Frozen ∨ (st.cutoff = none ∧ k.symbols.contains (stem ++ dotted rs) = false)) :
    Runs (((visitor container stem).enter id).run st) g fun x g' => g' = g ∧ x.2.Frozen ∧
      x.2.exited (.reference r) = st := by
  obtain ⟨depth, cutoff, inArguments⟩ := st
  simp only [visitor, run_bind, run_lift, ends_bind, ends_element hr, ends_pure,
    enterReference, run_modify, pure_bind, run_get]
  cases cutoff with
  | none =>
    have hmissed : ¬ (k.symbols.contains (stem ++ dotted rs) = true ∧ inArguments = 0) := by
      rcases h with (⟨c, hcut, _⟩ | ⟨_, hi⟩) | ⟨_, hf⟩
      · cases hcut
      · exact fun hboth => Nat.ne_of_gt hi hboth.2
      · simp [hf]
    simp only [Option.all_none, if_true, run_bind, run_lift, ends_bind,
      ends_path hc hlen, ends_pure, ends_classAt hk]
    rw [show dottedText (rs.map (·.name)) = dotted rs from rfl, if_neg hmissed]
    refine ⟨rfl, .inl ⟨_, rfl, le_rfl⟩, ?_⟩
    simp [exited]
  | some c =>
    have hdepth : c ≤ depth := by
      rcases h with (⟨c', hcut, hle⟩ | ⟨hcut, _⟩) | ⟨hcut, _⟩
      · cases hcut
        exact hle
      · cases hcut
      · cases hcut
    simp only [Option.all_some, decide_eq_true_eq, show ¬ depth + 1 ≤ c by omega, if_false]
    refine ⟨rfl, .inl ⟨c, rfl, Nat.le_succ_of_le hdepth⟩, ?_⟩
    simp [exited, Nat.not_lt.2 hdepth]

theorem walk_keeps (he : g.get? id = some e)
    (henter : Runs (((visitor container stem).enter id).run st) g fun x g' => g' = g ∧ x.2.Frozen ∧ x.2.exited e = st)
    (hchildren : ∀ c ∈ e.children, ∀ st : ReferenceSearch, st.Frozen →
      Runs (((visitor container stem).walk n c).run st) g fun x g' => x.2 = st ∧ g' = g) :
    Runs (((visitor container stem).walk (n + 1) id).run st) g fun x g' => x.2 = st ∧ g' = g := by
  simp only [Visitor.walk, run_bind, run_lift, ends_bind, ends_pure]
  refine henter.imp ?_
  rintro x g1 ⟨hg1, hfrozen, hexit⟩
  rw [hg1, ends_element he]
  refine Runs.imp (ends_forIn_state (fun s g2 => s = x.2 ∧ g2 = g) ?_ ⟨rfl, rfl⟩) ?_
  · rintro c hc s g2 ⟨hs, hg2⟩
    rw [hs, hg2]
    exact hchildren c hc x.2 hfrozen
  · rintro y g2 ⟨hy, hg2⟩
    rw [hg2, ends_exit stem he, hy]
    exact ⟨hexit, rfl⟩

theorem walk_frozen (hd : d ≤ n) (ht : g.Tree p d id) (hsize : d ≤ g'.size)
    (hagree : Agree g g' (g.reach id)) (hk : g'.ClassAt container k) (hst : st.Frozen) :
    Runs (((visitor container stem).walk n id).run st) g' fun x g'' => x.2 = st ∧ g'' = g' := by
  induction n generalizing d id st with
  | zero =>
    obtain rfl : d = 0 := by omega
    exact ht.elim
  | succ n ih =>
    obtain ⟨d, rfl⟩ := Nat.exists_eq_add_one.2 ht.pos
    have htree := ht
    obtain ⟨e, he, _, _, hl⟩ := ht
    have he' : g'.get? id = some e := (hagree.get? htree).trans he
    refine walk_keeps stem he' ?_ fun c hc st hst => ?_
    · cases hr : e.isReference with
      | false => exact (ends_enter stem he' hr).2 ⟨rfl, hst.entered e, exited_entered st hr⟩
      | true =>
        cases e with
        | reference r =>
          obtain ⟨rs, hchain, hlen⟩ := htree.chain ⟨r, he⟩
          exact enter_missed stem he' (hagree.chain htree hchain) (hlen.trans hsize) hk (.inl hst)
        | _ => simp [Element.isReference] at hr
    · have hlink := mem_links_of_mem_children hc
      exact ih (by omega) (hl c hlink) (by omega) (hagree.link htree he hlink) hst

/-! ### Places where references are looked up -/

/-- Where a reference that is entered is looked up. -/
structure Active (st : ReferenceSearch) : Prop where
  cutoff : st.cutoff = none
  inArguments : st.inArguments = 0

/-- The references that a visit replaces have the name of a symbol of the
container behind the prefix. -/
def named (k : ClassDef) (stem : String) (s : String) : Bool := k.symbols.contains (stem ++ s)

theorem children_join (rs : List Reference) : (reference (join stem rs)).children = subscripts rs := by
  simp [children, join, subscripts, Value.nodesOfRows, flatMap_assoc]

theorem enter_found (hc : g.Chain id rs) (hlen : rs.length ≤ g.size)
    (hk : g.ClassAt container k) (hf : named k stem (dotted rs) = true) (hst : st.Active) :
    Ends (((visitor container stem).enter id).run st) g Q F ↔
      Q ((), { st with depth := st.depth + 1 }) (g.set id (.reference (join stem rs))) := by
  cases rs with
  | nil => exact hc.elim
  | cons r rest =>
    have hcontains : k.symbols.contains (stem ++ dottedText ((r :: rest).map (·.name))) = true := hf
    simp only [visitor, run_bind, run_lift, ends_bind, ends_element hc.1, ends_pure,
      enterReference, run_modify, pure_bind, run_get, hst.cutoff, Option.all_none, if_true,
      ends_path hc hlen, ends_classAt hk, hcontains, hst.inArguments, and_self, ends_referenceAt hc.1, ends_size,
      ends_laterIndices hc (Nat.lt_succ_of_le (Nat.le_of_succ_le hlen)), ends_store]
    exact Iff.rfl

theorem runs_forIn_updates {l : List Id} {f : Id → StateT ReferenceSearch Build Unit}
    (hnodup : (l.flatMap g.reach).Nodup) (ht : ∀ c ∈ l, g.Tree p d c)
    (hf : ∀ c ∈ l, ∀ g', g'.size = g.size → Agree g g' (g.reach c) →
      g'.ClassAt container k → Runs ((f c).run st) g' fun x g'' =>
        x.2 = st ∧ Updated g stem (g.Resolved (named k stem) c) g' g'')
    (hk : g.ClassAt container k) (hsize : g'.size = g.size)
    (hagree : ∀ c ∈ l, Agree g g' (g.reach c)) (hk' : g'.ClassAt container k) :
    Runs ((forIn l PUnit.unit fun c _ => do f c; pure (.yield PUnit.unit)).run st) g' fun x g'' =>
      x.2 = st ∧ Updated g stem (fun a => ∃ c ∈ l, g.Resolved (named k stem) c a) g' g'' := by
  induction l generalizing g' with
  | nil => exact ⟨rfl, .refl (by simp)⟩
  | cons c l ih =>
    simp only [forIn_cons, run_bind, bind_assoc, pure_bind, ends_bind]
    rw [flatMap_cons, nodup_append] at hnodup
    refine (hf c (.head _) g' hsize (hagree c (.head _)) hk').imp ?_
    rintro x g1 ⟨hx, h1⟩
    -- nothing that the other elements hold has been touched
    have happart : ∀ b ∈ l, ∀ a ∈ g.reach b, ¬ g.Resolved (named k stem) c a := fun b hb a ha h =>
      hnodup.2.2 a (h.mem_reach (ht c (.head _))) a (mem_flatMap.2 ⟨b, hb, ha⟩) rfl
    have hclass : ¬ g.Resolved (named k stem) c container := fun h => by
      obtain ⟨rs, hrs⟩ := h.chain
      exact Resolved.not_chain hk rfl hrs
    rw [hx]
    refine (ih hnodup.2.1 (fun b hb => ht b (.tail _ hb))
      (fun b hb => hf b (.tail _ hb)) (h1.size.trans hsize)
      (fun b hb a ha => (h1.other a (happart b hb a ha)).trans (hagree b (.tail _ hb) a ha))
      ((h1.other container hclass).trans hk')).imp ?_
    rintro y g2 ⟨hy, h2⟩
    refine ⟨hy, (h1.trans h2 fun a ha => ?_).congr fun a => by simp⟩
    rintro ⟨b, hb, h⟩
    exact happart b hb a (h.mem_reach (ht b (.tail _ hb))) ha

theorem walk_exact (hd : d ≤ n) (hdepth : d ≤ g.size) (ht : g.Tree p d id)
    (hu : g.Unshared id) (hk : g.ClassAt container k) (hsize : g'.size = g.size)
    (hagree : Agree g g' (g.reach id)) (hk' : g'.ClassAt container k) (hst : st.Active) :
    Runs (((visitor container stem).walk n id).run st) g' fun x g'' =>
      x.2 = st ∧ Updated g stem (g.Resolved (named k stem) id) g' g'' := by
  induction n generalizing d id st g' with
  | zero =>
    obtain rfl : d = 0 := by omega
    exact ht.elim
  | succ n ih =>
    obtain ⟨d, rfl⟩ := Nat.exists_eq_add_one.2 ht.pos
    have htree := ht
    obtain ⟨e, he, _, _, hl⟩ := ht
    have he' : g'.get? id = some e := (hagree.get? htree).trans he
    have hleft : ∀ c ∈ e.children, ∀ st : ReferenceSearch, st.Frozen →
        Runs (((visitor container stem).walk n c).run st) g' fun x g'' => x.2 = st ∧ g'' = g' := fun c hc st hst => by
      have hlink := mem_links_of_mem_children hc
      exact walk_frozen stem (by omega) (hl c hlink) (by omega) (hagree.link htree he hlink) hk' hst
    cases hr : e.isReference with
    | true =>
      cases e with
      | reference r =>
        obtain ⟨rs, hchain, hlen⟩ := htree.chain ⟨r, he⟩
        have hchain' := hagree.chain htree hchain
        cases hf : named k stem (dotted rs) with
        | true =>
          simp only [Visitor.walk, run_bind, run_lift, ends_bind, ends_pure]
          rw [enter_found stem hchain' (by omega) hk' hf hst, ends_element (get?_set he' _),
            children_join]
          have hsub := reach_subscripts htree hchain
          obtain ⟨hself, hnodup⟩ := nodup_cons.1 (hu.sublist hsub)
          have hsubtree := tree_subscripts htree hchain
          have hreach : ∀ c ∈ subscripts rs, g.reach c ⊆ g.reach id := fun c hc a ha =>
            hsub.subset (.tail _ (mem_flatMap.2 ⟨c, hc, ha⟩))
          have hown : ∀ c ∈ subscripts rs, ∀ a ∈ g.reach c, a ≠ id := by
            rintro c hc a ha rfl
            exact hself (mem_flatMap.2 ⟨c, hc, ha⟩)
          have hne : container ≠ id := by
            rintro rfl
            cases hk.symm.trans he
          refine (runs_forIn_updates stem hnodup hsubtree (fun c hc g1 hs1 ha1 hk1 => ?_) hk
            ((size_set g' _ _).trans hsize) (fun c hc a ha => ?_) ?_).imp ?_
          · have hsingle := hu.of_mem htree (hreach c hc (self_mem_reach (hsubtree c hc)))
            exact ih (by omega) (by omega) (hsubtree c hc) hsingle hs1 ha1 hk1 ⟨hst.cutoff, hst.inArguments⟩
          · rw [get?_set_other g' _ (hown c hc a ha), hagree a (hreach c hc ha)]
          · exact (get?_set_other g' _ hne).trans hk'
          · rintro x g2 ⟨hx, h2⟩
            have hkept : ¬ ∃ c ∈ subscripts rs, g.Resolved (named k stem) c id := by
              rintro ⟨c, hc, h⟩
              exact hown c hc id (h.mem_reach (hsubtree c hc)) rfl
            rw [ends_exit stem ((h2.other id hkept).trans (get?_set he' _)), hx]
            refine ⟨?_, (Updated.replace (get?_lt he') hchain hkept h2).congr fun a => ?_⟩
            · obtain ⟨depth, cutoff, inArguments⟩ := st
              obtain rfl : cutoff = none := hst.cutoff
              simp [exited]
            · rw [Resolved.reference_iff hchain, hf, and_iff_right rfl]
        | false =>
          have hnone : ∀ a, ¬ g.Resolved (named k stem) id a := fun a h => by
            rw [Resolved.reference_iff hchain, hf] at h
            cases h.1
          refine (walk_keeps stem he' (enter_missed stem he' hchain' (by omega) hk' (.inr ⟨hst.cutoff, hf⟩))
            hleft).imp ?_
          rintro x g1 ⟨hx, hg1⟩
          rw [hg1]
          exact ⟨hx, Updated.refl hnone⟩
      | _ => simp [Element.isReference] at hr
    | false =>
      cases hs : e.isScoped with
      | true =>
        have hnone : ∀ a, ¬ g.Resolved (named k stem) id a := fun a => Resolved.not_scoped he hs
        have hfrozen : (st.entered e).Frozen := .inr (by simp [ReferenceSearch.entered, hs, hst.cutoff])
        refine (walk_keeps stem he' ((ends_enter stem he' hr).2 ⟨rfl, hfrozen, exited_entered st hr⟩) hleft).imp ?_
        rintro x g1 ⟨hx, hg1⟩
        rw [hg1]
        exact ⟨hx, Updated.refl hnone⟩
      | false =>
        simp only [Visitor.walk, run_bind, run_lift, ends_bind, ends_pure]
        rw [ends_enter stem he' hr, ends_element he']
        obtain ⟨ids, hids⟩ := links_eq e
        obtain ⟨hself, hnodup⟩ := hu.links htree he
        rw [hids, flatMap_append] at hself hnodup
        have hchild : ∀ c ∈ e.children, g.Tree p d c := fun c hc => hl c (mem_links_of_mem_children hc)
        have hentered : st.entered e = st := by simp [ReferenceSearch.entered, hs]
        rw [hentered]
        refine (runs_forIn_updates stem (nodup_append.1 hnodup).2.1 hchild (fun c hc g1 hs1 ha1 hk1 => ?_) hk hsize
          (fun c hc => hagree.link htree he (mem_links_of_mem_children hc)) hk').imp ?_
        · have hsingle := hu.link htree he (mem_links_of_mem_children hc)
          exact ih (by omega) (by omega) (hchild c hc) hsingle hs1 ha1 hk1 hst
        · rintro x g2 ⟨hx, h2⟩
          have hkept : ¬ ∃ c ∈ e.children, g.Resolved (named k stem) c id := by
            rintro ⟨c, hc, h⟩
            exact hself (mem_append_right _ (mem_flatMap.2 ⟨c, hc, h.mem_reach (hchild c hc)⟩))
          rw [ends_exit stem ((h2.other id hkept).trans he'), hx]
          refine ⟨?_, h2.congr fun a => Resolved.part_iff he hr hs⟩
          have hexit := exited_entered st hr
          rwa [hentered] at hexit

end ReferenceSearch

/-! ### Flattened copies -/

theorem Element.isScoped_rename (φ : Id → Id) (e : Element) : (e.rename φ).isScoped = e.isScoped := by
  cases e with
  | argument v scope redeclare source => cases scope <;> rfl
  | _ => rfl

theorem Element.children_rename (φ : Id → Id) {e : Element} (h : e.hasSource = false) :
    (e.rename φ).children = e.children.map φ := by
  have hlinks := links_rename φ h
  cases e with
  | symbol s => exact (cons.inj hlinks).2
  | clause c => exact (cons.inj hlinks).2
  | _ => exact hlinks

namespace Graph

variable {p : Id → Element → Prop} {g g' g'' : Graph} {found : String → Bool} {d : Nat} {id a : Id} {e : Element}
  {rs : List Reference} {s : Id → Prop} {φ : Id → Id} {stem : String}

theorem dotted_rename (φ : Id → Id) (rs : List Reference) : dotted (rs.map (Reference.rename φ)) = dotted rs := by
  simp [dotted, Reference.rename, Function.comp_def]

theorem join_rename (φ : Id → Id) (stem : String) (rs : List Reference) :
    join stem (rs.map (Reference.rename φ)) = (join stem rs).rename φ := by
  simp [join, dotted_rename, Reference.rename, flatMap_map, map_flatMap]

section

variable (h : Image s φ g g') (hp : ∀ id e, p id e → e.hasSource = false) (hs : s id) (ht : g.Tree p d id)

include h hp hs ht

/-- The references that are replaced in a copy are the copies of those that
would be replaced. -/
theorem Image.resolved (ha : g.Resolved found id a) : g'.Resolved found (φ id) (φ a) := by
  induction ha generalizing d with
  | here hc hf => exact .here (h.chain hs hc) (by rwa [dotted_rename])
  | @subscript id l a rs hc hf hl _ ih =>
    obtain ⟨d, rfl⟩ := Nat.exists_eq_add_one.2 ht.pos
    have hsub := tree_subscripts ht hc l hl
    have hreach := (reach_subscripts ht hc).subset
      (.tail _ (mem_flatMap.2 ⟨l, hl, self_mem_reach hsub⟩))
    refine .subscript (h.chain hs hc) (by rwa [dotted_rename]) ?_ (ih (h.mem hs ht hreach) hsub)
    rw [subscripts_rename]
    exact mem_map_of_mem hl
  | @part id l a e he hr hsc hl _ ih =>
    have hlink := mem_links_of_mem_children hl
    obtain ⟨hpe, _, hlinks⟩ := ht.element he
    obtain ⟨he', hsl⟩ := h.get? hs he
    refine .part he' ?_ ?_ ?_ (ih (hsl l hlink) (hlinks l hlink))
    · rw [isReference_rename, hr]
    · rw [isScoped_rename, hsc]
    · rw [children_rename φ (hp id e hpe)]
      exact mem_map_of_mem hl

theorem Image.of_resolved {b : Id} (hb : g'.Resolved found (φ id) b) : ∃ a, b = φ a ∧ g.Resolved found id a := by
  induction d generalizing id with
  | zero => exact ht.elim
  | succ d ih =>
    have htree := ht
    obtain ⟨e, he, hpe, _, hl⟩ := ht
    obtain ⟨he', hsl⟩ := h.get? hs he
    cases hr : e.isReference with
    | true =>
      cases e with
      | reference r =>
        obtain ⟨rs, hc, _⟩ := htree.chain ⟨r, he⟩
        obtain ⟨hf, hb⟩ := (Resolved.reference_iff (h.chain hs hc)).1 hb
        rw [dotted_rename] at hf
        rw [subscripts_rename] at hb
        rcases hb with rfl | ⟨l', hl', hb⟩
        · exact ⟨id, rfl, .here hc hf⟩
        · obtain ⟨l, hmem, rfl⟩ := mem_map.1 hl'
          have hsub := tree_subscripts htree hc l hmem
          have hreach := (reach_subscripts htree hc).subset
            (.tail _ (mem_flatMap.2 ⟨l, hmem, self_mem_reach hsub⟩))
          obtain ⟨a, rfl, ha⟩ := ih (h.mem hs htree hreach) hsub hb
          exact ⟨a, rfl, .subscript hc hf hmem ha⟩
      | _ => simp [Element.isReference] at hr
    | false =>
      have hr' : (e.rename φ).isReference = false := by rw [isReference_rename, hr]
      cases hsc : e.isScoped with
      | true => exact absurd hb (Resolved.not_scoped he' (by rw [isScoped_rename, hsc]))
      | false =>
        obtain ⟨l', hl', hb⟩ := (Resolved.part_iff he' hr' (by rw [isScoped_rename, hsc])).1 hb
        rw [children_rename φ (hp id e hpe)] at hl'
        obtain ⟨l, hmem, rfl⟩ := mem_map.1 hl'
        have hlink := mem_links_of_mem_children hmem
        obtain ⟨a, rfl, ha⟩ := ih (hsl l hlink) (hl l hlink) hb
        exact ⟨a, rfl, .part he hr hsc hmem ha⟩

end

/-- The second graph holds the first one and, behind it, a copy of what is
reached from `id` in which the references that name symbols are replaced. -/
structure FlatCopy (g : Graph) (found : String → Bool) (stem : String) (id : Id) (φ : Id → Id) (g' : Graph) :
    Prop where
  base : Extends g g'
  fresh : ∀ a ∈ g.reach id, g.size ≤ φ a
  injective : ∀ a ∈ g.reach id, ∀ b ∈ g.reach id, φ a = φ b → a = b
  resolved : ∀ a rs, g.Resolved found id a → g.Chain a rs →
    g'.get? (φ a) = some (.reference ((join stem rs).rename φ))
  other : ∀ a e, a ∈ g.reach id → ¬ g.Resolved found id a → g.get? a = some e → g'.get? (φ a) = some (e.rename φ)

theorem Resolved.isFound (h : g.Resolved found id a) (hc : g.Chain a rs) : found (dotted rs) = true := by
  induction h with
  | here hc' hf => rwa [hc.unique hc']
  | subscript _ _ _ _ ih => exact ih hc
  | part _ _ _ _ _ ih => exact ih hc

theorem length_indices_join (stem : String) (rs : List Reference) :
    (join stem rs).indices.length = rs.foldr (fun r n => r.indices.length + n) 0 := by
  induction rs with
  | nil => rfl
  | cons r rs ih =>
    rw [foldr_cons, ← ih]
    simp only [join, flatMap_cons, length_append]

end Graph

namespace Build

open Modelica.Graph

/-- A visit to a tree replaces the references in place. -/
theorem visit_runs {p g container k} (hk : g.ClassAt container k) (stem : String) {d id} (ht : g.Tree p d id)
    (hu : g.Unshared id) :
    Runs ((ReferenceSearch.visitor container stem).run id {}) g fun _ g' =>
      Updated g stem (g.Resolved (ReferenceSearch.named k stem) id) g g' := by
  simp only [Visitor.run, ends_bind, ends_size, ends_pure]
  exact (ReferenceSearch.walk_exact stem (Nat.le_succ _) le_rfl ht.bounded hu hk rfl (fun _ _ => rfl) hk
    ⟨rfl, rfl⟩).imp fun _ _ h => h.2

theorem flattenReferences_exact {p} (hp : ∀ id e, p id e → e.hasSource = false) {g container k}
    (hk : g.ClassAt container k) (stem : String) {d id} (ht : g.Tree p d id) (hu : g.Unshared id) :
    Runs (flattenReferences container stem id) g fun new g' =>
      ∃ φ, new = φ id ∧ g.FlatCopy (ReferenceSearch.named k stem) stem id φ g' := by
  have htree := ht.bounded
  simp only [flattenReferences, ends_bind, ends_discard, ends_pure]
  refine (copy_runs hp htree (by omega)).imp ?_
  rintro new g1 ⟨s, φ, hs, rfl, himage⟩
  have hsize := himage.base.size_le
  have htree1 : g1.Tree (fun _ _ => True) g.size (φ id) := himage.tree hp (fun _ _ _ _ _ => trivial) hs htree
  have hk1 := Extends.get?_some himage.base hk
  refine (visit_runs hk1 stem htree1 (himage.unshared hp hs htree hu)).imp fun _ g2 h2 => ?_
  have hiff : ∀ a ∈ g.reach id, g1.Resolved (ReferenceSearch.named k stem) (φ id) (φ a) →
      g.Resolved (ReferenceSearch.named k stem) id a := fun a ha hb => by
    obtain ⟨a', heq, ha'⟩ := himage.of_resolved hp hs htree hb
    rwa [himage.injective a a' (himage.mem hs htree ha) (himage.mem hs htree (ha'.mem_reach htree)) heq]
  refine ⟨φ, rfl, ⟨?_, fun a ha _ => ?_⟩, fun a ha => himage.fresh a (himage.mem hs htree ha),
    fun a ha b hb => himage.injective a b (himage.mem hs htree ha) (himage.mem hs htree hb), fun a rs ha hc => ?_,
    fun a e ha hn he => ?_⟩
  · rw [h2.size]
    exact hsize
  · rw [h2.other a fun hb => ?_, himage.base.get? a ha fun hf => hf]
    obtain ⟨a', rfl, ha'⟩ := himage.of_resolved hp hs htree hb
    exact Nat.not_lt.2 (himage.fresh a' (himage.mem hs htree (ha'.mem_reach htree))) ha
  · have hsa := himage.mem hs htree (ha.mem_reach htree)
    rw [h2.resolved (φ a) _ (himage.resolved hp hs htree ha) (himage.chain hsa hc), join_rename]
  · rw [h2.other (φ a) fun hb => hn (hiff a ha hb), (himage.get? (himage.mem hs htree ha) he).1]

/-- **Which references are replaced.** A visit to an element replaces each outermost reference whose
dotted name is, behind the prefix, that of a symbol of the container. It becomes that one name
without a rest, with the indices along it one after the other, and the same is done in its
subscripts. All else stays, with all that stands in an argument with a scope. The flattened copy
of an element without arguments is what it was, but for that. -/
theorem references_replaced {g : Graph} {container : Id} {k : ClassDef}
    (hk : g.get? container = some (.classDef k)) (stem : String) {d : Nat} {id : Id}
    (ht : g.Tree (fun _ _ => True) d id) (hu : g.Unshared id) :
    Runs ((ReferenceSearch.visitor container stem).run id {}) g
      (fun _ g' => g.Updated stem (g.Resolved (fun r => k.symbols.contains (stem ++ r)) id) g g') ∧
    (g.Tree (fun _ e => e.hasSource = false) d id → Runs (flattenReferences container stem id) g fun new g' =>
      ∃ φ, new = φ id ∧ g.FlatCopy (fun r => k.symbols.contains (stem ++ r)) stem id φ g') ∧
    ∀ a rs, g.Resolved (fun r => k.symbols.contains (stem ++ r)) id a → g.Chain a rs →
      k.symbols.contains (join stem rs).name = true ∧
        (join stem rs).indices.length = rs.foldr (fun r n => r.indices.length + n) 0 :=
  ⟨visit_runs hk stem ht hu, fun hplain => flattenReferences_exact (fun _ _ he => he) hk stem hplain hu,
    fun _ rs ha hc => ⟨ha.isFound hc, length_indices_join stem rs⟩⟩

/-- An equation with a reference of two names, each with a subscript. -/
@[irreducible] def subscriptText : String := "model A equation y = a[1].x[2]; end A;"

/-- A flat class into which the component `a.x` of a component `b` has been entered. -/
def subscriptClass : ClassDef := { symbols := ⟨[("b.a.x", 0)]⟩ }

def subscripted : Build Id := do
  let _ ← read subscriptText
  alloc (.classDef subscriptClass)

/-- In the equation of `b` the reference to `a.x` becomes one to `b.a.x` with both subscripts, and that to `y`
stays. -/
theorem references_replaced_subscripted : ∃ flat g, subscripted {} = .ok flat g ∧
    g.get? flat = some (.classDef subscriptClass) ∧ g.Tree (fun _ e => e.hasSource = false) 4 7 ∧ g.Unshared 7 ∧
    Runs (flattenReferences flat "b." 7) g fun _ g' => ∃ φ : Id → Id,
      g'.get? (φ 6) = some (.reference { name := "b.a.x", indices := [[.node (φ 3)], [.node (φ 4)]] }) ∧
      g'.get? (φ 2) = some (.reference { name := "y" }) := by
  have h : Runs subscripted {} fun flat g => g.get? flat = some (.classDef subscriptClass) ∧
      g.Tree (fun _ e => e.hasSource = false) 4 7 ∧ g.Unshared 7 ∧ 2 ∈ g.reach 7 ∧
      g.get? 7 = some (.equation (.node 2) (.node 6) "") ∧ g.get? 2 = some (.reference { name := "y" }) ∧
      g.get? 6 = some (.reference { name := "a", indices := [[.node 3]], child := [5] }) ∧
      g.get? 5 = some (.reference { name := "x", indices := [[.node 4]] }) := by
    decide +kernel
  obtain ⟨flat, g, hrun, hk, ht, hu, hreach, hequation, hy, ha, hx⟩ := runs_iff.1 h
  have htree : g.Tree (fun _ _ => True) 4 7 := ht.imp fun _ _ _ => trivial
  refine ⟨flat, g, hrun, hk, ht, hu, ((references_replaced hk "b." htree hu).2.1 ht).imp ?_⟩
  rintro _ g' ⟨φ, -, hcopy⟩
  have hc : g.Chain 6 [{ name := "a", indices := [[.node 3]], child := [5] }, { name := "x", indices := [[.node 4]] }] :=
    ⟨ha, hx, rfl⟩
  have hres : g.Resolved (fun r => subscriptClass.symbols.contains ("b." ++ r)) 7 6 :=
    .part hequation rfl rfl (.tail _ (.head _)) (.here hc (by decide))
  have hnot : ¬ g.Resolved (fun r => subscriptClass.symbols.contains ("b." ++ r)) 7 2 := fun h =>
    absurd (h.isFound (show g.Chain 2 [{ name := "y" }] from ⟨hy, rfl⟩)) (by decide)
  exact ⟨φ, hcopy.resolved 6 _ hres hc, hcopy.other 2 _ hreach hnot hy⟩

end Build

end Modelica
