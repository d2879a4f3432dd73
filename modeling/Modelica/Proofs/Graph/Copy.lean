/-
Copies, as maps between the addresses of a graph.

A copy of a tree that holds no classes and no arguments leaves the graph as it
was and adds an image of the tree behind it: there is a map of addresses that
takes each element to one that is the same but for the addresses in it
(`copy_runs`). An element that is reached twice has one image.

`Makes` is the specification that all parts of the copying functions share:
what has been copied before stays, and everything that is new is complete.
-/
import Modelica.Proofs.Graph.Content

namespace Modelica

open StateT

/-! ### What copying has done so far -/

namespace Copied

variable {m m1 m2 m' : Copied} {g0 g g' : Graph}

/-- The second record has all that the first one has. -/
def le (m m' : Copied) : Prop := ∀ a b : Id, m[a]? = some b → m'[a]? = some b

/-- The copy of an element, or itself if it has none. -/
def look (m : Copied) (a : Id) : Id := m[a]?.getD a

theorem le_refl (m : Copied) : m.le m := fun _ _ h => h

theorem le_trans (h1 : m.le m1) (h2 : m1.le m2) : m.le m2 := fun a b h => h2 a b (h1 a b h)

theorem getElem?_record (m : Copied) (id new a : Id) : (m.insert id new)[a]? = if id = a then some new else m[a]? := by
  rw [Std.TreeMap.getElem?_insert]
  by_cases h : id = a
  · simp [h]
  · simp [h]

theorem le_record {id} (new : Id) (h : m[id]? = none ∨ m[id]? = some new) : m.le (m.insert id new) := by
  intro a b hab
  rw [getElem?_record]
  split
  · next hid =>
    subst hid
    rcases h with h | h
    · cases h.symm.trans hab
    · rw [h] at hab
      exact hab
  · exact hab

/-- The copy of an element is complete. -/
def Made (g0 : Graph) (m : Copied) (g : Graph) (a : Id) : Prop :=
  ∃ e b, g0.get? a = some e ∧ m[a]? = some b ∧ (∀ l ∈ e.links, ∃ b', m[l]? = some b') ∧
    ∀ m', m.le m' → g.get? b = some (e.rename m'.look)

theorem Made.mono {a} (h : Made g0 m g a) (hm : m.le m') (hg : Graph.Extends g g') : Made g0 m' g' a := by
  obtain ⟨e, b, he, hb, hl, hc⟩ := h
  refine ⟨e, b, he, hm a b hb, fun l hmem => ?_, fun m'' h'' => ?_⟩
  · obtain ⟨b', hb'⟩ := hl l hmem
    exact ⟨b', hm l b' hb'⟩
  · exact Graph.Extends.get?_some hg (hc m'' (le_trans hm h''))

/-- The graph that is copied is still there, what was recorded at first stays, and each copy
stands at an address of its own. -/
structure Underway (g0 : Graph) (m0 m : Copied) (g : Graph) : Prop where
  base : Graph.Extends g0 g
  le : m0.le m
  bound : ∀ a b : Id, m[a]? = some b → b < g.size
  injective : ∀ a a' b : Id, m[a]? = some b → m[a']? = some b → a = a'

/-- What copying has added between two moments is new and complete. -/
structure Grows (g0 : Graph) (m : Copied) (g : Graph) (m' : Copied) (g' : Graph) : Prop where
  le : m.le m'
  base : Graph.Extends g g'
  fresh : ∀ a b : Id, m'[a]? = some b → m[a]? = none → g.size ≤ b
  made : ∀ a b : Id, m'[a]? = some b → m[a]? = none → Made g0 m' g' a

theorem Grows.refl (g0 : Graph) (m : Copied) (g : Graph) : Grows g0 m g m g where
  le := le_refl m
  base := Graph.ExtendsBut.refl g
  fresh a b h h' := by simp [h] at h'
  made a b h h' := by simp [h] at h'

theorem Grows.trans {g1 g2} (h1 : Grows g0 m g m1 g1) (h2 : Grows g0 m1 g1 m2 g2) : Grows g0 m g m2 g2 where
  le := le_trans h1.le h2.le
  base := h1.base.trans h2.base
  fresh a b hb hn := by
    cases hm : m1[a]? with
    | none => exact h1.base.size_le.trans (h2.fresh a b hb hm)
    | some b' =>
      have hb' := h2.le a b' hm
      cases hb.symm.trans hb'
      exact h1.fresh a b hm hn
  made a b hb hn := by
    cases hm : m1[a]? with
    | none => exact h2.made a b hb hm
    | some b' => exact (h1.made a b' hm hn).mono h2.le h2.base

theorem Grows.congr {m''} (h : Grows g0 m g m' g') (hs : ∀ a : Id, m''[a]? = m'[a]?) :
    Grows g0 m g m'' g' where
  le a b hb := (hs a).trans (h.le a b hb)
  base := h.base
  fresh a b hb hn := h.fresh a b ((hs a).symm.trans hb) hn
  made a b hb hn :=
    (h.made a b ((hs a).symm.trans hb) hn).mono (fun a _ hb => (hs a).trans hb) (Graph.ExtendsBut.refl g')

end Copied

namespace Copying

open Build Copied

variable {α β : Type} {g0 : Graph} {m0 : Copied}

/-- A part of copying. Its result is as `P` says of what has been copied, now and at any later time. -/
def Makes (g0 : Graph) (m0 : Copied) (k : Copying α) (P : Copied → α → Prop) : Prop :=
  ∀ m g, Underway g0 m0 m g → Runs (k.run m) g fun r g' =>
    Underway g0 m0 r.2 g' ∧ Grows g0 m g r.2 g' ∧ ∀ m' : Copied, r.2.le m' → P m' r.1

theorem makes_composes (g0 : Graph) (m0 : Copied) : Composes fun _ k P => Makes g0 m0 k P where
  imp hk hP m g hu := (hk m g hu).imp fun r _ h => ⟨h.1, h.2.1, fun m' hm' => hP m' r.1 (h.2.2 m' hm')⟩
  pure ha m g hu := ⟨hu, Grows.refl g0 m g, fun m' _ => ha m'⟩
  bind hk hk' m g hu := by
    rw [run_bind]
    refine ends_bind.2 ((hk m g hu).imp ?_)
    rintro r g1 ⟨hu1, hg1, hv1⟩
    refine (hk' r.1 r.2 g1 hu1).imp ?_
    rintro r' g2 ⟨hu2, hg2, hv2⟩
    exact ⟨hu2, hg1.trans hg2, fun m' hm' => hv2 m' hm' (hv1 m' (le_trans hg2.le hm'))⟩

section Parts

variable {f : Id → Copying Id} {s : Id → Prop}

variable {e : Element} {m m' : Copied} {id : Id}

/-- A function that copies the elements of a set. -/
def MakesEach (g0 : Graph) (m0 : Copied) (f : Id → Copying Id) (s : Id → Prop) : Prop :=
  ∀ l, s l → Makes g0 m0 (f l) fun m l' => m[l]? = some l'

theorem makes_content (hf : MakesEach g0 m0 f s) (he : e.hasSource = false) (h : ∀ l ∈ e.links, s l) :
    Makes g0 m0 (content f e) fun m e' => (∀ l ∈ e.links, ∃ b : Id, m[l]? = some b) ∧ e' = e.rename m.look := by
  have hclass : ∀ c p, e = .classDef c → c.parent = some p → Makes g0 m0 (f p) fun _ p' => False → p' = p := by
    rintro c p rfl
    cases he
  refine (makes_composes g0 m0).imp (content_matches (makes_composes g0 m0) hf False e h hclass) fun m e' h' => ?_
  refine ⟨fun l => h'.related, h'.eq_rename he fun l l' hl => ?_⟩
  rw [Copied.look, hl, Option.getD_some]

theorem look_of_le {new} (hm : m[id]? = some new) (h : m.le m') : new = m'.look id := by
  simp [Copied.look, h id new hm]

theorem Underway.add {g} (hu : Underway g0 m0 m g) (hm : m[id]? = none) (e : Element) :
    Underway g0 m0 (m.insert id g.size) (g.add e).1 := by
  have hnew : ∀ a : Id, m[a]? ≠ some g.size := fun a ha => Nat.lt_irrefl _ (hu.bound a _ ha)
  refine ⟨hu.base.add e, le_trans hu.le (le_record _ (.inl hm)), fun a b hb => ?_, fun a a' b hb hb' => ?_⟩
  · rw [getElem?_record] at hb
    rw [Graph.size_add]
    split at hb
    · cases hb
      exact Nat.lt_succ_self _
    · exact Nat.lt_succ_of_lt (hu.bound a b hb)
  · rw [getElem?_record] at hb hb'
    split at hb <;> split at hb'
    · next ha ha' => rw [← ha, ha']
    · cases hb
      exact absurd hb' (hnew a')
    · cases hb'
      exact absurd hb (hnew a)
    · exact hu.injective a a' b hb hb'

/-- The address of the copy is taken before the content is copied, and the
content is stored there afterwards. -/
theorem Grows.whole {g g'} (hget : g0.get? id = some e) (hm : m[id]? = none)
    (hg : Grows g0 (m.insert id g.size) (g.add e).1 m' g') (hl : ∀ l ∈ e.links, ∃ b : Id, m'[l]? = some b) {e'}
    (he' : ∀ m'' : Copied, m'.le m'' → e' = e.rename m''.look) : Grows g0 m g m' (g'.set g.size e') := by
  have hbase : Graph.Extends g g' := ((Graph.ExtendsBut.refl g).add e).trans hg.base
  have hnew : g.size < g'.size := by
    have := hg.base.size_le
    rw [Graph.size_add] at this
    omega
  have hid : m'[id]? = some g.size := hg.le id _ (by rw [getElem?_record, if_pos rfl])
  have hlater : ∀ a b : Id, m'[a]? = some b → a ≠ id → m[a]? = none →
      (m.insert id g.size)[a]? = none := by
    intro a b _ hne hn
    rw [getElem?_record, if_neg (Ne.symm hne), hn]
  refine ⟨le_trans (le_record _ (.inl hm)) hg.le, hbase.set (.inr le_rfl) e', fun a b hb hn => ?_,
    fun a b hb hn => ?_⟩
  · by_cases ha : a = id
    · subst ha
      cases hid.symm.trans hb
      exact le_rfl
    · have := hg.fresh a b hb (hlater a b hb ha hn)
      rw [Graph.size_add] at this
      omega
  · by_cases ha : a = id
    · subst ha
      exact ⟨e, g.size, hget, hid, hl, fun m'' hm'' => by
        rw [Graph.get?_set_self g' e' hnew, he' m'' hm'']⟩
    · obtain ⟨e1, b1, he1, hb1, hl1, hc1⟩ := hg.made a b hb (hlater a b hb ha hn)
      refine ⟨e1, b1, he1, hb1, hl1, fun m'' hm'' => ?_⟩
      have := hg.fresh a b1 hb1 (hlater a b1 hb1 ha hn)
      rw [Graph.size_add] at this
      rw [Graph.get?_set_other g' e' (Nat.ne_of_gt this), hc1 m'' hm'']

theorem makes_whole (hf : MakesEach g0 m0 f s) (hget : g0.get? id = some e) (he : e.hasSource = false)
    (h : ∀ l ∈ e.links, s l) : Makes g0 m0 (whole f id) fun m id' => m[id]? = some id' := by
  intro m g hu
  cases hm : m[id]? with
  | some new =>
    simp only [whole, copied?, run_bind, run_get, run_pure, pure_bind,
      Std.TreeMap.get?_eq_getElem?, hm, ends_pure]
    exact ⟨hu, Grows.refl g0 m g, fun m' hm' => hm' id new hm⟩
  | none =>
    simp only [whole, copied?, record, run_bind, run_get, run_pure, pure_bind,
      Std.TreeMap.get?_eq_getElem?, hm, run_lift, ends_bind, ends_pure, run_modify,
      ends_element (Graph.Extends.get?_some hu.base hget), ends_alloc, ends_store]
    refine (makes_content hf he h _ _ (Underway.add hu hm e)).imp ?_
    rintro r g' ⟨hu', hg, hc⟩
    have hl := (hc r.2 (le_refl _)).1
    have hid : r.2[id]? = some g.size := hg.le id _ (by rw [getElem?_record, if_pos rfl])
    have hsame : ∀ a : Id, (r.2.insert id g.size)[a]? = r.2[a]? := by
      intro a
      rw [getElem?_record]
      split
      · next ha => rw [← ha, hid]
      · rfl
    refine ⟨⟨?_, ?_, ?_, ?_⟩, (Grows.whole hget hm hg hl fun m' hm' => (hc m' hm').2).congr hsame, fun m' hm' => ?_⟩
    · exact hu'.base.set (.inr hu.base.size_le) r.1
    · exact fun a b hb => (hsame a).trans (hu'.le a b hb)
    · intro a b hb
      rw [hsame] at hb
      rw [Graph.size_set]
      exact hu'.bound a b hb
    · intro a a' b hb hb'
      rw [hsame] at hb hb'
      exact hu'.injective a a' b hb hb'
    · exact hm' id _ ((hsame id).trans hid)

/-- Within a tree without classes and arguments every element has a copy in the
end. -/
theorem makes_copy {p} (hp : ∀ id e, p id e → e.hasSource = false) {n d}
    (h : g0.Tree p d id) (hn : d ≤ n) : Makes g0 m0 (copy n id) fun m id' => m[id]? = some id' := by
  induction n generalizing d id with
  | zero => exact absurd h.pos (by omega)
  | succ n ih =>
    obtain ⟨d, rfl⟩ : ∃ k, d = k + 1 := ⟨d - 1, by have := h.pos; omega⟩
    obtain ⟨e, hget, hpe, _, hl⟩ := h
    have hsource := hp id e hpe
    have hwhole : Makes g0 m0 (whole (copy n) id) fun m id' => m[id]? = some id' :=
      makes_whole (s := g0.Tree p d) (fun l hl => ih hl (by omega)) hget hsource hl
    intro m g hu
    cases hm : m[id]? with
    | some new =>
      simp only [copy, copied?, run_bind, run_get, run_pure, pure_bind,
        Std.TreeMap.get?_eq_getElem?, hm, ends_pure]
      exact ⟨hu, Grows.refl g0 m g, fun m' hm' => hm' id new hm⟩
    | none =>
      simp only [copy, copied?, run_bind, run_get, run_pure, pure_bind,
        Std.TreeMap.get?_eq_getElem?, hm, run_lift, ends_bind, ends_pure,
        ends_element (Graph.Extends.get?_some hu.base hget)]
      cases e with
      | classDef c => simp [Element.hasSource] at hsource
      | argument v scope redeclare source => simp [Element.hasSource] at hsource
      | _ => exact hwhole m g hu

theorem makes_kept {n} (hp : m0[id]? = some id) : Makes g0 m0 (copy (n + 1) id) fun _ new => new = id := by
  intro m g hu
  simp only [copy, copied?, run_bind, run_get, run_pure, pure_bind, Std.TreeMap.get?_eq_getElem?, hu.le id id hp, ends_pure]
  exact ⟨hu, Grows.refl g0 m g, fun _ _ => trivial⟩

/-- The content of a class without classes and arguments in it. -/
theorem makes_classContent {k : ClassDef} {n} (hp : ∀ p, k.parent = some p → m0[p]? = some p)
    (ht : ∀ l ∈ k.children, g0.Tree (fun _ e => e.hasSource = false) (n + 1) l) :
    Makes g0 m0 (content (copy (n + 1)) (.classDef k)) fun m e' => (∀ l ∈ k.children, ∃ b : Id, m[l]? = some b) ∧
      e' = .classDef { k.relink m.look with parent := k.parent, source := k.source } := by
  have hparent : ∀ c p, Element.classDef k = .classDef c → c.parent = some p →
      Makes g0 m0 (copy (n + 1) p) fun _ p' => True → p' = p := by
    rintro _ p ⟨⟩ hkp
    exact (makes_composes g0 m0).imp (makes_kept (hp p hkp)) fun _ _ h _ => h
  have hlinks := content_matches (makes_composes g0 m0) (R := fun m l l' => m[l]? = some l')
    (fun l hl => makes_copy (fun _ _ h => h) hl (Nat.le_refl (n + 1))) True (.classDef k) ht hparent
  refine (makes_composes g0 m0).imp hlinks fun m e' h => ⟨fun l hl => h.related hl, h.eq_relink fun l l' hl => ?_⟩
  rw [Copied.look, hl, Option.getD_some]

end Parts

end Copying

/-- A dotted reference stands where its parts have been copied. -/
theorem Graph.Chain.rename {g g' : Graph} {s : Id → Prop} {φ id rs} (hs : ∀ a r, s a → g.ReferenceAt a r →
    g'.ReferenceAt (φ a) (r.rename φ) ∧ ∀ l ∈ (Element.reference r).links, s l) (ha : s id)
    (hc : g.Chain id rs) : g'.Chain (φ id) (rs.map (Reference.rename φ)) := by
  induction rs generalizing id with
  | nil => exact hc.elim
  | cons r rest ih =>
    obtain ⟨hr, hnext⟩ := hc
    obtain ⟨hr', hl⟩ := hs id r ha hr
    refine ⟨hr', ?_⟩
    cases hchild : r.child with
    | nil =>
      simp only [hchild] at hnext
      simp [Reference.rename, hchild, hnext]
    | cons c cs =>
      simp only [hchild] at hnext
      simp only [Reference.rename, hchild, List.map_cons]
      exact ih (hl c (by simp [Element.links, Element.children, hchild])) hnext

namespace Graph

open Element

variable {g g' : Graph} {s : Id → Prop} {φ : Id → Id} {p q : Id → Element → Prop} {d : Nat} {id : Id} {e : Element}

theorem Formed.rename (hr : ∀ l ∈ e.links, g.IsReference l → g'.IsReference (φ l)) (hf : g.Formed e) :
    g'.Formed (e.rename φ) := by
  cases e with
  | reference r =>
    intro c hc
    obtain ⟨c, hmem, rfl⟩ := List.mem_map.1 hc
    exact hr c (by simp [links, children, hmem]) (hf c hmem)
  | connect l r c li ri => exact ⟨hr l (by simp [links, children]) hf.1, hr r (by simp [links, children]) hf.2⟩
  | _ => trivial

/-- A tree stands where its elements have been copied. -/
theorem Tree.rename (hr : ∀ a, s a → g.IsReference a → g'.IsReference (φ a))
    (hs : ∀ a e, s a → g.get? a = some e → p a e → e.hasSource = false ∧ g'.get? (φ a) = some (e.rename φ) ∧
      q (φ a) (e.rename φ) ∧ ∀ l ∈ e.links, s l) (ha : s id) (ht : g.Tree p d id) : g'.Tree q d (φ id) := by
  induction d generalizing id with
  | zero => exact ht.elim
  | succ d ih =>
    obtain ⟨e, he, hpe, hf, hl⟩ := ht
    obtain ⟨hsource, he', hqe, hlinks⟩ := hs id e ha he hpe
    refine ⟨e.rename φ, he', hqe, hf.rename fun l hl => hr l (hlinks l hl), fun l hmem => ?_⟩
    rw [links_rename φ hsource] at hmem
    obtain ⟨l, hl', rfl⟩ := List.mem_map.1 hmem
    exact ih (hlinks l hl') (hl l hl')

end Graph

/-- The second graph holds, behind the first one, an image under `φ` of the part of it
that `s` describes. -/
structure Graph.Pictures (s : Id → Prop) (φ : Id → Id) (g g' : Graph) : Prop where
  image : ∀ a, s a → ∃ e, g.get? a = some e ∧ g'.get? (φ a) = some (e.rename φ) ∧ ∀ l ∈ e.links, s l
  fresh : ∀ a, s a → g.size ≤ φ a
  injective : ∀ a a', s a → s a' → φ a = φ a' → a = a'

/-- The second graph holds the first one and such an image. -/
structure Graph.Image (s : Id → Prop) (φ : Id → Id) (g g' : Graph) : Prop extends Pictures s φ g g' where
  base : Extends g g'

namespace Graph.Image

open Element

variable {s : Id → Prop} {φ : Id → Id} {g g' : Graph} {p q : Id → Element → Prop} {d : Nat} {a : Id}

variable {e : Element}

section

variable (h : Image s φ g g') (ha : s a)

include h ha

theorem get? (he : g.get? a = some e) : g'.get? (φ a) = some (e.rename φ) ∧ ∀ l ∈ e.links, s l := by
  obtain ⟨e', he', h⟩ := h.image a ha
  cases he.symm.trans he'
  exact h

theorem isReference (hr : g.IsReference a) : g'.IsReference (φ a) := by
  obtain ⟨r, hr⟩ := hr
  exact ⟨r.rename φ, (h.get? ha hr).1⟩

theorem chain {rs} (hc : g.Chain a rs) : g'.Chain (φ a) (rs.map (Reference.rename φ)) :=
  hc.rename (fun _ _ ha => h.get? ha) ha

end

theorem tree (h : Image s φ g g') (hp : ∀ id e, p id e → e.hasSource = false)
    (hq : ∀ a e, s a → g.get? a = some e → p a e → q (φ a) (e.rename φ)) (ha : s a) (ht : g.Tree p d a) :
    g'.Tree q d (φ a) :=
  ht.rename (fun _ => h.isReference) (fun a e ha he hpe =>
    ⟨hp a e hpe, (h.get? ha he).1, hq a e ha he hpe, (h.get? ha he).2⟩) ha

end Graph.Image

/-- What has been copied since a moment is an image, and stays one where nothing is changed behind that moment. -/
theorem Copied.Grows.pictures {m0 m m' : Copied} {g0 g g1 g' : Graph} (hg : Grows g0 m g m' g1) (hu : Underway g0 m0 m' g1)
    (hsize : g0.size ≤ g.size) (hkeep : ∀ b, g.size ≤ b → g'.get? b = g1.get? b) {s : Id → Prop}
    (hs : ∀ a, s a → (∃ b : Id, m'[a]? = some b) ∧ m[a]? = none)
    (hclosed : ∀ a e l, s a → g0.get? a = some e → l ∈ e.links → (∃ b : Id, m'[l]? = some b) → s l) :
    Graph.Pictures s m'.look g0 g' := by
  have hlook : ∀ {a b : Id}, m'[a]? = some b → m'.look a = b := fun hb =>
    (Copying.look_of_le hb (Copied.le_refl _)).symm
  refine ⟨fun a ha => ?_, fun a ha => ?_, fun a a' ha ha' heq => ?_⟩
  · obtain ⟨⟨b, hb⟩, hn⟩ := hs a ha
    obtain ⟨e, b', he, hb', hlinks, hc⟩ := hg.made a b hb hn
    refine ⟨e, he, ?_, fun l hl => hclosed a e l ha he hl (hlinks l hl)⟩
    rw [hlook hb', hkeep b' (hg.fresh a b' hb' hn)]
    exact hc m' (Copied.le_refl _)
  · obtain ⟨⟨b, hb⟩, hn⟩ := hs a ha
    rw [hlook hb]
    exact hsize.trans (hg.fresh a b hb hn)
  · obtain ⟨b, hb⟩ := (hs a ha).1
    obtain ⟨b', hb'⟩ := (hs a' ha').1
    rw [hlook hb, hlook hb'] at heq
    subst heq
    exact hu.injective a a' b hb hb'

theorem Build.copy_runs {p} (hp : ∀ id e, p id e → e.hasSource = false) {g d} {id} (h : g.Tree p d id)
    (hd : d ≤ 2 * g.size + 2) :
    Runs (Build.copy id) g fun new g' => ∃ s φ, s id ∧ new = φ id ∧ Graph.Image s φ g g' := by
  have hu : Copied.Underway g {} {} g :=
    ⟨Graph.ExtendsBut.refl g, Copied.le_refl _, fun a b hb => by simp at hb, fun a a' b hb => by simp at hb⟩
  simp only [Build.copy, ends_bind, ends_size, ends_pure]
  refine (Copying.makes_copy hp h hd {} g hu).imp ?_
  rintro r g' ⟨hu', hg, hv⟩
  have hid := hv r.2 (Copied.le_refl _)
  refine ⟨fun a => ∃ b : Id, r.2[a]? = some b, r.2.look, ⟨_, hid⟩, Copying.look_of_le hid (Copied.le_refl _), ?_, hg.base⟩
  exact hg.pictures hu' (Nat.le_refl _) (fun _ _ => rfl) (fun a ha => ⟨ha, by simp⟩) fun _ _ _ _ _ _ hl => hl

end Modelica
