/-
Dotted references: their names, their texts, and putting them together.

`Dotted` reads a reference off a graph, part by part: its name, and its indices as
outlines show them, so that addresses do not count. To put references together is to
hook a copy of the next one behind the last part of the ones before. `Moves` says what
happens meanwhile to all elements but that part, for those that are copied and for those
that stay, and `DottedTo.move` what becomes of a reference. From the step
(`appendReference_dotted`) follows the run (`concatenate_dotted`).
-/
import Modelica.Flat.Model
import Modelica.Graph.Edit
import Modelica.Outline
import Modelica.Proofs.Graph.Copy

namespace Modelica

open List Element

/-! ### Dotted texts -/

theorem dottedText_splitPath (s : String) : dottedText (Build.splitPath s) = s := by
  apply String.toList_inj.1
  rw [dottedText, Build.splitPath, String.toList_intercalate, map_map]
  simp only [Function.comp_def, String.toList_ofList, map_id']
  exact intercalate_splitOn '.'

theorem splitPath_dottedText {names : List String} (h : ∀ a ∈ names, '.' ∉ a.toList) (hne : names ≠ []) :
    Build.splitPath (dottedText names) = names := by
  have hsplit : (dottedText names).toList.splitOn '.' = names.map String.toList := by
    rw [dottedText, String.toList_intercalate]
    exact splitOn_intercalate '.' (by simpa using h) (by simpa using hne)
  rw [Build.splitPath, hsplit, map_map]
  simp [Function.comp_def]

theorem splitPath_ne_nil (s : String) : Build.splitPath s ≠ [] := by simp [Build.splitPath, splitOn_ne_nil]

/-! ### References part by part -/

/-- What the indices of a reference are made of. -/
def Element.isExpression : Element → Bool
  | .primary _ | .array _ | .slice .. | .reference _ | .expression .. | .conditional .. => true
  | _ => false

namespace Graph

/-- An element of an expression, other than the last part of a reference. -/
abbrev Beside (last a : Id) (e : Element) : Prop := e.isExpression = true ∧ a ≠ last

/-- A part of a reference, with its name and its indices. What it holds besides the
next part does not lead to the last one. -/
structure IsPart (g : Graph) (last : Id) (r : Reference) (part : String × Outline) : Prop where
  formed : ∀ c ∈ r.child, g.IsReference c
  name : r.name = part.1
  indices : outlineRows g.outline r.indices = .ok part.2
  apart : ∀ l ∈ Value.nodesOfRows r.indices ++ r.child.tail, g.Tree (Beside last) g.size l

/-- A reference that has the given parts and ends at `last`. -/
inductive DottedTo (g : Graph) (last : Id) : Id → List (String × Outline) → Prop
  | last {r part} : g.ReferenceAt last r → g.IsPart last r part → r.child = [] → DottedTo g last last [part]
  | next {id r part c cs rest} : g.ReferenceAt id r → g.IsPart last r part → r.child = c :: cs →
    DottedTo g last c rest → DottedTo g last id (part :: rest)

/-- A reference with the given parts: names, and what their indices look like. -/
def Dotted (g : Graph) (id : Id) (parts : List (String × Outline)) : Prop := ∃ last, g.DottedTo last id parts

/-- The elements that `s` describes are found again under `φ`, except perhaps for
`last`, and `last'` is not one of them. -/
structure Moves (s : Id → Prop) (φ : Id → Id) (last last' : Id) (g g' : Graph) : Prop where
  size_le : g.size ≤ g'.size
  isReference : ∀ a, s a → g.IsReference a → g'.IsReference (φ a)
  links : ∀ a e, s a → g.get? a = some e → ∀ l ∈ e.links, s l
  element : ∀ a e, s a → g.get? a = some e → a ≠ last → g'.get? (φ a) = some (e.rename φ) ∧ φ a ≠ last'

end Graph

/-! ### Outlines of copies -/

theorem Element.hasSource_of_isExpression {e : Element} (h : e.isExpression = true) : e.hasSource = false := by
  cases e <;> simp_all [isExpression, hasSource]

namespace Graph

variable {f f' : Id → Except Fault Outline} {φ : Id → Id} {g g' g0 g1 : Graph} {id last last' : Id} {e : Element}

variable {s : Id → Prop} {d n m : Nat} {r : Reference} {part : String × Outline} {parts more : List (String × Outline)}

theorem mapM_rename {α β : Type} {h : α → α} {k k' : α → Except Fault β} {l : List α}
    (hk : ∀ a ∈ l, k' (h a) = k a) : (l.map h).mapM k' = l.mapM k := by
  induction l with
  | nil => rfl
  | cons a l ih => rw [map_cons, mapM_cons, mapM_cons, hk a (.head _), ih fun b hb => hk b (.tail _ hb)]

mutual

theorem outlineValue_rename : ∀ v : Value, (∀ l ∈ v.nodes, f' (φ l) = f l) →
    outlineValue f' (v.rename φ) = outlineValue f v
  | .node id, h => h id (.head _)
  | .list items, h => by rw [Value.rename, outlineValue, outlineValue, outlineValues_rename items h]
  | .null, _ | .bool _, _ | .int _, _ | .real _, _ | .text _, _ => rfl

theorem outlineValues_rename : ∀ vs : List Value, (∀ l ∈ Value.nodesAll vs, f' (φ l) = f l) →
    outlineValues f' (Value.renameAll φ vs) = outlineValues f vs
  | [], _ => rfl
  | v :: rest, h => by
    obtain ⟨hv, hrest⟩ := forall_mem_append.1 h
    rw [Value.renameAll, outlineValues, outlineValues, outlineValue_rename v hv, outlineValues_rename rest hrest]

end

theorem outlineRows_rename {rows : List (List Value)} (h : ∀ l ∈ Value.nodesOfRows rows, f' (φ l) = f l) :
    outlineRows f' (rows.map (Value.renameAll φ)) = outlineRows f rows := by
  rw [outlineRows, outlineRows, mapM_rename]
  exact fun row hrow => by rw [outlineValues_rename row fun l hl => h l (mem_flatMap.2 ⟨row, hrow, hl⟩)]

theorem fields_rename (he : e.isExpression = true) (h : ∀ l ∈ e.links, f' (φ l) = f l) :
    fields f' (e.rename φ) = fields f e := by
  cases e with
  | primary v => simp only [fields, rename, outlineValue_rename v h]
  | array vs => simp only [fields, rename, outlineValues_rename vs h]
  | slice a b c =>
    obtain ⟨hab, hc⟩ := forall_mem_append.1 h
    obtain ⟨ha, hb⟩ := forall_mem_append.1 hab
    simp only [fields, rename, outlineValue_rename a ha, outlineValue_rename b hb, outlineValue_rename c hc]
  | reference r =>
    obtain ⟨hr, hc⟩ := forall_mem_append.1 h
    simp only [fields, rename, Reference.rename, outlineRows_rename hr, outlineIds, mapM_rename hc]
  | expression op vs =>
    obtain ⟨hop, hvs⟩ := forall_mem_append.1 h
    simp only [fields, rename, outlineValue_rename op hop, outlineValues_rename vs hvs]
  | conditional cs vs =>
    obtain ⟨hcs, hvs⟩ := forall_mem_append.1 h
    simp only [fields, rename, outlineValues_rename cs hcs, outlineValues_rename vs hvs]
  | _ => cases he

theorem outlineTo_succ (he : g.get? id = some e) (hexp : e.isExpression = true) :
    g.outlineTo (n + 1) id = (fields (g.outlineTo n) e >>= fun fields => pure (.node e.kind fields)) := by
  cases e with
  | keywords words => cases hexp
  | _ => simp only [outlineTo, he]

/-! ### What becomes of a reference -/

namespace Moves

variable (h : Moves s φ last last' g g')

include h

theorem tree (ha : s id) (ht : g.Tree (Beside last) d id) : g'.Tree (Beside last') d (φ id) := by
  refine ht.rename h.isReference (fun a e ha he hpe => ?_) ha
  obtain ⟨he', hne⟩ := h.element a e ha he hpe.2
  refine ⟨hasSource_of_isExpression hpe.1, he', ⟨?_, hne⟩, h.links a e ha he⟩
  cases e <;> exact hpe.1

theorem outlineTo (ha : s id) (ht : g.Tree (Beside last) d id) (hn : d ≤ n) (hm : d ≤ m) :
    g'.outlineTo n (φ id) = g.outlineTo m id := by
  induction d generalizing id n m with
  | zero => exact ht.elim
  | succ d ih =>
    obtain _ | n := n
    · omega
    obtain _ | m := m
    · omega
    obtain ⟨e', he', hpe', -⟩ := h.tree ha ht
    obtain ⟨e, he, hpe, -, hl⟩ := ht
    cases (h.element id e ha he hpe.2).1.symm.trans he'
    have hfields : fields (g'.outlineTo n) (e.rename φ) = fields (g.outlineTo m) e := fields_rename hpe.1 fun l hmem =>
      ih (h.links id e ha he l hmem) (hl l hmem) (by omega) (by omega)
    have hkind : (e.rename φ).kind = e.kind := by cases e <;> rfl
    rw [outlineTo_succ he' hpe'.1, outlineTo_succ he hpe.1, hfields, hkind]

theorem isPart (ha : s id) (hr : g.ReferenceAt id r) (hp : g.IsPart last r part) : g'.IsPart last' (r.rename φ) part := by
  have hlinks := h.links id _ ha hr
  have hchild : ∀ c ∈ r.child, s c := fun c hc => hlinks c (mem_append_right _ hc)
  have hnodes : ∀ l ∈ Value.nodesOfRows r.indices, g'.outline (φ l) = g.outline l := fun l hl =>
    h.outlineTo (hlinks l (mem_append_left _ hl)) (hp.apart l (mem_append_left _ hl)) (by have := h.size_le; omega) (by omega)
  refine ⟨fun c hc => ?_, hp.name, (outlineRows_rename hnodes).trans hp.indices, fun l hl => ?_⟩
  · obtain ⟨c, hmem, rfl⟩ := mem_map.1 hc
    exact h.isReference c (hchild c hmem) (hp.formed c hmem)
  · simp only [Reference.rename, Value.nodesOfRows_rename, ← map_tail, ← map_append] at hl
    obtain ⟨l, hmem, rfl⟩ := mem_map.1 hl
    refine (h.tree (hlinks l ?_) (hp.apart l hmem)).mono h.size_le
    exact append_subset.2 ⟨subset_append_left _ _, fun c hc => mem_append_right _ (mem_of_mem_tail hc)⟩ hmem

end Moves

namespace DottedTo

variable (h : g.DottedTo last id parts)

include h

theorem last_of (hs : ∀ a e, s a → g.get? a = some e → ∀ l ∈ e.links, s l) (ha : s id) :
    s last ∧ ∃ r, g.ReferenceAt last r ∧ r.child = [] := by
  induction h with
  | last hr _ hc => exact ⟨ha, _, hr, hc⟩
  | next hr _ hc _ ih => exact ih (hs _ _ ha hr _ (by simp [Element.links, children, hc]))

theorem tree : g.Tree (fun _ e => e.isExpression = true) g.size id := by
  induction h with
  | last hr hp hc =>
    refine Tree.join hr rfl hp.formed fun l hl => (hp.apart l ?_).imp fun _ _ hp => hp.1
    simpa [Element.links, children, hc] using hl
  | @next _ _ _ c _ _ hr hp hc _ ih =>
    refine Tree.join hr rfl hp.formed fun l hl => ?_
    by_cases heq : l = c
    · exact heq ▸ ih
    · refine (hp.apart l ?_).imp fun _ _ hp => hp.1
      simpa [Element.links, children, hc, heq] using hl

theorem chain : ∃ rs, g.Chain id rs ∧ rs.map (·.name) = parts.map (·.1) ∧ rs.length ≤ g.size := by
  suffices hs : ∃ rs, g.Chain id rs ∧ rs.map (·.name) = parts.map (·.1) by
    obtain ⟨rs, hrs, hnames⟩ := hs
    obtain ⟨rs', hrs', hlen⟩ := h.tree.chain hrs.isReference
    exact ⟨rs, hrs, hnames, hrs.unique hrs' ▸ hlen⟩
  induction h with
  | last hr hp hc => exact ⟨[_], ⟨hr, by simp [hc]⟩, by simp [hp.name]⟩
  | next hr hp hc _ ih =>
    obtain ⟨rs, hrs, hnames⟩ := ih
    exact ⟨_ :: rs, ⟨hr, by simpa [hc] using hrs⟩, by simp [hp.name, hnames]⟩

theorem length_le : parts.length ≤ g.size := by
  obtain ⟨rs, -, hnames, hlen⟩ := h.chain
  rwa [← length_map (·.1), ← hnames, length_map]

/-- What becomes of a reference if its elements are found again: the parts, and behind them
what then stands behind the last one. -/
theorem move (hm : Moves s φ last last' g g') (more : List (String × Outline))
    (hlast : ∀ r part, g.ReferenceAt last r → r.child = [] → g'.IsPart last' (r.rename φ) part →
      g'.DottedTo last' (φ last) (part :: more)) (ha : s id) : g'.DottedTo last' (φ id) (parts ++ more) := by
  induction h with
  | last hr hp hc => exact hlast _ _ hr hc (hm.isPart ha hr hp)
  | @next id r part c cs rest hr hp hc h ih =>
    have hne : id ≠ last := by
      rintro rfl
      obtain ⟨-, r', hr', hc'⟩ := h.last_of (fun _ _ _ _ _ _ => trivial) trivial
      cases hr.symm.trans hr'
      simp [hc] at hc'
    refine .next (hm.element id _ ha hr hne).1 (hm.isPart ha hr hp) (by simp [Reference.rename, hc]; rfl) (ih ?_)
    exact hm.links id _ ha hr c (by simp [Element.links, children, hc])

/-- The copy of a reference that was there before. -/
theorem image (hg : Extends g g0) (hi : Image s φ g0 g1) (hsize : g1.size ≤ g'.size)
    (hnew : ∀ a, g0.size ≤ a → g'.get? a = g1.get? a) (ha : s id) : s last ∧ g'.DottedTo (φ last) (φ id) parts := by
  have hget : ∀ a e, s a → g.get? a = some e → g'.get? (φ a) = some (e.rename φ) ∧ ∀ l ∈ e.links, s l := fun a e ha he =>
    (hi.get? ha (Extends.get?_some hg he)).imp_left (hnew _ (hi.fresh a ha)).trans
  have hl := (h.last_of (fun a e ha he => (hget a e ha he).2) ha).1
  have hm : Moves s φ last (φ last) g g' := {
    size_le := (hg.trans hi.base).size_le.trans hsize
    isReference := fun a ha ⟨r, hr⟩ => ⟨_, (hget a _ ha hr).1⟩
    links := fun a e ha he => (hget a e ha he).2
    element := fun a e ha he hne => ⟨(hget a e ha he).1, fun heq => hne (hi.injective a last ha hl heq)⟩ }
  have hmoved := h.move hm [] (fun r part hr hc hp => .last (hget last _ hl hr).1 hp (by simp [Reference.rename, hc])) ha
  exact ⟨hl, by simpa using hmoved⟩

/-- A reference that stays where it is, with what then stands behind its last part. -/
theorem stay (hg : ExtendsBut (· = last) g g') (hr : g'.IsReference last) (hl : last' = last ∨ g.size ≤ last')
    (more : List (String × Outline)) (hlast : ∀ r part, g.ReferenceAt last r → r.child = [] → g'.IsPart last' r part →
      g'.DottedTo last' last (part :: more)) : g'.DottedTo last' id (parts ++ more) := by
  have hm : Moves (fun _ => True) (fun l => l) last last' g g' := {
    size_le := hg.size_le
    isReference := fun a _ ⟨r, ha⟩ => by
      by_cases heq : a = last
      · exact heq ▸ hr
      · exact ⟨r, hg.get?_some ha heq⟩
    links := fun _ _ _ _ _ _ => trivial
    element := fun a e _ he hne => ⟨(hg.get?_some he hne).trans (congrArg some (rename_id e).symm), hl.elim
      (fun heq => heq ▸ hne) fun hl => ((get?_lt he).trans_le hl).ne⟩ }
  refine h.move hm more (fun r part hr hc hp => hlast r part hr hc ?_) trivial
  rwa [show r.rename (fun l => l) = r from reference.inj (rename_id (.reference r))] at hp

end DottedTo

theorem Dotted.extends (h : g.Dotted id parts) (hg : Extends g g') : g'.Dotted id parts := by
  obtain ⟨last, h⟩ := h
  obtain ⟨-, r, hr, -⟩ := h.last_of (fun _ _ _ _ _ _ => trivial) trivial
  refine ⟨last, append_nil parts ▸ h.stay hg.but ⟨r, Extends.get?_some hg hr⟩ (.inl rfl) [] ?_⟩
  exact fun r part hr hc hp => .last (Extends.get?_some hg hr) hp hc

end Graph

namespace Build

open Modelica.Graph

variable {g g0 : Graph} {id last other : Id} {parts more : List (String × Outline)} {n : Nat} {l : List String}

theorem ends_lastPartTo (h : g.DottedTo last id parts) (hn : parts.length ≤ n) {Q F} :
    Ends (lastPartTo n id) g Q F ↔ Q last g := by
  obtain ⟨n, rfl⟩ : ∃ k, n = k + 1 := ⟨n - 1, by cases h <;> simp at hn <;> omega⟩
  induction h generalizing n with
  | last hr _ hc => simp [lastPartTo, ends_referenceAt hr, hc]
  | next hr _ hc h ih =>
    obtain ⟨n, rfl⟩ : ∃ k, n = k + 1 := ⟨n - 1, by cases h <;> simp at hn <;> omega⟩
    rw [lastPartTo, ends_bind, ends_referenceAt hr, hc]
    exact ih n (by simpa using hn)

theorem copy_dotted (hg : Extends g0 g) (h : g0.DottedTo last id parts) :
    Runs (copy id) g fun new g' => ∃ s φ, s id ∧ new = φ id ∧ Image s φ g g' :=
  copy_runs (fun _ _ => hasSource_of_isExpression) (h.tree.extends hg) (by have := hg.size_le; omega)

/-- A copy of a reference of `g0` is hooked behind one that is not of `g0`. -/
theorem appendReference_dotted (hg : Extends g0 g) (hlast : g0.size ≤ last) (h : g.DottedTo last id parts)
    (ho : g0.Dotted other more) : Runs (appendReference id other) g fun _ g' =>
      Extends g0 g' ∧ ∃ last', g0.size ≤ last' ∧ g'.DottedTo last' id (parts ++ more) := by
  obtain ⟨_, ho⟩ := ho
  obtain ⟨-, r, hr, -⟩ := h.last_of (fun _ _ _ _ _ _ => trivial) trivial
  simp only [appendReference, lastPart, ends_bind, ends_size, ends_lastPartTo h (Nat.le_succ_of_le h.length_le)]
  refine (copy_dotted hg ho).imp ?_
  rintro _ g1 ⟨s, φ, hs, rfl, hi⟩
  have hr1 := Extends.get?_some hi.base hr
  simp only [modifyReference, ends_bind, ends_referenceAt hr1, ends_store]
  have hbehind : ∀ a, g.size ≤ a → (g1.set last (.reference { r with child := [φ other] })).get? a = g1.get? a :=
    fun a ha => get?_set_other _ _ ((get?_lt hr).trans_le ha).ne'
  obtain ⟨hs', hnew⟩ := ho.image hg hi (by simp) hbehind hs
  have hend := hi.fresh _ hs'
  refine ⟨(hg.trans hi.base).set (.inr hlast) _, _, hg.size_le.trans hend, ?_⟩
  have hkept := ExtendsBut.set (p := (· = last)) (Extends.but hi.base) (.inl rfl) (.reference { r with child := [φ other] })
  refine h.stay hkept ⟨_, get?_set hr1 _⟩ (.inr hend) more fun r' part hr' hc hp => ?_
  cases hr.symm.trans hr'
  obtain ⟨rs, hrs, -⟩ := hnew.chain
  exact .next (get?_set hr1 _) ⟨by simpa using hrs.isReference, hp.name, hp.indices, by simpa [hc] using hp.apart⟩ rfl hnew

theorem forM_appendReference {others ps} (ho : Forall₂ g0.Dotted others ps) (hg : Extends g0 g) (hlast : g0.size ≤ last)
    (h : g.DottedTo last id parts) : Runs (others.forM (appendReference id)) g fun _ g' =>
      Extends g0 g' ∧ g'.Dotted id (parts ++ ps.flatten) := by
  induction ho generalizing g last parts with
  | nil => exact ⟨hg, last, by simpa using h⟩
  | cons hother _ ih =>
    refine ends_bind.2 ((appendReference_dotted hg hlast h hother).imp ?_)
    rintro _ g1 ⟨hg1, last1, hlast1, h1⟩
    simpa using ih hg1 hlast1 h1

theorem concatenate_dotted {ids ps} (h : Forall₂ g.Dotted ids ps) (hne : ids ≠ []) :
    Runs (concatenate ids) g fun new g' => Extends g g' ∧ g'.Dotted new ps.flatten := by
  cases h with
  | nil => exact absurd rfl hne
  | cons hfirst hrest =>
    obtain ⟨last, hfirst⟩ := hfirst
    simp only [concatenate, ends_bind, ends_pure]
    refine (copy_dotted (ExtendsBut.refl g) hfirst).imp ?_
    rintro _ g1 ⟨s, φ, hs, rfl, hi⟩
    obtain ⟨hl, hd⟩ := hfirst.image (ExtendsBut.refl g) hi le_rfl (fun _ _ => rfl) hs
    exact forM_appendReference hrest hi.base (hi.fresh _ hl) hd

theorem referenceOf_path (g : Graph) (hl : l ≠ []) :
    Runs (referenceOf l) g fun id g' => Runs (path id) g' fun names _ => names = l := by
  suffices hs : Runs (referenceOf l) g fun id g' => ∃ rs, g'.Chain id rs ∧ rs.map (·.name) = l ∧ rs.length ≤ g'.size from
    hs.imp fun id g' ⟨rs, hrs, hnames, hlen⟩ => (ends_path hrs hlen).2 hnames
  induction l with
  | nil => exact absurd rfl hl
  | cons name rest ih =>
    cases rest with
    | nil => exact ends_alloc.2 ⟨[{ name }], ⟨get?_add_self g _, rfl⟩, rfl, by simp⟩
    | cons next rest =>
      refine ends_bind.2 ((ih (cons_ne_nil _ _)).imp ?_)
      rintro child g1 ⟨rs, hrs, hnames, hlen⟩
      refine ends_alloc.2 ⟨{ name, child := [child] } :: rs, ⟨get?_add_self g1 _, hrs.imp fun a r hr => ?_⟩, ?_, ?_⟩
      · exact (get?_add_of_lt g1 _ (get?_lt hr)).trans hr
      · rw [map_cons, hnames]
      · simpa using hlen

theorem path_ne_nil (h : Runs (path id) g fun names _ => names = l) : l ≠ [] := by
  rintro rfl
  simp only [path, pathTo, ends_bind, ends_size] at h
  obtain ⟨r, g1, -, h⟩ := runs_iff.1 h
  cases hc : r.child with
  | nil => simp [hc] at h
  | cons c cs =>
    simp only [hc, ends_bind, ends_pure] at h
    obtain ⟨_, _, -, h⟩ := runs_iff.1 h
    cases h

/-- Names, texts and concatenations of dotted references. Whichever references are concatenated first, the
parts are the same in the end, and all references that were there stay as they are. -/
theorem dotted_laws (g : Graph) : (∀ l ≠ [], Runs (do path (← referenceOf l)) g fun names _ => names = l) ∧
    (∀ s, Runs (do referenceText (← referenceOf (splitPath s))) g fun text _ => text = s) ∧
    (∀ id l, Runs (path id) g (fun names _ => names = l) → (∀ name ∈ l, '.' ∉ name.toList) →
      Runs (do path (← referenceOf (splitPath (← referenceText id)))) g fun names _ => names = l) ∧
    (∀ ids ps, ids ≠ [] → Forall₂ g.Dotted ids ps → Runs (concatenate ids) g fun new g' =>
      Extends g g' ∧ g'.Dotted new ps.flatten ∧ Runs (path new) g' fun names _ => names = ps.flatten.map (·.1)) ∧
    ∀ before ids after ps qs rs, Forall₂ g.Dotted before ps → ids ≠ [] → Forall₂ g.Dotted ids qs →
      Forall₂ g.Dotted after rs → Runs (do concatenate (before ++ (← concatenate ids) :: after)) g fun new g' =>
        Extends g g' ∧ g'.Dotted new (ps ++ qs ++ rs).flatten := by
  refine ⟨fun l hl => ends_bind.2 (referenceOf_path g hl), fun s => ?_, fun id l hl hdot => ?_, fun ids ps hne h => ?_,
    fun before ids after ps qs rs hb hne h ha => ?_⟩
  · simp only [referenceText, ends_bind, ends_pure]
    refine (referenceOf_path g (splitPath_ne_nil s)).imp fun id g' h => h.imp fun names _ hnames => ?_
    rw [hnames, dottedText_splitPath]
  · have hne := path_ne_nil hl
    simp only [referenceText, ends_bind, ends_pure]
    refine hl.imp fun names g' hnames => ?_
    rw [hnames, splitPath_dottedText hdot hne]
    exact referenceOf_path g' hne
  · refine (concatenate_dotted h hne).imp ?_
    rintro new g' ⟨hg, last, hd⟩
    obtain ⟨rs, hrs, hnames, hlen⟩ := hd.chain
    exact ⟨hg, ⟨last, hd⟩, (ends_path hrs hlen).2 hnames⟩
  · refine ends_bind.2 ((concatenate_dotted h hne).imp ?_)
    rintro m g1 ⟨hg1, hm⟩
    have hstay : ∀ {ids ps}, Forall₂ g.Dotted ids ps → Forall₂ g1.Dotted ids ps := fun h => h.imp fun _ _ hd => hd.extends hg1
    refine (concatenate_dotted (rel_append (hstay hb) (.cons hm (hstay ha))) (by simp)).imp ?_
    rintro new g' ⟨hg', hd⟩
    exact ⟨hg1.trans hg', by simpa using hd⟩

/-- The references `a[2].b` and `c[3]`. -/
def indexed : Graph where
  elements := #[.reference { name := "a", indices := [[.node 1]], child := [2] }, .primary (.int 2),
    .reference { name := "b" }, .reference { name := "c", indices := [[.node 4]] }, .primary (.int 3)]

/-- The parts of `a[2].b` and `c[3]`. -/
def indexedParts : List (List (String × Outline)) :=
  [[("a", .list [.list [.node "Primary" [("value", .int 2)]]]), ("b", .list [.list [.null]])],
    [("c", .list [.list [.node "Primary" [("value", .int 3)]]])]]

theorem dotted_laws_indexed : Forall₂ indexed.Dotted [0, 3] indexedParts ∧
    Runs (concatenate [0, 3]) indexed fun new g' => g'.Dotted new indexedParts.flatten := by
  have hab : indexed.Dotted 0 (indexedParts.head (by decide)) :=
    ⟨2, .next rfl ⟨by decide, rfl, rfl, by decide⟩ rfl (.last rfl ⟨by decide, rfl, rfl, by decide⟩ rfl)⟩
  have hparts : Forall₂ indexed.Dotted [0, 3] indexedParts :=
    .cons hab (.cons ⟨3, .last rfl ⟨by decide, rfl, rfl, by decide⟩ rfl⟩ .nil)
  exact ⟨hparts, ((dotted_laws indexed).2.2.2.1 _ _ (by simp) hparts).imp fun _ _ h => h.2.1⟩

end Build
end Modelica
