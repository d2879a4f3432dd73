/-
What becomes of an equation in a flat class.

An equation is copied twice, once so that calls can be given full names and once
so that references can be flattened, and a connection is marked afterwards.
`Rewrites` compares the outcome with what was written: the references that
`Resolved` describes are replaced, and all else is as it was. It holds across
both copies (`Image.rewrites`), and changes elsewhere do not affect it
(`KeepsTerms.rewrites`, `Rewrites.keep`).
-/
import Modelica.Proofs.Flat.Component

namespace Modelica

open List Element

variable {e e' : Element}

/-! ### Renaming twice -/

mutual

theorem Value.rename_rename (φ ψ : Id → Id) : ∀ v : Value, (v.rename φ).rename ψ = v.rename (ψ ∘ φ)
  | .list items => by simp only [rename, Value.renameAll_renameAll φ ψ items]
  | .node id => rfl
  | .null | .bool _ | .int _ | .real _ | .text _ => rfl

theorem Value.renameAll_renameAll (φ ψ : Id → Id) :
    ∀ vs : List Value, Value.renameAll ψ (Value.renameAll φ vs) = Value.renameAll (ψ ∘ φ) vs
  | [] => rfl
  | v :: rest => by
    simp only [renameAll, Value.rename_rename φ ψ v, Value.renameAll_renameAll φ ψ rest]

end

theorem Reference.rename_rename (φ ψ : Id → Id) (r : Reference) : (r.rename φ).rename ψ = r.rename (ψ ∘ φ) := by
  simp [rename, Function.comp_def, Value.renameAll_renameAll]

theorem Element.rename_rename (φ ψ : Id → Id) (e : Element) : (e.rename φ).rename ψ = e.rename (ψ ∘ φ) := by
  cases e with
  | reference r => simp only [rename, Reference.rename_rename]
  | symbol s =>
    simp [rename, Symbol.rename, Value.rename_rename, Function.comp_def, Value.renameAll_renameAll]
  | clause c => simp [rename, Clause.rename, Function.comp_def, Value.renameAll_renameAll]
  | _ =>
    simp [rename, Value.rename_rename, Value.renameAll_renameAll, Function.comp_def]

/-- An element without the marks of a connection. -/
def Element.unmarked : Element → Element
  | .connect l r comment _ _ => .connect l r comment none none
  | e => e

theorem Element.isTerm_of_unmarked (h : e'.unmarked = e.unmarked) : e'.isTerm = e.isTerm := by
  have hsame : ∀ e : Element, e.unmarked.isTerm = e.isTerm := fun e => by cases e <;> rfl
  rw [← hsame e, ← hsame e', h]

theorem Element.eq_of_unmarked (h : e'.unmarked = e) (he : ∀ l r comment, e ≠ .connect l r comment none none) :
    e' = e := by
  cases e' with
  | connect l r comment => exact absurd h.symm (he l r comment)
  | _ => exact h

namespace Graph

variable {p : Id → Element → Prop} {g g1 g' : Graph} {found : String → Bool} {stem : String} {d : Nat} {id a : Id}
  {φ ψ : Id → Id}

variable {s : Id → Prop}

/-- Under `φ` the second graph has a copy of what is reached from `id` in which the
references that name symbols are replaced, and connections may be marked. -/
structure Rewrites (g : Graph) (found : String → Bool) (stem : String) (id : Id) (φ : Id → Id) (g' : Graph) :
    Prop where
  injective : ∀ a ∈ g.reach id, ∀ b ∈ g.reach id, φ a = φ b → a = b
  resolved : ∀ a rs, g.Resolved found id a → g.Chain a rs →
    g'.get? (φ a) = some (.reference ((join stem rs).rename φ))
  other : ∀ a e, a ∈ g.reach id → ¬ g.Resolved found id a → g.get? a = some e →
    ∃ e', g'.get? (φ a) = some e' ∧ e'.unmarked = (e.rename φ).unmarked

theorem FlatCopy.rewrites (h : g.FlatCopy found stem id φ g') : g.Rewrites found stem id φ g' :=
  ⟨h.injective, h.resolved, fun a e ha hres he => ⟨_, h.other a e ha hres he, rfl⟩⟩

/-! ### Changes elsewhere -/

theorem Agree.resolved (h : Agree g g' (g.reach id)) (ht : g.Tree p d id) (ha : g.Resolved found id a) :
    g'.Resolved found id a := by
  induction ha generalizing d with
  | here hc hf => exact .here (h.chain ht hc) hf
  | @subscript id l a rs hc hf hl _ ih =>
    obtain ⟨d, rfl⟩ := Nat.exists_eq_add_one.2 ht.pos
    have hsub := tree_subscripts ht hc l hl
    have hmem : l ∈ g.reach id := (reach_subscripts ht hc).subset
      (.tail _ (mem_flatMap.2 ⟨l, hl, self_mem_reach hsub⟩))
    exact .subscript (h.chain ht hc) hf hl (ih (h.mono (reach_subset ht hmem)) hsub)
  | part he hr hs hl _ ih =>
    have hlink := mem_links_of_mem_children hl
    exact .part ((h.get? ht).trans he) hr hs hl (ih (h.link ht he hlink) ((ht.element he).2.2 _ hlink))

namespace KeepsTerms

variable (h : g.KeepsTerms g1) (ht : g.TermTree d id)

include h ht

theorem agree : Agree g g1 (g.reach id) := by
  intro a ha
  obtain ⟨d', _, hta⟩ := tree_of_mem_reach ht ha
  obtain ⟨e, he⟩ := hta.get?
  rw [he, h.get? he (hta.element he).1]

theorem resolved_iff : g1.Resolved found id a ↔ g.Resolved found id a := by
  have hreach := h.reach ht
  have hback : Agree g1 g (g1.reach id) := fun a ha => by
    rw [hreach] at ha
    exact (h.agree ht a ha).symm
  exact ⟨hback.resolved (h.tree ht), (h.agree ht).resolved ht⟩

theorem rewrites (hr : g1.Rewrites found stem id φ g') : g.Rewrites found stem id φ g' := by
  have hreach := h.reach ht
  refine ⟨hreach ▸ hr.injective, fun a rs ha hc => hr.resolved a rs ((h.resolved_iff ht).2 ha) (h.chain hc),
    fun a e ha hres he => hr.other a e (by rw [hreach]; exact ha) (fun hres' => ?_) ?_⟩
  · exact hres ((h.resolved_iff ht).1 hres')
  · rw [h.agree ht a ha, he]

end KeepsTerms

theorem Image.terms (h : Image s φ g g1) (hs : s id) (ht : g.TermTree d id) : g1.TermTree d (φ id) := by
  refine h.tree (fun _ _ => hasSource_of_isTerm) (fun _ e _ _ he => ?_) hs ht
  rw [isTerm_rename]
  exact he

theorem Image.rewrites (h : Image s φ g g1) (hp : ∀ id e, p id e → e.hasSource = false) (hs : s id)
    (ht : g.Tree p d id) (hr : g1.Rewrites found stem (φ id) ψ g') : g.Rewrites found stem id (ψ ∘ φ) g' := by
  have hreach := h.reach hp hs ht
  have hmem : ∀ a ∈ g.reach id, s a ∧ φ a ∈ g1.reach (φ id) := fun a ha =>
    ⟨h.mem hs ht ha, by rw [hreach]; exact mem_map_of_mem ha⟩
  refine ⟨fun a ha b hb hab => ?_, fun a rs ha hc => ?_, fun a e ha hres he => ?_⟩
  · obtain ⟨hsa, ha⟩ := hmem a ha
    obtain ⟨hsb, hb⟩ := hmem b hb
    exact h.injective a b hsa hsb (hr.injective _ ha _ hb hab)
  · have hsa := (hmem a (ha.mem_reach ht)).1
    have hget := hr.resolved (φ a) _ (h.resolved hp hs ht ha) (h.chain hsa hc)
    rw [join_rename, Reference.rename_rename] at hget
    exact hget
  · obtain ⟨hsa, hma⟩ := hmem a ha
    have hres' : ¬ g1.Resolved found (φ id) (φ a) := fun hres' => by
      obtain ⟨b, hab, hb⟩ := h.of_resolved hp hs ht hres'
      rw [← h.injective a b hsa (hmem b (hb.mem_reach ht)).1 hab] at hb
      exact hres hb
    obtain ⟨e', he', hsame⟩ := hr.other (φ a) _ hma hres' (h.get? hsa he).1
    exact ⟨e', he', by rw [hsame, rename_rename]⟩

theorem Rewrites.keep (h : g.Rewrites found stem id φ g1) (ht : g.TermTree d id)
    (hg : g1.KeepsTerms g') : g.Rewrites found stem id φ g' := by
  refine ⟨h.injective, fun a rs ha hc => hg.get? (h.resolved a rs ha hc) rfl, fun a e ha hres he => ?_⟩
  obtain ⟨e', he', hsame⟩ := h.other a e ha hres he
  obtain ⟨d', _, hta⟩ := tree_of_mem_reach ht ha
  refine ⟨e', hg.get? he' ?_, hsame⟩
  rw [isTerm_of_unmarked hsame, isTerm_rename]
  exact (hta.element he).1

theorem Rewrites.mark (h : g.Rewrites found stem id φ g1) (hg : ExtendsBut (· = φ id) g1 g') (ht : g.Tree p d id)
    (hid : ∀ e, g1.get? (φ id) = some e → ∃ e', g'.get? (φ id) = some e' ∧ e'.unmarked = e.unmarked) :
    g.Rewrites found stem id φ g' := by
  have hself := self_mem_reach ht
  refine ⟨h.injective, fun a rs ha hc => ?_, fun a e ha hres he => ?_⟩
  · have hget := h.resolved a rs ha hc
    by_cases hφ : φ a = φ id
    · rw [hφ] at hget ⊢
      obtain ⟨e', he', hsame⟩ := hid _ hget
      rw [he', eq_of_unmarked hsame (by simp [unmarked])]
      rfl
    · exact hg.get?_some hget hφ
  · obtain ⟨e1, he1, hsame⟩ := h.other a e ha hres he
    by_cases hφ : φ a = φ id
    · rw [hφ] at he1 ⊢
      obtain ⟨e', he', hsame'⟩ := hid _ he1
      exact ⟨e', he', hsame'.trans hsame⟩
    · exact ⟨e1, hg.get?_some he1 hφ, hsame⟩

/-! ### Copies on the way -/

/-- A copy of what was written, made in some graph between the two. -/
def Copied (g g' : Graph) (id new : Id) : Prop :=
  ∃ g1 g2 s φ, g.KeepsTerms g1 ∧ Image s φ g1 g2 ∧ s id ∧ new = φ id ∧ g2.KeepsTerms g'

namespace Copied

variable {new : Id}

theorem keep (h : g.Copied g1 id new) (hg : g1.KeepsTerms g') : g.Copied g' id new := by
  obtain ⟨g2, g3, s, φ, hbefore, himage, hs, hnew, hafter⟩ := h
  exact ⟨g2, g3, s, φ, hbefore, himage, hs, hnew, hafter.trans hg⟩

theorem after {g0 : Graph} (h : g.Copied g' id new) (hg : g0.KeepsTerms g) : g0.Copied g' id new := by
  obtain ⟨g2, g3, s, φ, hbefore, himage, hs, hnew, hafter⟩ := h
  exact ⟨g2, g3, s, φ, hg.trans hbefore, himage, hs, hnew, hafter⟩

variable (h : g.Copied g1 id new) (ht : g.TermTree d id)

include h ht

theorem tree : g1.TermTree g1.size new := by
  obtain ⟨g2, g3, s, φ, hbefore, himage, hs, rfl, hafter⟩ := h
  have hcopy := himage.terms hs (hbefore.tree ht)
  exact (hafter.tree hcopy).bounded

theorem unshared (hu : g.Unshared id) : g1.Unshared new := by
  obtain ⟨g2, g3, s, φ, hbefore, himage, hs, rfl, hafter⟩ := h
  have ht2 := hbefore.tree ht
  rw [Unshared, hafter.reach (himage.terms hs ht2)]
  refine himage.unshared (fun _ _ => hasSource_of_isTerm) hs ht2 ?_
  rw [Unshared, hbefore.reach ht]
  exact hu

theorem rewrites (hr : g1.Rewrites found stem new ψ g') : ∃ φ, ψ new = φ id ∧ g.Rewrites found stem id φ g' := by
  obtain ⟨g2, g3, s, φ, hbefore, himage, hs, rfl, hafter⟩ := h
  have ht2 := hbefore.tree ht
  refine ⟨ψ ∘ φ, rfl, hbefore.rewrites ht ?_⟩
  exact himage.rewrites (fun _ _ => hasSource_of_isTerm) hs ht2 (hafter.rewrites (himage.terms hs ht2) hr)

end Copied
end Graph
end Modelica
