/-
Loop indices in flattened equations.

Whether a reference is renamed depends on the symbols of the flat class only. So a reference
to the index of a loop keeps its name unless a symbol has that name behind the prefix: then it
becomes a reference to the symbol, while the loop still runs over its index
(`flattenReferences_indices`).
-/
import Modelica.Proofs.Flat.References

namespace Modelica

open Element

/-- The iterators and the body of a loop. -/
def Element.loop? : Element → Option (List Id × List Id)
  | .loopEquation iterators body _ | .loopStatement iterators body _ => some (iterators, body)
  | _ => none

namespace Graph

variable {g g' : Graph} {found : String → Bool} {id a : Id} {i stem : String} {r : Reference} {rs : List Reference}

/-- A visit to the first element that replaces references comes to the second one. -/
inductive Visits (g : Graph) (found : String → Bool) : Id → Id → Prop
  | here {id : Id} : Visits g found id id
  | subscript {id l a : Id} {rs : List Reference} : g.Chain id rs → found (dotted rs) = true → l ∈ subscripts rs →
      Visits g found l a → Visits g found id a
  | part {id l a : Id} {e : Element} : g.get? id = some e → e.isReference = false → e.isScoped = false →
      l ∈ e.children → Visits g found l a → Visits g found id a

theorem Visits.trans {b} (h : g.Visits found id a) (h' : g.Visits found a b) : g.Visits found id b := by
  induction h with
  | here => exact h'
  | subscript hc hf hl _ ih => exact .subscript hc hf hl (ih h')
  | part he hr hs hl _ ih => exact .part he hr hs hl (ih h')

/-- A reference that is visited is replaced if its name is found, by this visit or by one
that finds more. -/
theorem Visits.resolved {found'} (h : g.Visits found id a) (hc : g.Chain a rs)
    (hmore : ∀ r, found r = true → found' r = true) (hf : found' (dotted rs) = true) : g.Resolved found' id a := by
  induction h with
  | here => exact .here hc hf
  | subscript hc' hf' hl _ ih => exact .subscript hc' (hmore _ hf') hl (ih hc)
  | part he hr hs hl _ ih => exact .part he hr hs hl (ih hc)

/-- In the body of a loop over the index `i` a visit comes to the reference `r`, which has
that name. -/
def IsIndex (g : Graph) (found : String → Bool) (id : Id) (i : String) (a : Id) (r : Reference) : Prop :=
  ∃ loop e iterators body k range b, g.Visits found id loop ∧ g.get? loop = some e ∧ e.loop? = some (iterators, body) ∧
    k ∈ iterators ∧ g.get? k = some (.iterator i range) ∧ b ∈ body ∧ g.Visits found b a ∧ g.Chain a [r] ∧ r.name = i

theorem IsIndex.visits (h : g.IsIndex found id i a r) : g.Visits found id a := by
  obtain ⟨loop, e, iterators, body, k, range, b, hloop, he, hparts, _, _, hb, ha, _⟩ := h
  refine hloop.trans (.part he ?_ ?_ ?_ ha)
  all_goals cases e <;> cases hparts
  all_goals simp [isReference, isScoped, children, hb]

/-- A reference of one name that is visited gets the prefix if its name is found. -/
theorem FlatCopy.name_eq {p d φ} (h : g.FlatCopy found stem id φ g') (ht : g.Tree p d id) (ha : g.Visits found id a)
    (hc : g.Chain a [r]) :
    ∃ r', g'.get? (φ a) = some (.reference r') ∧ r'.name = if found r.name then stem ++ r.name else r.name := by
  have hdotted : dotted [r] = r.name := dottedText_singleton r.name
  by_cases hf : found r.name = true
  · have hres := ha.resolved hc (fun _ h => h) (by rwa [hdotted])
    exact ⟨_, h.resolved a _ hres hc, (congrArg (stem ++ ·) hdotted).trans (if_pos hf).symm⟩
  · have hnot : ¬ g.Resolved found id a := fun hres => hf (hdotted ▸ hres.isFound hc)
    -- a visit that replaced all references would replace this one, so it is reached
    have hall : g.Resolved (fun _ => true) id a := ha.resolved hc (fun _ _ => rfl) rfl
    exact ⟨_, h.other a _ (hall.mem_reach ht) hnot hc.1, (if_neg hf).symm⟩

end Graph

namespace Build

open Modelica.Graph

/-- **Loop indices.** A reference to the index of a loop is looked up like any other one: it keeps
its name exactly if there is no prefix, or no symbol of that name behind the prefix. The iterators
of all loops keep their names, and every other reference that is visited and names a symbol gets
the prefix. -/
theorem flattenReferences_indices {g : Graph} {container : Id} {k : ClassDef}
    (hk : g.get? container = some (.classDef k)) (stem : String) {d : Nat} {id : Id}
    (ht : g.Tree (fun _ e => e.hasSource = false) d id) (hu : g.Unshared id) :
    Runs (flattenReferences container stem id) g fun new g' => ∃ φ, new = φ id ∧
      (∀ i a r, g.IsIndex (fun r => k.symbols.contains (stem ++ r)) id i a r →
        ∃ r', g'.get? (φ a) = some (.reference r') ∧
          r'.name = (if k.symbols.contains (stem ++ i) then stem ++ i else i) ∧
          (r'.name = i ↔ stem = "" ∨ k.symbols.contains (stem ++ i) = false)) ∧
      (∀ a i range, a ∈ g.reach id → g.get? a = some (.iterator i range) →
        ∃ range', g'.get? (φ a) = some (.iterator i range')) ∧
      ∀ a rs, g.Visits (fun r => k.symbols.contains (stem ++ r)) id a → g.Chain a rs →
        k.symbols.contains (stem ++ dotted rs) = true → g'.get? (φ a) = some (.reference ((join stem rs).rename φ)) := by
  refine (flattenReferences_exact (fun _ _ he => he) hk stem ht hu).imp ?_
  rintro new g' ⟨φ, hnew, hcopy⟩
  refine ⟨φ, hnew, fun i a r hindex => ?_, fun a i range ha he => ?_, fun a rs ha hc hf => ?_⟩
  · have hvisits := hindex.visits
    obtain ⟨_, _, _, _, _, _, _, _, _, _, _, _, _, _, hc, rfl⟩ := hindex
    obtain ⟨r', hr', hname⟩ := hcopy.name_eq ht hvisits hc
    refine ⟨r', hr', hname, ?_⟩
    rw [hname]
    change (if k.symbols.contains (stem ++ r.name) = true then _ else _) = _ ↔ _
    cases hf : k.symbols.contains (stem ++ r.name) with
    | true => simp
    | false => simp
  · have hnot : ¬ g.Resolved (ReferenceSearch.named k stem) id a := fun h => by
      obtain ⟨rs, hc⟩ := h.chain
      exact Resolved.not_chain he rfl hc
    exact ⟨_, hcopy.other a _ ha hnot he⟩
  · exact hcopy.resolved a rs (ha.resolved hc (fun _ h => h) hf) hc

/-- A class with a component `i` and a loop over an index of that name. -/
@[irreducible] def sweepText : String := "model A Real i; equation for i in 1:3 loop i = 1; end for; end A;"

/-- A flat class into which the component `i` of a component `a` has been entered. -/
def sweepClass : ClassDef := { symbols := ⟨[("a.i", 17)]⟩ }

def sweep : Build Id := do
  let _ ← read sweepText
  alloc (.classDef sweepClass)

/-- In the loop of `a` the reference to the index becomes one to `a.i`, and the iterator does not. -/
theorem flattenReferences_indices_sweep : ∃ flat g, sweep {} = .ok flat g ∧ g.get? flat = some (.classDef sweepClass) ∧
    g.Tree (fun _ e => e.hasSource = false) 6 26 ∧ g.Unshared 26 ∧
    g.IsIndex (fun r => sweepClass.symbols.contains ("a." ++ r)) 26 "i" 23 { name := "i" } ∧
    Runs (flattenReferences flat "a." 26) g fun _ g' => ∃ (φ : Id → Id) (r : Reference) (range : Value),
      g'.get? (φ 23) = some (.reference r) ∧ r.name = "a.i" ∧ g'.get? (φ 22) = some (.iterator "i" range) := by
  have h : Runs sweep {} fun flat g => g.get? flat = some (.classDef sweepClass) ∧
      g.Tree (fun _ e => e.hasSource = false) 6 26 ∧ g.Unshared 26 ∧ 22 ∈ g.reach 26 ∧
      g.get? 26 = some (.loopEquation [22] [25] (some "")) ∧ g.get? 22 = some (.iterator "i" (.node 21)) ∧
      g.get? 25 = some (.equation (.node 23) (.node 24) "") ∧ g.get? 23 = some (.reference { name := "i" }) := by
    decide +kernel
  obtain ⟨flat, g, hrun, hk, ht, hu, hreach, hloop, hiterator, hequation, hi⟩ := runs_iff.1 h
  have hindex : g.IsIndex (fun r => sweepClass.symbols.contains ("a." ++ r)) 26 "i" 23 { name := "i" } :=
    ⟨26, _, [22], [25], 22, .node 21, 25, .here, hloop, rfl, .head _, hiterator, .head _,
      .part hequation rfl rfl (.head _) .here, ⟨hi, rfl⟩, rfl⟩
  refine ⟨flat, g, hrun, hk, ht, hu, hindex, (flattenReferences_indices hk "a." ht hu).imp ?_⟩
  rintro _ g' ⟨φ, -, hindices, hiterators, -⟩
  obtain ⟨r, hr, hname, -⟩ := hindices "i" 23 _ hindex
  obtain ⟨range, hrange⟩ := hiterators 22 "i" _ hreach hiterator
  exact ⟨φ, r, range, hr, hname, hrange⟩

end Build
end Modelica
