/-
Visits to trees.

What holds of the state and the graph before a visit holds after it, if each
step on the way down and on the way up keeps it (`walk_runs`). The steps may
change the graph as long as what is still to be visited stays a tree.
-/
import Modelica.Proofs.Graph.Tree

namespace Modelica

namespace Visitor

open Build

variable {σ : Type} {g : Graph} {v : Visitor σ}

/-- A visit keeps `I` if its steps do. `T g d id` says that `id` may be visited
on the graph `g`, and that its visit goes at most `d` levels down. -/
theorem walk_runs {I : σ → Graph → Prop} {T : Graph → Nat → Id → Prop} (hzero : ∀ g id, ¬ T g 0 id)
    (henter : ∀ s g d id, I s g → T g (d + 1) id → Runs ((v.enter id).run s) g fun r g' =>
      I r.2 g' ∧ (∀ d id, T g d id → T g' d id) ∧ ∃ e, g'.get? id = some e ∧ ∀ c ∈ e.children, T g' d c)
    (hexit : ∀ s g d id, I s g → T g (d + 1) id → Runs ((v.exit id).run s) g fun r g' =>
      I r.2 g' ∧ ∀ d id, T g d id → T g' d id) {n d id s g} (hd : d ≤ n) (ht : T g d id)
    (hi : I s g) : Runs ((v.walk n id).run s) g fun r g' => I r.2 g' ∧ ∀ d id, T g d id → T g' d id := by
  induction n generalizing d id s g with
  | zero =>
    obtain rfl : d = 0 := by omega
    exact absurd ht (hzero g id)
  | succ n ih =>
    cases d with
    | zero => exact absurd ht (hzero g id)
    | succ d =>
      simp only [walk, StateT.run_bind, ends_bind, run_lift, ends_pure]
      refine (henter s g d id hi ht).imp ?_
      rintro r g1 ⟨hi1, hT1, e, he, hc⟩
      rw [ends_element he]
      -- Each child is visited on a graph on which everything may still be visited.
      have hloop := ends_forIn_state (l := e.children) (f := v.walk n) (s := r.2) (g := g1)
        (fun s g' => I s g' ∧ ∀ d id, T g1 d id → T g' d id)
        (fun c hmem s' g' h' =>
          (ih (by omega) (h'.2 d c (hc c hmem)) h'.1).imp fun r'' g'' h'' =>
            ⟨h''.1, fun d id h => h''.2 d id (h'.2 d id h)⟩)
        ⟨hi1, fun _ _ h => h⟩
      refine Runs.imp hloop ?_
      rintro r2 g2 ⟨hi2, hT2⟩
      refine (hexit r2.2 g2 d id hi2 (hT2 _ _ (hT1 _ _ ht))).imp ?_
      rintro r3 g3 ⟨hi3, hT3⟩
      exact ⟨hi3, fun d id h => hT3 d id (hT2 d id (hT1 d id h))⟩

theorem walk_reads {I : σ → Prop} {p : Id → Element → Prop} {g}
    (henter : ∀ s d id, I s → d < g.size → g.Tree p (d + 1) id →
      Runs ((v.enter id).run s) g fun r g' => I r.2 ∧ g' = g)
    (hexit : ∀ s d id, I s → d < g.size → g.Tree p (d + 1) id →
      Runs ((v.exit id).run s) g fun r g' => I r.2 ∧ g' = g) {n d id s} (hd : d ≤ n)
    (hsize : d ≤ g.size) (ht : g.Tree p d id) (hi : I s) :
    Runs ((v.walk n id).run s) g fun r g' => I r.2 ∧ g' = g := by
  refine (walk_runs (v := v) (I := fun s g' => I s ∧ g' = g)
    (T := fun g' d id => g' = g ∧ d ≤ g.size ∧ g.Tree p d id) (fun _ _ h => h.2.2.elim) ?_ ?_ hd
    ⟨rfl, hsize, ht⟩ ⟨hi, rfl⟩).imp fun _ _ h => h.1
  · rintro s _ d id ⟨hi, rfl⟩ ⟨_, hsize, ht⟩
    refine (henter s d id hi hsize ht).imp ?_
    rintro r _ ⟨hi', rfl⟩
    obtain ⟨e, he, _, _, hl⟩ := ht
    exact ⟨⟨hi', rfl⟩, fun _ _ h => h, e, he, fun c hc =>
      ⟨rfl, by omega, hl c (Element.mem_links_of_mem_children hc)⟩⟩
  · rintro s _ d id ⟨hi, rfl⟩ ⟨_, hsize, ht⟩
    refine (hexit s d id hi hsize ht).imp ?_
    rintro r _ ⟨hi', rfl⟩
    exact ⟨⟨hi', rfl⟩, fun _ _ h => h⟩

end Visitor
end Modelica
