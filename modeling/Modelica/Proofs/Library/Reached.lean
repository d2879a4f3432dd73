/-
Trees that are edited.

`Edit` are the steps in which a tree changes: a text is read and merged into it, a class is
made, a class that stands in no other one is added to it, a class is removed from it. `Reached` are
the states to which they lead from an empty tree or from one that was read, whether
a step succeeds or fails. `reached_tree` says what holds in all of them. A class that is
removed from another class than its own loses its link and stays (`removeClass_elsewhere`).
-/
import Modelica.Lookup
import Modelica.Proofs.Library.Edit
import Modelica.Proofs.Library.Order

namespace Modelica.Build

open Modelica.Graph

variable {g : Graph} {root : Id} {α : Type}

variable {x : Build α}

/-! ### Steps -/

/-- The steps in which a tree is edited. A class that is removed stands nowhere in the tree but in the
class it is removed from, if it stands in the tree at all. -/
inductive Edit (g : Graph) (root : Id) : Build Unit → Prop
  | extend (text : String) : Edit g root (do extend root (← read text).root)
  | make {k : ClassDef} (hclasses : k.classes = {}) (hparent : k.parent = none) : Edit g root (discard (freshClass k))
  | add {p : Path} {x new : Id} (hp : g.along root p = some x) (hnew : g.Rooted new) (hne : root ≠ new) :
    Edit g root (addClass x new)
  | remove {p : Path} {x c : Id} (hp : g.along root p = some x) (hc : g.IsClass c)
    (honly : ∀ q, g.along root q = some c → q = p ++ [g.nameOf c]) : Edit g root (removeClass x c)

theorem read_extend_ends (h : g.Rooted root) (text : String) :
    Ends (read text) g (fun l g1 => Extends g g1 ∧ Runs (extend root l.root) g1 fun _ g' => g1.Merged root l.root g')
      fun _ g' => Extends g g' := by
  refine (read_ends text g).imp (fun l g1 hread => ?_) fun _ _ hg => hg
  obtain ⟨file, rest, -, hgrown⟩ := hread
  obtain ⟨c, hc, -⟩ := h.top
  have hne : root ≠ l.root := fun he => Nat.not_lt.2 (hgrown.fresh [] l.root rfl) (he ▸ get?_lt hc)
  exact ⟨hgrown.grown, extend_runs (h.grown hgrown.grown).1 hgrown.rooted hne⟩

theorem Edit.ends {act} (hedit : Edit g root act) (h : g.Rooted root) :
    Ends act g (fun _ g' => g'.Rooted root) fun _ g' => Extends g g' := by
  cases hedit with
  | extend text =>
    simp only [ends_bind]
    refine (read_extend_ends h text).imp (fun l g1 hread => ?_) fun _ _ hg => hg
    exact Ends.imp hread.2 (fun _ _ hmerged => hmerged.rooted) fun _ _ => False.elim
  | make hclasses hparent =>
    simp only [ends_discard, ends_freshClass]
    exact (h.grown (extends_withClass g _)).1
  | add hp hnew hne => exact Ends.imp (addClass_runs h hp hnew hne) (fun _ _ hadd => hadd.1) fun _ _ => False.elim
  | remove hp hc honly =>
    refine (removeClass_ends h hp hc honly).imp (fun _ _ hrem => hrem.1) ?_
    rintro _ _ ⟨-, -, rfl⟩
    exact .refl _

/-! ### Runs -/

/-- The graph that a step leaves, whether it succeeds or fails. -/
def after (x : Build α) (g : Graph) : Graph :=
  match x g with
  | .ok _ g' => g'
  | .error _ g' => g'

theorem Ends.after {P : Graph → Prop} (h : Ends x g (fun _ g' => P g') fun _ g' => P g') : P (after x g) := by
  simp only [Ends, Build.after] at h ⊢
  generalize x g = r at h ⊢
  cases r <;> exact h

theorem Ends.ok {Q F a g'} (h : Ends x g Q F) (hx : x g = .ok a g') : Q a g' := by
  rw [Ends, hx] at h
  exact h

/-- The states to which editing leads from an empty tree or from one that was read. -/
inductive Reached (root : Id) : Graph → Prop
  | empty {g0 g : Graph} (hmade : freshClass { role := .tree } g0 = .ok root g) : Reached root g
  | parsed {text : String} {dropped : List Dropped} {g0 g : Graph} (hread : read text g0 = .ok ⟨root, dropped⟩ g) :
    Reached root g
  | step {g : Graph} {act : Build Unit} (h : Reached root g) (hedit : Edit g root act) : Reached root (after act g)

theorem Reached.rooted (h : Reached root g) : g.Rooted root := by
  induction h with
  | empty hmade =>
    rename_i g0 _
    have hfresh : Runs (freshClass { role := .tree }) g0 fun id g => g.Rooted id :=
      ends_freshClass.2 (rooted_withClass g0 rfl rfl)
    exact hfresh.ok hmade
  | parsed hread =>
    obtain ⟨file, rest, -, hgrown⟩ := (read_ends _ _).ok hread
    exact hgrown.rooted
  | step _ hedit ih =>
    exact Ends.after (P := fun g' => g'.Rooted root) ((hedit.ends ih).imp (fun _ _ hg => hg) fun _ _ hg => (ih.grown hg).1)

/-- **What holds of a tree in every state.** Each class stands in its class under its own name and is linked
to it, the outermost class around it is the root, and its full path is the
path on which it is found. A step that fails changes nothing that was there. Merging a text
gives the union of the paths and keeps the content of all classes, and it is associative. -/
theorem reached_tree (h : Reached root g) :
    g.Rooted root ∧
    (∀ p x, g.along root p = some x → Runs (rootOf x) g (fun id g' => id = root ∧ g' = g) ∧
      (p ≠ [] → Runs (fullPath x) g fun q g' => q = p ∧ g' = g)) ∧
    (∀ act, Edit g root act → Ends act g (fun _ g' => g'.Rooted root) fun _ g' => Extends g g') ∧
    (∀ text, Ends (read text) g
      (fun l g₁ => Extends g g₁ ∧ Runs (extend root l.root) g₁ fun _ g' => g₁.Merged root l.root g')
      fun _ g' => Extends g g') ∧
    ∀ a b, g.Rooted a → g.Rooted b → root ≠ a → root ≠ b → a ≠ b →
      Runs (do extend root a; extend root b) g fun _ g₁ =>
        Runs (do extend a b; extend root a) g fun _ g₂ => g₁.SameTree root g₂ := by
  have hrooted := h.rooted
  refine ⟨hrooted, fun p x hp => ⟨?_, fun hne => ?_⟩, fun act hedit => hedit.ends hrooted, read_extend_ends hrooted,
    fun a b ha hb hra hrb hab => extend_assoc hrooted ha hb hra hrb hab⟩
  · exact (ends_rootOf hrooted hp).2 ⟨rfl, rfl⟩
  · exact (ends_fullPath (hrooted.hasPath hp hne)).2 ⟨rfl, rfl⟩

/-- A class made and added to an empty tree. -/
theorem reached_tree_added :
    ∃ g, Reached 0 g ∧ g.along 0 [some "A"] = some 1 ∧ Runs (fullPath 1) g fun q g' => q = [some "A"] ∧ g' = g := by
  have hreached : Reached 0 (after (addClass 0 1) (after (discard (freshClass { name := some "A" }))
      (({} : Graph).withClass { role := .tree }))) := by
    refine .step (.step (.empty (show freshClass { role := .tree } {} = .ok 0 _ from rfl)) (.make rfl rfl)) (.add (p := []) rfl ?_ (by decide))
    exact rooted_withClass (({} : Graph).withClass { role := .tree }) rfl rfl
  have hpath : (after (addClass 0 1) (after (discard (freshClass { name := some "A" }))
      (({} : Graph).withClass { role := .tree }))).along 0 [some "A"] = some 1 := by
    rfl
  exact ⟨_, hreached, hpath, ((reached_tree hreached).2.1 _ _ hpath).2 (List.cons_ne_nil _ _)⟩

/-- A class of one name in each of two classes. -/
@[irreducible] def twinText : String := "model A model X end X; end A; model B model X end X; end B;"

/-- **A class can be removed from a class in which it does not stand**, if one of its name stands there. It
stays where it is and is linked to nothing. And the root has no full path. -/
theorem removeClass_elsewhere : ∃ root a x g, Reached root g ∧ g.along root [some "A"] = some a ∧
    g.along root [some "B", some "X"] = some x ∧
    (Runs (do removeClass a x; classAt x) g fun c g' =>
      g'.along root [some "B", some "X"] = some x ∧ c.parent = none) ∧
    Ends (fullPath root) g (fun _ _ => False) fun fault _ => fault.root = .outOfRange := by
  have h : Runs (read twinText) {} fun l g => l.root = 5 ∧ g.along 5 [some "A"] = some 1 ∧
      g.along 5 [some "B", some "X"] = some 4 ∧
      (Runs (do removeClass 1 4; classAt 4) g fun c g' =>
        g'.along 5 [some "B", some "X"] = some 4 ∧ c.parent = none) ∧
      Ends (fullPath 5) g (fun _ _ => False) fun fault _ => fault.root = .outOfRange := by
    decide +kernel
  obtain ⟨⟨root, dropped⟩, g, hread, rfl, hg⟩ := runs_iff.1 h
  exact ⟨5, 1, 4, g, .parsed hread, hg⟩

end Modelica.Build
