/-
Builtin types.

`inherit` marks a class as a builtin type, and `extendsBuiltin` follows the base classes of
a class to tell whether it is one. `inherit` looks at the class a clause names before that
class is merged itself, so it goes one step only. The two agree where the name is
elementary. Of the types `A = Real` and `B = A`, `inherit` marks the first one only.
-/
import Modelica.Proofs.Instance.Complete

namespace Modelica

open Build

variable {g : Graph} {k : ClassDef}

/-- A class that extends one other, by the given name. -/
def Graph.ExtendsOne (g : Graph) (id component : Id) : Prop :=
  ∃ k b m v, g.get? id = some (.classDef k) ∧ k.bases = [b] ∧ g.get? b = some (.base component m v)

namespace Build

/-- The classes that are looked up from one that extends at most one class, each in the graph that the
lookups before it have left. After `n` of them there is a class that extends an elementary type if `builtin`
is true, else nothing. -/
inductive BaseChain : Bool → Nat → Graph → Id → Prop
  | plain {g : Graph} {id : Id} {k : ClassDef} : g.get? id = some (.classDef k) → k.bases = [] → BaseChain false 0 g id
  | elementary {g : Graph} {id component : Id} : g.ExtendsOne id component →
      Runs (path component) g (fun p _ => isElementary p = true) → BaseChain true 0 g id
  | next {g g' : Graph} {id component found : Id} {builtin : Bool} {n : Nat} : g.ExtendsOne id component →
      (do findClass id (← path component)) g = .ok found g' → BaseChain builtin n g' found → BaseChain builtin (n + 1) g id

/-- One class of a chain, with what the lookup of its base class comes to. -/
theorem extendsBuiltinTo_one {id component fuel} {Q : Bool → Prop} (h : g.ExtendsOne id component)
    (hlook : Ends (path component) g (fun p g1 => Ends (findClass id p) g1 (fun c g2 =>
      Runs (extendsBuiltinTo fuel c) g2 fun yes _ => Q yes) fun f _ => f.root = .elementaryClass ∧ Q true) fun _ _ => False) :
    Runs (extendsBuiltinTo (fuel + 1) id) g fun yes _ => Q yes := by
  obtain ⟨k, b, m, v, hk, hbases, hb⟩ := h
  refine ends_bind.2 ((ends_classAt hk).2 ?_)
  rw [hbases]
  simp only [anyBase, ends_bind, ends_element hb, ends_pure, ends_attempt, Bool.false_or]
  refine hlook.imp (fun p g1 hp => hp.imp (fun c g2 hc => Ends.imp hc (fun _ _ h => h) fun _ _ hf => hf.elim) ?_)
    fun _ _ hf => hf.elim
  rintro f _ ⟨hf, hQ⟩
  simpa [hf] using hQ

theorem BaseChain.runs {builtin n fuel id} (h : BaseChain builtin n g id) (hn : n ≤ fuel) :
    Runs (extendsBuiltinTo (fuel + 1) id) g fun yes _ => yes = builtin := by
  induction h generalizing fuel with
  | plain hk hbases =>
    refine ends_bind.2 ((ends_classAt hk).2 ?_)
    rw [hbases]
    exact rfl
  | elementary hone hpath =>
    refine extendsBuiltinTo_one hone (Ends.imp hpath (fun p g' hp => ?_) fun _ _ hf => hf.elim)
    simp only [findClass, findOriginal, hp, if_true, ends_bind, ends_throw]
    exact ⟨rfl, trivial⟩
  | @next g g' id component found builtin n hone hfound hchain ih =>
    obtain ⟨fuel, rfl⟩ : ∃ m, fuel = m + 1 := ⟨fuel - 1, by omega⟩
    have hlook : Runs (do findClass id (← path component)) g fun c g1 =>
        Runs (extendsBuiltinTo (fuel + 1) c) g1 fun yes _ => yes = builtin := runs_iff.2 ⟨_, _, hfound, ih (by omega)⟩
    exact extendsBuiltinTo_one hone ((ends_bind.1 hlook).imp (fun _ _ h => h.imp (fun _ _ h => h)
      fun _ _ hf => hf.elim) fun _ _ hf => hf)

end Build

/-- **Builtin types.** A class is merged into a builtin type if it was one, or if its one base class has an
elementary name. The class may have base classes only where no class is marked as a builtin type yet. That a
class extends a builtin type is found out along any chain of base classes. -/
theorem inherit_builtin_iff (hg : g.Housed) (orig : Id) (hk : g.get? orig = some (.classDef k))
    (hplain : k.bases ≠ [] → ¬ g.HasCategory builtinCategory) (modification : Option Id) {parent : Option Id}
    (hparent : ∀ p, parent = some p → g.IsClass p) :
    (∀ cls g', inherit orig modification parent g = .ok cls g' → ∃ c, g'.get? cls = some (.classDef c) ∧
      (c.category = builtinCategory ↔ k.category = builtinCategory ∨ ∃ b, k.bases = [b] ∧ g.ElementaryBase b)) ∧
    ∀ builtin n, BaseChain builtin n g orig → n ≤ g.size →
      Runs (extendsBuiltin orig) g fun yes _ => yes = builtin := by
  refine ⟨yields_iff.1 ?_, fun builtin n hchain hn => ends_bind.2 (ends_size.2 (hchain.runs hn))⟩
  refine Reads.size.yields_bind fun n => (inheritTo_inherits (n + 1) g orig modification parent k hg hparent hk).imp ?_
  rintro cls g' ⟨c, hc, -, hcategory⟩
  exact ⟨c, hc.found, hcategory hplain⟩

@[irreducible] def aliasText : String := "type A = Real; type B = A;"

/-- A type that stands for another one. -/
def typeAlias (name : String) (base id : Id) (source : Option Id) : ClassDef :=
  { name, category := "type", bases := [base], parent := some 9, declaration := id, source }

/-- Of the two types the first one is merged into a builtin type, the second one is not. Both extend one. -/
theorem inherit_builtin_iff_typeAliases : ∃ l g, read aliasText {} = .ok l g ∧
    (Runs (inherit 1 none (some l.root)) g fun cls g' => ∃ c, g'.get? cls = some (.classDef c) ∧
      c.category = builtinCategory) ∧
    (Runs (inherit 5 none (some l.root)) g fun cls g' => ∃ c, g'.get? cls = some (.classDef c) ∧
      c.category ≠ builtinCategory) ∧ Runs (extendsBuiltin 5) g fun yes _ => yes = true := by
  have h : Runs (read aliasText) {} fun l g => g.Housed ∧ ¬ g.HasCategory builtinCategory ∧ g.IsClass l.root ∧
      g.get? 1 = some (.classDef (typeAlias "A" 4 1 none)) ∧ g.get? 4 = some (.base 2 3 .hidden) ∧
      g.get? 2 = some (.reference { name := "Real" }) ∧ g.get? 5 = some (.classDef (typeAlias "B" 8 5 none)) ∧
      g.get? 8 = some (.base 6 7 .hidden) ∧ g.get? 6 = some (.reference { name := "A" }) ∧
      (Runs (inherit 1 none (some l.root)) g fun _ _ => True) ∧ (Runs (inherit 5 none (some l.root)) g fun _ _ => True) ∧
      Runs (do findClass 5 (← path 6)) g fun found g' =>
        g'.get? found = some (.classDef (typeAlias "A" 11 1 (some 1))) ∧ g'.get? 11 = some (.base 12 13 .hidden) ∧
        Runs (path 12) g' fun p _ => isElementary p = true := by
    decide +kernel
  obtain ⟨l, g, hread, hg, hplain, hroot, hA, hbaseA, hReal, hB, hbaseB, hrefA, hone, htwo, hfound⟩ := runs_iff.1 h
  obtain ⟨found, g', hfound, hcopy, hbase, hpath⟩ := runs_iff.1 hfound
  have hparent : ∀ p, some l.root = some p → g.IsClass p := by
    rintro _ ⟨⟩
    exact hroot
  have hiffA := inherit_builtin_iff hg 1 hA (fun _ => hplain) none hparent
  have hiffB := inherit_builtin_iff hg 5 hB (fun _ => hplain) none hparent
  have hchain : BaseChain true 1 g 5 := .next ⟨_, _, _, _, hB, rfl, hbaseB⟩ hfound (.elementary ⟨_, _, _, _, hcopy, rfl, hbase⟩ hpath)
  refine ⟨l, g, hread, runs_of_ok hone fun cls g' hx => ?_, runs_of_ok htwo fun cls g' hx => ?_,
    hiffB.2 true 1 hchain (Nat.zero_lt_of_lt (Graph.get?_lt hB))⟩
  · obtain ⟨c, hc, hiff⟩ := hiffA.1 cls g' hx
    exact ⟨c, hc, hiff.2 (.inr ⟨4, rfl, 2, 3, .hidden, _, hbaseA, hReal, by decide⟩)⟩
  · obtain ⟨c, hc, hiff⟩ := hiffB.1 cls g' hx
    refine ⟨c, hc, fun hbuiltin => ?_⟩
    rcases hiff.1 hbuiltin with h | ⟨_, ⟨⟩, _, _, _, _, hbase, href, h⟩
    · revert h
      decide
    · cases hbaseB.symm.trans hbase
      cases hrefA.symm.trans href
      revert h
      decide

end Modelica
