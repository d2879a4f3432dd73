/-
Making an instance leaves the classes it is made from alone.

An instance is a class of its own from the start (`inheritTo_sparing`): base
classes, redeclarations and nested classes are entered in it, and it is the
only class that is written. What else is written belongs to symbols and
modifications, and these may be shared with other classes.
-/
import Modelica.Proofs.Graph.Frame
import Modelica.Proofs.Instance.Complete

namespace Modelica.Build

open Modelica.Graph (Spared IsInstance)

variable {n : Nat} {g : Graph} {cls : Id}

theorem builtinClass_spares (scope : Id) (name : String) : Spares n (builtinClass scope name) := by
  refine .reads (.rootOf scope) fun root => (Framed.alloc _).bind fun type => (Framed.freshSymbol 0).bind fun value => ?_
  exact Framed.bind (.modifySymbol fun _ => rfl) fun _ => .freshClass _

theorem findBase_spares (scope : Id) (path : List String) : Spares n (findBase scope path) := by
  cases path with
  | nil => exact .findClass scope []
  | cons name rest =>
    simp only [findBase]
    split
    · exact builtinClass_spares scope name
    · exact .findClass scope (name :: rest)

/-! ### Base classes -/

theorem absorb_sparing (hcls : g.IsInstance cls) (other : Id) : Sparing n g (absorb cls other) fun _ _ => True := by
  refine .reads (.classAt other) fun k => .bind (.modifyInstance hcls fun _ => rfl) fun _ g1 _ _ => ?_
  refine .reads (.classAt cls) fun c => ?_
  split
  · exact .reads (.argumentsAt _) fun _ => Framed.appendArguments _ _ g1
  · exact .pure trivial

theorem limitVisibility_spares (cls : Id) (limit : Visibility) : Spares n (limitVisibility cls limit) := by
  refine .reads (.classAt cls) fun c => .bind (.forIn fun s _ => ?_) fun _ => .pure _
  refine .bind (.modifySymbol fun s => ?_) fun _ => .pure _
  split <;> rfl

theorem inheritFrom_sparing {recur} (hrecur : ∀ orig modification parent, Spares n (recur orig modification parent))
    (hcls : g.IsInstance cls) (orig base : Id) : Sparing n g (inheritFrom recur orig cls base) fun _ _ => True := by
  refine .reads (.baseAt base) fun b => .reads (.path _) fun p => .bind (findBase_spares orig p g) fun found g1 hs1 _ => ?_
  refine .reads (.fullName found) fun name => .reads (.fullName orig) fun name' => ?_
  split
  · exact .throw
  · refine .reads (.classAt found) fun k => ?_
    have hmerge : ∀ g', g1.Spared n g' → Sparing n g' (mergeBase recur cls found (some b.2.1) k.parent b.2.2) fun _ _ => True := by
      intro g' hs'
      refine .bind (hrecur _ _ _ g') fun merged g2 hs2 _ => ?_
      have hcls2 : g2.IsInstance cls := ((hs1.trans hs').trans hs2).instanced hcls
      refine .bind (absorb_sparing hcls2 merged) fun _ g3 _ _ => ?_
      refine .reads (.environmentOf cls) fun env => .reads (.environmentOf merged) fun env' => ?_
      refine .reads (.argumentsAt env') fun args => .bind (Framed.appendArguments env args g3) fun _ g4 _ _ => ?_
      exact limitVisibility_spares cls b.2.2 g4
    split
    · refine .reads (.classAt orig) fun c => ?_
      split
      · exact .throw
      · exact .bind (.modifyInstance (hs1.instanced hcls) fun _ => rfl) fun _ g2 hs2 _ => hmerge g2 hs2
    · exact hmerge g1 (.refl n g1)

theorem shiftToBuiltin_sparing (hcls : g.IsInstance cls) : Sparing n g (shiftToBuiltin cls) fun _ _ => True := by
  refine .reads (.classAt cls) fun c => ?_
  split
  · split
    · exact .throw
    · next s _ =>
      have hrenew : ∀ g', g.Spared n g' → Sparing n g' (renewEnvironment cls) fun _ _ => True := fun g' hs' =>
        .bind (Framed.alloc _ g') fun fresh g2 hs2 _ => .modifyInstance ((hs'.trans hs2).instanced hcls) fun _ => rfl
      refine .reads (.environmentOf cls) fun env => .reads (.symbolAt s) fun sym => ?_
      split
      · refine .reads (.argumentsAt env) fun args => .bind (Framed.appendArguments _ args g) fun _ g1 hs1 _ => ?_
        exact hrenew g1 hs1
      · exact .bind (.modifySymbol fun _ => rfl) fun _ g1 hs1 _ => hrenew g1 hs1
  · exact .pure trivial

theorem inheritTo_sparing (k : Nat) (orig : Id) (modification parent : Option Id) (g : Graph) :
    Sparing n g (inheritTo k orig modification parent) fun new g' => g'.IsInstance new := by
  induction k generalizing orig modification parent g with
  | zero => exact .throw
  | succ k ih =>
    refine .reads (.classAt orig) fun c => .bind (Framed.alloc _ g) fun remarks g1 _ _ => ?_
    refine .bind (Framed.alloc _ g1) fun fresh g2 _ _ => ?_
    refine .bind (.alloc fun _ => ⟨_, Graph.get?_add_self g2 _, rfl⟩) fun cls g3 _ (hcls : g3.IsInstance cls) => ?_
    -- The instance is known in every round, since no step makes another class of it.
    refine .bind (.forIn fun base _ _ g' hs' => ?_) fun _ g4 hs4 _ => ?_
    · exact .bind (inheritFrom_sparing (fun orig m p g => (ih orig m p g).any) (hs'.instanced hcls) orig base)
        fun _ _ _ _ => .pure trivial
    · have hcls4 := hs4.instanced hcls
      refine .bind (absorb_sparing hcls4 orig) fun _ g5 hs5 _ => ?_
      have hend : ∀ g', g5.Spared n g' → Sparing n g' (do shiftToBuiltin cls; pure cls) fun new g'' => g''.IsInstance new := by
        intro g' hs'
        have hcls' := (hs5.trans hs').instanced hcls4
        exact .bind (shiftToBuiltin_sparing hcls') fun _ g'' hs'' _ => .pure (hs''.instanced hcls')
      split
      · refine .reads (.environmentOf cls) fun env => .reads (.argumentsAt _) fun args => ?_
        exact .bind (Framed.appendArguments env args g5) fun _ g6 hs6 _ => hend g6 hs6
      · exact hend g5 (.refl n g5)

/-! ### Arguments -/

theorem giveArguments_spares (symbol : Id) (args : List Id) : Spares n (giveArguments symbol args) := by
  refine .bind (.alloc _) fun fresh => .reads (.symbolAt symbol) fun s => ?_
  split
  · exact .appendArguments _ args
  · exact .modifySymbol fun _ => rfl

/-! ### Redeclarations -/

variable {recur : Id → Option Id → Option Id → Build Id}

theorem redeclareClass_sparing (hrecur : ∀ orig modification parent, Spares n (recur orig modification parent))
    (hcls : g.IsInstance cls) (scope : Id) (name : String) (component : Id) :
    Sparing n g (redeclareClass recur cls scope name component) fun _ _ => True := by
  refine .reads (.classAt cls) fun c => ?_
  split
  · exact .throw
  · next old _ =>
    refine .reads (.path component) fun p => .bind (Framed.findClass scope p g) fun new g1 hs1 _ => ?_
    refine .bind (.modifyInstance (hs1.instanced hcls) fun _ => rfl) fun _ g2 _ _ => .reads (.classAt cls) fun c' => ?_
    refine .bind (Framed.forIn (fun s _ => ?_) g2) fun _ _ _ _ => .pure trivial
    refine .reads (.symbolAt s) fun sym => .reads (.typeForm _) fun form => ?_
    split
    · refine .reads (.classAt _) fun t => .reads (.classAt old) fun o => ?_
      split
      · refine .reads (.symbolAt s) fun sym' => .reads (.classAt new) fun k => .bind (hrecur _ _ _) fun type => ?_
        exact .bind (.modifySymbol fun _ => rfl) fun _ => .pure _
      · exact .pure _
    · exact .pure _

theorem redeclareSymbols_spares (cls : Id) (symbols : List Id) : Spares n (redeclareSymbols cls symbols) := by
  refine .bind (.forIn fun s _ => .reads (.symbolAt s) fun new => .reads (.classAt cls) fun c => ?_) fun _ => .pure _
  split
  · exact .throw
  · exact .bind (.modifySymbol fun _ => rfl) fun _ => .pure _

section

variable (hrecur : ∀ orig modification parent, Spares n (recur orig modification parent)) (hcls : g.IsInstance cls)

include hrecur hcls

theorem redeclare_sparing (arg : Id) : Sparing n g (redeclare recur cls arg) fun _ _ => True := by
  refine .reads (.argumentAt arg) fun a => ?_
  obtain ⟨v, scope, isRedeclaration⟩ := a
  dsimp only
  split
  · refine .reads (.element v) fun e => ?_
    split
    · exact redeclareClass_sparing hrecur hcls _ _ _
    · exact redeclareSymbols_spares cls _ g
    · exact .throw
  · exact .pure trivial

theorem redeclareAll_sparing : Sparing n g (redeclareAll recur cls) fun _ _ => True := by
  refine .reads (.environmentOf cls) fun env => .reads (.argumentsAt env) fun args => ?_
  refine .bind (.forIn fun arg _ _ g' hs' => ?_) fun _ g1 _ _ => ?_
  · exact .bind (redeclare_sparing hrecur (hs'.instanced hcls) arg) fun _ _ _ _ => .pure trivial
  · refine .reads (.environmentOf cls) fun env => .argumentsAt fun args hargs => ?_
    refine .reads (.filterM fun a => (Reads.argumentAt a).bind fun _ => .pure _) fun rest => ?_
    exact .store (.refl n g1) hargs rfl rfl

/-! ### Nested classes and symbols -/

theorem instantiateClass_sparing (name : Option String) (nested : Id) :
    Sparing n g (instantiateClass recur cls name nested) fun _ _ => True := by
  refine .bind (Framed.alloc _ g) fun modification g1 hs1 _ => ?_
  refine .bind (Framed.takeArguments cls name g1) fun args g2 hs2 _ => ?_
  refine .bind (Framed.forIn (fun arg _ => ?_) g2) fun _ g3 hs3 _ => ?_
  · refine .reads (.elementModification? arg) fun m => ?_
    split
    · refine .bind (.forIn fun v _ => ?_) fun _ => .pure _
      exact .reads (.nestedArguments v) fun args => .bind (.appendArguments modification args) fun _ => .pure _
    · exact .pure _
  · refine .bind (hrecur _ _ _ g3) fun new g4 hs4 _ => ?_
    exact .modifyInstance (((hs1.trans hs2).trans (hs3.trans hs4)).instanced hcls) fun _ => rfl

end

theorem symbolClass_spares (cls symbol : Id) : Spares n (symbolClass cls symbol) := by
  refine .reads (.symbolAt symbol) fun s => .reads (.typeForm _) fun form => ?_
  split
  · exact .pure _
  · exact .attempt (.reads (.path _) fun p => .findClass cls p)
  · exact .throw

theorem instantiateSymbol_spares (hrecur : ∀ orig modification parent, Spares n (recur orig modification parent))
    (orig cls : Id) (name : String) (symbol : Id) : Spares n (instantiateSymbol recur orig cls name symbol) := by
  refine .bind (symbolClass_spares cls symbol) fun type => ?_
  split
  · refine .bind (.takeArguments cls _) fun taken => .bind (.mapM .attributeArguments) fun args => ?_
    exact giveArguments_spares symbol _
  · next type =>
    refine .bind (.takeArguments cls _) fun taken => .bind (.extendsBuiltin type) fun builtin => ?_
    refine .bind (.mapM fun arg => ?_) fun args => .bind (giveArguments_spares symbol _) fun _ => ?_
    · split
      · exact .attributeArguments arg
      · exact .bind (.descend arg) fun _ => .pure _
    · have hend : Spares n (instantiateType recur orig name symbol type) := by
        refine .bind (.tryCatch ?_ fun f => .reads (.fullName orig) fun _ => .throw) fun type => ?_
        · exact .reads (.symbolAt symbol) fun s => .reads (.classAt type) fun t => hrecur _ _ _
        · exact .modifySymbol fun _ => rfl
      refine .reads (.symbolAt symbol) fun s => ?_
      split
      · exact .reads (.argumentsAt _) fun args => .bind (.forM (.setScope cls)) fun _ => hend
      · exact hend

theorem instantiateTo_spares (k : Nat) (orig : Id) (modification parent : Option Id) :
    Spares n (instantiateTo k orig modification parent) := by
  induction k generalizing orig modification parent with
  | zero => exact .throw
  | succ k ih =>
    intro g
    refine .bind (.reads .size fun m => inheritTo_sparing (m + 1) orig modification parent g) fun cls g1 _ hcls => ?_
    refine .bind (redeclareAll_sparing ih hcls) fun _ g2 hs2 _ => .reads (.classAt cls) fun c => ?_
    refine .bind (.forIn fun entry _ _ g' hs' => ?_) fun _ g3 _ _ => ?_
    · exact .bind (instantiateClass_sparing ih ((hs2.trans hs').instanced hcls) _ _) fun _ _ _ _ => .pure trivial
    · refine .reads (checkTargets_reads cls) fun _ => .reads (.classAt cls) fun c => ?_
      refine .bind (Framed.forIn (fun entry _ => ?_) g3) fun _ _ _ _ => .pure trivial
      exact .bind (instantiateSymbol_spares ih orig cls _ _) fun _ => .pure _

theorem instantiate_spares (orig : Id) (modification parent : Option Id) :
    Spares n (instantiate orig modification parent) :=
  fun g => .reads .size fun k => instantiateTo_spares (k + 1) orig modification parent g

end Modelica.Build
