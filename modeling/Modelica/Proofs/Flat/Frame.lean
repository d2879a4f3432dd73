/-
Making a flat model leaves the classes it is made from alone.

Two kinds of classes are written. Constants are entered in instances
(`pullConstants_spares`). All else is entered in flat classes, which are made on
the way, as are the functions that are entered in them (`Outside`). References
and calls are written in copies.
-/
import Modelica.Flat.Model
import Modelica.Proofs.Flat.Constants
import Modelica.Proofs.Instance.Frame

namespace Modelica

open StateT

namespace Build

open Modelica.Graph (Spared IsInstance Outside)

variable {α : Type} {n : Nat} {g : Graph} {flat : Id}

/-! ### Steps that only read -/

namespace Reads

theorem appliesIn (scope arg : Id) : Reads (appliesIn scope arg) := by
  refine (argumentAt arg).bind fun a => ?_
  split
  · exact pure _
  · exact (fullPath _).bind fun _ => (fullPath scope).bind fun _ => pure _

end Reads

/-! ### Constants -/

theorem pullConstants_spares (cls : Id) : Spares n (pullConstants cls) :=
  .discard fun g _ => (ConstantSearch.run_ends cls g).imp (fun _ _ h => ⟨h.1.spared n, trivial⟩) fun _ _ h => h.1.spared n

/-! ### Modifications of symbols -/

theorem applyArgument_spares (symbol arg : Id) : Spares n (applyArgument symbol arg) := by
  refine .reads (.elementModification? arg) fun m => ?_
  split
  · exact .throw
  · refine .reads (.referenceAt _) fun r => ?_
    dsimp only
    split
    · exact .throw
    · next a _ =>
      split
      · exact .throw
      · exact .modifySymbol fun s => s.lasting_setAttribute a _

theorem modifySymbolIn_spares (scope symbol modification : Id) : Spares n (modifySymbolIn scope symbol modification) :=
  fun g => by
    refine .argumentsAt fun args hargs => .reads (.filterM (.appliesIn scope)) fun applied => ?_
    refine .reads (.filterM fun a => (Reads.appliesIn scope a).bind fun _ => .pure _) fun kept => ?_
    refine .bind (Framed.forM (applyArgument_spares symbol) g) fun _ g1 hs1 _ => ?_
    exact .store hs1 hargs rfl rfl

theorem applyToSymbol_spares (scope symbol : Id) : Spares n (applyToSymbol scope symbol) := by
  refine .reads (.symbolAt symbol) fun s => .reads (.typeForm _) fun form => ?_
  split
  · split
    · exact .pure _
    · next m _ =>
      refine .reads (.argumentsAt m) fun args => .ifThen (modifySymbolIn_spares scope symbol m) fun _ => ?_
      refine .reads (.argumentsAt m) fun args => ?_
      split
      · exact .modifySymbol fun _ => rfl
      · exact .pure _
  · split
    · exact .throw
    · exact .pure _

theorem applyModifications_spares (cls scope : Id) : Spares n (applyModifications cls scope) := by
  refine Visitor.run_spares (fun _ _ => .pure _) (fun id s => ?_) cls ()
  simp only [modificationVisitor, run_lift_bind]
  refine .reads (.element id) fun e => ?_
  cases e with
  | symbol sym => exact .bind (applyToSymbol_spares scope id) fun _ => .pure _
  | classDef c =>
    dsimp only
    split
    · simp only [run_lift_bind]
      refine .reads (.argumentsAt _) fun args => ?_
      split
      · exact .throw
      · exact .pure _
    · exact .pure _
  | _ => exact .pure _

end Build

/-! ### References and calls -/

namespace ReferenceSearch

open Build

variable {n : Nat}

theorem laterIndices_reads (k : Nat) (child : List Id) : Reads (laterIndices k child) := by
  induction k generalizing child with
  | zero => exact .throw (by decide)
  | succ k ih =>
    cases child with
    | nil => exact .pure _
    | cons c _ => exact (Reads.referenceAt c).bind fun r => (ih r.child).bind fun _ => .pure _

theorem enterReference_spares (container : Id) (stem : String) (id : Id) (s : ReferenceSearch) :
    Spares n ((enterReference container stem id).run s) := by
  simp only [enterReference, run_bind, run_get, run_modify, pure_bind]
  split
  · simp only [run_lift_bind]
    refine .reads (.path id) fun p => .reads (.classAt container) fun c => ?_
    split
    · simp only [run_bind, run_lift, bind_assoc, pure_bind]
      refine fun g => .referenceAt fun r hr => .reads .size fun k => .reads (laterIndices_reads (k + 1) r.child) fun _ => ?_
      exact .bind (.store (.refl n g) hr rfl rfl) fun _ _ _ _ => .pure trivial
    · exact .pure _
  · exact .pure _

theorem visitor_spares (container : Id) (stem : String) (id : Id) (s : ReferenceSearch) :
    Spares n (((visitor container stem).enter id).run s) ∧ Spares n (((visitor container stem).exit id).run s) := by
  simp only [visitor, run_lift_bind]
  refine ⟨.reads (.element id) fun e => ?_, .reads (.element id) fun e => ?_⟩
  · split
    · exact enterReference_spares container stem id s
    · exact .pure _
    · exact .pure _
  · split <;> exact .pure _

end ReferenceSearch

namespace Build

open Modelica.Graph (Spared Outside)

variable {n : Nat} {g : Graph} {flat : Id}

theorem flattenReferences_sparing (container : Id) (stem : String) (id : Id) (g : Graph) :
    Sparing n g (flattenReferences container stem id) fun new g' => new < g'.size := by
  refine .bind (copy_spares id g) fun new g1 _ _ => .bind (P := fun _ g' => new < g'.size) ?_ fun _ _ _ h => .pure h
  have hvisit := Visitor.run_visits (fun id s => (ReferenceSearch.visitor_spares (n := n) container stem id s).1)
    (fun id s => (ReferenceSearch.visitor_spares container stem id s).2) new {} g1
  exact fun hn => ends_discard.2 (hvisit hn)

theorem flattenReferences_spares (container : Id) (stem : String) (id : Id) :
    Spares n (flattenReferences container stem id) := fun g => (flattenReferences_sparing container stem id g).any

theorem scopeCall_spares (scope id : Id) (t : Table String Id) : Spares n ((scopeCall scope id).run t) := fun g => by
  simp only [scopeCall, run_lift_bind]
  refine .element fun e he => ?_
  split
  · next op operands =>
    simp only [run_lift_bind]
    refine .reads (.element op) fun o => ?_
    split
    · simp only [run_lift_bind]
      refine .reads (.path op) fun p => ?_
      refine .bind (Framed.attempt (.bind (.findClass scope p) fun f => .reads (.fullName f) fun _ => .pure _) g) ?_
      intro found g1 hs1 _
      split
      · simp only [run_lift_bind]
        exact .bind (.store hs1 he rfl rfl) fun _ _ _ _ => .pure trivial
      · exact .pure trivial
    · exact .pure trivial
  · exact .pure trivial

theorem scopeCalls_spares (scope id : Id) (functions : Table String Id) : Spares n (scopeCalls scope id functions) := by
  refine .bind (copy_spares id) fun new => .bind ?_ fun _ => .pure _
  exact Visitor.run_spares (fun _ _ => .pure _) (scopeCall_spares scope) new functions

theorem scopeAll_spares (scope : Id) (elements : List Id) (functions : Table String Id) :
    Spares n (scopeAll scope elements functions) := by
  induction elements generalizing functions with
  | nil => exact .pure _
  | cons e rest ih => exact .bind (scopeCalls_spares scope e functions) fun r => .bind (ih r.2) fun _ => .pure _

/-! ### Symbols -/

theorem stripCausality_spares (symbol : Id) : Spares n (stripCausality symbol) := fun g =>
  .reads (.symbolAt symbol) fun _ => .wordsAt fun _ hwords => .store (.refl n g) hwords rfl rfl

theorem adoptBuiltin_spares (symbol type : Id) : Spares n (adoptBuiltin symbol type) := by
  refine .reads (.classAt type) fun t => ?_
  split
  · exact .throw
  · next v _ =>
    refine .reads (.symbolAt v) fun value => .reads (.symbolAt symbol) fun s => ?_
    have hadopt : Spares n (modifySymbol symbol fun s =>
        { Attribute.all.foldl (fun s a => s.setAttribute a (value.attribute a)) s with type := value.type }) :=
      .modifySymbol fun s => (rfl : _ = Symbol.lasting _).trans (Symbol.lasting_foldl Attribute.all value.attribute s)
    split
    · exact .reads (.argumentsAt _) fun args => .bind (.appendArguments _ args) fun _ => hadopt
    · exact .throw
    · exact .bind (.modifySymbol fun _ => rfl) fun _ => hadopt

theorem markInner_spares (flat written : Id) : Spares n (markInner flat written) := fun g => by
  refine .element fun e he => .reads (.element written) fun w => ?_
  split
  · refine .reads (.referenceAt _) fun l => .reads (.referenceAt _) fun r => ?_
    exact .store (.refl n g) he rfl rfl
  · exact .pure trivial

theorem flattenSymbol_spares {flatten flattenClass}
    (hflatten : ∀ cls name g, Sparing n g (flatten cls name) fun sub g' => g'.Outside n sub)
    (hclass : ∀ orig, Spares n (flattenClass orig)) (hflat : n ≤ flat) (stem name : String) (symbol : Id) :
    Spares n (flattenSymbol flatten flattenClass flat stem name symbol) := by
  have henter : Spares n (modifyClass flat fun c => { c with symbols := c.symbols.insert (stem ++ name) symbol }) :=
    fun _ => .modifyLater hflat (fun _ => rfl) fun _ h => h
  refine .bind (.modifySymbol fun _ => rfl) fun _ => .ifThen (stripCausality_spares symbol) fun _ => ?_
  refine .reads (.symbolAt symbol) fun s => .reads (.typeForm _) fun form => ?_
  split
  · exact henter
  · next type =>
    refine .reads (.classAt type) fun t => ?_
    split
    · exact .bind henter fun _ => adoptBuiltin_spares symbol type
    · intro g
      refine .bind (hflatten type _ g) fun sub g1 _ hsub => .reads (.symbolAt symbol) fun s => .reads (.classAt sub) fun _ => ?_
      refine .bind (.forIn fun s _ _ g' _ => .bind (.modifySymbol fun _ => rfl) fun _ _ _ _ => .pure trivial) fun _ g2 hs2 _ => ?_
      refine .classAt fun k hk => ?_
      have hfunctions : ∀ f ∈ k.functions.values, n ≤ f := (hs2.outside sub hsub).functions hk
      refine .bind (.modifyLater hflat (fun _ => rfl) fun c hc => Table.forall_values_insertAll hc hfunctions) fun _ g3 _ _ => ?_
      split
      · refine .bind (hclass type g3) fun connector g4 _ _ => .bind (henter g4) fun _ _ _ _ => ?_
        exact .modifySymbol fun _ => rfl
      · exact .pure trivial
  · exact .throw

theorem pullFunctions_spares {flattenClass}
    (hclass : ∀ orig g, Sparing n g (flattenClass orig) fun new g' => g'.Outside n new) (hflat : n ≤ flat)
    (functions : Table String Id) : Spares n (pullFunctions flattenClass flat functions) := by
  intro g
  refine .bind (Framing.mapM (S := fun e : String × Id => n ≤ e.2) fun e _ g' _ => ?_) fun pulled g1 _ hpulled => ?_
  · refine .bind (hclass e.2 g') fun new g2 _ hnew => .classAt fun k hk => ?_
    refine .bind (.modifyLater hflat (fun _ => rfl) fun c hc => Table.forall_values_insertAll hc (hnew.functions hk)) ?_
    intro _ g3 _ _
    refine .bind (.modifyLater hnew.1 (fun _ => rfl) fun c _ f hf => nomatch hf) fun _ _ _ _ => .pure hnew.1
  · refine .modifyLater hflat (fun _ => rfl) fun c hc => Table.forall_values_insertAll hc ?_
    exact List.forall_mem_map.2 hpulled

theorem flattenLevel_sparing {flatten flattenClass}
    (hflatten : ∀ cls name g, Sparing n g (flatten cls name) fun sub g' => g'.Outside n sub)
    (hclass : ∀ orig g, Sparing n g (flattenClass orig) fun new g' => g'.Outside n new) (cls : Id)
    (instanceName : String) (g : Graph) :
    Sparing n g (flattenLevel flatten flattenClass cls instanceName) fun flat g' => g'.Outside n flat := by
  refine .reads (.classAt cls) fun c => ?_
  refine .bind (P := fun flat g' => g'.Outside n flat) (.alloc fun hn =>
    ⟨hn, _, Graph.get?_add_self g _, nofun, fun _ h => nomatch h⟩) fun flat g1 _ hflat => ?_
  -- What is made first is what is returned, and it stays outside whatever follows.
  refine Framing.outside (P := fun new _ => new = flat) hflat ?_ (fun _ _ h => h) fun _ h => h
  have hlater : n ≤ flat := hflat.1
  have hmodify : ∀ {f : ClassDef → ClassDef} {g}, (∀ c, (f c).role = c.role) → (∀ c, (f c).functions = c.functions) →
      Sparing n g (modifyClass flat f) fun _ _ => True := fun hrole hfunctions =>
    .modifyLater hlater hrole fun c hc => (hfunctions c).symm ▸ hc
  have hrewrite : ∀ ids stem, Spares n (List.mapM (flattenReferences flat stem) ids) := fun ids stem =>
    .mapM (flattenReferences_spares flat stem)
  refine .bind (Framed.forIn (fun entry _ => ?_) g1) fun _ g2 _ _ => ?_
  · exact .bind (flattenSymbol_spares hflatten (fun orig g => (hclass orig g).any) hlater _ _ _) fun _ => .pure _
  refine .bind (applyModifications_spares flat cls g2) fun _ g3 _ _ => .reads (.classAt flat) fun k => ?_
  refine .bind (Framed.forIn (fun entry _ => ?_) g3) fun _ g4 _ _ => .reads (.classAt cls) fun c => ?_
  · refine .bind (.bind (flattenReferences_spares flat _ _) fun new => ?_) fun _ => .pure _
    exact fun _ => hmodify (fun _ => rfl) fun _ => rfl
  refine .bind (Framed.forIn (fun equation functions => ?_) g4) fun functions g5 _ _ => ?_
  · refine .bind ?_ fun _ => .pure _
    refine .bind (scopeCalls_spares cls equation functions) fun r => .bind (flattenReferences_spares flat _ _) fun new => ?_
    refine .bind (fun _ => hmodify (fun _ => rfl) fun _ => rfl) fun _ => ?_
    exact .bind (markInner_spares new equation) fun _ => .pure _
  refine .bind (scopeAll_spares cls c.initialEquations functions g5) fun r g6 _ _ => ?_
  refine .bind (scopeAll_spares cls c.statements r.2 g6) fun r' g7 _ _ => ?_
  refine .bind (scopeAll_spares cls c.initialStatements r'.2 g7) fun r'' g8 _ _ => ?_
  refine .bind (hrewrite _ _ g8) fun _ g9 _ _ => .bind (hmodify (fun _ => rfl) fun _ => rfl) fun _ g10 _ _ => ?_
  refine .bind (hrewrite _ _ g10) fun _ g11 _ _ => .bind (hmodify (fun _ => rfl) fun _ => rfl) fun _ g12 _ _ => ?_
  refine .bind (hrewrite _ _ g12) fun _ g13 _ _ => .bind (hmodify (fun _ => rfl) fun _ => rfl) fun _ g14 _ _ => ?_
  exact .bind (pullFunctions_spares hclass hlater r''.2 g14) fun _ _ _ _ => .pure rfl

theorem flattenTo_sparing (k : Nat) :
    (∀ cls name g, Sparing n g (flattenSymbolsTo k cls name) fun flat g' => g'.Outside n flat) ∧
      ∀ orig g, Sparing n g (flattenClassTo k orig) fun flat g' => g'.Outside n flat := by
  induction k with
  | zero => exact ⟨fun _ _ _ => .throw, fun _ _ => .throw⟩
  | succ k ih =>
    refine ⟨fun cls name g => flattenLevel_sparing ih.1 ih.2 cls name g, fun orig g => .reads (.classAt orig) fun c => ?_⟩
    refine .bind (instantiate_spares orig none c.parent g) fun cls g1 _ _ => ?_
    exact .bind (pullConstants_spares cls g1) fun _ g2 _ _ => ih.1 cls "" g2

theorem flattenClass_spares (orig : Id) : Spares n (flattenClass orig) := fun g =>
  .reads .size fun k => ((flattenTo_sparing (k + 1)).2 orig g).any

end Build
end Modelica
