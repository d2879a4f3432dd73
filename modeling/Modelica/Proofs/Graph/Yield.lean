/-
What holds if a step succeeds.

`Yields x g Q` says that `Q` holds of the result and the graph if the step `x`
succeeds on `g`, and nothing if it fails. `Reads x` says that a step changes
nothing, whether it succeeds or fails; looking things up by name is such a step.
-/
import Modelica.Instance
import Modelica.Proofs.Graph.Steps

namespace Modelica.Build

variable {α β γ : Type} {g : Graph} {id : Id} {F : Fault → Graph → Prop}

variable {x : Build α} {Q Q' : α → Graph → Prop} {l : List β} {f : β → PUnit → Build (ForInStep PUnit)}

/-- If the step succeeds, then with a result and a graph of which `Q` holds. -/
abbrev Yields (x : Build α) (g : Graph) (Q : α → Graph → Prop) : Prop := Ends x g Q fun _ _ => True

theorem Ends.yields (h : Ends x g Q F) : Yields x g Q := Ends.imp h (fun _ _ h => h) fun _ _ _ => trivial

theorem eq_of_ends {y : Build α} (h : ∀ Q F, Ends y g Q F → Ends x g Q F) : x g = y g := by
  have h := h (fun a g' => y g = .ok a g') (fun f g' => y g = .error f g') (by cases hy : y g <;> simp [Ends, hy])
  cases hx : x g <;> simpa [Ends, hx, eq_comm] using h

theorem Yields.imp (h : Yields x g Q) (hQ : ∀ a g', Q a g' → Q' a g') : Yields x g Q' :=
  Ends.imp h hQ fun _ _ => id

theorem Yields.bind {f : α → Build γ} {S} (h : Yields x g Q) (hf : ∀ a g', Q a g' → Yields (f a) g' S) :
    Yields (x >>= f) g S := ends_bind.2 (h.imp hf)

theorem yields_iff : Yields x g Q ↔ ∀ a g', x g = .ok a g' → Q a g' := by
  simp only [Ends]
  cases x g with
  | ok a g1 => exact ⟨by rintro h _ _ ⟨⟩; exact h, fun h => h a g1 rfl⟩
  | error f g1 => exact ⟨by rintro _ _ _ ⟨⟩, fun _ => trivial⟩

theorem Yields.and (h : Yields x g Q) (h' : Yields x g Q') : Yields x g fun a g' => Q a g' ∧ Q' a g' := by
  rw [yields_iff] at h h' ⊢
  exact fun a g' hx => ⟨h a g' hx, h' a g' hx⟩

theorem Yields.of_false (h : Yields x g fun _ _ => False) : Yields x g Q := h.imp fun _ _ => False.elim

/-- What a step ends in can be found out by taking it. -/
instance {x : Build α} {Q : α → Graph → Prop} [∀ a g', Decidable (Q a g')] [∀ f g', Decidable (F f g')] :
    Decidable (Ends x g Q F) :=
  match h : x g with
  | .ok a g' => decidable_of_iff (Q a g') (by simp only [Ends, h])
  | .error f g' => decidable_of_iff (F f g') (by simp only [Ends, h])

theorem runs_of_ok (hruns : Runs x g fun _ _ => True) (h : ∀ a g', x g = .ok a g' → Q a g') : Runs x g Q := by
  obtain ⟨a, g', hx, _⟩ := runs_iff.1 hruns
  exact runs_iff.2 ⟨a, g', hx, h a g' hx⟩

theorem ends_element_of {Q} (hQ : ∀ e, g.get? id = some e → Q e g) (hF : F .noPart g) : Ends (element id) g Q F := by
  simp only [Ends, element]
  cases h : g.get? id with
  | some e => exact hQ e h
  | none => exact hF

theorem ends_classAt_of {Q} (hQ : ∀ c, g.ClassAt id c → Q c g) (hF : F .noPart g) : Ends (classAt id) g Q F := by
  refine ends_bind.2 (ends_element_of (fun e he => ?_) hF)
  cases e with
  | classDef c => exact hQ c he
  | _ => exact hF

theorem yields_classAt {f : ClassDef → Build α} (hf : ∀ c, g.ClassAt id c → Yields (f c) g Q) :
    Yields (classAt id >>= f) g Q := ends_bind.2 (ends_classAt_of hf trivial)

theorem ends_symbolAt_of {Q} (hQ : ∀ s, g.SymbolAt id s → Q s g) (hF : F .noPart g) : Ends (symbolAt id) g Q F := by
  refine ends_bind.2 (ends_element_of (fun e he => ?_) hF)
  cases e with
  | symbol s => exact hQ s he
  | _ => exact hF

theorem ends_argumentsAt_of {Q} (hQ : ∀ args, g.get? id = some (.modification args) → Q args g)
    (hF : F .noPart g) : Ends (argumentsAt id) g Q F := by
  refine ends_bind.2 (ends_element_of (fun e he => ?_) hF)
  cases e with
  | modification args => exact hQ args he
  | _ => exact hF

theorem ends_modifyClass_of {f Q} (hQ : ∀ c, g.ClassAt id c → Q () (g.set id (.classDef (f c))))
    (hF : F .noPart g) : Ends (modifyClass id f) g Q F :=
  ends_bind.2 (ends_classAt_of hQ hF)

theorem ends_modifySymbol_of {f Q} (hQ : ∀ s, g.SymbolAt id s → Q () (g.set id (.symbol (f s))))
    (hF : F .noPart g) : Ends (modifySymbol id f) g Q F :=
  ends_bind.2 (ends_symbolAt_of hQ hF)

theorem ends_tryCatch {h} : Ends (tryCatch x h) g Q F ↔ Ends x g Q fun f g' => Ends (h f) g' Q F := by
  have hcatch : tryCatch x h g = EStateM.tryCatch x h g := rfl
  rw [Ends, Ends, hcatch]
  delta EStateM.tryCatch
  cases x g with
  | ok a g1 => rfl
  | error f g1 => rfl

/-! ### Loops -/

theorem yields_forIn_parts (J : List β → List β → Graph → Prop)
    (hf : ∀ before b after, l = before ++ b :: after → ∀ g, J before (b :: after) g →
      Yields (f b PUnit.unit) g fun r g' => r = .yield PUnit.unit ∧ J (before ++ [b]) after g') (h : J [] l g) :
    Yields (forIn l PUnit.unit f) g fun _ g' => J l [] g' :=
  ends_forIn_parts (fun before after _ => J before after) (fun before b after hl _ g hJ =>
    (hf before b after hl g hJ).imp fun _ _ hr => ⟨_, hr⟩) h

theorem yields_forIn (I : Graph → Prop)
    (hf : ∀ b ∈ l, ∀ g, I g → Yields (f b PUnit.unit) g fun r g' => r = .yield PUnit.unit ∧ I g') (h : I g) :
    Yields (forIn l PUnit.unit f) g fun _ g' => I g' :=
  yields_forIn_parts (fun _ _ => I) (fun _ b _ hl g hI => hf b (by simp [hl]) g hI) h

/-! ### Steps that change nothing -/

/-- The step leaves the graph as it is, and does not fail because of an elementary
type. -/
def Reads (x : Build α) : Prop :=
  ∀ g, Ends x g (fun _ g' => g' = g) fun f g' => g' = g ∧ f.root ≠ .elementaryClass

namespace Reads

variable {x : Build α} {Q : α → Graph → Prop} {l : List β}

theorem ends (h : Reads x) (hQ : ∀ a, Q a g) (hF : ∀ f, f.root ≠ .elementaryClass → F f g) : Ends x g Q F := by
  refine Ends.imp (h g) (fun a g' hg => ?_) fun f g' hf => ?_
  · rw [hg]
    exact hQ a
  · rw [hf.1]
    exact hF f hf.2

theorem yields (h : Reads x) (hQ : ∀ a, Q a g) : Yields x g Q := h.ends hQ fun _ _ => trivial

theorem yields_bind {f : α → Build β} {S} (h : Reads x) (hf : ∀ a, Yields (f a) g S) : Yields (x >>= f) g S :=
  ends_bind.2 (h.yields hf)

theorem pure (a : α) : Reads (Pure.pure a : Build α) := fun _ => rfl

theorem throw {f} (hf : f.root ≠ .elementaryClass) : Reads (throw f : Build α) := fun _ => ⟨rfl, hf⟩

theorem bind {f : α → Build β} (hx : Reads x) (hf : ∀ a, Reads (f a)) : Reads (x >>= f) := fun g =>
  ends_bind.2 (hx.ends (fun a => hf a g) fun _ hr => ⟨rfl, hr⟩)

theorem mapM {f : β → Build α} (hf : ∀ b, Reads (f b)) : Reads (l.mapM f) := by
  induction l with
  | nil => exact pure []
  | cons b l ih =>
    rw [List.mapM_cons]
    exact (hf b).bind fun _ => ih.bind fun _ => pure _

theorem filterM {f : β → Build Bool} (hf : ∀ b, Reads (f b)) : Reads (l.filterM f) := by
  suffices hs : ∀ kept : List β, Reads (List.filterAuxM f l kept) from (hs []).bind fun _ => pure _
  induction l with
  | nil => exact fun kept => pure kept
  | cons b l ih => exact fun kept => (hf b).bind fun _ => ih _

theorem forIn {f} {u : PUnit} (hf : ∀ b u, Reads (f b u)) : Reads (ForIn.forIn l u f) := by
  induction l generalizing u with
  | nil => exact pure _
  | cons b l ih =>
    rw [List.forIn_cons]
    refine (hf b u).bind fun r => ?_
    cases r with
    | done u => exact pure _
    | yield u => exact ih

theorem size : Reads Build.size := fun _ => rfl

theorem element (id : Id) : Reads (element id) := fun _ => ends_element_of (fun _ _ => rfl) ⟨rfl, by decide⟩

theorem classAt (id : Id) : Reads (classAt id) :=
  (element id).bind fun e => by
    cases e with
    | classDef c => exact pure c
    | _ => exact throw (by decide)

theorem symbolAt (id : Id) : Reads (symbolAt id) :=
  (element id).bind fun e => by
    cases e with
    | symbol s => exact pure s
    | _ => exact throw (by decide)

theorem referenceAt (id : Id) : Reads (referenceAt id) :=
  (element id).bind fun e => by
    cases e with
    | reference r => exact pure r
    | _ => exact throw (by decide)

theorem argumentsAt (id : Id) : Reads (argumentsAt id) :=
  (element id).bind fun e => by
    cases e with
    | modification args => exact pure args
    | _ => exact throw (by decide)

/-! #### Looking up -/

theorem pathTo (n : Nat) (id : Id) : Reads (pathTo n id) := by
  induction n generalizing id with
  | zero => exact throw (by decide)
  | succ n ih =>
    refine (referenceAt id).bind fun r => ?_
    split
    · exact pure _
    · next c _ _ => exact (ih c).bind fun _ => pure _

theorem path (id : Id) : Reads (path id) := size.bind fun n => pathTo (n + 1) id

theorem ancestors (n : Nat) (id : Id) : Reads (ancestors n id) := by
  induction n generalizing id with
  | zero => exact throw (by decide)
  | succ n ih =>
    refine (classAt id).bind fun c => ?_
    split
    · exact pure _
    · next p _ => exact (ih p).bind fun _ => pure _

theorem enclosing (id : Id) : Reads (enclosing id) := size.bind fun n => ancestors (n + 1) id

theorem rootOf (id : Id) : Reads (rootOf id) := (enclosing id).bind fun _ => pure _

theorem fullPath (id : Id) : Reads (fullPath id) := by
  refine (enclosing id).bind fun l => (mapM fun c => (classAt c).bind fun _ => pure _).bind fun names => ?_
  split
  · exact throw (by decide)
  · exact pure _

theorem fullName (id : Id) : Reads (fullName id) := by
  refine (fullPath id).bind fun names => ?_
  split
  · exact pure _
  · exact throw (by decide)

theorem follow (id : Id) (path : List String) : Reads (follow id path) := by
  induction path generalizing id with
  | nil => exact pure _
  | cons name rest ih =>
    cases rest with
    | nil => exact (classAt id).bind fun _ => pure _
    | cons next rest =>
      refine (classAt id).bind fun c => ?_
      split
      · next c _ => exact ih c
      · exact pure _

theorem searchIn (path : List String) (scopes : List Id) : Reads (searchIn path scopes) := by
  induction scopes with
  | nil => exact throw (by simp [Fault.root])
  | cons scope outer ih =>
    refine (follow scope path).bind fun c => ?_
    split
    · exact pure _
    · exact ih

theorem search (scope : Id) (path : List String) : Reads (search scope path) :=
  (enclosing scope).bind fun l => searchIn path l

theorem typeForm (v : Value) : Reads (typeForm v) := by
  simp only [Build.typeForm]
  split
  · refine (element _).bind fun e => ?_
    split <;> exact pure _
  · exact pure _

/-! #### Parts of arguments -/

theorem baseAt (id : Id) : Reads (baseAt id) :=
  (element id).bind fun e => by
    cases e with
    | base c m v => exact pure (c, m, v)
    | _ => exact throw (by decide)

theorem environmentOf (cls : Id) : Reads (environmentOf cls) := by
  refine (classAt cls).bind fun c => ?_
  split
  · exact pure _
  · exact throw (by decide)

theorem argumentAt (id : Id) : Reads (argumentAt id) :=
  (element id).bind fun e => by
    cases e with
    | argument v scope redeclare _ => exact pure (v, scope, redeclare)
    | _ => exact throw (by decide)

theorem elementModification? (arg : Id) : Reads (elementModification? arg) := by
  refine (argumentAt arg).bind fun x => (element x.1).bind fun e => ?_
  split <;> exact pure _

theorem modifies (name : Option String) (arg : Id) : Reads (modifies name arg) := by
  refine (elementModification? arg).bind fun m => ?_
  split
  · exact (referenceAt _).bind fun _ => pure _
  · exact pure _

theorem nestedArguments (v : Value) : Reads (nestedArguments v) := by
  simp only [Build.nestedArguments]
  split
  · exact argumentsAt _
  · exact throw (by decide)

theorem isModification (v : Value) : Reads (isModification v) := by
  simp only [Build.isModification]
  split
  · exact (element _).bind fun _ => pure _
  · exact pure _

theorem plainModification (arg : Id) : Reads (plainModification arg) := by
  refine (elementModification? arg).bind fun m => ?_
  split
  · exact throw (by decide)
  · refine (referenceAt _).bind fun r => ?_
    split
    · exact throw (by decide)
    · exact pure _

theorem modifiedComponent (arg : Id) : Reads (modifiedComponent arg) := by
  refine (argumentAt arg).bind fun x => (element x.1).bind fun e => ?_
  split
  · exact pure _
  · exact pure _
  · exact throw (by decide)

end Reads
end Modelica.Build
