/-
Frames: what a kind of step keeps.

A frame is a relation `R` between the graphs before and after a step, for steps that
start where `I` holds. `Framing I R g x P` says that the step `x` on the graph `g` stays in
the frame, whether it succeeds or fails, and that `P` holds of what it returns;
`Framed I R x` says so of every graph. The lemmas about loops ask for a round on every
later graph, so that what is known before the loop is known in each round.

A frame is `Open` if it lets new parts be added, modifications be rewritten and classes
be copied. Looking a class up and handing arguments down stay in such a frame.
-/
import Modelica.Proofs.Graph.Tree
import Modelica.Proofs.Graph.Yield

namespace Modelica.Build

open List

variable {α β γ σ : Type}

/-- The relation `R` is kept up by one step after the other. -/
class Frame (I : Graph → Prop) (R : Graph → Graph → Prop) : Prop where
  refl : ∀ g, R g g
  trans : ∀ {g g1 g'}, R g g1 → R g1 g' → R g g'
  next : ∀ {g g'}, I g → R g g' → I g'

/-- Whatever the step ends in, it moves the graph along `R`. -/
def Framing (I : Graph → Prop) (R : Graph → Graph → Prop) (g : Graph) (x : Build α) (P : α → Graph → Prop) : Prop :=
  I g → Ends x g (fun a g' => R g g' ∧ P a g') fun _ g' => R g g'

/-- The step stays in the frame on every graph. -/
abbrev Framed (I : Graph → Prop) (R : Graph → Graph → Prop) (x : Build α) : Prop := ∀ g, Framing I R g x fun _ _ => True

variable {I : Graph → Prop} {R : Graph → Graph → Prop} {g : Graph} {id : Id} {l : List β}

section

variable [Frame I R]

namespace Framing

variable {P P' : α → Graph → Prop} {Q : β → Graph → Prop} {x : Build α} {f : α → Build β}

omit [Frame I R] in
theorem imp (h : Framing I R g x P) (hP : ∀ a g', P a g' → P' a g') : Framing I R g x P' := fun hg =>
  (h hg).imp (fun a g' ha => ⟨ha.1, hP a g' ha.2⟩) fun _ _ hf => hf

omit [Frame I R] in
theorem any (h : Framing I R g x P) : Framing I R g x fun _ _ => True := h.imp fun _ _ _ => trivial

theorem pure {a} (h : P a g) : Framing I R g (Pure.pure a) P := fun _ => ⟨Frame.refl I g, h⟩

theorem throw {f} : Framing I R g (throw f : Build α) P := fun _ => Frame.refl I g

theorem bind (hx : Framing I R g x P) (hf : ∀ a g', R g g' → P a g' → Framing I R g' (f a) Q) :
    Framing I R g (x >>= f) Q := fun hg => by
  refine ends_bind.2 ((hx hg).imp (fun a g' ha => ?_) fun _ _ hs => hs)
  refine (hf a g' ha.1 ha.2 (Frame.next hg ha.1)).imp (fun b g'' hb => ?_) fun _ _ hs => Frame.trans I ha.1 hs
  exact ⟨Frame.trans I ha.1 hb.1, hb.2⟩

theorem reads (hx : Reads x) (hf : ∀ a, Framing I R g (f a) Q) : Framing I R g (x >>= f) Q := fun hg =>
  ends_bind.2 (hx.ends (fun a => hf a hg) fun _ _ => Frame.refl I g)

theorem element {f} (hf : ∀ e, g.get? id = some e → Framing I R g (f e) Q) :
    Framing I R g (element id >>= f) Q := fun hg =>
  ends_bind.2 (ends_element_of (fun e he => hf e he hg) (Frame.refl I g))

theorem classAt {f} (hf : ∀ c, g.ClassAt id c → Framing I R g (f c) Q) :
    Framing I R g (classAt id >>= f) Q := fun hg =>
  ends_bind.2 (ends_classAt_of (fun c hc => hf c hc hg) (Frame.refl I g))

theorem argumentsAt {f} (hf : ∀ args, g.get? id = some (.modification args) → Framing I R g (f args) Q) :
    Framing I R g (argumentsAt id >>= f) Q := fun hg =>
  ends_bind.2 (ends_argumentsAt_of (fun args h => hf args h hg) (Frame.refl I g))

theorem referenceAt {f} (hf : ∀ r, g.ReferenceAt id r → Framing I R g (f r) Q) :
    Framing I R g (referenceAt id >>= f) Q := by
  rw [Build.referenceAt, bind_assoc]
  refine element fun e he => ?_
  cases e with
  | reference r => exact hf r he
  | _ => exact throw

theorem wordsAt {f} (hf : ∀ words, g.KeywordsAt id words → Framing I R g (f words) Q) :
    Framing I R g (wordsAt id >>= f) Q := by
  rw [Build.wordsAt, bind_assoc]
  refine element fun e he => ?_
  cases e with
  | keywords words => exact hf words he
  | _ => exact throw

theorem environmentOf {f} (hf : ∀ c env, g.ClassAt id c → c.environment = some env → Framing I R g (f env) Q) :
    Framing I R g (environmentOf id >>= f) Q := by
  rw [Build.environmentOf, bind_assoc]
  refine classAt fun c hc => ?_
  cases he : c.environment with
  | none => exact throw
  | some env => exact hf c env hc he

theorem tryCatch {f} (hx : Framing I R g x P)
    (hf : ∀ fault g', R g g' → Framing I R g' (f fault) P) : Framing I R g (tryCatch x f) P := fun hg => by
  refine ends_tryCatch.2 ((hx hg).imp (fun _ _ ha => ha) fun fault g' hs => ?_)
  refine (hf fault g' hs (Frame.next hg hs)).imp (fun a g'' ha => ?_) fun _ _ hs' => Frame.trans I hs hs'
  exact ⟨Frame.trans I hs ha.1, ha.2⟩

omit [Frame I R] in
theorem attempt {expected} (hx : Framing I R g x P) :
    Framing I R g (attempt expected x) fun o g' => ∀ a ∈ o, P a g' := fun hg => by
  refine ends_attempt.2 ((hx hg).imp (fun a g' ha => ⟨ha.1, ?_⟩) fun f g' hs => ?_)
  · rintro _ ⟨⟩
    exact ha.2
  · split
    · exact ⟨hs, fun _ h => nomatch h⟩
    · exact hs

/-! ### Loops -/

theorem mapM {S : α → Prop} {f} (hf : ∀ b ∈ l, ∀ g', R g g' → Framing I R g' (f b) fun a _ => S a) :
    Framing I R g (l.mapM f) fun as _ => ∀ a ∈ as, S a := by
  induction l generalizing g with
  | nil => exact pure (by simp)
  | cons b l ih =>
    rw [mapM_cons]
    refine (hf b (.head _) g (Frame.refl I g)).bind fun a g1 hs ha => ?_
    refine (ih fun c hc g' hs' => hf c (.tail _ hc) g' (Frame.trans I hs hs')).bind fun as g2 _ has => ?_
    exact pure (forall_mem_cons.2 ⟨ha, has⟩)

theorem forIn {f} {x : γ} (hf : ∀ b ∈ l, ∀ x g', R g g' → Framing I R g' (f b x) fun _ _ => True) :
    Framing I R g (ForIn.forIn l x f) fun _ _ => True := by
  induction l generalizing g x with
  | nil => exact pure trivial
  | cons b l ih =>
    rw [forIn_cons]
    refine (hf b (.head _) x g (Frame.refl I g)).bind fun r g1 hs _ => ?_
    cases r with
    | done y => exact pure trivial
    | yield y => exact ih fun c hc x g' hs' => hf c (.tail _ hc) x g' (Frame.trans I hs hs')

theorem forM {f} (hf : ∀ b ∈ l, ∀ g', R g g' → Framing I R g' (f b) fun _ _ => True) :
    Framing I R g (l.forM f) fun _ _ => True := by
  induction l generalizing g with
  | nil => exact pure trivial
  | cons b l ih =>
    show Framing I R g (f b >>= fun _ => l.forM f) _
    refine (hf b (.head _) g (Frame.refl I g)).bind fun _ g1 hs _ => ?_
    exact ih fun c hc g' hs' => hf c (.tail _ hc) g' (Frame.trans I hs hs')

theorem forIn_state {f : β → StateT σ Build Unit} {s} {J : σ → Graph → Prop}
    (hf : ∀ b s g, J s g → Framing I R g ((f b).run s) fun r g' => J r.2 g') (h : J s g) :
    Framing I R g ((ForIn.forIn l PUnit.unit fun b _ => do f b; Pure.pure (.yield PUnit.unit)).run s)
      fun r g' => J r.2 g' := by
  induction l generalizing g s with
  | nil => exact pure h
  | cons b l ih =>
    simp only [forIn_cons, StateT.run_bind, bind_assoc, pure_bind]
    exact (hf b s g h).bind fun r g1 _ h1 => ih h1

end Framing

namespace Framed

variable {x : Build α} {f : α → Build β}

theorem pure (a : α) : Framed I R (Pure.pure a : Build α) := fun _ => .pure trivial

theorem throw {f} : Framed I R (throw f : Build α) := fun _ => .throw

theorem bind (hx : Framed I R x) (hf : ∀ a, Framed I R (f a)) : Framed I R (x >>= f) :=
  fun g => (hx g).bind fun a g' _ _ => hf a g'

theorem reads (hx : Reads x) (hf : ∀ a, Framed I R (f a)) : Framed I R (x >>= f) :=
  fun g => .reads hx fun a => hf a g

theorem ifThen {c : Prop} [Decidable c] {x} {f : Unit → Build β} (hx : Framed I R x)
    (hf : ∀ a, Framed I R (f a)) : Framed I R (if c then x >>= f else f ()) := by
  split
  · exact hx.bind hf
  · exact hf ()

theorem of_reads (hx : Reads x) : Framed I R x := fun g _ =>
  hx.ends (fun _ => ⟨Frame.refl I g, trivial⟩) fun _ _ => Frame.refl I g

omit [Frame I R] in
theorem discard (hx : Framed I R x) : Framed I R (discard x) := fun g hg => ends_discard.2 (hx g hg)

omit [Frame I R] in
theorem attempt {expected} (hx : Framed I R x) : Framed I R (attempt expected x) := fun g =>
  (hx g).attempt.any

theorem tryCatch {f} (hx : Framed I R x) (hf : ∀ fault, Framed I R (f fault)) :
    Framed I R (tryCatch x f) := fun g => (hx g).tryCatch fun fault g' _ => hf fault g'

theorem mapM {f : β → Build α} (hf : ∀ b, Framed I R (f b)) : Framed I R (l.mapM f) := fun _ =>
  (Framing.mapM fun b _ g' _ => hf b g').any

theorem forIn {f} {x : γ} (hf : ∀ b x, Framed I R (f b x)) :
    Framed I R (ForIn.forIn l x f) := fun _ => .forIn fun b _ x g' _ => hf b x g'

theorem forM {f} (hf : ∀ b, Framed I R (f b)) : Framed I R (l.forM f) := fun _ =>
  .forM fun b _ g' _ => hf b g'

end Framed

end

/-! ### Open frames -/

/-- Parts may be added, modifications rewritten and classes copied. -/
class Open (I : Graph → Prop) (R : Graph → Graph → Prop) : Prop extends Frame I R where
  part : ∀ g e, e.isClass = false → R g (g.add e).1
  arguments : ∀ {g id args} args', g.get? id = some (.modification args) → R g (g.set id (.modification args'))
  argument : ∀ {g id v scope redeclare source} scope', g.get? id = some (.argument v scope redeclare source) →
    R g (g.set id (.argument v scope' redeclare source))
  change : ∀ {g id c ms} c', g.get? id = some (.elementModification c ms) → R g (g.set id (.elementModification c' ms))
  copy : ∀ id, Framed I R (copy id)

theorem Framing.write {e} (h : R g (g.set id e)) : Framing I R g (store id e) fun _ _ => True :=
  fun _ => ⟨h, trivial⟩

namespace Framed

variable [Open I R]

theorem addPart {e} (he : e.isClass = false) : Framed I R (alloc e) := fun g _ =>
  ⟨Open.part I g e he, trivial⟩

theorem appendArguments (m : Id) (args : List Id) : Framed I R (appendArguments m args) := fun _ =>
  .argumentsAt fun _ hm => .write (Open.arguments I _ hm)

theorem freshSymbol (order : Nat) : Framed I R (freshSymbol order) := by
  refine .bind (.addPart rfl) fun _ => .bind (.addPart rfl) fun _ => .bind (.addPart rfl) fun _ => ?_
  refine .bind (.addPart rfl) fun _ => .bind (.addPart rfl) fun _ => .bind (.addPart rfl) fun _ => ?_
  refine .bind (.addPart rfl) fun _ => .bind (.addPart rfl) fun _ => .bind (.addPart rfl) fun _ => ?_
  exact .bind (.addPart rfl) fun _ => .addPart rfl

/-! #### Looking classes up -/

theorem findOriginal (scope : Id) (path : List String) : Framed I R (findOriginal scope path) := by
  simp only [Build.findOriginal]
  split
  · exact .throw
  · exact .of_reads (.search scope path)

theorem findClass (scope : Id) (path : List String) : Framed I R (findClass scope path) :=
  .bind (findOriginal scope path) Open.copy

theorem anyBase {recur : Id → Build Bool} (hrecur : ∀ id, Framed I R (recur id)) (id : Id) (bases : List Id)
    (found : Bool) : Framed I R (anyBase recur id bases found) := by
  induction bases generalizing found with
  | nil => exact .pure found
  | cons b rest ih =>
    refine .reads (.element b) fun e => ?_
    split
    · refine .bind (.pure _) fun component => ?_
      refine .bind (.attempt (.reads (.path _) fun p => .bind (findClass id p) hrecur)) fun r => ?_
      split
      · exact .pure true
      · exact ih _
    · exact .throw

theorem extendsBuiltin (id : Id) : Framed I R (extendsBuiltin id) := by
  suffices h : ∀ k id, Framed I R (extendsBuiltinTo k id) from
    .reads .size fun n => h (n + 1) id
  intro k
  induction k with
  | zero => exact fun _ => .throw
  | succ k ih => exact fun id => .reads (.classAt id) fun c => anyBase ih id c.bases false

/-! #### Handing arguments down -/

theorem takeArguments (cls : Id) (name : Option String) : Framed I R (takeArguments cls name) := fun g => by
  refine .environmentOf fun c env hc he => .argumentsAt fun args hargs => ?_
  refine .reads (.filterM (.modifies name)) fun taken => .environmentOf fun c' env' hc' he' => ?_
  cases hc.symm.trans hc'
  obtain rfl : env = env' := Option.some.inj (he.symm.trans he')
  exact .bind (.write (Open.arguments I _ hargs)) fun _ _ _ _ => .pure trivial

theorem attributeArguments (arg : Id) : Framed I R (attributeArguments arg) := by
  refine .reads (.argumentAt arg) fun a => .reads (.plainModification arg) fun m => .bind (.mapM fun v => ?_) fun _ => .pure _
  refine .reads (.isModification v) fun isNested => ?_
  split
  · exact .of_reads (.nestedArguments v)
  · exact .bind (.bind (.addPart rfl) fun component => .bind (.addPart rfl) fun change => .addPart rfl) fun _ => .pure _

theorem descend (arg : Id) : Framed I R (descend arg) := fun g => by
  simp only [Build.descend, plainModification, elementModification?, argumentAt, bind_assoc]
  refine .element fun a ha => ?_
  cases a with
  | argument v scope redeclare source =>
    simp only [pure_bind]
    refine .element fun a' ha' => ?_
    rw [ha, Option.some.injEq] at ha'
    subst ha'
    simp only [pure_bind]
    refine .element fun e he => ?_
    cases e with
    | elementModification c ms =>
      simp only [pure_bind, bind_assoc]
      refine .reads (.referenceAt c) fun r => ?_
      split
      · exact .bind (P := fun _ _ => False) (.bind (P := fun _ _ => False) .throw fun _ _ _ h => h.elim)
          fun _ _ _ h => h.elim
      · rw [pure_bind]
        refine .reads (.referenceAt c) fun r => ?_
        split
        · exact .throw
        · exact .bind (.write (Open.change I _ he)) fun _ _ _ _ => .pure trivial
    | _ => exact .throw
  | _ => exact .throw

theorem setScope (scope arg : Id) : Framed I R (setScope scope arg) := fun g => by
  refine .element fun e he => ?_
  split
  · exact .write (Open.argument I _ he)
  · exact .pure trivial

end Framed
end Modelica.Build
