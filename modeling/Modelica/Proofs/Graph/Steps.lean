/-
Steps on graphs and what they end in.

`Ends x g Q F` says that the step `x`, taken on the graph `g`, either
succeeds with a result and a graph of which `Q` holds, or fails with a fault
and a graph of which `F` holds; `Runs` leaves the second case out. The lemmas
about single steps are equivalences, so that a sequence of steps is worked
off from the front.

`Extends` is the order in which most steps move: everything that was there is
still there, unchanged. `ExtendsBut` leaves some elements out.
-/
import Mathlib.Data.Nat.Basic
import Mathlib.Order.Basic
import Modelica.Lookup

namespace Modelica

open List

/-- A symbol of which only the type and the modification are given, with keywords at
the address 1. -/
def plain (name : String) (type : Id) (modification : Option Id) : Symbol where
  name := name
  type := .node type
  keywords := 1
  dimensions := [[.null]]
  start := .null
  min := .null
  max := .null
  nominal := .null
  value := .null
  fixed := .null
  unit := .null
  modification := modification

namespace Graph

-- Which element the graph has at an address, for the kinds that are asked for most.

abbrev ClassAt (g : Graph) (id : Id) (c : ClassDef) : Prop := g.get? id = some (.classDef c)

abbrev SymbolAt (g : Graph) (id : Id) (s : Symbol) : Prop := g.get? id = some (.symbol s)

abbrev ReferenceAt (g : Graph) (id : Id) (r : Reference) : Prop := g.get? id = some (.reference r)

abbrev KeywordsAt (g : Graph) (id : Id) (words : List String) : Prop := g.get? id = some (.keywords words)

variable {g g' : Graph} {id : Id} {e : Element}

theorem get?_lt (h : g.get? id = some e) : id < g.size := by
  simp only [get?] at h
  exact (Array.getElem?_eq_some_iff.1 h).1

theorem get?_set (h : g.get? id = some e) (e' : Element) : (g.set id e').get? id = some e' :=
  get?_set_self g e' (get?_lt h)

theorem get?_add (g : Graph) (e : Element) (id : Id) :
    (g.add e).1.get? id = if id = g.size then some e else g.get? id := by
  simp only [get?, add, Array.getElem?_push]

@[simp] theorem size_add (g : Graph) (e : Element) : (g.add e).1.size = g.size + 1 := by
  simp [size, add]

@[simp] theorem size_set (g : Graph) (id : Id) (e : Element) : (g.set id e).size = g.size := by
  simp [size, set]

theorem set_get? (h : g.get? id = some e) : g.set id e = g := by
  obtain ⟨hid, he⟩ := Array.getElem?_eq_some_iff.1 (show g.elements[id]? = some e from h)
  simp only [set, Array.setIfInBounds, hid, dif_pos]
  rw [← he, Array.set_getElem_self]

/-- Everything that is in the first graph, but for some elements, is in the
second one, unchanged. -/
structure ExtendsBut (changed : Id → Prop) (g g' : Graph) : Prop where
  size_le : g.size ≤ g'.size
  get? : ∀ id < g.size, ¬ changed id → g'.get? id = g.get? id

/-- Everything that is in the first graph is in the second one, unchanged. -/
abbrev Extends (g g' : Graph) : Prop := ExtendsBut (fun _ => False) g g'

namespace ExtendsBut

variable {p q : Id → Prop} {g g1 g2 g' : Graph}

theorem refl (g : Graph) : ExtendsBut p g g := ⟨le_rfl, fun _ _ _ => rfl⟩

theorem trans_of (h1 : ExtendsBut p g g1) (h2 : ExtendsBut q g1 g2) (hq : ∀ id < g.size, q id → p id) :
    ExtendsBut p g g2 :=
  ⟨h1.size_le.trans h2.size_le, fun id hid hp =>
    (h2.get? id (hid.trans_le h1.size_le) (mt (hq id hid) hp)).trans (h1.get? id hid hp)⟩

theorem trans (h1 : ExtendsBut p g g1) (h2 : ExtendsBut p g1 g2) : ExtendsBut p g g2 := h1.trans_of h2 fun _ _ hp => hp

variable (h : ExtendsBut p g g')

include h

theorem mono (hpq : ∀ id < g.size, p id → q id) : ExtendsBut q g g' :=
  ⟨h.size_le, fun id hid hq => h.get? id hid fun hp => hq (hpq id hid hp)⟩

theorem get?_some {id e} (he : g.get? id = some e) (hp : ¬ p id) : g'.get? id = some e := (h.get? id (get?_lt he) hp).trans he

theorem add (e : Element) : ExtendsBut p g (g'.add e).1 := by
  refine ⟨by simpa using Nat.le_succ_of_le h.size_le, fun id hid hp => ?_⟩
  rw [get?_add_of_lt g' e (hid.trans_le h.size_le), h.get? id hid hp]

/-- What may change, and what stands behind the first graph, is open to any
change. -/
theorem set {id} (hid : p id ∨ g.size ≤ id) (e : Element) : ExtendsBut p g (g'.set id e) := by
  refine ⟨by simpa using h.size_le, fun other hother hp => ?_⟩
  rw [get?_set_other g' e ?_, h.get? other hother hp]
  rintro rfl
  rcases hid with hid | hid
  · exact hp hid
  · exact Nat.not_lt.2 hid hother

end ExtendsBut

theorem Extends.get?_some (h : Extends g g') (he : g.get? id = some e) :
    g'.get? id = some e := ExtendsBut.get?_some h he fun hf => hf

theorem Extends.but {p} (h : Extends g g') : ExtendsBut p g g' := h.mono fun _ _ => False.elim

end Graph

namespace Build

variable {α β : Type}

variable {x : Build α} {e : Element} {id : Id} {c : ClassDef} {s : Symbol} {ws : List String} {args : List Id}
  {l : List β} {f : β → Build Unit}

/-- What a step taken on a graph ends in. -/
def Ends (x : Build α) (g : Graph) (Q : α → Graph → Prop) (F : Fault → Graph → Prop) : Prop :=
  match x g with
  | .ok a g' => Q a g'
  | .error f g' => F f g'

/-- The step succeeds, with a result and a graph of which `Q` holds. -/
abbrev Runs (x : Build α) (g : Graph) (Q : α → Graph → Prop) : Prop := Ends x g Q fun _ _ => False

variable {g : Graph} {Q Q' : α → Graph → Prop} {F F' : Fault → Graph → Prop}

theorem Ends.imp (h : Ends x g Q F) (hQ : ∀ a g', Q a g' → Q' a g') (hF : ∀ f g', F f g' → F' f g') :
    Ends x g Q' F' := by
  simp only [Ends] at h ⊢
  split at h
  · exact hQ _ _ h
  · exact hF _ _ h

theorem Runs.imp (h : Runs x g Q) (hQ : ∀ a g', Q a g' → Q' a g') : Runs x g Q' := Ends.imp h hQ fun _ _ => id

theorem Runs.forall {ι : Type} {Q : ι → α → Graph → Prop} (i : ι) (h : ∀ i, Runs x g (Q i)) :
    Runs x g fun a g' => ∀ i, Q i a g' := by
  simp only [Ends] at h ⊢
  split
  · next hx => exact fun i => by simpa [hx] using h i
  · next hx => simpa [hx] using h i

theorem runs_iff : Runs x g Q ↔ ∃ a g', x g = .ok a g' ∧ Q a g' := by
  simp only [Ends]
  constructor
  · intro h
    split at h
    · next a g' hx => exact ⟨a, g', hx, h⟩
    · exact h.elim
  · rintro ⟨a, g', hx, h⟩
    rw [hx]
    exact h

theorem Runs.and (h : Runs x g Q) (h' : Runs x g Q') : Runs x g fun a g' => Q a g' ∧ Q' a g' := by
  obtain ⟨a, g1, hx, hQ⟩ := runs_iff.1 h
  obtain ⟨b, g2, hx', hQ'⟩ := runs_iff.1 h'
  cases hx.symm.trans hx'
  exact runs_iff.2 ⟨a, g1, hx, hQ, hQ'⟩

@[simp] theorem ends_pure {a} : Ends (pure a) g Q F ↔ Q a g := Iff.rfl

@[simp] theorem ends_throw {f} : Ends (throw f : Build α) g Q F ↔ F f g := Iff.rfl

@[simp] theorem ends_bind {f} {Q : β → Graph → Prop} :
    Ends (x >>= f) g Q F ↔ Ends x g (fun a g' => Ends (f a) g' Q F) F := by
  simp only [Ends, bind, EStateM.bind]
  cases x g with
  | ok a g1 => rfl
  | error e g1 => rfl

@[simp] theorem ends_map {f} {Q : β → Graph → Prop} : Ends (f <$> x) g Q F ↔ Ends x g (fun a g' => Q (f a) g') F := by
  simp only [Ends, Functor.map, EStateM.map]
  cases x g with
  | ok a g1 => rfl
  | error e g1 => rfl

@[simp] theorem ends_discard {Q : PUnit → Graph → Prop} :
    Ends (discard x) g Q F ↔ Ends x g (fun _ g' => Q PUnit.unit g') F := ends_map

theorem run_lift {σ : Type} (x : Build α) (s : σ) :
    (monadLift x : StateT σ Build α).run s = (do let a ← x; pure (a, s)) := rfl

theorem run_lift_bind {σ : Type} (x : Build α) (f : α → StateT σ Build β) (s : σ) :
    ((monadLift x : StateT σ Build α) >>= f).run s = x >>= fun a => (f a).run s := by
  simp

theorem ends_lift_bind {σ : Type} {f : α → StateT σ Build β} {s : σ} {Q : β × σ → Graph → Prop} :
    Ends (((monadLift x : StateT σ Build α) >>= f).run s) g Q F ↔ Ends x g (fun a g' => Ends ((f a).run s) g' Q F) F := by
  rw [run_lift_bind, ends_bind]

@[simp] theorem ends_size {Q} : Ends size g Q F ↔ Q g.size g := Iff.rfl

@[simp] theorem ends_alloc {Q} : Ends (alloc e) g Q F ↔ Q g.size (g.add e).1 := Iff.rfl

@[simp] theorem ends_store {Q} : Ends (store id e) g Q F ↔ Q () (g.set id e) := Iff.rfl

theorem ends_element {Q} (h : g.get? id = some e) : Ends (element id) g Q F ↔ Q e g := by
  simp only [Ends, element, h]

theorem ends_classAt {Q : ClassDef → Graph → Prop} (h : g.get? id = some (.classDef c)) :
    Ends (classAt id) g Q F ↔ Q c g := by
  simp [classAt, ends_element h]

theorem ends_symbolAt {Q : Symbol → Graph → Prop} (h : g.get? id = some (.symbol s)) :
    Ends (symbolAt id) g Q F ↔ Q s g := by
  simp [symbolAt, ends_element h]

theorem ends_referenceAt {r} {Q : Reference → Graph → Prop} (h : g.get? id = some (.reference r)) :
    Ends (referenceAt id) g Q F ↔ Q r g := by
  simp [referenceAt, ends_element h]

theorem ends_wordsAt {Q : List String → Graph → Prop} (h : g.get? id = some (.keywords ws)) :
    Ends (wordsAt id) g Q F ↔ Q ws g := by
  simp [wordsAt, ends_element h]

theorem ends_argumentsAt {Q : List Id → Graph → Prop} (h : g.get? id = some (.modification args)) :
    Ends (argumentsAt id) g Q F ↔ Q args g := by
  simp [argumentsAt, ends_element h]

theorem ends_keywordsOf {Q : List String → Graph → Prop} (hs : g.get? id = some (.symbol s))
    (hw : g.get? s.keywords = some (.keywords ws)) : Ends (keywordsOf id) g Q F ↔ Q ws g := by
  simp [keywordsOf, ends_symbolAt hs, ends_wordsAt hw]

theorem ends_modifyClass {f} {Q : Unit → Graph → Prop} (h : g.get? id = some (.classDef c)) :
    Ends (modifyClass id f) g Q F ↔ Q () (g.set id (.classDef (f c))) := by
  simp [modifyClass, setClass, ends_classAt h]

theorem ends_modifySymbol {f} {Q : Unit → Graph → Prop} (h : g.get? id = some (.symbol s)) :
    Ends (modifySymbol id f) g Q F ↔ Q () (g.set id (.symbol (f s))) := by
  simp [modifySymbol, ends_symbolAt h]

@[simp] theorem ends_setArguments {Q} :
    Ends (setArguments id args) g Q F ↔ Q () (g.set id (.modification args)) := Iff.rfl

theorem ends_attempt {expected Q} : Ends (attempt expected x) g Q F ↔
      Ends x g (fun a g' => Q (some a) g') (fun f g' => if expected f.root then Q none g' else F f g') := by
  simp only [Ends, attempt]
  cases x g with
  | ok a g1 => rfl
  | error f g1 =>
    by_cases h : expected f.root = true
    · simp [h]
    · simp [h]

/-! ### Loops -/

@[simp] theorem ends_filterM_nil {f} {Q : List β → Graph → Prop} : Ends (filterM f []) g Q F ↔ Q [] g := Iff.rfl

variable {σ : Type}

/-- A loop that carries a value along: `J` says what holds when some of the
items have been worked off and others are left. -/
theorem ends_forIn_parts {γ : Type} {f} {x : γ} (J : List β → List β → γ → Graph → Prop)
    (hf : ∀ before b after, l = before ++ b :: after → ∀ x g, J before (b :: after) x g →
      Ends (f b x) g (fun r g' => ∃ y, r = .yield y ∧ J (before ++ [b]) after y g') F) (h : J [] l x g) :
    Ends (forIn l x f) g (fun y g' => J l [] y g') F := by
  suffices hs : ∀ after before x g, l = before ++ after → J before after x g →
      Ends (forIn after x f) g (fun y g' => J l [] y g') F from hs l [] x g rfl h
  intro after
  induction after with
  | nil =>
    rintro before x g rfl h
    simpa using h
  | cons b after ih =>
    intro before x g hl h
    simp only [forIn_cons, ends_bind]
    refine (hf before b after hl x g h).imp ?_ fun _ _ h => h
    rintro _ g1 ⟨y, rfl, h1⟩
    exact ih (before ++ [b]) y g1 (by simpa using hl) h1

theorem runs_forIn_yield {γ : Type} {f} {x : γ} (J : List β → γ → Graph → Prop)
    (hf : ∀ before b after, l = before ++ b :: after → ∀ x g, J before x g →
      Runs (f b x) g fun r g' => ∃ y, r = .yield y ∧ J (before ++ [b]) y g') (h : J [] x g) :
    Runs (forIn l x f) g fun y g' => J l y g' :=
  ends_forIn_parts (fun before _ => J before) hf h

theorem runs_forIn_prefix (J : List β → Graph → Prop)
    (hf : ∀ before b after, l = before ++ b :: after → ∀ g, J before g →
      Runs (f b) g fun _ g' => J (before ++ [b]) g') (h : J [] g) :
    Runs (forIn l PUnit.unit fun b _ => do f b; pure (.yield PUnit.unit)) g fun _ g' => J l g' := by
  refine runs_forIn_yield (fun before _ g => J before g) (fun before b after hl _ g hJ => ends_bind.2 ?_) h
  exact (hf before b after hl g hJ).imp fun _ g' hJ' => ⟨_, rfl, hJ'⟩

theorem runs_mapM {f : β → Build α} (I : Graph → Prop) (hf : ∀ b ∈ l, ∀ g, I g → Runs (f b) g fun _ g' => I g')
    (h : I g) : Runs (l.mapM f) g fun _ g' => I g' := by
  induction l generalizing g with
  | nil => exact h
  | cons b l ih =>
    simp only [mapM_cons, ends_bind, ends_pure]
    refine (hf b (.head _) g h).imp fun _ g1 h1 => ?_
    exact ih (fun c hc => hf c (.tail _ hc)) h1

/-- A loop over a list. What each turn makes true of its element is kept by the other turns. -/
theorem ends_forIn_each {f : β → StateT σ Build Unit} {s : σ} (I : σ → Graph → Prop) (P : β → σ → Graph → Prop)
    (hf : ∀ b ∈ l, ∀ s g, I s g →
      Ends ((f b).run s) g (fun r g' => I r.2 g' ∧ P b r.2 g' ∧ ∀ c, P c s g → P c r.2 g') F)
    (h : I s g) :
    Ends ((forIn l PUnit.unit fun b _ => do f b; pure (.yield PUnit.unit)).run s) g
      (fun r g' => I r.2 g' ∧ ∀ b ∈ l, P b r.2 g') F := by
  induction l generalizing g s I with
  | nil => exact ⟨h, by simp⟩
  | cons b l ih =>
    simp only [forIn_cons, StateT.run_bind, bind_assoc, pure_bind, ends_bind]
    refine (hf b (.head _) s g h).imp ?_ fun _ _ => id
    rintro r g1 ⟨h1, hb, -⟩
    -- What holds of `b` now joins the invariant.
    refine (ih (fun s g => I s g ∧ P b s g) (fun c hc s g hs => ?_) ⟨h1, hb⟩).imp ?_ fun _ _ => id
    · exact (hf c (.tail _ hc) s g hs.1).imp (fun r g' hr => ⟨⟨hr.1, hr.2.2 b hs.2⟩, hr.2⟩) fun _ _ => id
    · exact fun r g' hr => ⟨hr.1.1, forall_mem_cons.2 ⟨hr.1.2, hr.2⟩⟩

theorem ends_forIn_state {f : β → StateT σ Build Unit} {s} (I : σ → Graph → Prop)
    (hf : ∀ b ∈ l, ∀ s g, I s g → Ends ((f b).run s) g (fun r g' => I r.2 g') F) (h : I s g) :
    Ends ((forIn l PUnit.unit fun b _ => do f b; pure (.yield PUnit.unit)).run s) g (fun r g' => I r.2 g') F :=
  (ends_forIn_each I (fun _ _ _ => True) (fun b hb s g hs => (hf b hb s g hs).imp
    (fun _ _ hr => ⟨hr, trivial, fun _ _ => trivial⟩) fun _ _ => id) h).imp (fun _ _ hr => hr.1) fun _ _ => id

end Build
end Modelica
