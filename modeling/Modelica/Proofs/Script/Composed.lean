/-
What the script of a flat model holds of the model.

The texts of a script are composed when a visit leaves an element, and are never taken back.
So one invariant of the draft (`Draft.Sound`), kept by each step of the visit
(`part_keeps`) and hence by all of it (`run_keeps`), says what the script has for each
symbol and each equation of a class.
-/
import Modelica.Proofs.Graph.Yield
import Modelica.Proofs.Script.Meaning

namespace Modelica

open List Element

/-- The elements that a text is composed for. -/
def Element.isComposed : Element → Bool
  | .primary _ | .reference _ | .symbol _ | .expression .. | .equation .. => true
  | _ => false

/-- The identifiers that the script of a model introduces. -/
def ModelScript.introduced (m : ModelScript) : List String :=
  m.states.map (·.identifier) ++ m.algebraics ++ m.constants.map (·.identifier) ++
    m.parameters.map (·.identifier) ++ m.inputs.map (·.identifier)

namespace Script

open Build Composing

variable {α β : Type} {g : Graph} {d d' : Draft} {id : Id}

/-- The text of an element; that of an expression is left open. -/
inductive TextOf (g : Graph) : Id → String → Prop
  | primary {id : Id} {v : Value} : g.get? id = some (.primary v) → TextOf g id v.word
  | reference {id : Id} {r : Reference} : g.get? id = some (.reference r) → TextOf g id (identifier r.name)
  | symbol {id : Id} {s : Symbol} : g.get? id = some (.symbol s) → TextOf g id (identifier s.name)
  | expression {id : Id} {op : Value} {operands : List Value} {text : String} :
      g.get? id = some (.expression op operands) → TextOf g id text
  | equation {id l r : Id} {note : String} {left right : String} :
      g.get? id = some (.equation (.node l) (.node r) note) → TextOf g l left → TextOf g r right →
      TextOf g id (left ++ " - (" ++ right ++ ")")

theorem TextOf.isComposed {text e} (h : TextOf g id text) (he : g.get? id = some e) : e.isComposed = true := by
  cases h with
  | primary h | reference h | symbol h | expression h | equation h =>
    obtain rfl := Option.some.inj (h.symm.trans he)
    rfl

theorem TextOf.of_symbol {text s} (h : TextOf g id text) (hs : g.SymbolAt id s) : text = identifier s.name := by
  cases h with
  | symbol h => cases h.symm.trans hs; rfl
  | primary h | reference h | expression h | equation h => cases h.symm.trans hs

/-- The entry of an equation: the difference of its sides, or nothing if it has none. -/
def Entry (g : Graph) (id : Id) (text : String) : Prop :=
  (∀ l r note, g.get? id = some (.equation l r note) → ∃ a b left right, l = .node a ∧ r = .node b ∧
    TextOf g a left ∧ TextOf g b right ∧ text = left ++ " - (" ++ right ++ ")") ∧
  ∀ e, g.get? id = some e → e.isComposed = false → text = ""

/-- The keywords by which a symbol gets a role. -/
def roleWords : List String := ["state", "constant", "parameter", "input", "output"]

/-- A symbol without keywords is a variable. Others need a keyword that gives them a role. -/
def HasRole (words : List String) : Prop := words = [] ∨ ∃ w ∈ words, w ∈ roleWords

/-- What the script of a class has for its symbols and equations. -/
structure Describes (g : Graph) (c : ClassDef) (m : ModelScript) : Prop where
  introduced : ∀ x, x ∈ m.introduced ↔ ∃ id ∈ c.symbols.values, ∃ s words, g.get? id = some (.symbol s) ∧
    g.get? s.keywords = some (.keywords words) ∧ HasRole words ∧ x = identifier s.name
  equations : Forall₂ (Entry g) c.equations m.equations

/-- What holds of a draft at any time. -/
structure Draft.Sound (g : Graph) (d : Draft) : Prop where
  texts : ∀ id text, d.texts.get? id = some text → TextOf g id text
  models : ∀ id m, d.models.get? id = some m → ∃ c, g.get? id = some (.classDef c) ∧ Describes g c m

/-- The element has its text, if one is composed for it. -/
def Draft.Has (g : Graph) (id : Id) (d : Draft) : Prop :=
  ∃ e, g.get? id = some e ∧ (e.isComposed = true → ∃ text, d.texts.get? id = some text)

/-- The scripts of the classes of a tree are the result. -/
def Draft.Tells (g : Graph) (id : Id) (d : Draft) : Prop :=
  ∀ t, g.get? id = some (.classDef t) → t.role = .tree →
    Forall₂ (fun cls m => d.models.get? cls = some m) t.classes.values d.result

theorem Draft.Sound.empty : Draft.Sound g {} := ⟨fun _ _ h => by simp at h, fun _ _ h => by simp at h⟩

theorem Draft.Sound.recorded (h : d.Sound g) {text} (htext : TextOf g id text) : (d.recorded id text).Sound g := by
  refine ⟨fun a s ha => ?_, h.models⟩
  rw [get?_recorded] at ha
  split at ha
  · next heq =>
    cases ha
    exact heq ▸ htext
  · exact h.texts a s ha

theorem Draft.Has.recorded {a text} (h : d.Has g a) : (d.recorded id text).Has g a := by
  obtain ⟨e, he, hd⟩ := h
  refine ⟨e, he, fun hc => ?_⟩
  rw [get?_recorded]
  split
  · exact ⟨_, rfl⟩
  · exact hd hc

/-! ### Steps that only look up -/

/-- A step that changes neither the draft nor the graph, and with a result of which `P` holds. -/
def Looks (d : Draft) (g : Graph) (x : Composing α) (P : α → Prop) : Prop :=
  Yields (x.run d) g fun r g' => (r.2 = d ∧ g' = g) ∧ P r.1

namespace Looks

variable {x : Composing α} {P P' : α → Prop} {Q : β → Prop}

theorem imp (h : Looks d g x P) (hP : ∀ a, P a → P' a) : Looks d g x P' :=
  Yields.imp h fun r _ hr => ⟨hr.1, hP r.1 hr.2⟩

theorem pure {a} (h : P a) : Looks d g (Pure.pure a) P := And.intro ⟨rfl, rfl⟩ h

theorem throw {f} : Looks d g (throw f : Composing α) P := trivial

theorem get : Looks d g (MonadState.get : Composing Draft) (· = d) := And.intro ⟨rfl, rfl⟩ rfl

theorem bind {f} (hx : Looks d g x P) (hf : ∀ a, P a → Looks d g (f a) Q) : Looks d g (x >>= f) Q := by
  refine ends_bind.2 (Yields.imp hx ?_)
  rintro ⟨a, _⟩ _ ⟨⟨rfl, rfl⟩, ha⟩
  exact hf a ha

theorem lift {x} (hx : Yields x g fun a g' => g' = g ∧ P a) : Looks d g (monadLift x : Composing α) P :=
  hx.bind fun _ _ h => ⟨⟨rfl, h.1⟩, h.2⟩

theorem reads {x} (hx : Reads x) : Looks d g (monadLift x : Composing α) fun _ => True :=
  lift (hx.yields fun _ => ⟨rfl, trivial⟩)

theorem symbolAt : Looks d g (Build.symbolAt id : Composing Symbol) fun s => g.SymbolAt id s :=
  lift (ends_symbolAt_of (fun _ h => ⟨rfl, h⟩) trivial)

theorem mapM {l f} {R : β → α → Prop} (hf : ∀ b, Looks d g (f b) (R b)) : Looks d g (l.mapM f) (Forall₂ R l) := by
  induction l with
  | nil => exact pure .nil
  | cons b l ih =>
    rw [mapM_cons]
    exact (hf b).bind fun _ ha => ih.bind fun _ hl => pure (.cons ha hl)

end Looks

theorem text_looks (id : Id) : Looks d g (Composing.text id) fun s => d.texts.get? id = some s := by
  refine Looks.get.bind ?_
  rintro _ rfl
  split
  · next h => exact .pure h
  · exact .throw

theorem valueText_looks (v : Value) :
    Looks d g (valueText v) fun s => ∃ id, v = .node id ∧ d.texts.get? id = some s := by
  cases v with
  | node id => exact (text_looks id).imp fun _ h => ⟨id, rfl, h⟩
  | _ => exact .throw

theorem literal?_looks (v : Value) : Looks d g (literal? v) fun _ => True := by
  unfold literal?
  split
  · refine (Looks.reads (.element _)).bind fun e _ => ?_
    split <;> exact .pure trivial
  · exact .pure trivial

theorem initialText_looks (symbols : Table String Id) (s : Symbol) :
    Looks d g (initialText symbols s) fun _ => True := by
  unfold initialText
  split
  · exact .throw
  · refine Looks.symbolAt.bind fun named _ => (literal?_looks _).bind fun v _ => ?_
    split
    · exact (literal?_looks _).bind fun _ _ => .pure trivial
    all_goals exact .pure trivial

theorem declared_looks (symbols : Table String Id) (ids : List Id) : Looks d g (declared symbols ids)
      fun l => Forall₂ (fun id x => d.texts.get? id = some x) ids (l.map (·.identifier)) := by
  refine (Looks.mapM (R := fun id (x : Declared) => d.texts.get? id = some x.identifier) fun id => ?_).imp
    fun _ h => forall₂_map_right_iff.2 h
  refine Looks.symbolAt.bind fun s _ => (initialText_looks symbols s).bind fun _ _ => ?_
  exact (text_looks id).bind fun _ h => .pure h

theorem operation_looks (op : Value) (operands : List Value) : Looks d g (operation op operands) fun _ => True := by
  unfold operation
  extract_lets rest
  have hrest : ∀ name, Looks d g (rest name) fun _ => True := by
    intro name
    unfold rest
    split
    · split
      · exact .throw
      · exact (valueText_looks _).bind fun _ _ => .pure trivial
    · split
      · exact (valueText_looks _).bind fun _ _ => (valueText_looks _).bind fun _ _ => .pure trivial
      · exact (valueText_looks _).bind fun _ _ => .pure trivial
      · refine (Looks.mapM fun v => valueText_looks v).bind fun _ _ => ?_
        split
        · exact (Looks.reads (.referenceAt _)).bind fun _ _ => .pure trivial
        · exact .throw
  split
  · exact hrest _
  · exact (Looks.reads ((Reads.path _).bind fun _ => .pure _)).bind fun name _ => hrest name
  · exact hrest _

/-! ### The script of a class -/

theorem related_of_mem {R} {l : List α} {l' : List β} (h : Forall₂ R l l') :
    (∀ b ∈ l', ∃ a ∈ l, R a b) ∧ ∀ a ∈ l, ∃ b ∈ l', R a b := by
  induction h with
  | nil => simp
  | cons hab _ ih => grind

/-- The symbols of a class with their keywords. -/
def Listed (g : Graph) (c : ClassDef) (symbols : List (Id × List String)) : Prop :=
  ∀ id words, (id, words) ∈ symbols ↔ id ∈ c.symbols.values ∧
    ∃ s, g.get? id = some (.symbol s) ∧ g.get? s.keywords = some (.keywords words)

theorem ordered_looks (c : ClassDef) : Looks d g (ordered c) (Listed g c) := by
  refine (Looks.mapM (R := fun id (x : Nat × Id × List String) => x.2.1 = id ∧
    ∃ s, g.SymbolAt id s ∧ g.KeywordsAt s.keywords x.2.2) fun id => ?_).bind
    fun l hl => Looks.pure (P := Listed g c) fun id words => ?_
  · refine Looks.symbolAt.bind fun s hs => Looks.bind (P := fun ws => g.KeywordsAt s.keywords ws)
      (.lift ?_) fun ws hws => .pure ⟨rfl, s, hs, hws⟩
    refine ends_bind.2 (ends_element_of (fun e he => ?_) trivial)
    split
    · exact ⟨rfl, he⟩
    · trivial
  · simp only [List.mem_map, mem_mergeSort]
    constructor
    · rintro ⟨⟨_, _⟩, hx, rfl⟩
      obtain ⟨_, hid, rfl, hs⟩ := (related_of_mem hl).1 _ hx
      exact ⟨hid, hs⟩
    · rintro ⟨hid, s, hs, hw⟩
      obtain ⟨x, hx, rfl, s', hs', hw'⟩ := (related_of_mem hl).2 id hid
      cases hs.symm.trans hs'
      cases hw.symm.trans hw'
      exact ⟨x, hx, rfl⟩

theorem mem_withKeyword {word symbols} :
    id ∈ withKeyword word symbols ↔ ∃ words, (id, words) ∈ symbols ∧ word ∈ words := by
  simp only [withKeyword, mem_flatMap, List.mem_map, List.mem_filter, beq_iff_eq]
  grind

/-- The symbols of all roles. -/
def withRole (symbols : List (Id × List String)) : List Id :=
  withKeyword "state" symbols ++ ((symbols.filter fun s => s.2.isEmpty).map (fun s => s.1) ++
    (withKeyword "output" symbols).filter fun s => !(withKeyword "state" symbols).contains s) ++
    withKeyword "constant" symbols ++ withKeyword "parameter" symbols ++ withKeyword "input" symbols

theorem mem_withRole {symbols} : id ∈ withRole symbols ↔ ∃ words, (id, words) ∈ symbols ∧ HasRole words := by
  have hplain : id ∈ (symbols.filter fun s => s.2.isEmpty).map (fun s => s.1) ↔ (id, []) ∈ symbols := by
    simp only [List.mem_map, List.mem_filter, List.isEmpty_iff]
    grind
  simp only [withRole, mem_append, hplain, mem_withKeyword, List.mem_filter, Bool.not_eq_true',
    contains_eq_mem, decide_eq_false_iff_not, HasRole, roleWords, mem_cons, not_mem_nil, or_false]
  grind

theorem model_looks {c : ClassDef} (h : d.Sound g) (hequations : ∀ id ∈ c.equations, d.Has g id) :
    Looks d g (model c) (Describes g c) := by
  refine (ordered_looks c).bind fun symbols hsymbols => ?_
  refine (Looks.mapM (R := fun e t => t = (d.texts.get? e).getD "") fun e => Looks.get.bind ?_).bind
    fun equations heq => ?_
  · rintro _ rfl
    exact .pure rfl
  refine (declared_looks _ _).bind fun states hstates => (Looks.mapM text_looks).bind fun algebraics halgebraics => ?_
  refine (declared_looks _ _).bind fun constants hconstants => (declared_looks _ _).bind fun parameters hparameters => ?_
  refine (declared_looks _ _).bind fun inputs hinputs => (Looks.mapM text_looks).bind fun outputs _ => ?_
  refine .pure ⟨fun x => ?_, ?_⟩
  · have hall := related_of_mem (rel_append (rel_append (rel_append (rel_append hstates halgebraics)
      hconstants) hparameters) hinputs)
    constructor
    · intro hx
      obtain ⟨id, hid, htext⟩ := hall.1 x hx
      obtain ⟨words, hmem, hrole⟩ := mem_withRole.1 hid
      obtain ⟨hid, s, hs, hw⟩ := (hsymbols id words).1 hmem
      exact ⟨id, hid, s, words, hs, hw, hrole, (h.texts id x htext).of_symbol hs⟩
    · rintro ⟨id, hid, s, words, hs, hw, hrole, rfl⟩
      obtain ⟨x, hx, htext⟩ := hall.2 id (mem_withRole.2 ⟨words, (hsymbols id words).2 ⟨hid, s, hs, hw⟩, hrole⟩)
      exact (h.texts id x htext).of_symbol hs ▸ hx
  · refine Forall₂.imp ?_ ((forall₂_and_left _ _).2 ⟨hequations, heq⟩)
    rintro id _ ⟨⟨e, he, hhas⟩, rfl⟩
    refine ⟨fun l r note heq => ?_, fun e' he' hnone => ?_⟩
    · cases he.symm.trans heq
      obtain ⟨text, htext⟩ := hhas rfl
      rw [htext]
      cases h.texts id text htext with
      | equation h hl hr =>
        cases h.symm.trans heq
        exact ⟨_, _, _, _, rfl, rfl, hl, hr, rfl⟩
      | primary h | reference h | symbol h | expression h => cases h.symm.trans heq
    · cases htext : d.texts.get? id with
      | none => rfl
      | some text => cases hnone.symm.trans ((h.texts id text htext).isComposed he')

/-! ### Visits -/

/-- What leaving an element makes of a draft. -/
structure Composes (g : Graph) (id : Id) (d d' : Draft) : Prop where
  sound : d'.Sound g
  has : d'.Has g id
  keeps : ∀ a, d.Has g a → d'.Has g a
  tells : d'.Tells g id

theorem Composes.record {text e} (h : d.Sound g) (he : g.get? id = some e)
    (htext : TextOf g id text) : Composes g id d (d.recorded id text) where
  sound := h.recorded htext
  has := ⟨e, he, fun _ => ⟨text, by rw [get?_recorded, if_pos rfl]⟩⟩
  keeps _ := Draft.Has.recorded
  tells t ht := by cases htext.isComposed ht

theorem Looks.andThen {x P} {f : α → Composing β} {Q}
    (hx : Looks d g x P) (hf : ∀ a, P a → Yields ((f a).run d) g Q) : Yields ((x >>= f).run d) g Q := by
  refine ends_bind.2 (Yields.imp hx ?_)
  rintro ⟨a, _⟩ _ ⟨⟨rfl, rfl⟩, ha⟩
  exact hf a ha

theorem part_keeps (h : d.Sound g) (hparts : ∀ e, g.get? id = some e → ∀ a ∈ e.children, d.Has g a) :
    Yields ((part id).run d) g fun r g' => g' = g ∧ Composes g id d r.2 := by
  refine Looks.andThen (P := fun e => g.get? id = some e) (.lift (ends_element_of (fun _ he => ⟨rfl, he⟩) trivial))
    fun e he => ?_
  -- Where neither a text nor the result is composed, the draft stays as it is.
  have hstay : e.isComposed = false → (∀ t, e = .classDef t → t.role ≠ .tree) → Composes g id d d := fun hc ht =>
    ⟨h, ⟨e, he, by simp [hc]⟩, fun _ ha => ha, fun t htree hrole =>
      absurd hrole (ht t (Option.some.inj (he.symm.trans htree)))⟩
  cases e with
  | primary v => exact ⟨rfl, .record h he (.primary he)⟩
  | reference r => exact ⟨rfl, .record h he (.reference he)⟩
  | symbol s => exact ⟨rfl, .record h he (.symbol he)⟩
  | expression op operands =>
    exact (operation_looks op operands).andThen fun _ _ => ⟨rfl, .record h he (.expression he)⟩
  | equation l r =>
    refine (valueText_looks l).andThen ?_
    rintro left ⟨l, rfl, hl⟩
    refine (valueText_looks r).andThen ?_
    rintro right ⟨r, rfl, hr⟩
    exact ⟨rfl, .record h he (.equation he (h.texts l left hl) (h.texts r right hr))⟩
  | classDef c =>
    cases hrole : c.role with
    | declared =>
      simp only [hrole]
      refine (model_looks h fun a ha => hparts _ he a ?_).andThen fun m hm => ⟨rfl, ⟨h.texts, ?_⟩, ?_, fun _ ha => ha, ?_⟩
      · simp [children, ClassDef.children, ha]
      · intro a m' hm'
        simp only [Std.TreeMap.get?_eq_getElem?, Std.TreeMap.getElem?_insert, Nat.compare_eq_eq] at hm'
        split at hm'
        · next heq =>
          cases hm'
          exact heq ▸ ⟨c, he, hm⟩
        · exact h.models a m' hm'
      · exact ⟨_, he, by simp [isComposed]⟩
      · intro t ht htree
        cases he.symm.trans ht
        cases hrole.symm.trans htree
    | tree =>
      simp only [hrole]
      refine (Looks.mapM (R := fun cls m => d.models.get? cls = some m) fun cls => Looks.get.bind ?_).andThen
        fun models hmodels => ⟨rfl, ⟨h.texts, h.models⟩, ⟨_, he, by simp [isComposed]⟩, fun _ ha => ha, ?_⟩
      · rintro _ rfl
        split
        · next hm => exact .pure hm
        · exact .throw
      · intro t ht _
        cases he.symm.trans ht
        exact hmodels
    | instanced =>
      simp only [hrole]
      exact ⟨rfl, hstay rfl (by rintro _ ⟨⟩; simp [hrole])⟩
  | _ => exact ⟨rfl, hstay rfl (by rintro _ ⟨⟩)⟩

theorem walk_keeps (n : Nat) (id : Id) (h : d.Sound g) :
    Yields ((composer.walk n id).run d) g fun r g' => g' = g ∧ Composes g id d r.2 := by
  induction n generalizing id d with
  | zero => trivial
  | succ n ih =>
    have henter : composer.enter id = pure () := rfl
    simp only [Visitor.walk, henter, StateT.run_bind, StateT.run_pure, run_lift, ends_bind, ends_pure]
    refine ends_element_of (fun e he => ?_) trivial
    refine Yields.imp (ends_forIn_each (fun s g' => g' = g ∧ s.Sound g ∧ ∀ a, d.Has g a → s.Has g a)
      (fun a s _ => s.Has g a) ?_ ⟨rfl, h, fun _ ha => ha⟩) ?_
    · rintro a _ s _ ⟨rfl, hs, hkeep⟩
      refine (ih a hs).imp ?_
      rintro r _ ⟨rfl, hr⟩
      exact ⟨⟨rfl, hr.sound, fun b hb => hr.keeps b (hkeep b hb)⟩, hr.has, hr.keeps⟩
    · rintro r _ ⟨⟨rfl, hs, hkeep⟩, hall⟩
      refine (part_keeps hs ?_).imp ?_
      · intro e' he'
        cases he.symm.trans he'
        exact hall
      · rintro r' _ ⟨rfl, hr⟩
        exact ⟨rfl, { hr with keeps := fun a ha => hr.keeps a (hkeep a ha) }⟩

theorem run_keeps (flat : Id) (g : Graph) :
    Yields (composer.run flat {}) g fun d g' => g' = g ∧ d.Sound g ∧ d.Tells g flat := by
  simp only [Visitor.run, ends_bind, ends_size, ends_pure]
  exact (walk_keeps _ flat .empty).imp fun _ _ h => ⟨h.1, h.2.sound, h.2.tells⟩

theorem run_describes (flat : Id) (g : Graph) :
    Yields (composer.run flat {}) g fun d g' => g' = g ∧ ∀ t, g.ClassAt flat t → t.role = .tree →
      Forall₂ (fun cls m => ∃ c, g.ClassAt cls c ∧ Describes g c m) t.classes.values d.result :=
  (run_keeps flat g).imp fun _ _ h =>
    ⟨h.1, fun t ht hrole => (h.2.2 t ht hrole).imp fun cls m hm => h.2.1.models cls m hm⟩

/-- A script introduces the identifiers of exactly those symbols that have no keywords or one
of the five that give a role. Symbols with other keywords, such as `flow` or `discrete`, are
in none of its lists. -/
theorem introduced_iff_hasRole (flat : Id) (g : Graph) :
    Yields (composer.run flat {}) g fun d _ => ∀ t, g.get? flat = some (.classDef t) → t.role = .tree →
      List.Forall₂ (fun cls m => ∃ c, g.get? cls = some (.classDef c) ∧ ∀ x, x ∈ m.introduced ↔
        ∃ id ∈ c.symbols.values, ∃ s words, g.get? id = some (.symbol s) ∧
          g.get? s.keywords = some (.keywords words) ∧ HasRole words ∧ x = identifier s.name)
        t.classes.values d.result :=
  (run_describes flat g).imp fun _ _ h t ht hrole =>
    (h.2 t ht hrole).imp fun _ _ hm => hm.imp fun _ hc => ⟨hc.1, hc.2.introduced⟩

/-- A script has one entry for each equation of a class, in order: the difference of the two
sides for an equation between them, and nothing for equations of other kinds. -/
theorem equations_entries (flat : Id) (g : Graph) :
    Yields (composer.run flat {}) g fun d _ => ∀ t, g.get? flat = some (.classDef t) → t.role = .tree →
      List.Forall₂ (fun cls m => ∃ c, g.get? cls = some (.classDef c) ∧
        List.Forall₂ (Entry g) c.equations m.equations) t.classes.values d.result :=
  (run_describes flat g).imp fun _ _ h t ht hrole =>
    (h.2 t ht hrole).imp fun _ _ hm => hm.imp fun _ hc => ⟨hc.1, hc.2.equations⟩

/-! ### Names -/

/-- The element is a symbol with the name, or a reference to it. -/
def Named (g : Graph) (id : Id) (name : String) : Prop :=
  (∃ s, g.get? id = some (.symbol s) ∧ s.name = name) ∨ ∃ r, g.get? id = some (.reference r) ∧ r.name = name

theorem TextOf.of_named {name text} (h : TextOf g id text) (hn : Named g id name) : text = identifier name := by
  rcases hn with ⟨s, hs, rfl⟩ | ⟨r, hr, rfl⟩
  · exact h.of_symbol hs
  · cases h with
    | reference h => cases h.symm.trans hr; rfl
    | primary h | symbol h | expression h | equation h => cases h.symm.trans hr

/-- No underscore is followed by another or by a point, and the name ends in neither. -/
def Plain (name : List Char) : Prop :=
  ¬ ['_', '_'] <:+: name ∧ ¬ ['_', '.'] <:+: name ∧ ∀ c, name.getLast? = some c → c ≠ '_' ∧ c ≠ '.'

def underscored (name : List Char) : List Char := name.flatMap fun c => if c = '.' then ['_', '_'] else [c]

theorem underscored_cons {c} (h : c ≠ '.') (cs : List Char) : underscored (c :: cs) = c :: underscored cs := by
  simp [underscored, h]

theorem Plain.tail {c cs} (h : Plain (c :: cs)) : Plain cs := by
  have hsuffix := (suffix_cons c cs).isInfix
  refine ⟨fun hi => h.1 (hi.trans hsuffix), fun hi => h.2.1 (hi.trans hsuffix), fun x hx => h.2.2 x ?_⟩
  rw [List.getLast?_cons, hx, Option.getD_some]

theorem pointed_underscored {cs} (h : Plain cs) : pointed (underscored cs) = cs := by
  induction cs with
  | nil => rfl
  | cons c cs ih =>
    have htail := ih h.tail
    by_cases hpoint : c = '.'
    · subst hpoint
      exact congrArg _ htail
    rw [underscored_cons hpoint]
    by_cases hunder : c = '_'
    · subst hunder
      cases cs with
      | nil => exact absurd rfl (h.2.2 '_' rfl).1
      | cons c' cs =>
        have hnext : c' ≠ '_' ∧ c' ≠ '.' :=
          ⟨fun heq => h.1 ⟨[], cs, by simp [heq]⟩, fun heq => h.2.1 ⟨[], cs, by simp [heq]⟩⟩
        rw [underscored_cons hnext.2] at htail ⊢
        rw [pointed, htail]
        simp [hnext.1]
    · rw [pointed, htail]
      simp [hunder]

theorem Plain.underscored_ne {cs} (h : Plain cs) (front : List Char) : underscored cs ≠ front ++ ['_'] := by
  rcases cs.eq_nil_or_concat with rfl | ⟨cs, c, rfl⟩
  · simp [underscored]
  · have hc := h.2.2 c (by simp)
    simp [underscored, hc]

theorem toList_identifier (name : String) : ∃ extra, (extra = [] ∨ extra = ['_']) ∧
    (identifier name).toList = underscored name.toList ++ extra := by
  unfold identifier unreserved
  split
  · exact ⟨['_'], .inr rfl, by simp [underscored]⟩
  · exact ⟨[], .inl rfl, by simp [underscored]⟩

theorem identifier_inj {a b} (ha : Plain a.toList) (hb : Plain b.toList) (h : identifier a = identifier b) : a = b := by
  obtain ⟨x, hx, hxa⟩ := toList_identifier a
  obtain ⟨y, hy, hyb⟩ := toList_identifier b
  rw [h, hyb] at hxa
  have hsame : underscored b.toList = underscored a.toList := by
    rcases hx with rfl | rfl <;> rcases hy with rfl | rfl
    · simpa using hxa
    · exact absurd (by simpa using hxa.symm) (ha.underscored_ne _)
    · exact absurd (by simpa using hxa) (hb.underscored_ne _)
    · simpa using hxa
  rw [← String.toList_inj, ← pointed_underscored ha, ← pointed_underscored hb, hsame]

/-- The text of a symbol and of each reference to it is the identifier of its name. Plain names
that differ get different ones; `a.b` and `a__b` do not, and neither do `psi` and `psi_`. -/
theorem identifiers_distinct (flat : Id) (g : Graph) :
    Yields (composer.run flat {}) g fun d _ => ∀ a b name name' x y, Named g a name → Named g b name' →
      d.texts.get? a = some x → d.texts.get? b = some y →
      x = identifier name ∧ (name = name' → x = y) ∧
        (Plain name.toList → Plain name'.toList → x = y → name = name') := by
  refine (run_keeps flat g).imp ?_
  rintro d _ ⟨-, h, -⟩ a b name name' x y ha hb hx hy
  obtain rfl := (h.texts a x hx).of_named ha
  obtain rfl := (h.texts b y hy).of_named hb
  exact ⟨rfl, fun hname => hname ▸ rfl, fun hplain hplain' => identifier_inj hplain hplain'⟩

end Script
end Modelica
