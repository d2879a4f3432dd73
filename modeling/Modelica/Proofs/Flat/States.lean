/-
The states of a class.

`Derives` says what stands inside of a derivative: its operand and, below that, every
part of every part, subscripts included. The visit that marks states adds a word to
the keywords of the symbols that are named there (`markStates_marks`). Keywords have
no parts, so what is still to be visited does not depend on what has been marked, and
the graph in the end is determined by the keywords that are marked (`Marked.unique`).
-/
import Modelica.Flat.Model
import Modelica.Proofs.Graph.Visit
import Modelica.Proofs.Table

namespace Modelica

open Build List Element StateT

/-- Keywords with the word `state`. -/
def Element.withState : Element → Element
  | .keywords words => .keywords (if "state" ∈ words then words else words ++ ["state"])
  | e => e

theorem Element.withState_withState (e : Element) : e.withState.withState = e.withState := by
  cases e with
  | keywords words => by_cases h : "state" ∈ words <;> simp [withState, h]
  | _ => rfl

theorem Element.alike_of_withState {e e1 : Element} (h : e1.withState = e.withState) :
    e1.children = e.children ∧ isDerivative e1 = isDerivative e ∧ ∀ r, e1 = .reference r → e = .reference r := by
  have hchildren : ∀ e : Element, e.withState.children = e.children := fun e => by cases e <;> rfl
  have hder : ∀ e : Element, isDerivative e.withState = isDerivative e := fun e => by cases e <;> rfl
  refine ⟨by rw [← hchildren e1, h, hchildren], by rw [← hder e1, h, hder], ?_⟩
  rintro r rfl
  cases e with
  | reference r' => exact h.symm
  | _ => cases h

namespace Graph

variable {g g1 g' : Graph} {P L L' : Id → Prop} {b : Bool} {id k : Id} {e : Element} {c : ClassDef}

/-- Something that `P` describes stands below `id` inside of a derivative, or just
below it if there is a derivative around `id`. -/
inductive Derives (g : Graph) (P : Id → Prop) : Bool → Id → Prop
  | here {id : Id} : P id → Derives g P true id
  | part {b : Bool} {id l : Id} {e : Element} : g.get? id = some e → l ∈ e.children →
      Derives g P (b || isDerivative e) l → Derives g P b id

theorem derives_iff (he : g.get? id = some e) :
    g.Derives P b id ↔ (∃ l ∈ e.children, g.Derives P (b || isDerivative e) l) ∨ b = true ∧ P id := by
  constructor
  · intro h
    cases h with
    | here h => exact .inr ⟨rfl, h⟩
    | part he' hl h =>
      cases he.symm.trans he'
      exact .inl ⟨_, hl, h⟩
  · rintro (⟨l, hl, h⟩ | ⟨rfl, h⟩)
    · exact .part he hl h
    · exact .here h

/-- The keywords `k` belong to the symbol of the class that a reference names. -/
def Names (g : Graph) (c : ClassDef) (k id : Id) : Prop :=
  ∃ r symbol s, g.get? id = some (.reference r) ∧ c.symbols.get? r.name = some symbol ∧
    g.get? symbol = some (.symbol s) ∧ s.keywords = k

def IsDotted (g : Graph) (id : Id) : Prop := ∃ r, g.get? id = some (.reference r) ∧ r.child ≠ []

/-- The keywords that `L` describes have the word `state`, and nothing else differs. -/
structure Marked (g : Graph) (L : Id → Prop) (g' : Graph) : Prop where
  warnings : g'.warnings = g.warnings
  size : g'.size = g.size
  marked : ∀ k, L k → g'.get? k = (g.get? k).map withState
  other : ∀ k, ¬ L k → g'.get? k = g.get? k

namespace Marked

theorem congr (h : g.Marked L g') (hL : ∀ k, L' k ↔ L k) : g.Marked L' g' :=
  (funext fun k => propext (hL k) : L' = L) ▸ h

variable (h : g.Marked L g1)

include h

theorem unique (h' : g.Marked L g') : g' = g1 := by
  have hget : ∀ k, g'.get? k = g1.get? k := fun k => by
    by_cases hk : L k
    · rw [h.marked k hk, h'.marked k hk]
    · rw [h.other k hk, h'.other k hk]
  have helements : g'.elements = g1.elements := Array.ext_getElem? hget
  cases g'
  cases g1
  cases helements
  cases h'.warnings.trans h.warnings.symm
  rfl

theorem trans (h' : g1.Marked L' g') : g.Marked (fun k => L k ∨ L' k) g' := by
  refine ⟨h'.warnings.trans h.warnings, h'.size.trans h.size, fun k hk => ?_, fun k hk => ?_⟩
  · by_cases hL' : L' k
    · rw [h'.marked k hL']
      by_cases hL : L k
      · rw [h.marked k hL, Option.map_map, (funext withState_withState : withState ∘ _ = _)]
      · rw [h.other k hL]
    · rw [h'.other k hL', h.marked k (hk.resolve_right hL')]
  · rw [h'.other k fun hL' => hk (.inr hL'), h.other k fun hL => hk (.inl hL)]

theorem get? (he : g.get? id = some e) : ∃ e1, g1.get? id = some e1 ∧ e1.withState = e.withState := by
  by_cases hk : L id
  · exact ⟨_, by rw [h.marked id hk, he, Option.map_some], e.withState_withState⟩
  · exact ⟨e, by rw [h.other id hk, he], rfl⟩

/-- What is not keywords is as it was. -/
theorem get?_of (he : g.get? id = some e) (hkind : e.withState = e) : g1.get? id = some e := by
  by_cases hk : L id
  · rw [h.marked id hk, he, Option.map_some, hkind]
  · rw [h.other id hk, he]

end Marked
end Graph

namespace Build

open Modelica.Graph

variable {g g1 : Graph} {L : Id → Prop} {cls id : Id} {c : ClassDef} {e : Element} {n : Nat} {l : List Id}

theorem markState_marks {symbol s words} (hs : g.SymbolAt symbol s) (hw : g.KeywordsAt s.keywords words) :
    Runs (markState symbol) g fun _ g' => g.Marked (· = s.keywords) g' := by
  simp only [markState, ends_bind]
  rw [ends_symbolAt hs, ends_wordsAt hw]
  by_cases hstate : "state" ∈ words
  · rw [if_neg (by simp [hstate])]
    refine ⟨rfl, rfl, fun k hk => ?_, fun _ _ => rfl⟩
    rw [hk, hw]
    simp [withState, hstate]
  · rw [if_pos (by simp [hstate])]
    refine ⟨rfl, size_set g _ _, fun k hk => ?_, fun k hk => get?_set_other g _ hk⟩
    rw [hk, get?_set hw _, hw]
    simp [withState, hstate]

/-- The symbols of a class can be marked. -/
def Markable (g : Graph) (c : ClassDef) : Prop := ∀ x ∈ c.symbols.entries,
  ∃ s words, g.get? x.2 = some (.symbol s) ∧ g.get? s.keywords = some (.keywords words)

/-- A part of the visit goes through the elements of `l` inside of `n` derivatives: it
marks what is named there, unless it comes to a dotted reference. -/
def MarksAll (g : Graph) (c : ClassDef) (n : Nat) (l : List Id) (x : StateT Nat Build Unit) : Prop :=
  ∀ L g1, g.Marked L g1 → Ends (x.run n) g1
    (fun r g' => r.2 = n ∧ (¬ ∃ id ∈ l, g.Derives g.IsDotted (decide (0 < n)) id) ∧
      g.Marked (fun k => L k ∨ ∃ id ∈ l, g.Derives (g.Names c k) (decide (0 < n)) id) g')
    fun f _ => f = .assertion "" ∧ ∃ id ∈ l, g.Derives g.IsDotted (decide (0 < n)) id

theorem MarksAll.forIn {f : Id → StateT Nat Build Unit} (h : ∀ id ∈ l, MarksAll g c n [id] (f id)) :
    MarksAll g c n l (forIn l PUnit.unit fun id _ => do f id; pure (.yield PUnit.unit)) := by
  induction l with
  | nil => exact fun L g1 h => ⟨rfl, by simp, h.congr fun k => by simp⟩
  | cons id l ih =>
    obtain ⟨hid, hl⟩ := forall_mem_cons.1 h
    intro L g1 h
    simp only [forIn_cons, run_bind, bind_assoc, pure_bind, ends_bind, mem_cons, exists_eq_or_imp]
    simp only [MarksAll, mem_singleton, exists_eq_left] at hid
    refine (hid L g1 h).imp ?_ fun f _ hf => ⟨hf.1, .inl hf.2⟩
    rintro ⟨_, _⟩ g2 ⟨rfl, hplain, h2⟩
    refine (ih hl _ g2 h2).imp ?_ fun f _ hf => ⟨hf.1, .inr hf.2⟩
    exact fun x g3 h3 => ⟨h3.1, not_or.2 ⟨hplain, h3.2.1⟩, h3.2.2.congr fun k => or_assoc.symm⟩

theorem exit_reference (hc : g.ClassAt cls c) (hs : Markable g c) (h : g.Marked L g1) {r} (hr : g.ReferenceAt id r) :
    Ends (((stateVisitor cls).exit id).run n) g1
      (fun x g' => x.2 = n ∧ ¬ (0 < n ∧ g.IsDotted id) ∧ g.Marked (fun k => L k ∨ 0 < n ∧ g.Names c k id) g')
      fun f _ => f = .assertion "" ∧ 0 < n ∧ g.IsDotted id := by
  have hdotted : g.IsDotted id ↔ r.child ≠ [] := by simp [IsDotted, hr]
  have hnames : ∀ k, g.Names c k id ↔
      ∃ symbol s, c.symbols.get? r.name = some symbol ∧ g.SymbolAt symbol s ∧ s.keywords = k := fun k => by
    simp [Names, hr]
  simp only [stateVisitor, run_bind, run_lift, ends_bind, ends_element (h.get?_of hr rfl), ends_pure,
    run_get, hdotted, hnames]
  by_cases hn : 0 < n
  · rw [if_pos hn]
    by_cases hchild : r.child = []
    · simp only [hchild, isEmpty_nil, Bool.not_true, Bool.false_eq_true, if_false, ends_lift_bind, ends_classAt (h.get?_of hc rfl)]
      cases hname : c.symbols.get? r.name with
      | none => exact ⟨rfl, by simp, h.congr fun k => by simp⟩
      | some symbol =>
        obtain ⟨s, words, hsymbol, hwords⟩ := hs _ (Table.mem_entries_of_get? hname)
        obtain ⟨e1, he1, hsame⟩ := h.get? hwords
        obtain ⟨words', rfl⟩ : ∃ words', e1 = .keywords words' := by
          cases e1 with
          | keywords words' => exact ⟨words', rfl⟩
          | _ => cases hsame
        simp only [run_lift, ends_bind, ends_pure]
        refine Ends.imp (markState_marks (h.get?_of hsymbol rfl) he1) (fun _ g2 h2 => ?_) fun _ _ h' => h'.elim
        exact ⟨trivial, by simp, (h.trans h2).congr fun k => or_congr_right (by simp [hsymbol, hn, eq_comm])⟩
    · rw [if_pos (by simp [hchild])]
      exact ⟨rfl, hn, hchild⟩
  · rw [if_neg hn]
    exact ⟨rfl, fun h' => hn h'.1, h.congr fun k => or_iff_left fun h' => hn h'.1⟩

/-- The number of derivatives around the parts of an element. -/
def inner (e : Element) (n : Nat) : Nat := if isDerivative e then n + 1 else n

theorem inner_pos (e : Element) (n : Nat) : decide (0 < inner e n) = (decide (0 < n) || isDerivative e) := by
  cases h : isDerivative e <;> simp [inner, h]

theorem exit_other (he : g1.get? id = some e) (hr : ∀ r, e ≠ .reference r) (n : Nat) :
    Runs (((stateVisitor cls).exit id).run (inner e n)) g1 fun x g' => x.2 = n ∧ g' = g1 := by
  simp only [stateVisitor, ends_lift_bind, ends_element he]
  split
  · next hder => exact ⟨by simp [inner, hder], rfl⟩
  · next hder => exact ⟨by simp [inner, hder], rfl⟩

theorem enter_counts (he : g1.get? id = some e) (n : Nat) :
    Runs (((stateVisitor cls).enter id).run n) g1 fun x g' => x.2 = inner e n ∧ g' = g1 := by
  simp only [stateVisitor, ends_lift_bind, ends_element he]
  split
  · next hder => exact ⟨by simp [inner, hder], rfl⟩
  · next hder => exact ⟨by simp [inner, hder], rfl⟩

theorem walk_marks (hc : g.ClassAt cls c) (hs : Markable g c) {p d m} (hd : d ≤ m)
    (ht : g.Tree p d id) (n : Nat) : MarksAll g c n [id] ((stateVisitor cls).walk m id) := by
  induction m generalizing id d n with
  | zero =>
    have := ht.pos
    omega
  | succ m ih =>
    obtain ⟨d, rfl⟩ := Nat.exists_eq_add_one.2 ht.pos
    obtain ⟨e, he, _, _, hl⟩ := ht
    intro L g1 h
    obtain ⟨e1, he1, hsame⟩ := h.get? he
    obtain ⟨hchildren, hder, _⟩ := alike_of_withState hsame
    have hinner : inner e1 n = inner e n := by rw [inner, inner, hder]
    simp only [Visitor.walk, run_bind, run_lift, ends_bind, ends_pure]
    refine Ends.imp (enter_counts he1 n) ?_ fun _ _ h' => h'.elim
    rintro ⟨_, _⟩ _ ⟨rfl, rfl⟩
    rw [ends_element he1, hchildren, hinner]
    have hloop := MarksAll.forIn fun l hmem => ih (by omega) (hl l (mem_links_of_mem_children hmem)) (inner e n)
    simp only [MarksAll, inner_pos] at hloop
    simp only [mem_singleton, exists_eq_left, derives_iff he]
    refine (hloop L _ h).imp ?_ fun f _ hf => ⟨hf.1, .inl hf.2⟩
    rintro ⟨_, _⟩ g2 ⟨rfl, hparts, h2⟩
    by_cases hr : ∃ r, e = .reference r
    · obtain ⟨r, rfl⟩ := hr
      refine (exit_reference (n := n) hc hs h2 he).imp ?_ fun f _ hf => ⟨hf.1, .inr (by simpa using hf.2)⟩
      exact fun x g3 h3 => ⟨h3.1, not_or.2 ⟨hparts, by simpa using h3.2.1⟩, h3.2.2.congr fun k => by simp [or_assoc]⟩
    · obtain ⟨e2, he2, hsame2⟩ := h2.get? he
      obtain ⟨_, hder2, href⟩ := alike_of_withState hsame2
      rw [show inner e n = inner e2 n by rw [inner, inner, hder2]]
      refine Ends.imp (exit_other he2 (fun r hr' => hr ⟨r, href r hr'⟩) n) ?_ fun _ _ h' => h'.elim
      rintro x _ ⟨hx, rfl⟩
      have hother : ∀ r, g.get? id ≠ some (.reference r) := fun r hr' => hr ⟨r, Option.some.inj (he.symm.trans hr')⟩
      exact ⟨hx, not_or.2 ⟨hparts, by simp [IsDotted, hother]⟩, h2.congr fun k => by simp [Names, hother]⟩

/-- **The states of a class** are the symbols named inside of derivatives: in the
operand, in arguments and in subscripts, however deep. Their keywords get the word
`state` unless they have it, and nothing else changes, so that nothing at all
changes the second time. A dotted reference inside of a derivative is refused. -/
theorem markStates_marks {p d} (hc : g.get? cls = some (.classDef c)) (hs : Markable g c) (ht : g.Tree p d cls) :
    Ends (markStates cls) g
      (fun _ g' => ¬ g.Derives g.IsDotted false cls ∧ g.Marked (fun k => g.Derives (g.Names c k) false cls) g' ∧
        Runs (markStates cls) g' fun _ g'' => g'' = g')
      fun f _ => f = .assertion "" ∧ g.Derives g.IsDotted false cls := by
  have hrun : ∀ L g1, g.Marked L g1 → Ends (markStates cls) g1
      (fun _ g' => ¬ g.Derives g.IsDotted false cls ∧
        g.Marked (fun k => L k ∨ g.Derives (g.Names c k) false cls) g')
      fun f _ => f = .assertion "" ∧ g.Derives g.IsDotted false cls := fun L g1 h => by
    have hwalk := walk_marks hc hs (Nat.le_succ_of_le h.size.ge) ht.bounded 0 L g1 h
    simp only [List.mem_singleton, exists_eq_left] at hwalk
    simp only [markStates, ends_discard, Visitor.run, ends_bind, ends_size]
    exact hwalk.imp (fun _ _ h' => h'.2) fun _ _ => id
  have hnone : g.Marked (fun _ => False) g := ⟨rfl, rfl, fun _ => False.elim, fun _ _ => rfl⟩
  refine (hrun _ g hnone).imp ?_ fun _ _ => id
  rintro _ g' ⟨hplain, h'⟩
  simp only [false_or] at h'
  refine ⟨hplain, h', (hrun _ g' h').imp (fun _ g'' h'' => ?_) fun _ _ hf => hplain hf.2⟩
  simp only [or_self] at h''
  exact h'.unique h''.2

/-- A class with the equation `der(x[k]) = k`, where `k` is a parameter. -/
def decay : Graph where
  elements := #[
    .reference { name := "Real" }, .keywords [], .keywords ["parameter"],
    .symbol (plain "x" 0 none), .symbol { plain "k" 0 none with keywords := 2 },
    .reference { name := "k" }, .reference { name := "x", indices := [[.node 5]] },
    .expression (.text "der") [.node 6], .reference { name := "k" }, .equation (.node 7) (.node 8) "",
    .classDef { symbols := ⟨[("x", 3), ("k", 4)]⟩, equations := [9] }]

/-- The parameter becomes a state, since it stands in a subscript. -/
theorem markStates_marks_decay : ∃ c, decay.get? 10 = some (.classDef c) ∧ Markable decay c ∧
    decay.Tree (fun _ _ => True) 11 10 ∧ Runs (markStates 10) decay fun _ g' =>
      g'.get? 2 = some (.keywords ["parameter", "state"]) ∧ Runs (markStates 10) g' fun _ g'' => g'' = g' := by
  have hs : Markable decay { symbols := ⟨[("x", 3), ("k", 4)]⟩, equations := [9] } := by
    simp only [Markable, List.forall_mem_cons, List.not_mem_nil, false_imp_iff, implies_true, and_true]
    exact ⟨⟨_, _, rfl, rfl⟩, ⟨_, _, rfl, rfl⟩⟩
  have ht : decay.Tree (fun _ _ => True) 11 10 := by decide
  obtain ⟨g', hrun⟩ : ∃ g', markStates 10 decay = .ok () g' := ⟨_, rfl⟩
  have hmarked : decay.Derives (decay.Names { symbols := ⟨[("x", 3), ("k", 4)]⟩, equations := [9] } 2) false 10 :=
    .part (l := 9) rfl (by decide) (.part (l := 7) rfl (by decide) (.part (l := 6) rfl (by decide)
      (.part (l := 5) rfl (by decide) (.here ⟨_, _, _, rfl, rfl, rfl, rfl⟩))))
  have hends := markStates_marks rfl hs ht
  refine ⟨_, rfl, hs, ht, ?_⟩
  simp only [Ends, hrun] at hends ⊢
  exact ⟨by rw [hends.2.1.marked 2 hmarked]; rfl, hends.2.2⟩

end Build
end Modelica
