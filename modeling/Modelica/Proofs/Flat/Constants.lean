/-
Which constants are entered in an instance, and for which references.

Pulling constants writes the symbol tables of instances and nothing else
(`Enriched`). What it enters in a class are symbols found for references that
stand in the class itself, not in an instance or a reference inside it
(`Occurs`). The search begins with the first name of the reference, at a class
that can be seen from there or at a constant component (`Finds.first`), so a
component that is no constant is left alone unless a class has the same name.

The tables grow while the visit goes on, so the class may have been entered on
one graph (`g0`), and the reference looked up on a later one (`g1`).
-/
import Modelica.Flat
import Modelica.Proofs.Graph.Frame
import Modelica.Proofs.Table

namespace Modelica

open Element StateT

/-- Whether what an element holds counts as standing where the element stands. -/
def Element.isOpen : Element → Bool
  | .reference _ => false
  | .classDef c => c.role != .instanced
  | _ => true

/-- The same element, or an instance with more symbols. -/
def Element.Enriched (e e' : Element) : Prop :=
  e' = e ∨ ∃ c t, e = .classDef c ∧ c.role = .instanced ∧ c.symbols.keys <+: t.keys ∧ e' = .classDef { c with symbols := t }

namespace Element.Enriched

variable {e e1 e' : Element}

theorem trans (h : e.Enriched e1) (h' : e1.Enriched e') : e.Enriched e' := by
  rcases h with rfl | ⟨c, t, rfl, hrole, hkeys, rfl⟩
  · exact h'
  · rcases h' with rfl | ⟨_, t', ⟨⟩, -, hkeys', rfl⟩
    · exact .inr ⟨c, t, rfl, hrole, hkeys, rfl⟩
    · exact .inr ⟨c, t', rfl, hrole, hkeys.trans hkeys', rfl⟩

theorem isOpen (h : e.Enriched e') : e'.isOpen = e.isOpen := by
  rcases h with rfl | ⟨c, t, rfl, -, -, rfl⟩ <;> rfl

theorem eq_of_isOpen (h : e.Enriched e') (hopen : e.isOpen = true) : e' = e := by
  rcases h with rfl | ⟨c, t, rfl, hrole, -⟩
  · rfl
  · simp [Element.isOpen, hrole] at hopen

end Element.Enriched

namespace Graph

variable {g g0 g1 g' : Graph} {cls id : Id}

/-- The second graph is the first one with more symbols in instances. -/
structure Enriched (g g' : Graph) : Prop where
  warnings : g'.warnings = g.warnings
  size : g'.size = g.size
  kept : ∀ id e, g.get? id = some e → ∃ e', g'.get? id = some e' ∧ e.Enriched e'

namespace Enriched

theorem refl (g : Graph) : g.Enriched g := ⟨rfl, rfl, fun _ e he => ⟨e, he, .inl rfl⟩⟩

theorem trans (h : g.Enriched g1) (h' : g1.Enriched g') : g.Enriched g' where
  warnings := h'.warnings.trans h.warnings
  size := h'.size.trans h.size
  kept id e he := by
    obtain ⟨e1, he1, h1⟩ := h.kept id e he
    obtain ⟨e', he', h'⟩ := h'.kept id e1 he1
    exact ⟨e', he', h1.trans h'⟩

theorem back {e'} (h : g.Enriched g') (he' : g'.get? id = some e') : ∃ e, g.get? id = some e ∧ e.Enriched e' := by
  have hid : id < g.size := h.size ▸ get?_lt he'
  obtain ⟨e1, he1, h1⟩ := h.kept id _ (Array.getElem?_eq_getElem hid)
  obtain rfl : e1 = e' := Option.some.inj (he1.symm.trans he')
  exact ⟨_, Array.getElem?_eq_getElem hid, h1⟩

theorem instanced (h : g.Enriched g') (hid : g.IsInstance id) : g'.IsInstance id := by
  obtain ⟨c, hc, hrole⟩ := hid
  obtain ⟨e', he', rfl | ⟨_, t, ⟨⟩, -, -, rfl⟩⟩ := h.kept id _ hc
  · exact ⟨c, he', hrole⟩
  · exact ⟨_, he', hrole⟩

theorem set {c t} (hc : g.ClassAt id c) (hrole : c.role = .instanced)
    (hkeys : c.symbols.keys <+: t.keys) : g.Enriched (g.set id (.classDef { c with symbols := t })) := by
  refine ⟨rfl, by simp, fun a e he => ?_⟩
  by_cases ha : a = id
  · subst ha
    obtain rfl : e = .classDef c := Option.some.inj (he.symm.trans hc)
    exact ⟨_, get?_set hc _, .inr ⟨c, t, rfl, hrole, hkeys, rfl⟩⟩
  · exact ⟨e, (get?_set_other g _ ha).trans he, .inl rfl⟩

theorem spared (h : g.Enriched g') (n : Nat) : g.Spared n g' where
  size_le := Nat.le_of_eq h.size.symm
  kept id e he := by
    obtain ⟨e', he', rfl | ⟨c, t, rfl, hrole, -, rfl⟩⟩ := h.kept id e he
    · exact ⟨e', he', rfl, fun _ => rfl⟩
    · exact ⟨_, he', rfl, fun _ => by simp only [lasting, ClassDef.lasting, hrole, if_true]⟩
  outside := by
    rintro id ⟨hid, c, hc, hinst, hfunctions⟩
    obtain ⟨e', he', rfl | ⟨_, t, ⟨⟩, hrole, -⟩⟩ := h.kept id _ hc
    · exact ⟨hid, c, he', hinst, hfunctions⟩
    · exact absurd hrole hinst

end Enriched

/-! ### References in a class -/

/-- The element is reached from `top` without going through a reference or an instance. -/
inductive Below (g : Graph) (top : Id) : Id → Prop
  | top : Below g top top
  | child {id child : Id} {e : Element} : Below g top id → g.get? id = some e → e.isOpen = true → child ∈ e.children →
      Below g top child

/-- The element stands in the class, and in no reference and no instance inside it. -/
def Occurs (g : Graph) (cls id : Id) : Prop :=
  ∃ c top, g.get? cls = some (.classDef c) ∧ top ∈ c.children ∧ g.Below top id

/-- A class of that name is found in the class or around it. -/
def Sees (g : Graph) (cls : Id) (name : String) : Prop := ∃ found, Build.search cls [name] g = .ok found g

/-- The component of a class that has the given name. -/
def component? (g : Graph) (cls : Id) (name : String) : Option Id :=
  match g.get? cls with
  | some (.classDef c) => c.symbols.get? name
  | _ => none

/-- The class has a component of that name, and it is a constant. -/
def HasConstant (g : Graph) (cls : Id) (name : String) : Prop :=
  ∃ s sym words, g.component? cls name = some s ∧ g.get? s = some (.symbol sym) ∧
    g.get? sym.keywords = some (.keywords words) ∧ "constant" ∈ words

/-- The reference has the names `name :: next :: rest`, and denotes `s` in the class. -/
structure Finds (g : Graph) (cls ref : Id) (name next : String) (rest : List String) (s : Id) : Prop where
  path : Build.path ref g = .ok (name :: next :: rest) g
  found : Build.findConstant cls (name :: next :: rest) g = .ok s g
  first : g.Sees cls name ∨ g.HasConstant cls name

/-- The symbol has been found for a reference in the class, under the dotted text of the reference, on the way from
`g` to `g'`. -/
def Pulled (g g' : Graph) (cls : Id) (key : String) (s : Id) : Prop :=
  ∃ g0 g1 ref name next rest, g.Enriched g0 ∧ g0.Enriched g1 ∧ g1.Enriched g' ∧ g0.Occurs cls ref ∧
    g1.Finds cls ref name next rest s ∧ key = dottedText (name :: next :: rest)

/-- Whatever symbol a class has in the second graph, it had in the first one or it has been pulled. -/
def Accounts (g g' : Graph) : Prop :=
  ∀ id c c', g.get? id = some (.classDef c) → g'.get? id = some (.classDef c') →
    ∀ entry ∈ c'.symbols.entries, entry ∈ c.symbols.entries ∨ g.Pulled g' id entry.1 entry.2

theorem Pulled.mono {key s} (h : g.Pulled g1 cls key s) (hg : g1.Enriched g') : g.Pulled g' cls key s := by
  obtain ⟨g0, g2, ref, name, next, rest, h0, h2, h1, hrest⟩ := h
  exact ⟨g0, g2, ref, name, next, rest, h0, h2, h1.trans hg, hrest⟩

theorem Accounts.refl (g : Graph) : g.Accounts g := by
  intro id c c' hc hc' entry hentry
  obtain rfl : c = c' := classDef.inj (Option.some.inj (hc.symm.trans hc'))
  exact .inl hentry

theorem Accounts.enter {c found} (h : g.Accounts g1) (hc : g1.ClassAt cls c)
    (hrole : c.role = .instanced) (hfound : ∀ entry ∈ found.entries, g.Pulled g1 cls entry.1 entry.2) :
    g1.Enriched (g1.set cls (.classDef { c with symbols := c.symbols.insertAll found })) ∧
      g.Accounts (g1.set cls (.classDef { c with symbols := c.symbols.insertAll found })) := by
  have hset := Enriched.set hc hrole (Table.keys_prefix_insertAll c.symbols found)
  refine ⟨hset, fun id k k' hk hk' entry hentry => ?_⟩
  have hold : ∀ k1, g1.ClassAt id k1 → entry ∈ k1.symbols.entries →
      entry ∈ k.symbols.entries ∨ g.Pulled _ id entry.1 entry.2 := fun k1 hk1 hmem =>
    (h id k k1 hk hk1 entry hmem).imp_right (·.mono hset)
  by_cases hid : id = cls
  · subst hid
    rw [get?_set hc _, Option.some.injEq, classDef.injEq] at hk'
    subst hk'
    rcases Table.mem_entries_insertAll hentry with hentry | hentry
    · exact hold c hc hentry
    · exact .inr ((hfound entry hentry).mono hset)
  · rw [get?_set_other _ _ hid] at hk'
    exact hold k' hk' hentry

end Graph

/-! ### Looking constants up -/

namespace Build

variable {α : Type} {g : Graph}

namespace Reads

theorem cases {x : Build α} (h : Reads x) (g : Graph) : (∃ a, x g = .ok a g) ∨ ∃ f, x g = .error f g := by
  have hx := h g
  simp only [Ends] at hx
  cases hg : x g with
  | ok a g' => exact .inl ⟨a, by rw [hg] at hx; rw [hx]⟩
  | error f g' => exact .inr ⟨f, by rw [hg] at hx; rw [hx.1]⟩

theorem ends_of {x} {Q : α → Graph → Prop} {F} (h : Reads x)
    (hQ : ∀ a, x g = .ok a g → Q a g) (hF : ∀ f, F f g) : Ends x g Q F := by
  simp only [Ends]
  obtain ⟨a, ha⟩ | ⟨f, hf⟩ := h.cases g
  · rw [ha]
    exact hQ a ha
  · rw [hf]
    exact hF f

theorem wordsAt (id : Id) : Reads (wordsAt id) :=
  (element id).bind fun e => by
    cases e with
    | keywords words => exact pure words
    | _ => exact throw (by decide)

theorem keywordsOf (symbol : Id) : Reads (keywordsOf symbol) := (symbolAt symbol).bind fun s => wordsAt s.keywords

theorem attempt {expected} {x : Build α} (hx : Reads x) : Reads (attempt expected x) := fun g => by
  refine ends_attempt.2 ((hx g).imp (fun _ _ h => h) fun f g' h => ?_)
  split
  · exact h.1
  · exact h

theorem searchOne (outwards : Bool) (scope : Id) (name : String) : Reads (searchOne outwards scope name) := by
  simp only [Build.searchOne]
  split
  · exact (search scope [name]).attempt
  · exact follow scope [name]

theorem findConstantFrom (outwards : Bool) (scope : Id) (path : List String) :
    Reads (findConstantFrom outwards scope path) := by
  induction path generalizing outwards scope with
  | nil => exact throw (by decide)
  | cons name rest ih =>
    cases rest with
    | nil =>
      refine (classAt scope).bind fun c => ?_
      split
      · exact pure _
      · exact throw (by decide)
    | cons next rest =>
      simp only [Build.findConstantFrom]
      refine (attempt ((searchOne outwards scope name).bind fun found => ?_)).bind fun direct => ?_
      · split
        · exact ih false _
        · exact throw (by simp [Fault.root])
      · split
        · exact pure _
        · refine (classAt scope).bind fun c => ?_
          split
          · exact throw (by decide)
          · refine (keywordsOf _).bind fun words => ?_
            split
            · exact throw (by decide)
            · refine (symbolAt _).bind fun s => (typeForm _).bind fun form => ?_
              split
              · exact ih false _
              · exact (path _).bind fun p => (search scope p).bind fun c => ih false c
              · exact throw (by decide)

end Reads

theorem ends_wordsAt_of {id Q F}
    (hQ : ∀ words, g.KeywordsAt id words → Q words g) (hF : F .noPart g) : Ends (wordsAt id) g Q F := by
  refine ends_bind.2 (ends_element_of (fun e he => ?_) hF)
  cases e with
  | keywords words => exact hQ words he
  | _ => exact hF

theorem yields_const {x : Build α} {p : Prop} (h : p) : Yields x g fun _ _ => p := by
  simp only [Ends]
  split <;> trivial

theorem findConstant_first (cls : Id) (name next : String) (rest : List String) :
    Yields (findConstant cls (name :: next :: rest)) g fun _ _ => g.Sees cls name ∨ g.HasConstant cls name := by
  by_cases hsees : g.Sees cls name
  · exact yields_const (.inl hsees)
  · simp only [findConstant, findConstantFrom, searchOne, if_true, ends_bind, ends_attempt]
    refine (Reads.search cls [name]).ends_of (fun found hfound => (hsees ⟨found, hfound⟩).elim) fun f => ?_
    split
    · simp only [ends_throw, Fault.root, if_true]
      refine ends_classAt_of (fun c hc => ?_) trivial
      split
      · trivial
      · next s hs =>
        rw [keywordsOf, bind_assoc, ends_bind]
        refine ends_symbolAt_of (fun sym hsym => ends_bind.2 ?_) trivial
        refine ends_wordsAt_of (fun words hwords => ?_) trivial
        split
        · trivial
        · next hconst =>
          exact yields_const (.inr ⟨s, sym, words, by simp only [Graph.component?, hc, hs], hsym, hwords, by simpa using hconst⟩)
    · simp

theorem path_dotted {ref r} (hr : g.ReferenceAt ref r) (hchild : r.child ≠ []) :
    Yields (path ref) g fun p _ => ∃ name next rest, p = name :: next :: rest := by
  simp only [path, pathTo, ends_bind, ends_size, ends_referenceAt hr]
  split
  · next h => exact absurd h hchild
  · next c _ _ =>
    have hnext : Yields (pathTo g.size c) g fun p _ => ∃ next rest, p = next :: rest := by
      cases g.size with
      | zero => trivial
      | succ n =>
        refine ends_bind.2 ((Reads.referenceAt c).ends (fun r' => ?_) fun _ _ => trivial)
        split
        · exact ⟨_, _, rfl⟩
        · exact ends_bind.2 ((Reads.pathTo n _).ends (fun _ => ⟨_, _, rfl⟩) fun _ _ => trivial)
    refine hnext.bind ?_
    rintro _ _ ⟨next, rest, rfl⟩
    exact ⟨_, next, rest, rfl⟩

end Build

/-! ### The visit -/

namespace ConstantSearch

open Build
open Modelica.Graph (IsInstance)

variable {g g1 g2 : Graph} {s s' : ConstantSearch} {id : Id}

variable {e : Element}

/-- The classes around the place of a visit, the innermost one first. -/
def places (s : ConstantSearch) : List Id := s.around.map (·.1)

/-- What holds on a visit that began on `g`. -/
structure Searching (g : Graph) (s : ConstantSearch) (g1 : Graph) : Prop where
  enriched : g.Enriched g1
  accounts : g.Accounts g1
  around : ∀ p ∈ s.around, g1.IsInstance p.1 ∧ ∀ entry ∈ p.2.entries, g.Pulled g1 p.1 entry.1 entry.2

/-- Outside of references, the element stands in the innermost class. -/
def Located (g : Graph) (s : ConstantSearch) (g1 : Graph) (id : Id) : Prop :=
  s.depth = 0 → ∀ cls ∈ s.places.head?, ∃ g0, g.Enriched g0 ∧ g0.Enriched g1 ∧ g0.Occurs cls id

/-- The place of a visit inside an element, from the place of the element. -/
def Inside (e : Element) (id : Id) (s s' : ConstantSearch) : Prop :=
  match e with
  | .reference _ => s'.depth = s.depth + 1 ∧ s'.places = s.places
  | .classDef c => s'.depth = s.depth ∧ s'.places = if c.role = .instanced then id :: s.places else s.places
  | _ => s'.depth = s.depth ∧ s'.places = s.places

theorem Located.enriched (h : Located g s g1 id) (hg : g1.Enriched g2) (hdepth : s'.depth = s.depth)
    (hplaces : s'.places = s.places) : Located g s' g2 id := by
  rintro hd cls hcls
  obtain ⟨g0, h0, h1, hh⟩ := h (hdepth ▸ hd) cls (hplaces ▸ hcls)
  exact ⟨g0, h0, h1.trans hg, hh⟩

theorem Located.child (h : Located g s g1 id) (he : g1.get? id = some e) (hopen : e.isOpen = true) {c}
    (hc : c ∈ e.children) : Located g s g1 c := by
  intro hd cls hcls
  obtain ⟨g0, h0, h1, k, top, hk, htop, hbelow⟩ := h hd cls hcls
  obtain ⟨e0, he0, hee⟩ := h1.back he
  obtain rfl := hee.eq_of_isOpen (hee.isOpen ▸ hopen)
  exact ⟨g0, h0, h1, k, top, hk, htop, .child hbelow he0 hopen hc⟩

theorem enterReference_ends (h : Searching g s g1) (hid : Located g s g1 id) {r : Reference}
    (hr : g1.ReferenceAt id r) :
    Ends ((enterReference id r).run s) g1 (fun q g2 => g2 = g1 ∧ Searching g q.2 g1 ∧ Inside (.reference r) id s q.2)
      fun _ g2 => g2 = g1 := by
  simp only [enterReference, run_bind, run_get, run_set, pure_bind]
  split
  · next hc =>
    split
    · rfl
    · next cls found outer hall =>
      simp only [ends_lift_bind]
      refine (Reads.path id).ends_of (fun p hp => ?_) fun _ => rfl
      obtain ⟨name, next, rest, rfl⟩ := yields_iff.1 (path_dotted hr (by simpa using hc.2)) p g1 hp
      have hcls := h.around (cls, found) (hall ▸ (.head _))
      refine ends_attempt.2 ((Reads.findConstantFrom true cls _).ends_of (fun c hc' => ⟨rfl, ⟨h.enriched, h.accounts, ?_⟩, rfl, ?_⟩)
        fun f => ?_)
      · refine List.forall_mem_cons.2 ⟨⟨hcls.1, fun entry hentry => ?_⟩, fun p hp => h.around p (hall ▸ .tail _ hp)⟩
        rcases Table.mem_entries_insert hentry with rfl | hentry
        · obtain ⟨g0, h0, h1, hoccurs⟩ := hid hc.1 cls (by simp [places, hall])
          have hfirst := yields_iff.1 (findConstant_first cls name next rest) c g1 hc'
          exact ⟨g0, g1, id, name, next, rest, h0, h1, .refl g1, hoccurs, ⟨hp, hc', hfirst⟩, rfl⟩
        · exact hcls.2 entry hentry
      · simp [places, hall]
      · split
        · exact ⟨rfl, ⟨h.enriched, h.accounts, h.around⟩, rfl, rfl⟩
        · rfl
  · exact ⟨rfl, ⟨h.enriched, h.accounts, h.around⟩, rfl, rfl⟩

theorem enter_ends (h : Searching g s g1) (hid : Located g s g1 id) :
    Ends ((visitor.enter id).run s) g1 (fun q g2 => g2 = g1 ∧ Searching g q.2 g1 ∧
      ∃ e, g1.get? id = some e ∧ Inside e id s q.2 ∧ ∀ c ∈ e.children, Located g q.2 g1 c) fun _ g2 => g2 = g1 := by
  simp only [visitor, ends_lift_bind]
  refine ends_element_of (fun e he => ?_) rfl
  have hopen : e.isOpen = true → ∀ c ∈ e.children, Located g s g1 c := fun ho c hc => hid.child he ho hc
  cases e with
  | reference r =>
    refine (enterReference_ends h hid he).imp ?_ fun _ _ h => h
    rintro q _ ⟨rfl, hs, hin⟩
    exact ⟨rfl, hs, _, he, hin, fun c _ hd => absurd (hin.1.symm.trans hd) (Nat.succ_ne_zero _)⟩
  | classDef c =>
    cases hrole : c.role with
    | instanced =>
      simp only [hrole]
      refine ⟨rfl, ⟨h.enriched, h.accounts, List.forall_mem_cons.2 ⟨⟨⟨c, he, hrole⟩, by simp⟩, h.around⟩⟩, _, he, ?_, ?_⟩
      · exact ⟨rfl, by rw [if_pos hrole]; rfl⟩
      · rintro k hk _ cls hcls
        obtain rfl : id = cls := Option.some.inj hcls
        exact ⟨g1, h.enriched, .refl g1, c, k, he, hk, .top⟩
    | declared =>
      simp only [hrole]
      rfl
    | tree =>
      simp only [hrole]
      exact ⟨rfl, h, _, he, ⟨rfl, by rw [if_neg (by simp [hrole])]⟩, hopen (by simp [Element.isOpen, hrole])⟩
  | _ => exact ⟨rfl, h, _, he, ⟨rfl, rfl⟩, hopen rfl⟩

theorem Inside.enriched {e'} (hin : Inside e id s s') (h : e.Enriched e') : Inside e' id s s' := by
  rcases h with rfl | ⟨c, t, rfl, -, -, rfl⟩ <;> exact hin

theorem Inside.congr {t} (hin : Inside e id s s') (hd : t.depth = s'.depth)
    (hp : t.places = s'.places) : Inside e id s t := by
  cases e <;> exact ⟨hd.trans hin.1, hp.trans hin.2⟩

theorem exit_ends (h : Searching g s' g2) (he : g2.get? id = some e) (hin : Inside e id s s') :
    Ends ((visitor.exit id).run s') g2 (fun q g3 => Searching g q.2 g3 ∧ g2.Enriched g3 ∧ q.2.depth = s.depth ∧
      q.2.places = s.places) fun _ g3 => g.Enriched g3 ∧ g.Accounts g3 := by
  simp only [visitor, ends_lift_bind, ends_element he]
  cases e with
  | reference r =>
    refine ⟨⟨h.enriched, h.accounts, h.around⟩, .refl g2, ?_, hin.2⟩
    show s'.depth - 1 = s.depth
    rw [hin.1, Nat.add_sub_cancel]
  | classDef c =>
    obtain ⟨hdepth, hplaces⟩ := hin
    dsimp only
    split
    · next hrole =>
      rw [if_pos hrole] at hplaces
      simp only [run_bind, run_get, pure_bind]
      split
      · next cls found outer hall =>
        simp only [ends_lift_bind]
        obtain ⟨⟨k, hk, hinst⟩, hfound⟩ := h.around (cls, found) (hall ▸ (.head _))
        obtain ⟨hset, haccounts⟩ := h.accounts.enter hk hinst hfound
        refine (ends_modifyClass hk).2 ⟨⟨h.enriched.trans hset, haccounts, fun p hp => ?_⟩, hset, hdepth, ?_⟩
        · obtain ⟨hp1, hp2⟩ := h.around p (hall ▸ .tail _ hp)
          exact ⟨hset.instanced hp1, fun entry hentry => (hp2 entry hentry).mono hset⟩
        · rw [places, hall] at hplaces
          exact (List.cons.inj hplaces).2
      · next hall =>
        rw [places, hall] at hplaces
        cases hplaces
    · next hrole => exact ⟨h, .refl g2, hdepth, by rwa [if_neg hrole] at hplaces⟩
  | _ => exact ⟨h, .refl g2, hin⟩

theorem walk_ends (n : Nat) (h : Searching g s g1) (hid : Located g s g1 id) :
    Ends ((visitor.walk n id).run s) g1 (fun q g2 => Searching g q.2 g2 ∧ g1.Enriched g2 ∧ q.2.depth = s.depth ∧
      q.2.places = s.places) fun _ g2 => g.Enriched g2 ∧ g.Accounts g2 := by
  induction n generalizing id s g1 with
  | zero => exact ⟨h.enriched, h.accounts⟩
  | succ n ih =>
    simp only [Visitor.walk, run_bind, run_lift, bind_assoc, pure_bind, ends_bind]
    refine (enter_ends h hid).imp ?_ ?_
    · rintro q g1 ⟨rfl, hq, e, he, hin, hchildren⟩
      rw [ends_element he]
      -- The children are visited at the place inside the element, on graphs with more and more symbols.
      refine Ends.imp (ends_forIn_state (fun t g2 => Searching g t g2 ∧ g1.Enriched g2 ∧ t.depth = q.2.depth ∧
        t.places = q.2.places) (fun c hc t g2 ht => ?_) ⟨hq, .refl _, rfl, rfl⟩) ?_ fun _ _ h => h
      · obtain ⟨ht, hg, hd, hp⟩ := ht
        refine (ih ht ((hchildren c hc).enriched hg hd hp)).imp ?_ fun _ _ h => h
        rintro r g3 ⟨hr, hg', hd', hp'⟩
        exact ⟨hr, hg.trans hg', hd'.trans hd, hp'.trans hp⟩
      · rintro r g2 ⟨hr, hg, hd, hp⟩
        obtain ⟨e2, he2, hee⟩ := hg.kept id e he
        refine (exit_ends hr he2 ((hin.enriched hee).congr hd hp)).imp ?_ fun _ _ h => h
        rintro t g3 ⟨ht, hg', hsame⟩
        exact ⟨ht, hg.trans hg', hsame⟩
    · rintro _ _ rfl
      exact ⟨h.enriched, h.accounts⟩

end ConstantSearch

theorem ConstantSearch.run_ends (cls : Id) (g : Graph) : Build.Ends (visitor.run cls {}) g
    (fun _ g' => g.Enriched g' ∧ g.Accounts g') fun _ g' => g.Enriched g' ∧ g.Accounts g' := by
  have hbegin : Searching g {} g := ⟨.refl g, .refl g, by simp⟩
  have hcls : Located g {} g cls := by simp [Located, places]
  simp only [Visitor.run, Build.ends_bind, Build.ends_size]
  refine (walk_ends _ hbegin hcls).imp ?_ fun _ _ h => h
  rintro q g' ⟨hq, -⟩
  exact ⟨hq.enriched, hq.accounts⟩

/-- **Pulling constants**, whether or not it succeeds, changes nothing but the symbol tables of instances. Entries
keep their places, and each new one is a symbol found for a reference of more than one name in the class it is
entered in. -/
theorem Build.pullConstants_adds (cls : Id) (g : Graph) :
    Ends (pullConstants cls) g (fun _ g' => g.Enriched g' ∧ g.Accounts g') fun _ g' => g.Enriched g' ∧ g.Accounts g' :=
  ends_discard.2 (ConstantSearch.run_ends cls g)

end Modelica
