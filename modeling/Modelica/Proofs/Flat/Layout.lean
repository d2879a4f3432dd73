/-
The layout of a flat class.

`places` lists all symbols of an instance with their paths, those that stand for
instances included, and `Orderly` asks that no symbol has two places. Then every
symbol has one name in the end (`Orderly.fits`), and `flattenSymbols_layout` says
what the flat class consists of: a symbol for each component, in the order of the
declarations, and the equations of each instance after those of its components.
-/
import Modelica.Proofs.Flat.Capture
import Modelica.Proofs.Graph.Dotted

namespace Modelica

variable {p q : List String}

/-! ### Dotted names -/

/-- The prefix of the names in the instance at a path. -/
def stemOf : List String → String
  | [] => ""
  | name :: path => name ++ "." ++ stemOf path

theorem dottedText_append (q : List String) (hp : p ≠ []) : dottedText (q ++ p) = stemOf q ++ dottedText p := by
  induction q with
  | nil => rw [List.nil_append, stemOf, String.empty_append]
  | cons name q ih =>
    rw [List.cons_append, dottedText_cons name (List.append_ne_nil_of_right_ne_nil q hp), ih, stemOf,
      String.append_assoc, String.append_assoc, String.append_assoc]

theorem stemOf_concat (q : List String) (name : String) : stemOf (q ++ [name]) = stemOf q ++ name ++ "." := by
  induction q with
  | nil => simp [stemOf]
  | cons first q ih => simp [stemOf, ih, String.append_assoc]

theorem stemOf_eq_empty : stemOf q = "" ↔ q = [] := by
  cases q with
  | nil => simp [stemOf]
  | cons name q => simp [stemOf, String.append_eq_empty_iff]

theorem dottedText_inj (hp : p ≠ []) (hq : q ≠ []) (hpd : ∀ a ∈ p, '.' ∉ a.toList) (hqd : ∀ a ∈ q, '.' ∉ a.toList)
    (h : dottedText p = dottedText q) : p = q := by
  rw [← splitPath_dottedText hpd hp, h, splitPath_dottedText hqd hq]

theorem reduced_eq_filter {words} (h : words.Nodup) :
    reduced words = words.filter fun w => w ≠ "input" ∧ w ≠ "output" := by
  rw [reduced, h.erase_eq_filter, (h.filter _).erase_eq_filter, List.filter_filter]
  exact List.filter_congr fun w _ => Bool.eq_iff_iff.2 (by simp [and_comm])

namespace Graph

variable {g g' : Graph} {n : Nat} {cls c : Id} {x y : List String × Id} {q p : List String}

variable {symbol t id : Id} {s : Symbol} {e : String × Id} {rs : List Reference}

/-! ### Places -/

/-- The places of a symbol and of what it brings in, given those in instances. -/
def placesOf (g : Graph) (parts : Id → List (List String × Id)) (x : String × Id) : List (List String × Id) :=
  ([x.1], x.2) ::
    match g.instanceOf? x.2 with
    | none => []
    | some t => (parts t).map fun y => (x.1 :: y.1, y.2)

/-- All symbols in an instance of at most `n` levels, with their paths. -/
def places (g : Graph) : Nat → Id → List (List String × Id)
  | 0, _ => []
  | n + 1, cls => (g.symbolsOf cls).entries.flatMap (g.placesOf (places g n))

def keywordsOf (g : Graph) (symbol : Id) : Option Id :=
  match g.get? symbol with
  | some (.symbol s) => some s.keywords
  | _ => none

theorem keywordsOf_eq (hs : g.SymbolAt symbol s) : g.keywordsOf symbol = some s.keywords := by
  simp only [keywordsOf, hs]

theorem mem_places_own (he : e ∈ (g.symbolsOf cls).entries) : ([e.1], e.2) ∈ g.places (n + 1) cls :=
  List.mem_flatMap.2 ⟨e, he, (.head _)⟩

theorem mem_places_part (he : e ∈ (g.symbolsOf cls).entries) (ht : g.instanceOf? e.2 = some t) (hy : y ∈ g.places n t) :
    (e.1 :: y.1, y.2) ∈ g.places (n + 1) cls := by
  refine List.mem_flatMap.2 ⟨e, he, .tail _ ?_⟩
  simp only [ht]
  exact List.mem_map.2 ⟨y, hy, rfl⟩

theorem components_sublist (n : Nat) (cls : Id) : (g.components n cls).Sublist (g.places n cls) := by
  induction n generalizing cls with
  | zero => exact .slnil
  | succ n ih =>
    rw [components, places]
    generalize (g.symbolsOf cls).entries = entries
    induction entries with
    | nil => exact .slnil
    | cons e entries ih' =>
      rw [List.flatMap_cons, List.flatMap_cons]
      refine List.Sublist.append ?_ ih'
      cases ht : g.instanceOf? e.2 with
      | none =>
        simp only [expand, placesOf, ht]
        exact .refl _
      | some t =>
        simp only [expand, placesOf, ht]
        exact ((ih t).map _).cons _

/-- What an instance has to be like for its symbols to have names of their own:
identifiers have no dots, nothing stands in two places, and keywords are shared on
one level only and not repeated. -/
structure Orderly (g : Graph) (cls : Id) : Prop where
  identifiers : ∀ x ∈ g.places (g.size + 1) cls, ∀ name ∈ x.1, '.' ∉ name.toList
  symbols : ((g.places (g.size + 1) cls).map (·.2)).Nodup
  keywords : ∀ x ∈ g.places (g.size + 1) cls, ∀ y ∈ g.places (g.size + 1) cls,
    g.keywordsOf x.2 = g.keywordsOf y.2 → (x.1.length = 1 ↔ y.1.length = 1)
  words : ∀ x ∈ g.places (g.size + 1) cls, (g.wordsOf x.2).Nodup
  unshared : ∀ purpose, ∀ w ∈ g.written purpose (g.size + 1) "" cls, g.Unshared w.id

/-- The names and keywords that follow from the places. -/
def marksOf (g : Graph) (cls : Id) : Marks where
  given := True
  name symbol := ((g.places (g.size + 1) cls).find? (·.2 == symbol)).elim "" fun x => dottedText x.1
  inner keywords := ∃ x ∈ g.places (g.size + 1) cls, x.1.length ≠ 1 ∧ g.keywordsOf x.2 = some keywords

theorem Orderly.name_eq (h : g.Orderly cls) (hx : x ∈ g.places (g.size + 1) cls) :
    (g.marksOf cls).name x.2 = dottedText x.1 := by
  have hfind : (g.places (g.size + 1) cls).find? (·.2 == x.2) = some x := by
    cases hfound : (g.places (g.size + 1) cls).find? (·.2 == x.2) with
    | none =>
      have hne := List.find?_eq_none.1 hfound x hx
      simp at hne
    | some y =>
      have hsame : y.2 = x.2 := by simpa using List.find?_some hfound
      rw [List.inj_on_of_nodup_map h.symbols (List.mem_of_find?_eq_some hfound) hx hsame]
  simp [marksOf, hfind]

theorem Orderly.fits (h : g.Orderly cls) (hin : ∀ y ∈ g.places n c, (q ++ y.1, y.2) ∈ g.places (g.size + 1) cls) :
    g.FitsAll (g.marksOf cls) n (stemOf q) c := by
  induction n generalizing q c with
  | zero => trivial
  | succ n ih =>
    intro e he
    have hplace := hin _ (mem_places_own he)
    refine ⟨fun _ s hs => ⟨?_, ⟨?_, fun hne => ?_⟩, fun words hw => ?_⟩, fun t ht => ?_⟩
    · rw [h.name_eq hplace, dottedText_append q (List.cons_ne_nil _ _), dottedText_singleton]
    · rintro ⟨y, hy, hlen, hkeywords⟩ hstem
      rw [stemOf_eq_empty] at hstem
      subst hstem
      exact hlen ((h.keywords _ hplace y hy (by rw [hkeywords, keywordsOf_eq hs])).1 rfl)
    · refine ⟨_, hplace, ?_, keywordsOf_eq hs⟩
      have hq : q.length ≠ 0 := fun hq => hne (stemOf_eq_empty.2 (List.length_eq_zero_iff.1 hq))
      simp only [List.length_append, List.length_singleton]
      omega
    · rw [← wordsOf_eq hs hw]
      exact h.words _ hplace
    · rw [← stemOf_concat]
      refine ih fun y hy => ?_
      have hpart := hin _ (mem_places_part he ht hy)
      rwa [List.append_assoc, List.singleton_append]

/-! ### Components by their paths -/

theorem Nested.components_unique (h : g.Nested n cls) (hx : x ∈ g.components n cls) (hy : y ∈ g.components n cls)
    (hpath : x.1 = y.1) : x = y := by
  induction n generalizing cls x y with
  | zero => exact h.elim
  | succ n ih =>
    have hnested := h
    obtain ⟨c, hc, hkeys, _, _, hsymbols⟩ := h
    rw [components_succ n hc] at hx hy
    obtain ⟨e, he, hx⟩ := List.mem_flatMap.1 hx
    obtain ⟨e', he', hy⟩ := List.mem_flatMap.1 hy
    have hsame : x.1.head? = some e.1 ∧ y.1.head? = some e'.1 := by
      simp only [expand] at hx hy
      constructor
      · split at hx
        · rw [List.mem_singleton.1 hx]; rfl
        · obtain ⟨_, _, rfl⟩ := List.mem_map.1 hx; rfl
      · split at hy
        · rw [List.mem_singleton.1 hy]; rfl
        · obtain ⟨_, _, rfl⟩ := List.mem_map.1 hy; rfl
    have hkey : e.1 = e'.1 := by
      rw [← Option.some.injEq, ← hsame.1, ← hsame.2, hpath]
    obtain rfl : e = e' := List.inj_on_of_nodup_map hkeys he he' hkey
    rcases hsymbols e he with ⟨s, s', hs⟩ | ⟨_, s, t, hs, ht⟩
    · rw [expand_elementary hs, List.mem_singleton] at hx hy
      rw [hx, hy]
    · rw [expand_instanced hs] at hx hy
      obtain ⟨x', hx', rfl⟩ := List.mem_map.1 hx
      obtain ⟨y', hy', rfl⟩ := List.mem_map.1 hy
      rw [ih ht hx' hy' (List.cons_eq_cons.1 hpath).2]

theorem Orderly.names_nodup (h : g.Orderly cls) (hcls : g.Nested (g.size + 1) cls) : (g.names cls).Nodup := by
  have hsub := components_sublist (g := g) (g.size + 1) cls
  refine ((List.Nodup.of_map _ (h.symbols.sublist (hsub.map _))).map_on fun x hx y hy heq => ?_)
  refine hcls.components_unique hx hy (dottedText_inj (components_ne_nil hx) (components_ne_nil hy) ?_ ?_ heq)
  · exact h.identifiers x (hsub.subset hx)
  · exact h.identifiers y (hsub.subset hy)

/-! ### Instances inside -/

theorem Nested.written_inside (h : g.Nested n cls) {purpose stem w}
    (hw : w ∈ g.written purpose n stem cls) : ∃ q, g.Inside cls q w.cls ∧ w.stem = stem ++ stemOf q := by
  induction n generalizing cls stem with
  | zero => exact h.elim
  | succ n ih =>
    obtain ⟨c, hc, hkeys, _, _, hsymbols⟩ := h
    rw [written, symbolsOf_eq hc] at hw
    rcases List.mem_append.1 hw with hw | hw
    · obtain ⟨e, he, hw⟩ := List.mem_flatMap.1 hw
      rcases hsymbols e he with ⟨s, s', hs⟩ | ⟨_, s, t, hs, ht⟩
      · rw [writtenIn_elementary hs] at hw
        cases hw
      · rw [writtenIn_instanced hs] at hw
        obtain ⟨q, hq, hstem⟩ := ih ht hw
        refine ⟨e.1 :: q, .part ?_ hs.instanceOf? hq, ?_⟩
        · rw [symbolsOf_eq hc]
          exact Table.get?_of_mem_entries hkeys he
        · rw [hstem, stemOf, String.append_assoc, String.append_assoc, String.append_assoc]
    · obtain ⟨id, _, rfl⟩ := List.mem_map.1 hw
      exact ⟨[], .here, by rw [stemOf, String.append_empty]⟩

end Graph

namespace Build

open Modelica.Graph

variable {g : Graph} {cls : Id}

theorem flattenSymbols_flat (hsep : g.Separate) (hcls : g.Nested (g.size + 1) cls) (h : g.Orderly cls) :
    Runs (flattenSymbols cls) g fun flat g' => ∃ f, g'.ClassAt flat f ∧ f.symbols.keys = g.names cls ∧
      List.Forall₂ (g.Finished (g.marksOf cls) g cls "" g') (g.components (g.size + 1) cls) f.symbols.entries ∧
      ∀ purpose, List.Forall₂ (fun w new => ∃ q φ, g.Inside cls q w.cls ∧ w.stem = stemOf q ∧ g.TermTree g.size w.id ∧
          new = φ w.id ∧ g.Rewrites (fun r => decide (r ∈ g.names w.cls)) w.stem w.id φ g')
        (g.written purpose (g.size + 1) "" cls) (f.having purpose) := by
  refine Runs.imp (ends_bind.2 (ends_size.2 (flattenSymbolsTo_runs hsep le_rfl hcls (h.names_nodup hcls)
    (h.fits (q := []) fun _ hy => hy) (.refl _ g) rfl))) ?_
  rintro flat g' ⟨f, ⟨remarks, hgrowing⟩, _, hfinished⟩
  refine ⟨f, hgrowing.get?, ?_, hfinished, fun purpose => (forall₂_mem (hgrowing.written purpose)).imp ?_⟩
  · rw [Table.keys, keys_of_forall₂ hfinished fun _ _ hx => hx.key]
    simp [stemOf, names]
  · rintro w new ⟨hw, _, htree, hwritten⟩
    obtain ⟨q, hinside, hstem⟩ := hcls.written_inside hw
    obtain ⟨φ, hnew, hrewrites⟩ := hwritten (h.unshared purpose w hw)
    exact ⟨q, φ, hinside, hstem.trans String.empty_append, htree, hnew, hrewrites⟩

/-- **The flat class of a nested instance** has one symbol for each component of
elementary type, called by its path, in the order of the declarations. The
dimensions along the path follow each other, and `input` and `output` are left out
inside instances. The equations are those of the components, and then those of the
instance itself, with nothing changed but references. -/
theorem flattenSymbols_layout (hsep : g.Separate) (hcls : g.Nested (g.size + 1) cls) (h : g.Orderly cls) :
    Runs (flattenSymbols cls) g fun flat g' => ∃ f, g'.get? flat = some (.classDef f) ∧ f.symbols.keys.Nodup ∧
      List.Forall₂ (fun x e => e.1 = dottedText x.1 ∧ g'.Shows e.2 (dottedText x.1)
          (if x.1.length = 1 then g.wordsOf x.2 else (g.wordsOf x.2).filter fun w => w ≠ "input" ∧ w ≠ "output")
          (g.extentsAt cls x.1))
        (g.components (g.size + 1) cls) f.symbols.entries ∧
      ∀ purpose, List.Forall₂ (fun w new => ∃ φ, new = φ w.id ∧
          g.Rewrites (fun r => decide (r ∈ g.names w.cls)) w.stem w.id φ g')
        (g.written purpose (g.size + 1) "" cls) (f.having purpose) := by
  refine (flattenSymbols_flat hsep hcls h).imp ?_
  rintro flat g' ⟨f, hf, hkeys, hfinished, hparts⟩
  refine ⟨f, hf, hkeys ▸ h.names_nodup hcls, (forall₂_mem hfinished).imp ?_, fun purpose => (hparts purpose).imp ?_⟩
  · rintro x e ⟨hx, _, he⟩
    have hkey : e.1 = dottedText x.1 := he.key.trans String.empty_append
    have hshows := he.shows trivial
    rw [hkey, flatWords, reduced_eq_filter (h.words x ((components_sublist _ _).subset hx))] at hshows
    simp only [true_and] at hshows
    exact ⟨hkey, hshows⟩
  · rintro w new ⟨_, φ, _, _, _, hrewrites⟩
    exact ⟨φ, hrewrites⟩

end Build

/-! ### A check for nested instances -/

namespace Graph

/-- Whether a symbol has no arguments left, and an elementary type or an instance that
passes `check`. -/
def checkSymbol (g : Graph) (check : Id → Bool) (name : String) (id : Id) : Bool :=
  match g.get? id with
  | some (.symbol s) =>
    match s.type, g.get? s.keywords with
    | .node t, some (.keywords _) =>
      match g.get? t with
      | some (.reference _) =>
        decide ((∀ m ∈ s.modification, g.get? m = some (.modification [])) ∧
          (∀ l ∈ s.children, g.Tree (fun _ e => e.isQuiet) g.size l) ∧
          (∀ l ∈ (s.settled []).children, g.TermTree g.size l) ∧
          (s.keywords :: (s.settled []).children.flatMap g.reach).Nodup)
      | some (.classDef c) =>
        decide (s.modification = none ∧ name ≠ "" ∧ c.role = .instanced ∧ c.category ≠ builtinCategory ∧
          c.category ≠ "connector" ∧ (∀ l ∈ Value.nodesOfRows s.dimensions, g.TermTree g.size l) ∧
          ((Value.nodesOfRows s.dimensions).flatMap g.reach).Nodup) && check t
      | _ => false
    | _, _ => false
  | _ => false

/-- Whether an instance has at most `n` levels. -/
def checkNested (g : Graph) : Nat → Id → Bool
  | 0, _ => false
  | n + 1, cls =>
    match g.get? cls with
    | some (.classDef c) =>
      decide (c.symbols.keys.Nodup ∧ (∀ l ∈ c.parts, g.PlainTree g.size l) ∧
        ∀ l ∈ c.remarks, g.Tree (fun _ e => e.isQuiet) g.size l) &&
      c.symbols.entries.all fun x => g.checkSymbol (checkNested g n) x.1 x.2
    | _ => false

variable {g : Graph} {n : Nat} {cls id : Id}

theorem of_checkSymbol {check name} (h : g.checkSymbol check name id = true) :
    (∃ s s', g.Elementary id s s') ∨ name ≠ "" ∧ ∃ s t, g.Instanced id s t ∧ check t = true := by
  unfold checkSymbol at h
  split at h
  · next s hs =>
    split at h
    · next t words ht hw =>
      split at h
      · next r hr =>
        obtain ⟨hspent, hvisited, hheld, hunshared⟩ := of_decide_eq_true h
        have hpends : g.Pends s.modification [] := by
          cases hm : s.modification with
          | none => exact .inl ⟨rfl, rfl⟩
          | some m => exact .inr ⟨m, [], rfl, hspent m hm, .nil⟩
        exact .inl ⟨s, _, ⟨hs, [], hpends, List.forall_mem_nil _, rfl⟩, ⟨t, ht, r, hr⟩, ⟨words, hw⟩, hvisited, hheld,
          hunshared⟩
      · next c hc =>
        simp only [Bool.and_eq_true, decide_eq_true_eq] at h
        obtain ⟨⟨hm, hname, hrole, hbuiltin, hconnector, hheld, hunshared⟩, hcheck⟩ := h
        exact .inr ⟨hname, s, t, ⟨hs, hm, ht, ⟨c, hc, hrole, hbuiltin, hconnector⟩, ⟨words, hw⟩, hheld, hunshared⟩, hcheck⟩
      · cases h
    · cases h
  · cases h

theorem nested_of_check (h : g.checkNested n cls = true) : g.Nested n cls := by
  induction n generalizing cls with
  | zero => cases h
  | succ n ih =>
    unfold checkNested at h
    split at h
    · next c hc =>
      simp only [Bool.and_eq_true, decide_eq_true_eq, List.all_eq_true] at h
      obtain ⟨⟨hkeys, hparts, hremarks⟩, hsymbols⟩ := h
      refine ⟨c, hc, hkeys, hparts, hremarks, fun x hx => (of_checkSymbol (hsymbols x hx)).imp_right ?_⟩
      rintro ⟨hname, s, t, hs, ht⟩
      exact ⟨hname, s, t, hs, ih ht⟩
    · cases h

instance decidableOrderly (g : Graph) (cls : Id) : Decidable (g.Orderly cls) :=
  decidable_of_iff ((∀ x ∈ g.places (g.size + 1) cls, ∀ name ∈ x.1, '.' ∉ name.toList) ∧
    ((g.places (g.size + 1) cls).map (·.2)).Nodup ∧
    (∀ x ∈ g.places (g.size + 1) cls, ∀ y ∈ g.places (g.size + 1) cls,
      g.keywordsOf x.2 = g.keywordsOf y.2 → (x.1.length = 1 ↔ y.1.length = 1)) ∧
    (∀ x ∈ g.places (g.size + 1) cls, (g.wordsOf x.2).Nodup) ∧
    ∀ purpose ∈ [Purpose.equation, .initialEquation, .statement, .initialStatement],
      ∀ w ∈ g.written purpose (g.size + 1) "" cls, g.Unshared w.id)
    ⟨fun ⟨h₁, h₂, h₃, h₄, h₅⟩ => ⟨h₁, h₂, h₃, h₄, fun purpose => h₅ purpose (by cases purpose <;> simp)⟩,
      fun h => ⟨h.identifiers, h.symbols, h.keywords, h.words, fun purpose _ => h.unshared purpose⟩⟩

end Graph

namespace Build

/-- A component `a[3]` with `x[2]` and an input `u`. -/
@[irreducible] def pumpText : String := "model A Real x[2]; input Real u; end A; model M A a[3]; equation a.u = 1; end M;"

def pump : Build Id := do
  let orig ← findOriginal (← read pumpText).root ["M"]
  instantiate orig none (← classAt orig).parent

example : Runs pump {} fun cls g => g.Separate ∧ g.checkNested (g.size + 1) cls = true ∧ g.Orderly cls := by
  decide +kernel

end Build
end Modelica
