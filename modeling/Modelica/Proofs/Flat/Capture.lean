/-
Which references in attributes are kept.

A reference to a component of the instance it is written in gets its full name on
the level of that instance. The levels further out look it up once more, behind
their own prefix, as if it were a name of theirs. So it stays only where no level
in between knows a component of that name (`FlatName.kept_iff`), and is captured by
the innermost level that does.
-/
import Modelica.Proofs.Flat.Whole

namespace Modelica

open List

namespace Graph

variable {g : Graph} {cls c : Id} {stem r r' x : String} {q : List String}

variable {name : String}

/-- The instance to which a path of component names leads. -/
inductive Inside (g : Graph) : Id → List String → Id → Prop
  | here {cls : Id} : Inside g cls [] cls
  | part {cls symbol t c : Id} {name : String} {path : List String} : (g.symbolsOf cls).get? name = some symbol →
      g.instanceOf? symbol = some t → Inside g t path c → Inside g cls (name :: path) c

theorem Inside.of_cons (h : g.Inside cls (name :: q) c) {symbol t}
    (hsymbol : (g.symbolsOf cls).get? name = some symbol) (ht : g.instanceOf? symbol = some t) : g.Inside t q c := by
  cases h with
  | part hsymbol' ht' hc =>
    cases hsymbol.symm.trans hsymbol'
    cases ht.symm.trans ht'
    exact hc

/-! ### Names of references -/

theorem FlatName.own_eq (h : g.FlatName cls stem [x] r r') : r' = lookUp (g.names cls) stem r := by
  cases h with
  | own => rfl
  | part _ _ h => cases h

theorem FlatName.of_cons {path} (h : g.FlatName cls stem (name :: path) r r') (hpath : path ≠ [])
    {symbol t} (hsymbol : (g.symbolsOf cls).get? name = some symbol) (ht : g.instanceOf? symbol = some t) :
    ∃ r'', g.FlatName t (stem ++ name ++ ".") path r r'' ∧ r' = lookUp (g.names cls) stem r'' := by
  cases h with
  | own => exact absurd rfl hpath
  | part hsymbol' ht' h =>
    cases hsymbol.symm.trans hsymbol'
    cases ht.symm.trans ht'
    exact ⟨_, h, rfl⟩

theorem length_le_lookUp (names : List String) (stem r : String) : r.length ≤ (lookUp names stem r).length := by
  rw [lookUp]
  split
  · rw [String.length_append]
    exact Nat.le_add_left _ _
  · exact le_rfl

theorem lookUp_eq_iff {names full} (hlen : full.length ≤ r.length) :
    lookUp names stem r = full ↔ r = full ∧ (stem ≠ "" → full ∉ names) := by
  rw [lookUp]
  split
  · next hmem =>
    constructor
    · intro heq
      have hstem : stem = "" := by
        have hadd := congrArg String.length heq
        rw [String.length_append] at hadd
        exact String.length_eq_zero_iff.1 (by omega)
      rw [hstem, String.empty_append] at heq
      exact ⟨heq, fun hne => absurd hstem hne⟩
    · rintro ⟨rfl, hnot⟩
      by_cases hstem : stem = ""
      · rw [hstem, String.empty_append]
      · exact absurd hmem (hnot hstem)
  · next hmem =>
    constructor
    · rintro rfl
      exact ⟨rfl, fun _ => hmem⟩
    · exact fun h => h.1

theorem dottedText_behind (stem name r : String) (q : List String) :
    stem ++ dottedText (name :: q ++ [r]) = stem ++ name ++ "." ++ dottedText (q ++ [r]) := by
  rw [cons_append, dottedText_cons name (append_ne_nil_of_right_ne_nil q (cons_ne_nil r [])),
    String.append_assoc, String.append_assoc, String.append_assoc]

/-- A reference to a component of an instance keeps its full name if no level in
between has a component of that name. Else it gets a longer one, and no level
takes anything away. -/
theorem FlatName.kept_iff (hc : g.Inside cls q c) (hr : r ∈ g.names c) (h : g.FlatName cls stem (q ++ [x]) r r') :
    (stem ++ dottedText (q ++ [r])).length ≤ r'.length ∧
      (r' = stem ++ dottedText (q ++ [r]) ↔ ∀ q1 q2 c', q = q1 ++ q2 → q2 ≠ [] → (q1 = [] → stem ≠ "") →
        g.Inside cls q1 c' → stem ++ dottedText (q ++ [r]) ∉ g.names c') := by
  induction hc generalizing stem r' with
  | @here cls =>
    have heq : r' = stem ++ dottedText ([] ++ [r]) := by
      rw [h.own_eq, lookUp, if_pos hr, nil_append, dottedText_singleton]
    refine ⟨Nat.le_of_eq (congrArg String.length heq.symm), fun _ q1 q2 c' hq hne => ?_, fun _ => heq⟩
    exact absurd (append_eq_nil_iff.1 hq.symm).2 hne
  | @part cls symbol t c name q hsymbol ht hc ih =>
    obtain ⟨r'', hnamed, rfl⟩ := h.of_cons (append_ne_nil_of_right_ne_nil q (cons_ne_nil x [])) hsymbol ht
    obtain ⟨hlen, hiff⟩ := ih hr hnamed
    rw [← dottedText_behind] at hlen hiff
    refine ⟨hlen.trans (length_le_lookUp _ _ _), ?_⟩
    rw [lookUp_eq_iff hlen, hiff]
    -- The ways to split the path are the empty one, and those inside the first component.
    constructor
    · rintro ⟨hinner, houter⟩ q1 q2 c' hq hne hstem hc'
      cases q1 with
      | nil =>
        cases hc'
        exact houter (hstem rfl)
      | cons name' q1 =>
        obtain ⟨rfl, rfl⟩ := cons_eq_cons.1 hq
        exact hinner q1 q2 c' rfl hne (fun _ => by simp) (hc'.of_cons hsymbol ht)
    · intro hall
      refine ⟨fun q1 q2 c' hq hne _ hc' => hall (name :: q1) q2 c' ?_ hne (by simp) (.part hsymbol ht hc'), fun hstem => ?_⟩
      · rw [hq, cons_append]
      · exact hall [] (name :: q) cls rfl (cons_ne_nil _ _) (fun _ => hstem) .here

/-! ### Components by their paths -/

theorem Nested.symbol {n} (h : g.Nested (n + 1) cls) {symbol} (hsymbol : (g.symbolsOf cls).get? x = some symbol) :
    g.expand (g.components n) (x, symbol) ⊆ g.components (n + 1) cls ∧
      ((∃ s s', g.Elementary symbol s s') ∨ ∃ s t, g.Instanced symbol s t ∧ g.Nested n t) := by
  obtain ⟨c, hget, _, _, _, hsymbols⟩ := h
  rw [symbolsOf_eq hget] at hsymbol
  have hmem := Table.mem_entries_of_get? hsymbol
  refine ⟨fun y hy => ?_, (hsymbols _ hmem).imp id fun hi => hi.2⟩
  rw [components_succ n hget]
  exact mem_flatMap.2 ⟨_, hmem, hy⟩

theorem Nested.mem_components {n} (h : g.Nested n cls) (hc : g.Inside cls q c) {symbol}
    (hsymbol : (g.symbolsOf c).get? x = some symbol) (hnone : g.instanceOf? symbol = none) :
    (q ++ [x], symbol) ∈ g.components n cls := by
  induction hc generalizing n with
  | @here cls =>
    cases n with
    | zero => exact h.elim
    | succ n =>
      refine (h.symbol hsymbol).1 ?_
      rw [expand, hnone]
      exact mem_singleton_self _
  | @part cls symbol' t c name q hsymbol' ht hc ih =>
    cases n with
    | zero => exact h.elim
    | succ n =>
      obtain ⟨hsub, ⟨s, s', hs⟩ | ⟨s, t', hs, hnested⟩⟩ := h.symbol hsymbol'
      · rw [hs.instanceOf?] at ht
        cases ht
      · rw [hs.instanceOf?] at ht
        cases ht
        refine hsub ?_
        rw [expand_instanced (x := (name, symbol')) hs]
        exact mem_map.2 ⟨_, ih hnested hsymbol, rfl⟩

end Graph

namespace Build

variable {symbols : Table String Id}

open Modelica.Graph

/-- Where no level between an instance and the whole has a component of that
name, a reference in an attribute to a component of the instance appears under
the full name of that component. Else it does not. -/
theorem attribute_reference_kept_iff {g : Graph} {cls : Id} (hsep : g.Separate) (hcls : g.Nested (g.size + 1) cls)
    (hnodup : (g.names cls).Nodup) :
    Runs (flattenSymbols cls) g fun flat g' => ∃ f, g'.get? flat = some (.classDef f) ∧
      ∀ q c x symbol place pos r, g.Inside cls q c → (g.symbolsOf c).get? x = some symbol →
        g.instanceOf? symbol = none → g.Refers symbol place pos r → r ∈ g.names c →
        ∃ new r', f.symbols.get? (dottedText (q ++ [x])) = some new ∧ g'.Refers new place pos r' ∧
          (r' = dottedText (q ++ [r]) ↔ ∀ q₁ q₂ c', q = q₁ ++ q₂ → q₁ ≠ [] → q₂ ≠ [] → g.Inside cls q₁ c' →
            dottedText (q ++ [r]) ∉ g.names c') := by
  have hstem : (if "".isEmpty then "" else "" ++ ".") = "" := rfl
  have hfits := fitsAll_unknown g (g.size + 1) "" cls
  refine Runs.imp (ends_bind.2 (ends_size.2 (flattenSymbolsTo_runs hsep (Nat.le_refl _) hcls hnodup hfits (.refl _ g) hstem))) ?_
  rintro flat g' ⟨f, ⟨remarks, hgrowing⟩, _, hfinished⟩
  refine ⟨f, hgrowing.get?, fun q c x symbol place pos r hc hsymbol hnone hr hname => ?_⟩
  obtain ⟨e, _, he, hx⟩ := exists_of_forall₂ (forall₂_mem hfinished).flip (hcls.mem_components hc hsymbol hnone)
  obtain ⟨r', hnamed, hr'⟩ := hx.stands.refers place pos r hr
  have hkeys : f.symbols.keys.Nodup := by
    rw [Table.keys, keys_of_forall₂ hfinished fun _ _ hx => hx.key]
    exact nodup_behind hnodup _
  have hkey : e.1 = dottedText (q ++ [x]) := hx.key.trans String.empty_append
  refine ⟨e.2, r', ?_, hr', ?_⟩
  · rw [← hkey]
    exact Table.get?_of_mem_entries hkeys he
  · have hkept := (hnamed.kept_iff hc hname).2
    simp only [String.empty_append, ne_eq, not_true_eq_false, imp_false] at hkept
    rw [hkept]
    exact ⟨fun h q₁ q₂ c' hq h₁ h₂ => h q₁ q₂ c' hq h₂ h₁, fun h q₁ q₂ c' hq h₂ h₁ => h q₁ q₂ c' hq h₁ h₂⟩

end Build
end Modelica
