/-
What it means that two signed names are aliases, told without groups.

`AliasOf pairs` is the least equivalence that joins the two names of every
pair and, with two names, their negatives. Pairs that join no variable with
its own negative are `Consistent`. Two facts describe how the relation moves:
one more pair merges two classes and their two mirror images and touches no
other class (`aliasOf_snoc`), and the pairs of one class and its mirror image
can be withdrawn without a trace elsewhere (`aliasOf_withdraw`).
-/
import Modelica.Alias
import Mathlib.Data.List.Basic

namespace Modelica

open List

/-! ### Signed names -/

/-- A variable: some text that does not begin with a minus. -/
def IsVariable (x : String) : Prop := x ≠ "" ∧ x.toList.head? ≠ some '-'

instance (x : String) : Decidable (IsVariable x) := inferInstanceAs (Decidable (_ ∧ _))

/-- A variable, or a variable behind a minus. -/
def IsSigned (v : String) : Prop := ∃ x, IsVariable x ∧ (v = x ∨ v = "-" ++ x)

/-- The name with its sign changed. -/
def negate (v : String) : String :=
  match v.toList with
  | '-' :: rest => String.ofList rest
  | _ => "-" ++ v

theorem toList_minus (x : String) : ("-" ++ x).toList = '-' :: x.toList := by
  rw [String.toList_append]
  rfl

theorem negate_variable {x} (h : IsVariable x) : negate x = "-" ++ x := by
  unfold negate
  split
  · next rest heq =>
    have hhead := h.2
    rw [heq] at hhead
    exact absurd rfl hhead
  · rfl

theorem negate_minus (x : String) : negate ("-" ++ x) = x := by
  simp only [negate, toList_minus]
  exact String.ofList_toList

theorem IsVariable.isSigned {x} (h : IsVariable x) : IsSigned x := ⟨x, h, .inl rfl⟩

theorem IsVariable.minus_isSigned {x} (h : IsVariable x) : IsSigned ("-" ++ x) := ⟨x, h, .inr rfl⟩

theorem IsSigned.negate {v} (h : IsSigned v) : IsSigned (negate v) := by
  obtain ⟨x, hx, rfl | rfl⟩ := h
  · rw [negate_variable hx]
    exact hx.minus_isSigned
  · rw [negate_minus]
    exact hx.isSigned

theorem negate_negate {v} (h : IsSigned v) : negate (negate v) = v := by
  obtain ⟨x, hx, rfl | rfl⟩ := h
  · rw [negate_variable hx, negate_minus]
  · rw [negate_minus, negate_variable hx]

theorem IsVariable.ne_minus {x} (h : IsVariable x) (y : String) : x ≠ "-" ++ y := by
  rintro rfl
  have hhead := h.2
  rw [toList_minus] at hhead
  exact hhead rfl

theorem toggleSign_eq {v} (h : v ≠ "") : toggleSign v = .ok (negate v) := by
  unfold toggleSign negate
  split
  · next heq => exact absurd (String.toList_eq_nil_iff.1 heq) h
  · next heq => simp only [heq]; rfl
  · next hne =>
    split
    · next heq => exact absurd heq (hne _)
    · rfl

theorem IsSigned.ne_empty {v} (h : IsSigned v) : v ≠ "" := by
  rintro rfl
  obtain ⟨x, hx, rfl | h⟩ := h
  · exact hx.1 rfl
  · have := congrArg String.toList h
    rw [toList_minus] at this
    cases this

theorem IsSigned.toggleSign {v} (h : IsSigned v) : toggleSign v = .ok (Modelica.negate v) :=
  toggleSign_eq h.ne_empty

theorem IsVariable.splitSign {x} (h : IsVariable x) : splitSign x = .ok (x, .plus) := by
  unfold Modelica.splitSign
  split
  · next heq => exact absurd (String.toList_eq_nil_iff.1 heq) h.1
  · next heq =>
    have hhead := h.2
    rw [heq] at hhead
    exact absurd rfl hhead
  · rfl

theorem splitSign_minus (x : String) : splitSign ("-" ++ x) = .ok (x, .minus) := by
  simp only [splitSign, toList_minus]
  rw [String.ofList_toList]
  rfl

/-! ### The relation -/

/-- The least equivalence that joins the names of each pair, and with two
names their negatives. -/
inductive AliasOf (pairs : List (String × String)) : String → String → Prop
  | pair {a b} : (a, b) ∈ pairs → AliasOf pairs a b
  | refl (v) : AliasOf pairs v v
  | symm {v w} : AliasOf pairs v w → AliasOf pairs w v
  | trans {u v w} : AliasOf pairs u v → AliasOf pairs v w → AliasOf pairs u w
  | negate {v w} : AliasOf pairs v w → AliasOf pairs (negate v) (negate w)

/-- No name is an alias of its negative. -/
def Consistent (pairs : List (String × String)) : Prop :=
  ∀ v, IsSigned v → ¬ AliasOf pairs v (negate v)

variable {pairs : List (String × String)}

variable {more : List (String × String)} {v w a b c : String}

theorem AliasOf.mono (hsub : pairs ⊆ more) (h : AliasOf pairs v w) : AliasOf more v w := by
  induction h with
  | pair hm => exact .pair (hsub hm)
  | refl v => exact .refl v
  | symm _ ih => exact ih.symm
  | trans _ _ ih1 ih2 => exact ih1.trans ih2
  | negate _ ih => exact ih.negate

theorem Consistent.mono (hsub : pairs ⊆ more) (h : Consistent more) :
    Consistent pairs := fun v hv hvv => h v hv (hvv.mono hsub)

/-- Aliases of a signed name are signed: only pairs lead from one name to
another. -/
theorem AliasOf.eq_or_signed (hs : ∀ p ∈ pairs, IsSigned p.1 ∧ IsSigned p.2) (h : AliasOf pairs v w) :
    v = w ∨ IsSigned v ∧ IsSigned w := by
  induction h with
  | pair hm => exact .inr (hs _ hm)
  | refl v => exact .inl rfl
  | symm _ ih => exact ih.imp Eq.symm And.symm
  | trans _ _ ih1 ih2 =>
    rcases ih1 with rfl | ⟨hu, hv⟩
    · exact ih2
    · rcases ih2 with rfl | ⟨_, hw⟩
      · exact .inr ⟨hu, hv⟩
      · exact .inr ⟨hu, hw⟩
  | negate _ ih => exact ih.imp (congrArg _) (And.imp IsSigned.negate IsSigned.negate)

theorem AliasOf.signed (hs : ∀ p ∈ pairs, IsSigned p.1 ∧ IsSigned p.2) (hv : IsSigned v) (h : AliasOf pairs v w) :
    IsSigned w := by
  rcases h.eq_or_signed hs with rfl | ⟨_, hw⟩
  · exact hv
  · exact hw

theorem eq_of_aliasOf_nil (h : AliasOf [] v w) : v = w := by
  induction h with
  | pair hm => simp at hm
  | refl v => rfl
  | symm _ ih => exact ih.symm
  | trans _ _ ih1 ih2 => exact ih1.trans ih2
  | negate _ ih => rw [ih]

theorem IsSigned.ne_negate (h : IsSigned v) : v ≠ Modelica.negate v := by
  obtain ⟨x, hx, rfl | rfl⟩ := h
  · rw [negate_variable hx]
    exact hx.ne_minus v
  · rw [negate_minus]
    exact (hx.ne_minus x).symm

/-- The number of a signed name, given those of the variables. -/
def valued (f : String → Int) (v : String) : Int :=
  match v.toList with
  | '-' :: rest => - f (String.ofList rest)
  | _ => f v

theorem valued_variable (f : String → Int) {x} (hx : IsVariable x) : valued f x = f x := by
  unfold valued
  split
  · next heq =>
    have hhead := hx.2
    rw [heq] at hhead
    exact absurd rfl hhead
  · rfl

theorem valued_minus (f : String → Int) (x : String) : valued f ("-" ++ x) = - f x := by
  simp only [valued, toList_minus]
  rw [String.ofList_toList]

theorem valued_negate (f : String → Int) (hv : IsSigned v) : valued f (negate v) = - valued f v := by
  obtain ⟨x, hx, rfl | rfl⟩ := hv
  · rw [negate_variable hx, valued_minus, valued_variable f hx]
  · rw [negate_minus, valued_minus, valued_variable f hx, Int.neg_neg]

theorem consistent_of_valued (f : String → Int) (hf : ∀ x, f x ≠ 0)
    (hp : ∀ p ∈ pairs, IsSigned p.1 ∧ IsSigned p.2 ∧ valued f p.1 = valued f p.2) : Consistent pairs := by
  have hs : ∀ p ∈ pairs, IsSigned p.1 ∧ IsSigned p.2 := fun p hm => ⟨(hp p hm).1, (hp p hm).2.1⟩
  have key : ∀ {v w}, AliasOf pairs v w → valued f v = valued f w := by
    intro v w h
    induction h with
    | pair hm => exact (hp _ hm).2.2
    | refl v => rfl
    | symm _ ih => exact ih.symm
    | trans _ _ ih1 ih2 => exact ih1.trans ih2
    | negate h ih =>
      rcases h.eq_or_signed hs with rfl | ⟨hv, hw⟩
      · rfl
      · rw [valued_negate f hv, valued_negate f hw, ih]
  intro v hv hvv
  have heq := key hvv
  rw [valued_negate f hv] at heq
  obtain ⟨x, hx, rfl | rfl⟩ := hv
  · rw [valued_variable f hx] at heq
    have := hf v
    omega
  · rw [valued_minus] at heq
    have := hf x
    omega

/-! ### One more pair -/

theorem aliasOf_snoc_of_aliasOf (hab : AliasOf pairs a b) : AliasOf (pairs ++ [(a, b)]) v w ↔ AliasOf pairs v w := by
  refine ⟨fun h => ?_, AliasOf.mono (subset_append_left _ _)⟩
  induction h with
  | pair hm =>
    rcases mem_append.1 hm with hm | hm
    · exact .pair hm
    · simp only [mem_singleton, Prod.mk.injEq] at hm
      obtain ⟨rfl, rfl⟩ := hm
      exact hab
  | refl v => exact .refl v
  | symm _ ih => exact ih.symm
  | trans _ _ ih1 ih2 => exact ih1.trans ih2
  | negate _ ih => exact ih.negate

/-- The class that joining `a` and `b` makes of theirs. -/
def Joined (pairs : List (String × String)) (a b v : String) : Prop := AliasOf pairs a v ∨ AliasOf pairs b v

theorem Joined.congr (h : Joined pairs a b v) (hvw : AliasOf pairs v w) :
    Joined pairs a b w := h.imp (·.trans hvw) (·.trans hvw)

theorem Joined.aliasOf_snoc (h : Joined pairs a b v) : AliasOf (pairs ++ [(a, b)]) a v := by
  have hsub : pairs ⊆ pairs ++ [(a, b)] := subset_append_left _ _
  rcases h with h | h
  · exact h.mono hsub
  · exact .trans (.pair (by simp)) (h.mono hsub)

theorem Joined.negate (h : Joined pairs a b v) : Joined pairs (negate a) (negate b) (negate v) := h.imp .negate .negate

/-- With consistent pairs a joined class and its mirror image have no name in
common. -/
theorem not_joined_both (ha : IsSigned a) (hc : Consistent (pairs ++ [(a, b)])) (h : Joined pairs a b v)
    (h' : Joined pairs (negate a) (negate b) v) : False := by
  refine hc a ha (h.aliasOf_snoc.trans ?_)
  have hsub : pairs ⊆ pairs ++ [(a, b)] := subset_append_left _ _
  rcases h' with h' | h'
  · exact (h'.mono hsub).symm
  · exact (h'.mono hsub).symm.trans (AliasOf.pair (by simp)).symm.negate

theorem joined_snoc_negate {u} (hu : Joined pairs (negate a) (negate b) u) :
    AliasOf (pairs ++ [(a, b)]) (negate a) u := by
  have hsub : pairs ⊆ pairs ++ [(a, b)] := subset_append_left _ _
  rcases hu with hu | hu
  · exact hu.mono hsub
  · exact (AliasOf.pair (by simp)).negate.trans (hu.mono hsub)

theorem aliasOf_snoc_of_apart (ha : IsSigned a) (hb : IsSigned b)
    (hd : ∀ u, Joined pairs a b u → ¬ Joined pairs (negate a) (negate b) u) :
    AliasOf (pairs ++ [(a, b)]) v w ↔ AliasOf pairs v w ∨ (Joined pairs a b v ∧ Joined pairs a b w) ∨
      (Joined pairs (negate a) (negate b) v ∧ Joined pairs (negate a) (negate b) w) := by
  constructor
  · intro h
    induction h with
    | pair hm =>
      rcases mem_append.1 hm with hm | hm
      · exact .inl (.pair hm)
      · simp only [mem_singleton, Prod.mk.injEq] at hm
        obtain ⟨rfl, rfl⟩ := hm
        exact .inr (.inl ⟨.inl (.refl _), .inr (.refl _)⟩)
    | refl v => exact .inl (.refl v)
    | symm _ ih =>
      rcases ih with h | h | h
      · exact .inl h.symm
      · exact .inr (.inl h.symm)
      · exact .inr (.inr h.symm)
    | trans _ _ ih1 ih2 =>
      rcases ih1 with h1 | h1 | h1
      · rcases ih2 with h2 | h2 | h2
        · exact .inl (h1.trans h2)
        · exact .inr (.inl ⟨h2.1.congr h1.symm, h2.2⟩)
        · exact .inr (.inr ⟨h2.1.congr h1.symm, h2.2⟩)
      · rcases ih2 with h2 | h2 | h2
        · exact .inr (.inl ⟨h1.1, h1.2.congr h2⟩)
        · exact .inr (.inl ⟨h1.1, h2.2⟩)
        · exact (hd _ h1.2 h2.1).elim
      · rcases ih2 with h2 | h2 | h2
        · exact .inr (.inr ⟨h1.1, h1.2.congr h2⟩)
        · exact (hd _ h2.1 h1.2).elim
        · exact .inr (.inr ⟨h1.1, h2.2⟩)
    | negate _ ih =>
      rcases ih with h | h | h
      · exact .inl h.negate
      · exact .inr (.inr ⟨h.1.negate, h.2.negate⟩)
      · have h1 := h.1.negate
        have h2 := h.2.negate
        rw [negate_negate ha, negate_negate hb] at h1 h2
        exact .inr (.inl ⟨h1, h2⟩)
  · have hsub : pairs ⊆ pairs ++ [(a, b)] := subset_append_left _ _
    rintro (h | ⟨hv, hw⟩ | ⟨hv, hw⟩)
    · exact h.mono hsub
    · exact hv.aliasOf_snoc.symm.trans hw.aliasOf_snoc
    · exact (joined_snoc_negate hv).symm.trans (joined_snoc_negate hw)

/-- One more pair merges the classes of its names and their mirror images, and
leaves the other classes alone. -/
theorem aliasOf_snoc (hs : ∀ p ∈ pairs ++ [(a, b)], IsSigned p.1 ∧ IsSigned p.2) (hc : Consistent (pairs ++ [(a, b)])) :
    AliasOf (pairs ++ [(a, b)]) v w ↔ AliasOf pairs v w ∨ (Joined pairs a b v ∧ Joined pairs a b w) ∨
      (Joined pairs (negate a) (negate b) v ∧ Joined pairs (negate a) (negate b) w) :=
  have hab := hs (a, b) (by simp)
  aliasOf_snoc_of_apart hab.1 hab.2 fun _ => not_joined_both hab.1 hc

/-- A pair is consistent with others unless its second name is an alias of the
negative of the first. -/
theorem Consistent.snoc (hc : Consistent pairs) (ha : IsSigned a) (hb : IsSigned b)
    (hn : ¬ AliasOf pairs (negate a) b) : Consistent (pairs ++ [(a, b)]) := by
  have hd : ∀ u, Joined pairs a b u → ¬ Joined pairs (negate a) (negate b) u := by
    rintro u (hau | hbu) (hau' | hbu')
    · exact hc a ha (hau.trans hau'.symm)
    · have h' := (hau.trans hbu'.symm).negate
      rw [negate_negate hb] at h'
      exact hn h'
    · exact hn (hau'.trans hbu.symm)
    · exact hc b hb (hbu.trans hbu'.symm)
  intro v hv hvv
  rcases (aliasOf_snoc_of_apart ha hb hd).1 hvv with h | ⟨h, h'⟩ | ⟨h, h'⟩
  · exact hc v hv h
  · exact hd _ h' h.negate
  · have hm := h.negate
    rw [negate_negate ha, negate_negate hb] at hm
    exact hd _ hm h'

/-! ### Withdrawn pairs -/

/-- The names that a representative stands for: its class and the mirror
image of it. -/
def Dissolved (pairs : List (String × String)) (c v : String) : Prop :=
  AliasOf pairs c v ∨ AliasOf pairs (negate c) v

theorem Dissolved.congr (hvw : AliasOf pairs v w) : Dissolved pairs c v ↔ Dissolved pairs c w :=
  ⟨fun h => h.imp (·.trans hvw) (·.trans hvw), fun h => h.imp (·.trans hvw.symm) (·.trans hvw.symm)⟩

theorem Dissolved.negate (hc : IsSigned c) (h : Dissolved pairs c v) : Dissolved pairs c (negate v) := by
  rcases h with h | h
  · exact .inr h.negate
  · have h' := h.negate
    rw [negate_negate hc] at h'
    exact .inl h'

open Classical in
/-- The pairs that stay when the class of `c` and its mirror image are
dissolved. -/
noncomputable def withdraw (pairs : List (String × String)) (c : String) : List (String × String) :=
  pairs.filter fun p => ¬ Dissolved pairs c p.1

theorem mem_withdraw {p} : p ∈ withdraw pairs c ↔ p ∈ pairs ∧ ¬ Dissolved pairs c p.1 := by
  simp [withdraw]

theorem withdraw_subset (c : String) : withdraw pairs c ⊆ pairs := fun _ h => (mem_withdraw.1 h).1

/-- Names of the dissolved classes are alone afterwards; for the others
nothing changes. -/
theorem aliasOf_withdraw (hs : ∀ p ∈ pairs, IsSigned p.1 ∧ IsSigned p.2) (hc : IsSigned c) :
    AliasOf (withdraw pairs c) v w ↔ v = w ∨ (¬ Dissolved pairs c v ∧ AliasOf pairs v w) := by
  constructor
  · intro h
    induction h with
    | pair hm => exact .inr ⟨(mem_withdraw.1 hm).2, .pair (mem_withdraw.1 hm).1⟩
    | refl v => exact .inl rfl
    | symm _ ih =>
      rcases ih with rfl | ⟨hd, h⟩
      · exact .inl rfl
      · exact .inr ⟨fun hw => hd ((Dissolved.congr h).2 hw), h.symm⟩
    | trans _ _ ih1 ih2 =>
      rcases ih1 with rfl | ⟨hd, h1⟩
      · exact ih2
      · rcases ih2 with rfl | ⟨_, h2⟩
        · exact .inr ⟨hd, h1⟩
        · exact .inr ⟨hd, h1.trans h2⟩
    | @negate v w _ ih =>
      rcases ih with rfl | ⟨hd, h⟩
      · exact .inl rfl
      · rcases h.eq_or_signed hs with rfl | ⟨hv, _⟩
        · exact .inl rfl
        · refine .inr ⟨fun hn => hd ?_, h.negate⟩
          have hn' := hn.negate hc
          rwa [negate_negate hv] at hn'
  · rintro (rfl | ⟨hd, h⟩)
    · exact .refl v
    · induction h with
      | pair hm => exact .pair (mem_withdraw.2 ⟨hm, hd⟩)
      | refl v => exact .refl v
      | symm h ih => exact (ih fun hw => hd ((Dissolved.congr h).1 hw)).symm
      | trans h1 _ ih1 ih2 => exact (ih1 hd).trans (ih2 fun hv => hd ((Dissolved.congr h1).2 hv))
      | @negate v w h ih => exact (ih fun hv => hd (hv.negate hc)).negate

end Modelica
