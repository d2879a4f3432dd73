/-
What joins the three parts of an alias relation (the groups, the leaders and
the representatives) with the pairs it was made from.

`Sound r pairs` says that the group of a name is its class under
`AliasOf pairs`, that names of one class have one leader and names of mirrored
classes the same leader with the other sign, and that the representatives are
the variables that lead themselves. `Sound.add` and `Sound.remove`: both
operations succeed and keep it.
-/
import Modelica.Proofs.Alias.Closure
import Modelica.Proofs.Table
import Mathlib.Data.List.Nodup

namespace Modelica

open List

/-- A variable with a sign in front. -/
def Sign.on : Sign → String → String
  | .plus, x => x
  | .minus, x => negate x

theorem Sign.flip_on (s : Sign) {x} (hx : IsVariable x) : s.flip.on x = negate (s.on x) := by
  cases s with
  | plus => rfl
  | minus => exact (negate_negate hx.isSigned).symm

theorem Sign.eq_or_eq_flip (s t : Sign) : t = s ∨ t = s.flip := by
  cases s <;> cases t <;> simp [Sign.flip]

theorem Sign.flip_flip (s : Sign) : s.flip.flip = s := by cases s <;> rfl

namespace AliasRelation

variable {xs ys vs : List String} {α : Type} {v c : String}

theorem mem_union {w} : w ∈ union xs ys ↔ w ∈ xs ∨ w ∈ ys := by
  simp only [union, mem_append, mem_filter, Bool.not_eq_true', contains_eq_mem,
    decide_eq_false_iff_not]
  by_cases h : w ∈ xs <;> simp [h]

/-! ### Entering a group and its mirror image -/

/-- No name stands in the list together with its negative. -/
def MirrorFree (vs : List String) : Prop := ∀ v ∈ vs, negate v ∉ vs

/-- How a table looks once `x` has been entered for the given names and `y`
for their negatives. -/
def Entered {α : Type} (vs : List String) (x y : α) (t t' : Table String α) : Prop :=
  ∀ w, t'.get? w = if w ∈ vs then some x else if w ∈ vs.map negate then some y else t.get? w

theorem entered_foldl {step : Table String α → String → Table String α} {x y : α} (hfree : MirrorFree vs)
    (hstep : ∀ t v w, v ≠ negate v →
      (step t v).get? w = if w = v then some x else if w = negate v then some y else t.get? w)
    (t : Table String α) : Entered vs x y t (vs.foldl step t) := by
  induction vs generalizing t with
  | nil => exact fun w => by simp
  | cons v vs ih =>
    intro w
    rw [foldl_cons, ih (fun u hu hn => hfree u (.tail _ hu) (.tail _ hn)) (step t v) w]
    by_cases hw : w ∈ vs
    · simp [hw]
    · by_cases hn : w ∈ vs.map negate
      · have hne : w ≠ v := by
          rintro rfl
          obtain ⟨u, hu, hun⟩ := mem_map.1 hn
          exact hfree u (.tail _ hu) (hun ▸ (.head _))
        rw [if_neg hw, if_pos hn, if_neg (by simp [hne, hw]), if_pos (by simp [mem_map.1 hn])]
      · rw [if_neg hw, if_neg hn, hstep _ _ _ fun he => hfree v (.head _) (he ▸ (.head _))]
        simp [hw, hn]

section

variable (hs : ∀ v ∈ vs, IsSigned v)

include hs

theorem enterGroups_eq (x y : α) (t : Table String α) :
    enterGroups x y vs t = .ok (vs.foldl (fun t v => (t.insert (negate v) y).insert v x) t) := by
  induction vs generalizing t with
  | nil => rfl
  | cons v vs ih =>
    rw [enterGroups, (hs v (.head _)).toggleSign]
    exact ih (fun u hu => hs u (.tail _ hu)) _

theorem enterLeaders_eq (x : String) (s : Sign) (t : Table String (String × Sign)) :
    enterLeaders x s vs t = .ok (vs.foldl (fun t v => (t.insert v (x, s)).insert (negate v) (x, s.flip)) t) := by
  induction vs generalizing t with
  | nil => rfl
  | cons v vs ih =>
    rw [enterLeaders, (hs v (.head _)).toggleSign]
    exact ih (fun u hu => hs u (.tail _ hu)) _

theorem enterGroups_entered (hfree : MirrorFree vs) (x y : α) (t : Table String α) :
    ∃ t', enterGroups x y vs t = .ok t' ∧ Entered vs x y t t' := by
  refine ⟨_, enterGroups_eq hs x y t, entered_foldl hfree (fun t v w _ => ?_) t⟩
  rw [Table.get?_insert, Table.get?_insert]

theorem enterLeaders_entered (hfree : MirrorFree vs) (x : String) (s : Sign) (t : Table String (String × Sign)) :
    ∃ t', enterLeaders x s vs t = .ok t' ∧ Entered vs (x, s) (x, s.flip) t t' := by
  refine ⟨_, enterLeaders_eq hs x s t, entered_foldl hfree (fun t v w hne => ?_) t⟩
  rw [Table.get?_insert, Table.get?_insert]
  by_cases hw : w = v <;> simp [hw, hne]

end

/-- Whoever is entered, and whoever had the leader before, has it afterwards,
up to the sign. -/
theorem leader_foldl (x : String) (s : Sign) {t : Table String (String × Sign)} {w}
    (h : w ∈ vs ∨ ∃ l, t.get? w = some l ∧ l.1 = x) :
    ∃ l, (vs.foldl (fun t v => (t.insert v (x, s)).insert (negate v) (x, s.flip)) t).get? w = some l ∧ l.1 = x := by
  induction vs generalizing t with
  | nil => simpa using h
  | cons v vs ih =>
    refine ih ?_
    rw [Table.get?_insert, Table.get?_insert]
    by_cases hn : w = negate v
    · exact .inr ⟨_, if_pos hn, rfl⟩
    · rw [if_neg hn]
      by_cases hv : w = v
      · exact .inr ⟨_, if_pos hv, rfl⟩
      · simpa [hv] using h

theorem leader_ok (r : AliasRelation) (hv : IsSigned v) : ∃ l, r.leader v = .ok l := by
  unfold leader
  split
  · exact ⟨_, rfl⟩
  · obtain ⟨x, hx, rfl | rfl⟩ := hv
    · exact ⟨_, hx.splitSign⟩
    · exact ⟨_, splitSign_minus x⟩

theorem add_joins (r : AliasRelation) {a b} (ha : IsSigned a) (hb : IsSigned b)
    (hnot : b ∉ r.aliases a) (hs : ∀ v ∈ union (r.aliases a) (r.aliases b), IsSigned v)
    (hfree : MirrorFree (union (r.aliases a) (r.aliases b))) :
    ∃ r' la lb, r.add a b = .ok r' ∧ r.leader a = .ok la ∧ r.leader b = .ok lb ∧
      Entered (union (r.aliases a) (r.aliases b)) (union (r.aliases a) (r.aliases b))
        (union (r.aliases (negate a)) (r.aliases (negate b))) r.groups r'.groups ∧
      Entered (union (r.aliases a) (r.aliases b)) la (la.1, la.2.flip) r.leaders r'.leaders ∧
      r'.canonical = (union r.canonical [la.1]).filter (· ≠ lb.1) := by
  obtain ⟨la, hla⟩ := r.leader_ok ha
  obtain ⟨lb, hlb⟩ := r.leader_ok hb
  obtain ⟨gs, hgs, hgroups⟩ := enterGroups_entered hs hfree (union (r.aliases a) (r.aliases b))
    (union (r.aliases (negate a)) (r.aliases (negate b))) r.groups
  obtain ⟨ls, hls, hleaders⟩ := enterLeaders_entered hs hfree la.1 la.2 r.leaders
  refine ⟨⟨gs, ls, (union r.canonical [la.1]).filter (· ≠ lb.1)⟩, la, lb, ?_, hla, hlb, hgroups, hleaders, rfl⟩
  have hcontains : (r.aliases a).contains b = false := by simpa using hnot
  simp only [add, hcontains, Bool.false_eq_true, if_false, ha.toggleSign, hb.toggleSign, bind, Except.bind,
    hgs, hla, hlb, hls]
  rfl

/-! ### The invariant -/

/-- What the parts of an alias relation have to do with the pairs it was made
from. -/
structure Sound (r : AliasRelation) (pairs : List (String × String)) : Prop where
  signed : ∀ p ∈ pairs, IsSigned p.1 ∧ IsSigned p.2
  consistent : Consistent pairs
  grouped : ∀ {v g}, r.groups.get? v = some g → ∀ w, w ∈ g ↔ AliasOf pairs v w
  alone : ∀ {v}, r.groups.get? v = none → ∀ {w}, AliasOf pairs v w → v = w
  led : ∀ {v l}, r.leaders.get? v = some l → l.1 ∈ r.canonical ∧ AliasOf pairs v (l.2.on l.1)
  /-- Exactly the names that are not alone have a leader. -/
  leader_iff : ∀ {v}, (∃ l, r.leaders.get? v = some l) ↔ ∃ w, v ≠ w ∧ AliasOf pairs v w
  leader_congr : ∀ {v w}, AliasOf pairs v w → r.leaders.get? v = r.leaders.get? w
  leader_negate : ∀ {v l}, IsSigned v → r.leaders.get? v = some l →
    r.leaders.get? (negate v) = some (l.1, l.2.flip)
  canonical : ∀ {c}, c ∈ r.canonical → IsVariable c ∧ r.leaders.get? c = some (c, .plus)
  nodup : r.canonical.Nodup

theorem sound_empty : Sound {} [] where
  signed := by simp
  consistent v hv h := hv.ne_negate (eq_of_aliasOf_nil h)
  grouped h := by simp [Table.get?, Table.lookup] at h
  alone _ _ h := eq_of_aliasOf_nil h
  led h := by simp [Table.get?, Table.lookup] at h
  leader_iff := by
    intro v
    constructor
    · rintro ⟨l, h⟩
      simp [Table.get?, Table.lookup] at h
    · rintro ⟨w, hne, h⟩
      exact absurd (eq_of_aliasOf_nil h) hne
  leader_congr _ := rfl
  leader_negate _ h := by simp [Table.get?, Table.lookup] at h
  canonical h := by simp at h
  nodup := nodup_nil

variable {r : AliasRelation} {pairs : List (String × String)}

section

variable (h : Sound r pairs)

variable {v w a b : String} {l : String × Sign}

include h

theorem Sound.mem_aliases : w ∈ r.aliases v ↔ AliasOf pairs v w := by
  unfold aliases
  cases hg : r.groups.get? v with
  | some g => exact h.grouped hg w
  | none =>
    simp only [Option.getD_none, mem_singleton]
    refine ⟨?_, fun h' => (h.alone hg h').symm⟩
    rintro rfl
    exact .refl w

theorem Sound.leader_spec (hv : IsSigned v) (hl : r.leader v = .ok l) :
    IsVariable l.1 ∧ AliasOf pairs v (l.2.on l.1) := by
  unfold leader at hl
  split at hl
  · next l' hget =>
    cases hl
    exact ⟨(h.canonical (h.led hget).1).1, (h.led hget).2⟩
  · obtain ⟨x, hx, rfl | rfl⟩ := hv
    · cases hx.splitSign.symm.trans hl
      exact ⟨hx, .refl v⟩
    · rw [splitSign_minus] at hl
      cases hl
      refine ⟨hx, ?_⟩
      simp only [Sign.on, negate_variable hx]
      exact .refl _

/-! ### Adding a pair -/

theorem Sound.mem_joined : w ∈ union (r.aliases a) (r.aliases b) ↔ Joined pairs a b w := by
  rw [mem_union, h.mem_aliases, h.mem_aliases, Joined]

theorem Sound.joined_signed (ha : IsSigned a) (hb : IsSigned b) (hw : Joined pairs a b w) : IsSigned w := by
  rcases hw with hw | hw
  · exact hw.signed h.signed ha
  · exact hw.signed h.signed hb

theorem Sound.mem_map_negate (ha : IsSigned a) (hb : IsSigned b) :
    w ∈ (union (r.aliases a) (r.aliases b)).map negate ↔ Joined pairs (negate a) (negate b) w := by
  rw [mem_map]
  constructor
  · rintro ⟨u, hu, rfl⟩
    exact (h.mem_joined.1 hu).negate
  · intro hw
    have hsw := h.joined_signed ha.negate hb.negate hw
    have hn := hw.negate
    rw [negate_negate ha, negate_negate hb] at hn
    exact ⟨negate w, h.mem_joined.2 hn, negate_negate hsw⟩

theorem Sound.signed_snoc (ha : IsSigned a) (hb : IsSigned b) :
    ∀ p ∈ pairs ++ [(a, b)], IsSigned p.1 ∧ IsSigned p.2 := by
  intro p hp
  rcases mem_append.1 hp with hp | hp
  · exact h.signed p hp
  · rw [mem_singleton.1 hp]
    exact ⟨ha, hb⟩

theorem Sound.ne_leader_of_not_joined (hb : IsSigned b) {lb} (hlb : r.leader b = .ok lb)
    (hl : r.leaders.get? v = some l) (hj : ¬ Joined pairs a b v) (hn : ¬ Joined pairs (negate a) (negate b) v) :
    l.1 ≠ lb.1 := by
  intro he
  obtain ⟨hx, hbb⟩ := h.leader_spec hb hlb
  have hal := (h.led hl).2
  rw [he] at hal
  rcases Sign.eq_or_eq_flip lb.2 l.2 with hs | hs
  · rw [hs] at hal
    exact hj (.inr (hbb.trans hal.symm))
  · rw [hs, Sign.flip_on _ hx] at hal
    exact hn (.inr (hbb.negate.trans hal.symm))

end

theorem nodup_union (hx : xs.Nodup) (hy : ys.Nodup) : (union xs ys).Nodup := by
  refine nodup_append.2 ⟨hx, hy.filter _, fun u hu w hw => ?_⟩
  rintro rfl
  simp [hu] at hw

section

variable (h : Sound r pairs) {a b : String} (ha : IsSigned a) (hb : IsSigned b) (hc : Consistent (pairs ++ [(a, b)]))

variable {gs : Table String (List String)} {x y : String × Sign}

include h ha hb hc

variable {v : String} {l la lb : String × Sign} {ls : Table String (String × Sign)}

/-- Where a name stands after two groups have been joined: in the joined
group, in its mirror image, or elsewhere, where nothing changes. -/
theorem Sound.entered_cases {α : Type} {x y} {t t' : Table String α}
    (he : Entered (union (r.aliases a) (r.aliases b)) x y t t') (w : String) :
    (Joined pairs a b w ∧ ¬ Joined pairs (negate a) (negate b) w ∧ t'.get? w = some x) ∨
    (¬ Joined pairs a b w ∧ Joined pairs (negate a) (negate b) w ∧ t'.get? w = some y) ∨
    (¬ Joined pairs a b w ∧ ¬ Joined pairs (negate a) (negate b) w ∧ t'.get? w = t.get? w) := by
  have hget := he w
  by_cases hj : Joined pairs a b w
  · rw [if_pos (h.mem_joined.2 hj)] at hget
    exact .inl ⟨hj, fun hn => not_joined_both ha hc hj hn, hget⟩
  · rw [if_neg fun hm => hj (h.mem_joined.1 hm)] at hget
    by_cases hn : Joined pairs (negate a) (negate b) w
    · rw [if_pos ((h.mem_map_negate ha hb).2 hn)] at hget
      exact .inr (.inl ⟨hj, hn, hget⟩)
    · rw [if_neg fun hm => hn ((h.mem_map_negate ha hb).1 hm)] at hget
      exact .inr (.inr ⟨hj, hn, hget⟩)

theorem Sound.leader_ne (hnot : ¬ AliasOf pairs a b) (hla : r.leader a = .ok la) (hlb : r.leader b = .ok lb) :
    la.1 ≠ lb.1 := by
  intro he
  obtain ⟨hxa, haa⟩ := h.leader_spec ha hla
  obtain ⟨hxb, hbb⟩ := h.leader_spec hb hlb
  rw [← he] at hbb
  rcases Sign.eq_or_eq_flip la.2 lb.2 with hs | hs
  · rw [hs] at hbb
    exact hnot (haa.trans hbb.symm)
  · rw [hs, Sign.flip_on _ hxa] at hbb
    have hba : AliasOf pairs b (negate a) := hbb.trans haa.symm.negate
    exact hc a ha (.trans (.pair (by simp)) (hba.mono (subset_append_left _ _)))

/-- The leader of `a` takes the place of the leader of `b` among the
representatives, and all of them still lead themselves. -/
theorem Sound.canonical_snoc (hla : r.leader a = .ok la) (hlb : r.leader b = .ok lb)
    (he : Entered (union (r.aliases a) (r.aliases b)) la (la.1, la.2.flip) r.leaders ls) {c : String}
    (hmem : c ∈ (union r.canonical [la.1]).filter (· ≠ lb.1)) : IsVariable c ∧ ls.get? c = some (c, .plus) := by
  obtain ⟨hx, hax⟩ := h.leader_spec ha hla
  simp only [mem_filter, mem_union, mem_singleton, ne_eq, decide_not, Bool.not_eq_true',
    decide_eq_false_iff_not] at hmem
  obtain ⟨hold | rfl, hne⟩ := hmem
  · obtain ⟨hvar, hget⟩ := h.canonical hold
    -- an old representative in one of the joined groups is the leader of `a`
    have key : ∀ {u l}, AliasOf pairs u c → r.leader u = .ok l → l = (c, .plus) := by
      intro u l hu hl
      rw [leader, h.leader_congr hu, hget] at hl
      cases hl
      rfl
    have keyNeg : ∀ {u l}, IsSigned u → AliasOf pairs (negate u) c → r.leader u = .ok l → l = (c, .minus) := by
      intro u l hsu hu hl
      have hcu : AliasOf pairs (negate c) u := by
        have h' := hu.symm.negate
        rwa [negate_negate hsu] at h'
      rw [leader, ← h.leader_congr hcu, h.leader_negate hvar.isSigned hget] at hl
      cases hl
      rfl
    refine ⟨hvar, ?_⟩
    rcases h.entered_cases ha hb hc he c with ⟨hj, -, hg⟩ | ⟨-, hn, hg⟩ | ⟨-, -, hg⟩
    · rcases hj with hj | hj
      · rw [hg, key hj hla]
      · rw [key hj hlb] at hne
        exact absurd rfl hne
    · rcases hn with hn | hn
      · rw [hg, keyNeg ha hn hla]
        rfl
      · rw [keyNeg hb hn hlb] at hne
        exact absurd rfl hne
    · rw [hg, hget]
  · refine ⟨hx, ?_⟩
    cases hs : la.2 with
    | plus =>
      rw [hs] at hax
      rcases h.entered_cases ha hb hc he la.1 with ⟨-, -, hg⟩ | ⟨hj, -, -⟩ | ⟨hj, -, -⟩
      · rw [hg, ← hs]
      · exact absurd (.inl hax) hj
      · exact absurd (.inl hax) hj
    | minus =>
      have hn : Joined pairs (negate a) (negate b) la.1 := by
        rw [hs] at hax
        have h' := hax.negate
        simp only [Sign.on, negate_negate hx.isSigned] at h'
        exact .inl h'
      rcases h.entered_cases ha hb hc he la.1 with ⟨-, hn', -⟩ | ⟨-, -, hg⟩ | ⟨-, hn', -⟩
      · exact absurd hn hn'
      · rw [hg, hs]
        rfl
      · exact absurd hn hn'

/-- The joined group and its mirror image are the classes of their names; a
name outside has the class it had. -/
theorem Sound.grouped_snoc (he : Entered (union (r.aliases a) (r.aliases b)) (union (r.aliases a) (r.aliases b))
      (union (r.aliases (negate a)) (r.aliases (negate b))) r.groups gs) {g : List String} (hg : gs.get? v = some g)
    (w : String) : w ∈ g ↔ AliasOf (pairs ++ [(a, b)]) v w := by
  rw [aliasOf_snoc (h.signed_snoc ha hb) hc]
  rcases h.entered_cases ha hb hc he v with ⟨hj, hn, hget⟩ | ⟨hj, hn, hget⟩ | ⟨hj, hn, hget⟩
  · cases hget.symm.trans hg
    rw [h.mem_joined]
    exact ⟨fun hw => .inr (.inl ⟨hj, hw⟩), fun hw => hw.elim hj.congr (·.elim (·.2) fun hw => absurd hw.1 hn)⟩
  · cases hget.symm.trans hg
    rw [h.mem_joined]
    exact ⟨fun hw => .inr (.inr ⟨hn, hw⟩), fun hw => hw.elim hn.congr (·.elim (fun hw => absurd hw.1 hj) (·.2))⟩
  · rw [h.grouped (hget.symm.trans hg)]
    exact ⟨.inl, fun hw => hw.elim id (·.elim (fun hw => absurd hw.1 hj) fun hw => absurd hw.1 hn)⟩

theorem Sound.alone_snoc {x y} (he : Entered (union (r.aliases a) (r.aliases b)) x y r.groups gs)
    {v w : String} (hg : gs.get? v = none) (hvw : AliasOf (pairs ++ [(a, b)]) v w) : v = w := by
  rcases h.entered_cases ha hb hc he v with ⟨-, -, hget⟩ | ⟨-, -, hget⟩ | ⟨hj, hn, hget⟩
  · cases hget.symm.trans hg
  · cases hget.symm.trans hg
  · rcases (aliasOf_snoc (h.signed_snoc ha hb) hc).1 hvw with hvw | hvw | hvw
    · exact h.alone (hget.symm.trans hg) hvw
    · exact absurd hvw.1 hj
    · exact absurd hvw.1 hn

/-- Everyone in the joined group is led by the leader of `a`, everyone in the
mirror image with the other sign. -/
theorem Sound.led_snoc (hnot : ¬ AliasOf pairs a b) (hla : r.leader a = .ok la) (hlb : r.leader b = .ok lb)
    (he : Entered (union (r.aliases a) (r.aliases b)) la (la.1, la.2.flip) r.leaders ls) (hl : ls.get? v = some l) :
    l.1 ∈ (union r.canonical [la.1]).filter (· ≠ lb.1) ∧ AliasOf (pairs ++ [(a, b)]) v (l.2.on l.1) := by
  have hsub : pairs ⊆ pairs ++ [(a, b)] := subset_append_left _ _
  obtain ⟨hx, hax⟩ := h.leader_spec ha hla
  have hmem : la.1 ∈ (union r.canonical [la.1]).filter (· ≠ lb.1) := by
    simp [mem_union, h.leader_ne ha hb hc hnot hla hlb]
  rcases h.entered_cases ha hb hc he v with ⟨hj, -, hget⟩ | ⟨-, hn, hget⟩ | ⟨hj, hn, hget⟩
  · cases hget.symm.trans hl
    exact ⟨hmem, hj.aliasOf_snoc.symm.trans (hax.mono hsub)⟩
  · cases hget.symm.trans hl
    refine ⟨hmem, (joined_snoc_negate hn).symm.trans ?_⟩
    rw [Sign.flip_on _ hx]
    exact (hax.mono hsub).negate
  · have hold := hget.symm.trans hl
    refine ⟨?_, (h.led hold).2.mono hsub⟩
    simp [mem_union, (h.led hold).1, h.ne_leader_of_not_joined hb hlb hold hj hn]

theorem Sound.leader_iff_snoc (hnot : ¬ AliasOf pairs a b)
    (he : Entered (union (r.aliases a) (r.aliases b)) x y r.leaders ls) :
    (∃ l, ls.get? v = some l) ↔ ∃ w, v ≠ w ∧ AliasOf (pairs ++ [(a, b)]) v w := by
  have hne : a ≠ b := fun he => hnot (he ▸ .refl a)
  rcases h.entered_cases ha hb hc he v with ⟨hj, -, hget⟩ | ⟨-, hn, hget⟩ | ⟨hj, hn, hget⟩
  · refine ⟨fun _ => ?_, fun _ => ⟨_, hget⟩⟩
    by_cases hva : v = a
    · exact ⟨b, hva ▸ hne, hva ▸ .pair (by simp)⟩
    · exact ⟨a, hva, hj.aliasOf_snoc.symm⟩
  · refine ⟨fun _ => ?_, fun _ => ⟨_, hget⟩⟩
    by_cases hva : v = negate a
    · refine ⟨negate b, fun he => hne ?_, hva ▸ (AliasOf.pair (by simp)).negate⟩
      rw [← negate_negate ha, ← hva, he, negate_negate hb]
    · exact ⟨negate a, hva, (joined_snoc_negate hn).symm⟩
  · rw [hget, h.leader_iff]
    constructor
    · rintro ⟨w, hvw, hal⟩
      exact ⟨w, hvw, hal.mono (subset_append_left _ _)⟩
    · rintro ⟨w, hvw, hal⟩
      rcases (aliasOf_snoc (h.signed_snoc ha hb) hc).1 hal with hal | hal | hal
      · exact ⟨w, hvw, hal⟩
      · exact absurd hal.1 hj
      · exact absurd hal.1 hn

theorem Sound.leader_congr_snoc (he : Entered (union (r.aliases a) (r.aliases b)) x y r.leaders ls) {v w : String}
    (hvw : AliasOf (pairs ++ [(a, b)]) v w) : ls.get? v = ls.get? w := by
  have same : ∀ {u u'}, AliasOf pairs u u' → (Joined pairs a b u ↔ Joined pairs a b u') ∧
      (Joined pairs (negate a) (negate b) u ↔ Joined pairs (negate a) (negate b) u') := fun huu =>
    ⟨⟨(·.congr huu), (·.congr huu.symm)⟩, ⟨(·.congr huu), (·.congr huu.symm)⟩⟩
  rcases (aliasOf_snoc (h.signed_snoc ha hb) hc).1 hvw with hvw | ⟨hv, hw⟩ | ⟨hv, hw⟩
  · obtain ⟨hjj, hnn⟩ := same hvw
    rcases h.entered_cases ha hb hc he v with ⟨hj, -, hget⟩ | ⟨hj, hn, hget⟩ | ⟨hj, hn, hget⟩
    · rw [hget, he w, if_pos (h.mem_joined.2 (hjj.1 hj))]
    · rw [hget, he w, if_neg fun hm => hj (hjj.2 (h.mem_joined.1 hm)),
        if_pos ((h.mem_map_negate ha hb).2 (hnn.1 hn))]
    · rw [hget, he w, if_neg fun hm => hj (hjj.2 (h.mem_joined.1 hm)),
        if_neg fun hm => hn (hnn.2 ((h.mem_map_negate ha hb).1 hm)), h.leader_congr hvw]
  · rw [he v, he w, if_pos (h.mem_joined.2 hv), if_pos (h.mem_joined.2 hw)]
  · have out {u} (hu : Joined pairs (negate a) (negate b) u) : ls.get? u = some y := by
      rw [he u, if_neg fun hm => not_joined_both ha hc (h.mem_joined.1 hm) hu,
        if_pos ((h.mem_map_negate ha hb).2 hu)]
    rw [out hv, out hw]

theorem Sound.leader_negate_snoc (he : Entered (union (r.aliases a) (r.aliases b)) x (x.1, x.2.flip) r.leaders ls)
    (hv : IsSigned v) (hl : ls.get? v = some l) : ls.get? (negate v) = some (l.1, l.2.flip) := by
  have mirror : Joined pairs a b (negate v) ↔ Joined pairs (negate a) (negate b) v := by
    constructor
    · intro hu
      have h' := hu.negate
      rwa [negate_negate hv] at h'
    · intro hu
      have h' := hu.negate
      rwa [negate_negate ha, negate_negate hb] at h'
  have mirror' : Joined pairs (negate a) (negate b) (negate v) ↔ Joined pairs a b v := by
    refine ⟨fun hu => ?_, Joined.negate⟩
    have h' := hu.negate
    rwa [negate_negate ha, negate_negate hb, negate_negate hv] at h'
  rcases h.entered_cases ha hb hc he v with ⟨hj, hn, hget⟩ | ⟨hj, hn, hget⟩ | ⟨hj, hn, hget⟩
  · cases hget.symm.trans hl
    rw [he, if_neg fun hm => hn (mirror.1 (h.mem_joined.1 hm)), if_pos ((h.mem_map_negate ha hb).2 hj.negate)]
  · cases hget.symm.trans hl
    rw [he, if_pos (h.mem_joined.2 (mirror.2 hn)), Sign.flip_flip]
  · rw [he, if_neg fun hm => hn (mirror.1 (h.mem_joined.1 hm)),
      if_neg fun hm => hj (mirror'.1 ((h.mem_map_negate ha hb).1 hm))]
    exact h.leader_negate hv (hget.symm.trans hl)

theorem Sound.joined_free : (∀ v ∈ union (r.aliases a) (r.aliases b), IsSigned v) ∧
    MirrorFree (union (r.aliases a) (r.aliases b)) :=
  ⟨fun _ hv => h.joined_signed ha hb (h.mem_joined.1 hv), fun _ hv hn =>
    not_joined_both ha hc (h.mem_joined.1 hn) (h.mem_joined.1 hv).negate⟩

/-- Joining two groups succeeds, keeps the invariant with one more pair, and
hands the leader of `a` on to the joined group. -/
theorem Sound.join (hnot : ¬ AliasOf pairs a b) :
    ∃ r' la, r.add a b = .ok r' ∧ Sound r' (pairs ++ [(a, b)]) ∧ r.leader a = .ok la ∧
      ∀ v, Joined pairs a b v → r'.leader v = .ok la := by
  obtain ⟨hsu, hfree⟩ := h.joined_free ha hb hc
  obtain ⟨r', la, lb, hadd, hla, hlb, hgroups, hleaders, hcanonical⟩ :=
    r.add_joins ha hb (fun hm => hnot (h.mem_aliases.1 hm)) hsu hfree
  refine ⟨r', la, hadd, ?_, hla, fun v hv => ?_⟩
  · exact {
      signed := h.signed_snoc ha hb
      consistent := hc
      grouped := fun hg w => h.grouped_snoc ha hb hc hgroups hg w
      alone := fun hg _ hvw => h.alone_snoc ha hb hc hgroups hg hvw
      led := fun hl => hcanonical ▸ h.led_snoc ha hb hc hnot hla hlb hleaders hl
      leader_iff := h.leader_iff_snoc ha hb hc hnot hleaders
      leader_congr := h.leader_congr_snoc ha hb hc hleaders
      leader_negate := h.leader_negate_snoc ha hb hc hleaders
      canonical := fun hm => h.canonical_snoc ha hb hc hla hlb hleaders (hcanonical ▸ hm)
      nodup := hcanonical ▸ (nodup_union h.nodup (nodup_singleton _)).filter _ }
  · rw [leader, hleaders v, if_pos (h.mem_joined.2 hv)]
    rfl

theorem Sound.add : ∃ r', r.add a b = .ok r' ∧ Sound r' (pairs ++ [(a, b)]) := by
  by_cases hab : AliasOf pairs a b
  · refine ⟨r, ?_, ?_⟩
    · simp only [AliasRelation.add, contains_eq_mem, decide_eq_true_eq, h.mem_aliases, hab, hab.symm, if_true]
      rfl
    · have same : ∀ {v w}, AliasOf (pairs ++ [(a, b)]) v w ↔ AliasOf pairs v w := aliasOf_snoc_of_aliasOf hab
      exact {
        signed := h.signed_snoc ha hb
        consistent := hc
        grouped := fun hg w => (h.grouped hg w).trans same.symm
        alone := fun hg _ hvw => h.alone hg (same.1 hvw)
        led := fun hl => ⟨(h.led hl).1, same.2 (h.led hl).2⟩
        leader_iff := by simp only [same]; exact h.leader_iff
        leader_congr := fun hvw => h.leader_congr (same.1 hvw)
        leader_negate := h.leader_negate
        canonical := h.canonical
        nodup := h.nodup }
  · obtain ⟨r', -, hadd, hsound, -, -⟩ := h.join ha hb hc hab
    exact ⟨r', hadd, hsound⟩

theorem Sound.aliasOf_left_snoc : AliasOf (pairs ++ [(a, b)]) a v ↔ Joined pairs a b v := by
  refine ⟨fun hv => ?_, Joined.aliasOf_snoc⟩
  rcases (aliasOf_snoc (h.signed_snoc ha hb) hc).1 hv with hv | hv | hv
  · exact .inl hv
  · exact hv.2
  · exact (not_joined_both ha hc (.inl (.refl a)) hv.1).elim

end

/-! ### Representatives -/

theorem Sound.leader_mem (h : Sound r pairs) {l} (hv : ∃ w, v ≠ w ∧ AliasOf pairs v w)
    (hl : r.leader v = .ok l) : l.1 ∈ r.canonical := by
  obtain ⟨l', hget⟩ := h.leader_iff.2 hv
  rw [leader, hget] at hl
  cases hl
  exact (h.led hget).1

/-- A class that is not a single name and its mirror image have exactly one
representative between them. -/
theorem Sound.existsUnique_canonical (h : Sound r pairs) (hv : IsSigned v) (hmany : ∃ w, v ≠ w ∧ AliasOf pairs v w) :
    ∃! c, c ∈ r.canonical ∧ (c ∈ r.aliases v ∨ c ∈ r.aliases (negate v)) := by
  obtain ⟨⟨c, s⟩, hl⟩ := h.leader_iff.2 hmany
  obtain ⟨hc, hal⟩ := h.led hl
  have hvar := (h.canonical hc).1
  refine ⟨c, ⟨hc, ?_⟩, ?_⟩
  · rw [h.mem_aliases, h.mem_aliases]
    cases s with
    | plus => exact .inl hal
    | minus =>
      have h' := hal.negate
      simp only [Sign.on, negate_negate hvar.isSigned] at h'
      exact .inr h'
  · rintro d ⟨hd, hvd⟩
    rw [h.mem_aliases, h.mem_aliases] at hvd
    have hld := (h.canonical hd).2
    rcases hvd with hvd | hvd
    · rw [h.leader_congr hvd, hld] at hl
      cases hl
      rfl
    · have hln := h.leader_negate hv hl
      rw [h.leader_congr hvd, hld] at hln
      exact (Prod.mk.inj (Option.some.inj hln)).1

/-! ### Dissolving a group -/

theorem Sound.groups_ne_none (h : Sound r pairs) (hc : c ∈ r.canonical) :
    (∃ g, r.groups.get? c = some g) ∧ ∃ g, r.groups.get? (negate c) = some g := by
  obtain ⟨hvar, hl⟩ := h.canonical hc
  obtain ⟨w, hne, hal⟩ := h.leader_iff.1 ⟨_, hl⟩
  have hw := hal.signed h.signed hvar.isSigned
  refine ⟨Option.ne_none_iff_exists'.1 fun hg => hne (h.alone hg hal), Option.ne_none_iff_exists'.1 fun hg => hne ?_⟩
  rw [← negate_negate hvar.isSigned, h.alone hg hal.negate, negate_negate hw]

/-- How a table looks once the names that `c` stands for have been erased. -/
def Erased {α : Type} (pairs : List (String × String)) (c : String) (t t' : Table String α) : Prop :=
  ∀ v, (Dissolved pairs c v → t'.get? v = none) ∧ (¬ Dissolved pairs c v → t'.get? v = t.get? v)

theorem Erased.of_some {t t'} {x : α} (h : Erased pairs c t t') (hx : t'.get? v = some x) :
    ¬ Dissolved pairs c v ∧ t.get? v = some x := by
  by_cases hv : Dissolved pairs c v
  · rw [(h v).1 hv] at hx
    cases hx
  · exact ⟨hv, (h v).2 hv ▸ hx⟩

theorem erased_foldl {gone : List String} (hgone : ∀ v, v ∈ gone ↔ Dissolved pairs c v) (t : Table String α) :
    Erased pairs c t (gone.foldl Table.erase t) := by
  intro v
  rw [Table.get?_foldl_erase]
  exact ⟨fun hv => if_pos ((hgone v).2 hv), fun hv => if_neg fun hm => hv ((hgone v).1 hm)⟩

section

variable (h : Sound r pairs) (hc : c ∈ r.canonical)

include h hc

theorem Sound.remove_eq {g gn : List String}
    (hg : r.groups.get? c = some g) (hgn : r.groups.get? (negate c) = some gn) :
    r.remove c = .ok ⟨(union g gn).foldl Table.erase r.groups, (union g gn).foldl Table.erase r.leaders,
      r.canonical.filter (· ≠ c)⟩ := by
  simp only [remove, contains_eq_mem, hc, decide_true, Bool.not_true, Bool.false_eq_true, if_false,
    (h.canonical hc).1.isSigned.toggleSign, hg, hgn, bind, Except.bind]
  rfl

theorem Sound.remove_erases : ∃ r', r.remove c = .ok r' ∧ r'.canonical = r.canonical.filter (· ≠ c) ∧
      Erased pairs c r.groups r'.groups ∧ Erased pairs c r.leaders r'.leaders := by
  obtain ⟨⟨g, hg⟩, ⟨gn, hgn⟩⟩ := h.groups_ne_none hc
  have hgone : ∀ v, v ∈ union g gn ↔ Dissolved pairs c v := fun v => by
    rw [mem_union, h.grouped hg, h.grouped hgn, Dissolved]
  exact ⟨_, h.remove_eq hc hg hgn, rfl, erased_foldl hgone _, erased_foldl hgone _⟩

theorem Sound.not_dissolved {d : String} (hd : d ∈ r.canonical) (hne : d ≠ c) : ¬ Dissolved pairs c d := by
  obtain ⟨hvar, hlc⟩ := h.canonical hc
  obtain ⟨-, hld⟩ := h.canonical hd
  rintro (hcd | hcd)
  · rw [h.leader_congr hcd, hld] at hlc
    cases hlc
    exact hne rfl
  · have hlm := h.leader_negate hvar.isSigned hlc
    rw [h.leader_congr hcd, hld] at hlm
    cases hlm

/-- Dissolving the group of a representative succeeds and keeps the invariant
without the pairs of that group. -/
theorem Sound.dissolve : ∃ r', r.remove c = .ok r' ∧ Sound r' (withdraw pairs c) := by
  obtain ⟨r', hremove, hcanonical, hgroups, hleaders⟩ := h.remove_erases hc
  have hsc := (h.canonical hc).1.isSigned
  have hrel : ∀ {v w}, AliasOf (withdraw pairs c) v w ↔ v = w ∨ (¬ Dissolved pairs c v ∧ AliasOf pairs v w) :=
    aliasOf_withdraw h.signed hsc
  refine ⟨r', hremove, {
    signed := fun p hp => h.signed p (withdraw_subset c hp)
    consistent := h.consistent.mono (withdraw_subset c)
    grouped := ?_
    alone := ?_
    led := ?_
    leader_iff := ?_
    leader_congr := ?_
    leader_negate := ?_
    canonical := ?_
    nodup := hcanonical ▸ h.nodup.filter _ }⟩
  · intro v g hg w
    obtain ⟨hv, hold⟩ := hgroups.of_some hg
    rw [h.grouped hold, hrel]
    refine ⟨fun hw => .inr ⟨hv, hw⟩, ?_⟩
    rintro (rfl | hw)
    · exact .refl v
    · exact hw.2
  · intro v hnone w hvw
    rcases hrel.1 hvw with rfl | ⟨hv, hvw⟩
    · rfl
    · exact h.alone (((hgroups v).2 hv).symm.trans hnone) hvw
  · intro v l hl
    obtain ⟨hv, hold⟩ := hleaders.of_some hl
    obtain ⟨hcan, hal⟩ := h.led hold
    have hne : l.1 ≠ c := by
      intro he
      rw [he] at hal
      cases hs : l.2 with
      | plus => exact hv (.inl (hs ▸ hal).symm)
      | minus => exact hv (.inr (hs ▸ hal).symm)
    rw [hcanonical]
    exact ⟨mem_filter.2 ⟨hcan, by simpa using hne⟩, hrel.2 (.inr ⟨hv, hal⟩)⟩
  · intro v
    by_cases hv : Dissolved pairs c v
    · rw [(hleaders v).1 hv]
      constructor
      · rintro ⟨_, hl⟩
        cases hl
      · rintro ⟨w, hne, hvw⟩
        exact ((hrel.1 hvw).elim hne fun hvw => hvw.1 hv).elim
    · rw [(hleaders v).2 hv, h.leader_iff]
      constructor
      · rintro ⟨w, hne, hvw⟩
        exact ⟨w, hne, hrel.2 (.inr ⟨hv, hvw⟩)⟩
      · rintro ⟨w, hne, hvw⟩
        exact ⟨w, hne, (hrel.1 hvw).elim (fun he => absurd he hne) (·.2)⟩
  · intro v w hvw
    rcases hrel.1 hvw with rfl | ⟨hv, hvw⟩
    · rfl
    · rw [(hleaders v).2 hv, (hleaders w).2 fun hw => hv ((Dissolved.congr hvw).2 hw), h.leader_congr hvw]
  · intro v l hsv hl
    obtain ⟨hv, hold⟩ := hleaders.of_some hl
    have hvn : ¬ Dissolved pairs c (negate v) := fun hd => hv (by
      have h' := hd.negate hsc
      rwa [negate_negate hsv] at h')
    rw [(hleaders _).2 hvn]
    exact h.leader_negate hsv hold
  · intro d hd
    rw [hcanonical] at hd
    obtain ⟨hdc, hne⟩ := mem_filter.1 hd
    obtain ⟨hdv, hld⟩ := h.canonical hdc
    exact ⟨hdv, ((hleaders d).2 (h.not_dissolved hc hdc (by simpa using hne))).trans hld⟩

end

theorem remove_of_not_canonical (hc : c ∉ r.canonical) : r.remove c = .ok r := by
  simp only [remove, contains_eq_mem, hc, decide_false, Bool.not_false, if_true]
  rfl

end AliasRelation
end Modelica
