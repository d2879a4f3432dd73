/-
Merging more than two trees.

How the merges are grouped does not matter (`extend_assoc`): a tree is told by its paths, the
order of the names, and the content of its classes. Their order does. All orders give the same paths,
but the class at a path has the content it has in the first tree with that path (`unite_orders`);
what later trees say about it is lost, even if the first one does not define
it and only has it as a package around its own classes.
-/
import Modelica.Proofs.Library.Shape

namespace Modelica

open List Element

/-- What a class declares itself: all but the classes in it, the one around it, and its address. -/
def Element.declared? : Element → Option ClassDef
  | .classDef c => some { c with classes := {}, parent := none, declaration := 0 }
  | _ => none

namespace Graph

variable {g g' : Graph} {root other x : Id} {p : Path}

def declared (g : Graph) (id : Id) : Option ClassDef := (g.get? id).bind declared?

theorem Rearranges.declared (h : g.Rearranges g') : g'.declared = g.declared := by
  funext x
  exact h.bind_eq (fun e => by cases e <;> rfl) x

/-! ### The same tree -/

/-- The two graphs have the same tree, class for class, and differ only in which classes
stand where. -/
structure SameTree (root : Id) (g g' : Graph) : Prop where
  rearranges : g.Rearranges g'
  along : ∀ p, g'.along root p = g.along root p
  get? : ∀ p x, g.along root p = some x → g'.get? x = g.get? x

/-- A tree is told by its paths, the order of the names, and the content of its classes. -/
theorem Rooted.sameTree (h : g.Rooted root) (h' : g'.Rooted root) (hcontent : g.Rearranges g')
    (halong : ∀ p, g'.along root p = g.along root p) (hnames : ∀ p, g'.namesAt root p = g.namesAt root p) :
    SameTree root g g' := by
  refine ⟨hcontent, halong, fun p x hp => ?_⟩
  have hp' : g'.along root p = some x := by rw [halong, hp]
  obtain ⟨c, hc⟩ := h.isClass hp
  obtain ⟨c', hc'⟩ := h'.isClass hp'
  have hclasses : c'.classes = c.classes := by
    refine Table.eq_of_get? (h.nodup p x c hp hc) ?_ fun name => ?_
    · have hkeys := hnames p
      rw [namesAt, namesAt, hp, hp', Option.elim_some, Option.elim_some, classNames_eq hc, classNames_eq hc'] at hkeys
      exact hkeys
    · rw [← nested_eq hc, ← nested_eq hc', ← along_concat hp, ← along_concat hp', halong]
  have hparent : c'.parent = c.parent := by
    cases p using reverseRecOn with
    | nil =>
      cases hp
      obtain ⟨d, hd, hnone⟩ := h.top
      obtain ⟨d', hd', hnone'⟩ := h'.top
      rw [hc] at hd
      rw [hc'] at hd'
      cases hd
      cases hd'
      rw [hnone, hnone']
    | append_singleton p name =>
      obtain ⟨y, d, hy, hd, -, hparent⟩ := h.held_concat hp
      obtain ⟨y', d', hy', hd', -, hparent'⟩ := h'.held_concat hp'
      cases hc.symm.trans hd
      cases hc'.symm.trans hd'
      rw [halong, hy] at hy'
      rw [hparent, hparent', Option.some.inj hy']
  have hrest : ({ c' with classes := {}, parent := none } : ClassDef) = { c with classes := {}, parent := none } := by
    have hx := hcontent.content x
    rw [hc, hc'] at hx
    exact classDef.inj (Option.some.inj hx)
  rw [hc, hc']
  refine congrArg (fun c => some (classDef c)) ?_
  calc c' = { ({ c' with classes := {}, parent := none } : ClassDef) with classes := c'.classes, parent := c'.parent } := rfl
    _ = { ({ c with classes := {}, parent := none } : ClassDef) with classes := c.classes, parent := c.parent } := by
      rw [hrest, hclasses, hparent]
    _ = c := rfl

/-! ### A third tree -/

theorem Merged.third {third} (h : g.Merged root other g') (hroot : g.Rooted root) (hother : g.Rooted other)
    (hthird : g.Rooted third) (hne : root ≠ third) (hne' : other ≠ third) :
    g'.Rooted third ∧ (∀ p, g'.along third p = g.along third p) ∧ ∀ p, g'.namesAt third p = g.namesAt third p := by
  have hsame : ∀ p x, g.along third p = some x → g'.get? x = g.get? x := fun p x hp =>
    h.get? x (fun q hq => hroot.apart hthird hne q p x hq hp) fun q hq => hother.apart hthird hne' q p x hq hp
  obtain ⟨hrooted, halong⟩ := hthird.unchanged hsame
  refine ⟨hrooted, halong, fun p => ?_⟩
  rw [namesAt, namesAt, halong]
  cases hp : g.along third p with
  | none => rfl
  | some x => exact classNames_congr (hsame p x hp)

theorem append_filter_assoc (l m n : List (Option String)) :
    l ++ m.filter (· ∉ l) ++ n.filter (· ∉ l ++ m.filter (· ∉ l)) = l ++ (m ++ n.filter (· ∉ m)).filter (· ∉ l) := by
  rw [filter_append, filter_filter, append_assoc]
  congr 2
  refine filter_congr fun a _ => ?_
  by_cases ha : a ∈ l <;> simp [ha]

end Graph

namespace Build

open Modelica.Graph

variable {g : Graph} {root : Id}

variable {rs : List Id}

/-- **Merging is associative**: two trees may be merged one after the other or after they
have been merged themselves. -/
theorem extend_assoc {a b c} (ha : g.Rooted a) (hb : g.Rooted b) (hc : g.Rooted c) (hab : a ≠ b) (hac : a ≠ c)
    (hbc : b ≠ c) :
    Runs (do extend a b; extend a c) g fun _ g1 => Runs (do extend b c; extend a b) g fun _ g2 => g1.SameTree a g2 := by
  simp only [ends_bind]
  refine (extend_runs ha hb hab).imp fun _ g1 h1 => ?_
  obtain ⟨hc1, halong1, hnames1⟩ := h1.third ha hb hc hac hbc
  refine (extend_runs h1.rooted hc1 hac).imp fun _ g2 h2 => ?_
  refine (extend_runs hb hc hbc).imp fun _ g3 h3 => ?_
  obtain ⟨ha3, halong3, hnames3⟩ := h3.third hb hc ha hab.symm hac.symm
  refine (extend_runs ha3 h3.rooted hab).imp fun _ g4 h4 => ?_
  refine h2.rooted.sameTree h4.rooted ((h1.rearranges.trans h2.rearranges).symm.trans (h3.rearranges.trans h4.rearranges))
    (fun p => ?_) fun p => ?_
  · rw [h4.along, halong3, h3.along, h2.along, h1.along, halong1, Option.or_assoc]
  · rw [h4.names, hnames3, h3.names, h2.names, h1.names, hnames1, append_filter_assoc]

/-! ### Many trees -/

/-- Merges trees into the first one, in the given order. -/
def unite : List Id → Build Id
  | [] => throw .outOfRange
  | root :: others => do
    others.forM (extend root)
    pure root

section First

variable {α β : Type} {f f' : α → Option β} {l l' : List α}

theorem findSome?_cons_or (f : α → Option β) (a : α) (l : List α) :
    (a :: l).findSome? f = (f a).or (l.findSome? f) := by
  rw [List.findSome?_cons]
  cases f a <;> rfl

theorem findSome?_congr (h : ∀ a ∈ l, f a = f' a) : l.findSome? f = l.findSome? f' := by
  induction l with
  | nil => rfl
  | cons a l ih =>
    rw [findSome?_cons_or, findSome?_cons_or, h a (.head _), ih fun b hb => h b (.tail _ hb)]

theorem isSome_findSome?_perm (h : l.Perm l') : (l.findSome? f).isSome = (l'.findSome? f).isSome := by
  rw [Bool.eq_iff_iff, List.findSome?_isSome_iff, List.findSome?_isSome_iff]
  exact exists_congr fun a => and_congr_left fun _ => h.mem_iff

theorem map_findSome?_perm {γ : Type} {s : β → γ} (h : l.Perm l')
    (hsame : ∀ a ∈ l, ∀ b ∈ l, ∀ x y, f a = some x → f b = some y → s x = s y) :
    (l.findSome? f).map s = (l'.findSome? f).map s := by
  have hsome := isSome_findSome?_perm (f := f) h
  cases hl : l.findSome? f with
  | none =>
    rw [hl] at hsome
    rw [Option.not_isSome_iff_eq_none.1 (show ¬ (l'.findSome? f).isSome by rw [← hsome]; simp)]
  | some x =>
    rw [hl] at hsome
    obtain ⟨y, hl'⟩ := Option.isSome_iff_exists.1 hsome.symm
    obtain ⟨a, ha, hx⟩ := List.exists_of_findSome?_eq_some hl
    obtain ⟨b, hb, hy⟩ := List.exists_of_findSome?_eq_some hl'
    rw [hl', Option.map_some, Option.map_some, hsame a ha b (h.mem_iff.2 hb) x y hx hy]

end First

theorem forM_extend_runs (h : ∀ r ∈ root :: rs, g.Rooted r) (hnodup : (root :: rs).Nodup) :
    Runs (rs.forM (extend root)) g fun _ g' => g.Rearranges g' ∧
      ∀ p, g'.along root p = (root :: rs).findSome? fun r => g.along r p := by
  induction rs generalizing g with
  | nil => exact ⟨.refl g, fun p => by rw [findSome?_cons_or, List.findSome?_nil, Option.or_none]⟩
  | cons r rs ih =>
    have hroot := h root (.head _)
    have hr := h r (.tail _ (.head _))
    simp only [nodup_cons, mem_cons, not_or] at hnodup
    obtain ⟨⟨hne, hroot'⟩, hr', hrs⟩ := hnodup
    show Runs (do extend root r; rs.forM (extend root)) g _
    simp only [ends_bind]
    refine (extend_runs hroot hr hne).imp fun _ g1 h1 => ?_
    have hthird : ∀ s ∈ rs, g1.Rooted s ∧ ∀ p, g1.along s p = g.along s p := fun s hs => by
      obtain ⟨hs1, halong, -⟩ := h1.third hroot hr (h s (.tail _ (.tail _ hs)))
        (fun he => hroot' (he ▸ hs)) fun he => hr' (he ▸ hs)
      exact ⟨hs1, halong⟩
    refine (ih (fun s hs => ?_) (nodup_cons.2 ⟨hroot', hrs⟩)).imp fun _ g' hg' => ?_
    · rcases mem_cons.1 hs with rfl | hs
      · exact h1.rooted
      · exact (hthird s hs).1
    · refine ⟨h1.rearranges.trans hg'.1, fun p => ?_⟩
      rw [hg'.2, findSome?_cons_or, h1.along, findSome?_cons_or, findSome?_cons_or, Option.or_assoc,
        findSome?_congr fun s hs => (hthird s hs).2 p]

theorem unite_runs (h : ∀ r ∈ rs, g.Rooted r) (hnodup : rs.Nodup) (hne : rs ≠ []) :
    Runs (unite rs) g fun root g' => g.Rearranges g' ∧ ∀ p, g'.along root p = rs.findSome? fun r => g.along r p := by
  cases rs with
  | nil => exact absurd rfl hne
  | cons root rs =>
    simp only [unite, ends_bind, ends_pure]
    exact forM_extend_runs h hnodup

theorem mapM_read_ends (texts : List String) (g : Graph) :
    Ends (texts.mapM read) g (fun ls g' => Extends g g' ∧ (ls.map Loaded.root).Nodup ∧
      ∀ r ∈ ls.map Loaded.root, g'.Rooted r ∧ g.New r) fun _ g' => Extends g g' := by
  induction texts generalizing g with
  | nil =>
    simp only [mapM_nil, ends_pure, map_nil]
    exact ⟨.refl g, nodup_nil, by simp⟩
  | cons text texts ih =>
    simp only [mapM_cons, ends_bind, ends_pure]
    refine (read_ends text g).imp (fun l g1 hread => ?_) fun _ _ hg => hg
    obtain ⟨file, rest, -, hgrown⟩ := hread
    refine (ih g1).imp (fun ls g2 hls => ?_) fun _ _ hg => hgrown.grown.trans hg
    obtain ⟨hg2, hnodup, hrooted⟩ := hls
    obtain ⟨c, hc, -⟩ := hgrown.rooted.top
    rw [map_cons]
    refine ⟨hgrown.grown.trans hg2, nodup_cons.2 ⟨fun hmem => ?_, hnodup⟩, fun r hr => ?_⟩
    · exact Nat.not_lt.2 (hrooted _ hmem).2 (get?_lt hc)
    · rcases mem_cons.1 hr with rfl | hr
      · exact ⟨(hgrown.rooted.grown hg2).1, hgrown.fresh [] _ rfl⟩
      · exact ⟨(hrooted r hr).1, hgrown.grown.size_le.trans (hrooted r hr).2⟩

/-- **Merging in two orders**, when each text has been read: the paths are the same, and the
class at each is the one of the first tree with the path. So the two agree on a class where
all trees that have it do. -/
theorem unite_orders (texts : List String) (g : Graph) :
    Ends (texts.mapM read) g
      (fun ls g₀ => ∀ rs rs' : List Id, rs.Perm (ls.map Loaded.root) → rs'.Perm rs → rs ≠ [] →
        Runs (unite rs) g₀ fun root g₁ => Runs (unite rs') g₀ fun root' g₂ =>
          g₀.Rearranges g₁ ∧ g₀.Rearranges g₂ ∧ ∀ p,
            g₁.along root p = (rs.findSome? fun r => g₀.along r p) ∧
            g₂.along root' p = (rs'.findSome? fun r => g₀.along r p) ∧
            (g₁.along root p).isSome = (g₂.along root' p).isSome ∧
            ((∀ r ∈ rs, ∀ r' ∈ rs, ∀ x y, g₀.along r p = some x → g₀.along r' p = some y → g₀.declared x = g₀.declared y) →
              (g₁.along root p).map g₁.declared = (g₂.along root' p).map g₂.declared))
      fun _ g' => Extends g g' := by
  refine (mapM_read_ends texts g).imp (fun ls g₀ hls rs rs' hperm hperm' hne => ?_) fun _ _ hg => hg
  obtain ⟨-, hnodup, hrooted⟩ := hls
  have hrooted' : ∀ r ∈ rs, g₀.Rooted r := fun r hr => (hrooted r (hperm.mem_iff.1 hr)).1
  have hnodup' : rs.Nodup := hperm.nodup_iff.2 hnodup
  refine (unite_runs hrooted' hnodup' hne).imp fun root g₁ h₁ => ?_
  refine (unite_runs (fun r hr => hrooted' r (hperm'.mem_iff.1 hr)) (hperm'.nodup_iff.2 hnodup')
    fun he => hne (List.perm_nil.1 (he ▸ hperm'.symm))).imp fun root' g₂ h₂ => ?_
  refine ⟨h₁.1, h₂.1, fun p => ⟨h₁.2 p, h₂.2 p, ?_, fun hsame => ?_⟩⟩
  · rw [h₁.2, h₂.2]
    exact isSome_findSome?_perm hperm'.symm
  · rw [h₁.2, h₂.2, h₁.1.declared, h₂.1.declared]
    exact map_findSome?_perm hperm'.symm hsame

end Build
end Modelica
