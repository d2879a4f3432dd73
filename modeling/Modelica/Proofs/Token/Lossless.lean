/-
The lexemes of a text are the whole text, each the longest that could be found at its place.

`Cut` is what `scan` does when it has fuel for the text: at every place it takes what `next`
finds there, which is never empty. A lexeme found that way (`Found`) is in the language of
its rule, and no rule admits a longer text at the place, nor an earlier rule the same text;
text is left unrecognised only where no rule admits anything.
-/
import Modelica.Proofs.Token.Rule

namespace Modelica.Lexer

open List

variable {cs s x : List Char} {kind : LexemeKind} {n : Nat} {r : LexemeKind × (List Char → Nat)} {t : Terminal}
  {p : Position} {ls : List Lexeme}

/-! ### One lexeme -/

/-- The place of a rule in the order that decides between matches of one length. -/
def rank (kind : LexemeKind) : Nat := (rules.map (·.1)).idxOf kind

/-- The lexeme is the right one in front of `rest`. -/
structure Found (l : Lexeme) (rest : List Char) : Prop where
  nonempty : l.chars ≠ []
  admitted : l.kind ≠ .unrecognised → Admits l.kind l.chars
  longest (kind : LexemeKind) (s : List Char) : Admits kind s → s <+: l.chars ++ rest →
    l.kind ≠ .unrecognised ∧ (s.length < l.chars.length ∨ s = l.chars ∧ rank l.kind ≤ rank kind)

theorem rank_le {as bs : List (LexemeKind × (List Char → Nat))} (hrules : rules = as ++ r :: bs)
    (h : ∀ a ∈ as, a.1 ≠ kind) : rank r.1 ≤ rank kind := by
  have hkind : kind ∉ as.map (·.1) := by
    intro hmem
    obtain ⟨a, ha, hak⟩ := mem_map.1 hmem
    exact h a ha hak
  have hle : (as.map (·.1)).idxOf r.1 ≤ (as.map (·.1)).length := idxOf_le_length
  simp only [rank, hrules, map_append, map_cons, idxOf_append, hkind, if_false, idxOf_cons_self]
  split <;> omega

theorem exists_rule (h : Admits kind s) : ∃ f, (kind, f) ∈ rules := by
  simp only [mem_rules]
  rcases kind with (w | _ | _ | _) | _ | _ | _
  · exact ⟨_, .inl ⟨w, h.1, rfl⟩⟩
  · exact ⟨identLength, by simp⟩
  · exact ⟨stringLength, by simp⟩
  · exact ⟨numberLength, by simp⟩
  · exact ⟨commentLength, by simp⟩
  · exact ⟨blankLength, by simp⟩
  · exact h.elim

theorem ne_nil_of_admits (h : Admits kind s) : s ≠ [] := by
  rintro rfl
  rcases kind with (w | _ | _ | _) | _ | _ | _
  · have hall : ∀ w ∈ literals, [] ≠ w.toList := by decide
    exact hall w h.1 h.2
  · cases h
  · obtain ⟨_, _, heq⟩ := h
    cases heq
  · obtain ⟨ds, u, heq, hds, -⟩ := number_iff.1 h
    exact hds.1 (append_eq_nil_iff.1 heq.symm).1
  · cases h
  · exact h.1 rfl
  · exact h.elim

theorem next_of_longest (h : longest cs = (kind, n)) (hn : n ≠ 0) : next cs = (kind, n) := by
  simp [next, h, hn]

theorem longest_of_next (h : next cs = (.token t, n)) : longest cs = (.token t, n) ∧ n ≠ 0 := by
  obtain ⟨kind, m, hlong⟩ : ∃ kind m, longest cs = (kind, m) := ⟨_, _, rfl⟩
  by_cases hm : m = 0
  · simp [next, hlong, hm] at h
  · rw [next_of_longest hlong hm] at h
    cases h
    exact ⟨hlong, hm⟩

theorem exists_next (hcs : cs ≠ []) : ∃ kind s x, cs = s ++ x ∧ s ≠ [] ∧ next (s ++ x) = (kind, s.length) := by
  obtain ⟨kind, n, hnext⟩ : ∃ kind n, next cs = (kind, n) := ⟨_, _, rfl⟩
  have hn : 0 < n ∧ n ≤ cs.length := by
    obtain ⟨kind', s, x, rfl, hlong⟩ := exists_longest cs
    by_cases hs : s = []
    · subst hs
      rw [next, hlong] at hnext
      cases hnext
      have := length_pos_iff.2 hcs
      unfold unrecognisedLength
      split <;> grind
    · rw [next_of_longest hlong (by simpa using hs)] at hnext
      cases hnext
      simpa using length_pos_iff.2 hs
  refine ⟨kind, cs.take n, cs.drop n, (take_append_drop n cs).symm, ?_, ?_⟩
  · exact ne_nil_of_length_pos (by rw [length_take]; omega)
  · rw [take_append_drop, hnext, length_take, Nat.min_eq_left hn.2]

theorem found_of_next (hs : s ≠ []) (h : next (s ++ x) = (kind, s.length)) (p : Position) : Found ⟨kind, s, p⟩ x := by
  rcases foldl_better (s ++ x) rules (.unrecognised, 0) with ⟨hnone, hzero⟩ | ⟨as, r, bs, hrules, hlong, hpos, has, -⟩
  · rw [← longest_eq] at hnone
    obtain ⟨rfl, -⟩ : .unrecognised = kind ∧ _ := by simpa [next, hnone] using h
    refine ⟨hs, fun hkind => absurd rfl hkind, fun kind u hu (hpre : u <+: s ++ x) => ?_⟩
    obtain ⟨f, hf⟩ := exists_rule hu
    have hle : u.length ≤ f (s ++ x) := (longest_of_mem_rules hf).le_of_front hu hpre
    have : f (s ++ x) ≤ 0 := hzero _ hf
    exact absurd (eq_nil_of_length_eq_zero (by omega)) (ne_nil_of_admits hu)
  · rw [← longest_eq] at hlong
    obtain ⟨rfl, hlen⟩ : r.1 = kind ∧ r.2 (s ++ x) = s.length := by
      simpa [next_of_longest hlong (Nat.ne_of_gt hpos)] using h
    rw [hlen] at hlong
    have hkind : Admits r.1 s := admits_of_longest hlong hs
    have hknown : r.1 ≠ .unrecognised := by
      intro heq
      rw [heq] at hkind
      exact hkind
    refine ⟨hs, fun _ => hkind, fun kind u hu (hpre : u <+: s ++ x) => ⟨hknown, ?_⟩⟩
    obtain ⟨f, hf⟩ := exists_rule hu
    have hle : u.length ≤ f (s ++ x) := (longest_of_mem_rules hf).le_of_front hu hpre
    have : f (s ++ x) ≤ s.length := le_of_longest hlong hf
    rcases Nat.lt_or_eq_of_le (by omega : u.length ≤ s.length) with hlt | heq
    · exact .inl hlt
    · refine .inr ⟨?_, rank_le hrules fun a ha hak => ?_⟩
      · exact (prefix_of_prefix_length_le hpre (prefix_append s x) (Nat.le_of_eq heq)).eq_of_length heq
      · -- an earlier rule of this kind would have matched as much
        have hearlier := has a ha
        have ha : a ∈ rules := by simp [hrules, ha]
        have := (longest_of_mem_rules ha).le_of_front (hak ▸ hu) hpre
        omega

theorem scan_cons {fuel : Nat} (hs : s ≠ []) (h : next (s ++ x) = (kind, s.length)) :
    scan (fuel + 1) p (s ++ x) = ⟨kind, s, p⟩ :: scan fuel (p.advance s) x := by
  have hne : s ++ x ≠ [] := by simp [hs]
  rw [scan]
  · simp [h]
  · exact hne

/-! ### All lexemes -/

/-- The text is cut into these lexemes from this position on. -/
inductive Cut : Position → List Char → List Lexeme → Prop
  | nil {p : Position} : Cut p [] []
  | cons {p : Position} {s x : List Char} {kind : LexemeKind} {ls : List Lexeme} :
      s ≠ [] → next (s ++ x) = (kind, s.length) → Cut (p.advance s) x ls → Cut p (s ++ x) (⟨kind, s, p⟩ :: ls)

theorem cut_scan {fuel : Nat} (hfuel : cs.length ≤ fuel) : Cut p cs (scan fuel p cs) := by
  induction fuel generalizing p cs with
  | zero =>
    obtain rfl := eq_nil_of_length_eq_zero (by omega : cs.length = 0)
    exact .nil
  | succ fuel ih =>
    by_cases hcs : cs = []
    · subst hcs
      exact .nil
    · obtain ⟨kind, s, x, rfl, hs, hnext⟩ := exists_next hcs
      have hpos := length_pos_iff.2 hs
      rw [length_append] at hfuel
      rw [scan_cons hs hnext]
      exact .cons hs hnext (ih (by omega))

theorem cut_lexemes (text : String) : Cut {} text.toList (lexemes text) := cut_scan (Nat.le_refl _)

namespace Cut

theorem flatMap_chars (h : Cut p cs ls) : ls.flatMap (·.chars) = cs := by
  induction h with
  | nil => rfl
  | cons _ _ _ ih => rw [flatMap_cons, ih]

theorem found {before after : List Lexeme} {l : Lexeme} (h : Cut p cs (before ++ l :: after)) :
    Found l (after.flatMap (·.chars)) ∧ l.position = p.advance (before.flatMap (·.chars)) := by
  generalize hls : before ++ l :: after = ls at h
  induction h generalizing before with
  | nil => simp at hls
  | @cons p s x kind ls hs hnext hrest ih =>
    rcases before with _ | ⟨b, before⟩
    · obtain ⟨rfl, rfl⟩ := cons.inj hls
      rw [hrest.flatMap_chars]
      exact ⟨found_of_next hs hnext p, rfl⟩
    · obtain ⟨rfl, htail⟩ := cons.inj hls
      obtain ⟨hfound, hposition⟩ := ih htail
      exact ⟨hfound, hposition.trans (foldl_append).symm⟩

end Cut

end Modelica.Lexer
