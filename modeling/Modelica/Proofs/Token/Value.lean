/-
The values of number tokens (`number_token_value`).

A number token may hold further numbers behind its points, and more than one exponent. Those that
are decimals have a value, and no others.
-/
import Modelica.Graph.Number
import Modelica.Proofs.Token.Lines

namespace Modelica.Lexer

open List

/-- An exponent, or nothing, and its value. -/
inductive Power : List Char → Int → Prop
  | none : Power [] 0
  | plain {c ds} : c = 'e' ∨ c = 'E' → Digits ds → Power (c :: ds) (Nat.ofDigitChars 10 ds 0)
  | plus {c ds} : c = 'e' ∨ c = 'E' → Digits ds → Power (c :: '+' :: ds) (Nat.ofDigitChars 10 ds 0)
  | minus {c ds} : c = 'e' ∨ c = 'E' → Digits ds → Power (c :: '-' :: ds) (-Nat.ofDigitChars 10 ds 0)

/-- A decimal: its digits, and the power of ten they are multiplied with. -/
inductive Decimal : List Char → Nat → Int → Prop
  | whole {ds e x} : Digits ds → Power e x → Decimal (ds ++ e) (Nat.ofDigitChars 10 ds 0) x
  | point {ds fs e x} : Digits ds → (∀ c ∈ fs, c.isDigit) → Power e x →
      Decimal (ds ++ '.' :: (fs ++ e)) (Nat.ofDigitChars 10 (ds ++ fs) 0) (-fs.length + x)

/-- What a number denotes: up to 4300 digits alone are an integer, every other decimal is a double. -/
inductive Denotes (s : List Char) : Value → Prop
  | int : Digits s → s.length ≤ 4300 → Denotes s (.int (Nat.ofDigitChars 10 s 0))
  | real {m x} : ¬ (Digits s ∧ s.length ≤ 4300) → Decimal s m x → Denotes s (.real (.ofDecimal false m x))

variable {s ds t : List Char} {x shift : Int} {m : Nat} {b : Binary64}

theorem Power.takeWhile_eq (h : Power t x) : t.takeWhile Char.isDigit = [] := by
  cases h with
  | none => rfl
  | plain he | plus he | minus he => rcases he with rfl | rfl <;> rfl

theorem scaled?_eq_some_iff : scaled? m shift t = some b ↔ ∃ x, Power t x ∧ b = .ofDecimal false m (shift + x) := by
  have hdigits : ∀ {ds : List Char}, ¬ (ds.isEmpty || !ds.all Char.isDigit) = true ↔ Digits ds := by simp [Digits]
  constructor
  · intro h
    unfold scaled? at h
    split at h
    · exact ⟨0, .none, by simpa [eq_comm] using h⟩
    · obtain ⟨he, h⟩ := Option.ite_none_right_eq_some.1 h
      simp only at h
      split at h
      all_goals
        obtain ⟨hds, h⟩ := Option.ite_none_left_eq_some.1 h
        cases h
      · exact ⟨_, .minus he (hdigits.1 hds), rfl⟩
      · exact ⟨_, .plus he (hdigits.1 hds), rfl⟩
      · exact ⟨_, .plain he (hdigits.1 hds), rfl⟩
  · rintro ⟨x, hx, rfl⟩
    cases hx with
    | none => simp [scaled?]
    | plus he hds | minus he hds => exact (if_pos he).trans (if_neg (hdigits.2 hds))
    | plain he hds =>
      simp only [scaled?, if_pos he]
      split
      · exact absurd (hds.2 _ (.head _)) (by decide)
      · exact absurd (hds.2 _ (.head _)) (by decide)
      · exact if_neg (hdigits.2 hds)

theorem span_digits (hds : ∀ c ∈ ds, c.isDigit) (ht : t.takeWhile Char.isDigit = []) :
    (ds ++ t).takeWhile Char.isDigit = ds ∧ (ds ++ t).dropWhile Char.isDigit = t := by
  have hdrop := takeWhile_append_dropWhile (p := Char.isDigit) (l := t)
  rw [ht, nil_append] at hdrop
  rw [takeWhile_append_of_pos hds, dropWhile_append_of_pos hds, ht, hdrop, append_nil]
  exact ⟨rfl, rfl⟩

theorem decimal?_of_decimal (h : Decimal s m x) : decimal? s = some (.ofDecimal false m x) := by
  cases h with
  | @whole ds e x hds he =>
    obtain ⟨htake, hdrop⟩ := span_digits hds.2 he.takeWhile_eq
    simp only [decimal?, htake, hdrop]
    split
    · cases he <;> simp_all
    · simp only [isEmpty_eq_false_iff.2 hds.1, append_nil, Bool.false_and]
      exact scaled?_eq_some_iff.2 ⟨x, he, congrArg (Binary64.ofDecimal false _) (Int.zero_add x).symm⟩
  | @point ds fs e x hds hfs he =>
    obtain ⟨htake, hdrop⟩ := span_digits (t := '.' :: (fs ++ e)) hds.2 rfl
    obtain ⟨htake', hdrop'⟩ := span_digits hfs he.takeWhile_eq
    simp only [decimal?, htake, hdrop, htake', hdrop', isEmpty_eq_false_iff.2 hds.1, Bool.false_and]
    exact scaled?_eq_some_iff.2 ⟨x, he, rfl⟩

theorem decimal_of_decimal? (hds : Digits ds) (ht : t.takeWhile Char.isDigit = []) (h : decimal? (ds ++ t) = some b) :
    ∃ m x, Decimal (ds ++ t) m x ∧ b = .ofDecimal false m x := by
  obtain ⟨htake, hdrop⟩ := span_digits hds.2 ht
  simp only [decimal?, htake, hdrop] at h
  split at h
  all_goals
    obtain ⟨x, hx, rfl⟩ := scaled?_eq_some_iff.1 (Option.ite_none_left_eq_some.1 h).2
  · rename_i more
    have hpoint := Decimal.point hds (all_eq_true.1 (all_takeWhile (l := more))) hx
    rw [takeWhile_append_dropWhile] at hpoint
    exact ⟨_, _, hpoint, rfl⟩
  · rw [append_nil]
    exact ⟨_, _, .whole hds hx, congrArg (Binary64.ofDecimal false _) (Int.zero_add x)⟩

theorem Apart.admits {ts} (h : Apart ts) : ∀ t ∈ ts, Admits (.token t.terminal) t.text.toList := by
  induction h with
  | nil => simp
  | cons hne hlong _ _ ih => exact forall_mem_cons.2 ⟨admits_of_longest hlong hne, ih⟩

/-- **The values of number tokens** are those that their texts denote, and a token whose text
denotes nothing has none. -/
theorem number_token_value {text : String} {t : Token} (ht : t ∈ tokens text) (hn : t.terminal = .number) (v : Value) :
    numberValue? t.text = some v ↔ Denotes t.text.toList v := by
  have hnumber := (cut_lexemes text).apart.admits t ht
  rw [hn] at hnumber
  obtain ⟨ds, u, hs, hds, hu⟩ := number_iff.1 hnumber
  have hint : (t.text.toList.all Char.isDigit ∧ t.text.toList ≠ [] ∧ t.text.toList.length ≤ 4300) ↔
      Digits t.text.toList ∧ t.text.toList.length ≤ 4300 := by
    simp only [Digits, all_eq_true, and_assoc, and_left_comm]
  constructor
  · intro h
    simp only [numberValue?] at h
    split at h
    · next hcase =>
      cases h
      exact .int (hint.1 hcase).1 (hint.1 hcase).2
    · next hcase =>
      obtain ⟨b, hb, rfl⟩ := Option.map_eq_some_iff.1 h
      have htake : u.takeWhile Char.isDigit = [] := by
        by_cases hne : u = []
        · rw [hne, takeWhile_nil]
        · simpa using hu.takeWhile_eq hne []
      rw [hs] at hb
      obtain ⟨m, x, hx, rfl⟩ := decimal_of_decimal? hds htake hb
      exact .real (mt hint.2 hcase) (hs ▸ hx)
  · intro h
    cases h with
    | int hds hlen => exact if_pos (hint.2 ⟨hds, hlen⟩)
    | real hno hx => exact (if_neg (mt hint.1 hno)).trans (congrArg (Option.map Value.real) (decimal?_of_decimal hx))

/-- A number with two points is one token, and denotes nothing. -/
theorem number_token_value_points :
    ∃ t ∈ tokens "1.2.3", t.terminal = .number ∧ t.text = "1.2.3" ∧ ∀ v, ¬ Denotes t.text.toList v := by
  have htoken : (⟨.number, "1.2.3", {}⟩ : Token) ∈ tokens "1.2.3" := by decide +kernel
  refine ⟨_, htoken, rfl, rfl, fun v hv => ?_⟩
  have hnone : numberValue? "1.2.3" = none := by decide +kernel
  cases hnone.symm.trans ((number_token_value htoken rfl v).2 hv)

end Modelica.Lexer
