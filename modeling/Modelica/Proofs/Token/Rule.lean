/-
The languages of the lexer rules, and the longest matches of the rules.

`Admits` says which texts a rule accepts, as the grammar of tokens has it. The functions of
the lexer measure the longest part at the front of a text that is in the language of their
rule (`Longest`, `longest_of_mem_rules`). So what follows a match matters only as far as the
language can go on with it: if no text of the language has a line feed, a line feed ends
every match (`Longest.eq_of_endsLine`).

A number may hold further numbers. `Continues` reads it from left to right and counts the
numbers that may still have an exponent, as `numberRest` does.
-/
import Modelica.Token.Lexer

namespace Modelica.Lexer

open List

/-! ### Languages -/

/-- Characters and escapes of a quoted name. -/
inductive Quoted : List Char → Prop
  | nil : Quoted []
  | char {c s} : isQuotedChar c → Quoted s → Quoted (c :: s)
  | escape {c s} : isEscaped c → Quoted s → Quoted ('\\' :: c :: s)

inductive Name : List Char → Prop
  | plain {c s} : isNondigit c → (∀ d ∈ s, isWordChar d) → Name (c :: s)
  | quoted {s} : s ≠ [] → Quoted s → Name ('\'' :: s)

/-- A text in quotes behind its opening quote. -/
inductive Enclosed : List Char → Prop
  | close : Enclosed ['"']
  | quote {s} : Enclosed s → Enclosed ('\\' :: '"' :: s)
  | char {c s} : c ≠ '"' → Enclosed s → Enclosed (c :: s)

def Digits (s : List Char) : Prop := s ≠ [] ∧ ∀ c ∈ s, c.isDigit

inductive Exponent : List Char → Prop
  | intro {c sign ds} : c = 'e' ∨ c = 'E' → sign = [] ∨ sign = ['+'] ∨ sign = ['-'] → Digits ds → Exponent (c :: (sign ++ ds))

mutual

/-- Digits, points and further numbers behind them, and an exponent. -/
inductive Number : List Char → Prop
  | intro {ds s e} : Digits ds → Points s → e = [] ∨ Exponent e → Number (ds ++ (s ++ e))

inductive Points : List Char → Prop
  | nil : Points []
  | point {s} : Points s → Points ('.' :: s)
  | number {n s} : Number n → Points s → Points ('.' :: (n ++ s))

end

/-- The text goes on a number when `n` of the numbers around it may still have an exponent. -/
inductive Continues : Nat → List Char → Prop
  | nil {n} : Continues n []
  | point {n s} : Continues (n + 1) s → Continues (n + 1) ('.' :: s)
  | number {n ds s} : Digits ds → Continues (n + 2) s → Continues (n + 1) ('.' :: (ds ++ s))
  | exponent {n e s} : Exponent e → Continues n s → Continues (n + 1) (e ++ s)

/-- A text up to the first place where `stop` stands. -/
inductive UpTo (stop : List Char) : List Char → Prop
  | stop : UpTo stop stop
  | char {c s} : ¬ stop <+: c :: s → UpTo stop s → UpTo stop (c :: s)

inductive Comment : List Char → Prop
  | line {s} : UpTo ['\n'] s → Comment ('/' :: '/' :: s)
  | block {s} : UpTo ['*', '/'] s → Comment ('/' :: '*' :: s)

/-- The text is a lexeme of this kind. -/
def Admits : LexemeKind → List Char → Prop
  | .token (.literal w), s => w ∈ literals ∧ s = w.toList
  | .token .ident, s => Name s
  | .token .string, s => ∃ t, Enclosed t ∧ s = '"' :: t
  | .token .number, s => Number s
  | .comment, s => Comment s
  | .blank, s => s ≠ [] ∧ ∀ c ∈ s, isBlank c
  | .unrecognised, _ => False

/-! ### Longest matches -/

variable {x y s cs ds e : List Char} {c : Char} {n m read best : Nat} {f : List Char → Nat} {escaped : Bool}

/-- `f` measures the longest text of the language at the front of a text. -/
structure Longest (L : List Char → Prop) (f : List Char → Nat) : Prop where
  attained (cs : List Char) : ∃ s x, cs = s ++ x ∧ (s = [] ∨ L s) ∧ f cs = s.length
  le (x : List Char) {s : List Char} : L s → s.length ≤ f (s ++ x)

/-- The text is empty or begins with a line feed. -/
def EndsLine (x : List Char) : Prop := ∀ c, x.head? = some c → c = '\n'

namespace Longest

variable {L : List Char → Prop}

theorem le_length (h : Longest L f) (cs : List Char) : f cs ≤ cs.length := by
  obtain ⟨s, x, rfl, -, hf⟩ := h.attained cs
  simp [hf]

theorem le_of_front (h : Longest L f) (hs : L s) (hle : s <+: cs) : s.length ≤ f cs := by
  obtain ⟨x, rfl⟩ := hle
  exact h.le x hs

/-- A match that goes beyond `s` is a text of the language that goes on from `s`. -/
theorem exists_of_lt (h : Longest L f) (hlt : s.length < f (s ++ y)) : ∃ c w v, y = c :: (w ++ v) ∧ L (s ++ c :: w) := by
  obtain ⟨u, v, huv, hu, hf⟩ := h.attained (s ++ y)
  rw [hf] at hlt
  rcases append_eq_append_iff.1 huv with ⟨w, rfl, rfl⟩ | ⟨w, rfl, -⟩
  · obtain ⟨c, w, rfl⟩ := exists_cons_of_ne_nil (ne_nil_of_length_pos (by simpa using hlt) : w ≠ [])
    exact ⟨c, w, v, rfl, hu.resolve_left (by simp)⟩
  · rw [length_append] at hlt
    omega

/-- A match that ends in front of `x` is the match at the end of a line. -/
theorem eq_of_endsLine (h : Longest L f) (hL : ∀ z, ¬ L (s ++ '\n' :: z)) (hle : f (s ++ x) ≤ s.length) (hy : EndsLine y) :
    f (s ++ y) = f (s ++ x) := by
  have hmatch : ∀ z, f (s ++ z) ≤ s.length → ∀ z', f (s ++ z) ≤ f (s ++ z') := by
    intro z hz z'
    obtain ⟨u, v, huv, hu, hf⟩ := h.attained (s ++ z)
    rw [hf] at hz ⊢
    rcases hu with rfl | hu
    · exact Nat.zero_le _
    · have hpre : u <+: s := prefix_of_prefix_length_le ⟨v, huv.symm⟩ (prefix_append s z) hz
      exact h.le_of_front hu (hpre.trans (prefix_append s z'))
  refine Nat.le_antisymm (hmatch y (Nat.le_of_not_lt fun hlt => ?_) x) (hmatch x hle y)
  -- a longer match would go on with the line feed
  obtain ⟨c, w, v, rfl, hw⟩ := h.exists_of_lt hlt
  obtain rfl := hy c rfl
  exact hL w hw

theorem takeWhile (p : Char → Bool) : Longest (fun s => ∀ c ∈ s, p c) fun cs => (cs.takeWhile p).length where
  attained cs := ⟨_, _, takeWhile_append_dropWhile.symm, .inr fun _ hc => all_eq_true.1 all_takeWhile _ hc, rfl⟩
  le x s hs := by simp [takeWhile_append_of_pos hs]

end Longest

/-! ### Keywords and signs -/

/-- How a word of the language matches. -/
def literalLength (w : List Char) (cs : List Char) : Nat := if w.isPrefixOf cs then w.length else 0

theorem longest_literal {w : String} (hw : w ∈ literals) : Longest (Admits (.token (.literal w))) (literalLength w.toList) where
  attained cs := by
    unfold literalLength
    split
    · rename_i h
      obtain ⟨x, rfl⟩ := isPrefixOf_iff_prefix.1 h
      exact ⟨w.toList, x, rfl, .inr ⟨hw, rfl⟩, rfl⟩
    · exact ⟨[], cs, rfl, .inl rfl, rfl⟩
  le x s hs := by simp [literalLength, hs.2]

/-! ### Names -/

theorem ne_backslash_of_isQuotedChar (hc : isQuotedChar c) : c ≠ '\\' := by
  rintro rfl
  revert hc
  decide

theorem longest_quoted : Longest Quoted quotedLength where
  attained cs := by
    fun_induction quotedLength cs with
    | case1 c rest hc ih =>
      obtain ⟨s, x, rfl, hs, hlen⟩ := ih
      exact ⟨'\\' :: c :: s, x, rfl, .inr (.escape hc (hs.elim (· ▸ .nil) id)), by simp [hlen]; omega⟩
    | case3 c rest _ hc ih =>
      obtain ⟨s, x, rfl, hs, hlen⟩ := ih
      exact ⟨c :: s, x, rfl, .inr (.char hc (hs.elim (· ▸ .nil) id)), by simp [hlen]; omega⟩
    | _ => exact ⟨[], _, rfl, .inl rfl, rfl⟩
  le x s hs := by
    induction hs with
    | nil => exact Nat.zero_le _
    | char hc _ ih =>
      rw [cons_append, quotedLength, if_pos hc, length_cons]
      · omega
      · intro d t h
        exact absurd h (ne_backslash_of_isQuotedChar hc)
    | escape hc _ ih =>
      simp only [cons_append, quotedLength, hc, if_true, length_cons]
      omega

theorem identLength_cons (hc : c ≠ '\'') (rest : List Char) :
    identLength (c :: rest) = if isNondigit c then 1 + (rest.takeWhile isWordChar).length else 0 := by
  rw [identLength]
  intro h
  exact absurd h hc

theorem longest_ident : Longest Name identLength where
  attained cs := by
    fun_cases identLength cs with
    | case2 rest hpos =>
      obtain ⟨s, x, rfl, hs, hlen⟩ := longest_quoted.attained rest
      have hne : s ≠ [] := by
        rintro rfl
        exact hpos hlen
      exact ⟨'\'' :: s, x, rfl, .inr (.quoted hne (hs.resolve_left hne)), by simp [hlen]; omega⟩
    | case3 c rest _ hc =>
      obtain ⟨s, x, rfl, hs, hlen⟩ := (Longest.takeWhile isWordChar).attained rest
      exact ⟨c :: s, x, rfl, .inr (.plain hc (hs.elim (by rintro rfl; simp) id)), by simp [hlen]; omega⟩
    | _ => exact ⟨[], _, rfl, .inl rfl, rfl⟩
  le x s hs := by
    cases hs with
    | @plain c s hc hs =>
      have hquote : c ≠ '\'' := by
        rintro rfl
        revert hc
        decide
      have := (Longest.takeWhile isWordChar).le x hs
      rw [cons_append, identLength_cons hquote, if_pos hc, length_cons]
      omega
    | @quoted s hne hs =>
      have := longest_quoted.le x hs
      have := length_pos_iff.2 hne
      rw [cons_append, identLength, if_neg (by omega), length_cons]
      omega

/-! ### Numbers -/

theorem takeWhile_digits (hds : Digits ds) (x : List Char) :
    (ds ++ x).takeWhile Char.isDigit = ds ++ x.takeWhile Char.isDigit := takeWhile_append_of_pos hds.2

theorem exponentLength_append (h : Exponent e) (x : List Char) :
    exponentLength (e ++ x) = e.length + (x.takeWhile Char.isDigit).length := by
  obtain @⟨c, sign, ds, hc, hsign, hds⟩ := h
  have hpos := length_pos_iff.2 hds.1
  rcases hsign with rfl | rfl | rfl
  · obtain ⟨d, ds, rfl⟩ := exists_cons_of_ne_nil hds.1
    have hd : ¬ (d = '+' ∨ d = '-') := by
      have := hds.2 d (.head _)
      rintro (rfl | rfl) <;> revert this <;> decide
    have htake := takeWhile_digits hds x
    simp only [cons_append] at htake
    simp [exponentLength, hc, hd, htake]
    omega
  all_goals
    simp [exponentLength, hc, takeWhile_digits hds, hds.1]
    omega

theorem longest_exponent : Longest Exponent exponentLength where
  attained cs := by
    rcases cs with _ | ⟨c, _ | ⟨d, s⟩⟩
    · exact ⟨[], _, rfl, .inl rfl, rfl⟩
    · exact ⟨[], _, rfl, .inl rfl, by simp [exponentLength]⟩
    obtain ⟨sign, t, hs, hsign, hlen⟩ : ∃ sign t, d :: s = sign ++ t ∧ (sign = [] ∨ sign = ['+'] ∨ sign = ['-']) ∧
        exponentLength (c :: d :: s) = if ¬ (c = 'e' ∨ c = 'E') ∨ (t.takeWhile Char.isDigit).length = 0 then 0
          else 1 + sign.length + (t.takeWhile Char.isDigit).length := by
      by_cases hd : d = '+' ∨ d = '-'
      · refine ⟨[d], s, rfl, by simpa using hd, ?_⟩
        by_cases hc : c = 'e' ∨ c = 'E' <;> simp [exponentLength, hc, hd]
      · refine ⟨[], d :: s, rfl, .inl rfl, ?_⟩
        by_cases hc : c = 'e' ∨ c = 'E' <;> simp [exponentLength, hc, hd]
    rw [hlen, hs]
    split
    · exact ⟨[], _, rfl, .inl rfl, rfl⟩
    · rename_i h
      rw [not_or, Decidable.not_not] at h
      have hne : t.takeWhile Char.isDigit ≠ [] := fun hnil => h.2 (by rw [hnil, length_nil])
      exact ⟨c :: (sign ++ t.takeWhile Char.isDigit), t.dropWhile Char.isDigit, by simp,
        .inr (.intro h.1 hsign ⟨hne, all_eq_true.1 all_takeWhile⟩), by simp; omega⟩
  le x s hs := by
    rw [exponentLength_append hs]
    omega

namespace Continues

theorem succ (h : Continues n s) : Continues (n + 1) s := by
  induction h with
  | nil => exact .nil
  | point _ ih => exact .point ih
  | number hds _ ih => exact .number hds ih
  | exponent he _ ih => exact .exponent he ih

/-- What goes on a number does not begin with a digit, so it ends the digits in front of it. -/
theorem takeWhile_eq (h : Continues n s) (hs : s ≠ []) (x : List Char) : (s ++ x).takeWhile Char.isDigit = [] := by
  cases h with
  | nil => exact absurd rfl hs
  | point | number => simp [Char.isDigit]
  | exponent he =>
    obtain ⟨rfl | rfl, _, _⟩ := he <;> simp [Char.isDigit]

/-- Of the numbers around, each is ended in turn by points and an exponent. -/
def Ends : Nat → List Char → Prop
  | 0, s => s = []
  | n + 1, s => ∃ u e t, s = u ++ (e ++ t) ∧ Points u ∧ (e = [] ∨ Exponent e) ∧ Ends n t

theorem ends (h : Continues n s) : Ends n s := by
  induction h with
  | @nil n =>
    induction n with
    | zero => rfl
    | succ n ih => exact ⟨[], [], [], rfl, .nil, .inl rfl, ih⟩
  | point _ ih =>
    obtain ⟨u, e, t, rfl, hu, he, ht⟩ := ih
    exact ⟨'.' :: u, e, t, rfl, .point hu, he, ht⟩
  | @number n ds _ hds _ ih =>
    obtain ⟨u, e, _, rfl, hu, he, u', e', t, rfl, hu', he', ht⟩ := ih
    exact ⟨'.' :: ((ds ++ (u ++ e)) ++ u'), e', t, by simp, .number (.intro hds hu he) hu', he', ht⟩
  | exponent he _ ih => exact ⟨[], _, _, rfl, .nil, .inr he, ih⟩

theorem of_number : ∀ {s}, Number s → ∃ ds t, s = ds ++ t ∧ Digits ds ∧ ∀ n x, Continues n x → Continues (n + 1) (t ++ x) := by
  intro s h
  refine @Number.rec (fun s _ => ∃ ds t, s = ds ++ t ∧ Digits ds ∧ ∀ n x, Continues n x → Continues (n + 1) (t ++ x))
    (fun s _ => ∀ n x, Continues (n + 1) x → Continues (n + 1) (s ++ x)) ?_ (fun _ _ h => h)
    (fun _ ih n x h => .point (ih n x h)) ?_ s h
  · intro ds s e hds _ he ih
    refine ⟨ds, s ++ e, rfl, hds, fun n x h => ?_⟩
    rw [append_assoc]
    refine ih n (e ++ x) ?_
    rcases he with rfl | he
    · exact h.succ
    · exact .exponent he h
  · rintro _ s _ _ ⟨ds, t, rfl, hds, hnumber⟩ ih n x h
    simpa using Continues.number hds (hnumber (n + 1) _ (ih n x h))

end Continues

theorem number_iff : Number s ↔ ∃ ds t, s = ds ++ t ∧ Digits ds ∧ Continues 1 t := by
  constructor
  · intro h
    obtain ⟨ds, t, rfl, hds, ht⟩ := Continues.of_number h
    exact ⟨ds, t, rfl, hds, by simpa using ht 0 [] .nil⟩
  · rintro ⟨ds, t, rfl, hds, ht⟩
    obtain ⟨u, e, _, rfl, hu, he, rfl⟩ := ht.ends
    simpa using Number.intro hds hu he

theorem numberRest_exponent (n free : Nat) (hdot : cs.head? ≠ some '.') : numberRest (n + 1) (free + 1) cs =
      exponentLength cs + if exponentLength cs = 0 then 0 else numberRest n free (cs.drop (exponentLength cs)) := by
  rw [numberRest]
  · split <;> simp_all
  · intro rest h
    subst h
    simp at hdot

theorem numberRest_attained (fuel n : Nat) (cs : List Char) :
    ∃ s x, cs = s ++ x ∧ Continues n s ∧ numberRest fuel n cs = s.length := by
  fun_induction numberRest fuel n cs with
  | case2 fuel n rest m ih =>
    obtain ⟨ds, y, rfl, hds, hm⟩ := (Longest.takeWhile Char.isDigit).attained rest
    replace hm : m = ds.length := hm
    obtain ⟨s, x, hcs, hs, hlen⟩ := ih
    rw [hlen]
    rw [hm, drop_left] at hcs
    refine ⟨'.' :: (ds ++ s), x, by simp [hcs], ?_, by simp; omega⟩
    split at hs
    · obtain rfl := eq_nil_of_length_eq_zero (by omega : ds.length = 0)
      exact .point hs
    · have hne : ds ≠ [] := ne_nil_of_length_pos (by omega)
      exact .number ⟨hne, hds.resolve_left hne⟩ hs
  | case4 fuel n cs _ m hpos ih =>
    obtain ⟨e, y, rfl, he, hm⟩ := longest_exponent.attained cs
    replace hm : m = e.length := hm
    obtain ⟨s, x, hcs, hs, hlen⟩ := ih
    rw [hlen]
    rw [hm, drop_left] at hcs
    have hne : e ≠ [] := ne_nil_of_length_pos (by omega)
    exact ⟨e ++ s, x, by simp [hcs], .exponent (he.resolve_left hne) hs, by simp [hm]⟩
  | _ => exact ⟨[], _, rfl, .nil, rfl⟩

/-- A part of a number that ends with its digits, and what goes on behind it. -/
theorem Continues.le_behind (h : Continues n s) (hm : m = e.length + ((s ++ x).takeWhile Char.isDigit).length)
    (hrest : s.length ≤ f (s ++ x)) : e.length + s.length ≤ m + f ((e ++ (s ++ x)).drop m) := by
  by_cases hne : s = []
  · simp [hne, hm]
    omega
  · rw [h.takeWhile_eq hne, length_nil, Nat.add_zero] at hm
    rw [hm, drop_left]
    omega

theorem le_numberRest {fuel : Nat} (h : Continues n s) (x : List Char) (hfuel : s.length ≤ fuel) :
    s.length ≤ numberRest fuel n (s ++ x) := by
  induction h generalizing fuel with
  | nil => exact Nat.zero_le _
  | @point n s hs ih =>
    rw [length_cons] at hfuel
    obtain _ | fuel := fuel
    · omega
    rw [cons_append, numberRest, Nat.add_assoc, length_cons]
    by_cases hne : s = []
    · simp [hne]
    · have := ih (by omega : s.length ≤ fuel)
      simp only [hs.takeWhile_eq hne, length_nil, if_true, drop_zero]
      omega
  | @number n ds s hds hs ih =>
    have hpos := length_pos_iff.2 hds.1
    rw [length_cons, length_append] at hfuel
    obtain _ | fuel := fuel
    · omega
    have hm := congrArg length (takeWhile_digits hds (s ++ x))
    rw [length_append] at hm
    rw [cons_append, numberRest, Nat.add_assoc, append_assoc, if_neg (by omega), length_cons, length_append]
    have := hs.le_behind hm (ih (by omega : s.length ≤ fuel))
    omega
  | @exponent n e s he hs ih =>
    have hpos : 0 < e.length := by cases he; simp
    rw [length_append] at hfuel
    obtain _ | fuel := fuel
    · omega
    have hdot : (e ++ (s ++ x)).head? ≠ some '.' := by obtain ⟨rfl | rfl, _, _⟩ := he <;> simp
    have hm := exponentLength_append he (s ++ x)
    rw [append_assoc, numberRest_exponent _ _ hdot, if_neg (by omega), length_append]
    exact hs.le_behind hm (ih (by omega))

theorem longest_number : Longest Number numberLength where
  attained cs := by
    obtain ⟨ds, y, rfl, hds, hn⟩ := (Longest.takeWhile Char.isDigit).attained cs
    obtain ⟨t, x, hy, ht, hlen⟩ := numberRest_attained (ds ++ y).length 1 y
    simp only [numberLength, hn, drop_left, hlen]
    split
    · exact ⟨[], _, rfl, .inl rfl, rfl⟩
    · rename_i hpos
      have hne : ds ≠ [] := fun h => hpos (by simp [h])
      exact ⟨ds ++ t, x, by simp [hy], .inr (number_iff.2 ⟨ds, t, rfl, ⟨hne, hds.resolve_left hne⟩, ht⟩), by simp⟩
  le x s hs := by
    obtain ⟨ds, t, rfl, hds, ht⟩ := number_iff.1 hs
    have hpos := length_pos_iff.2 hds.1
    have hm := congrArg length (takeWhile_digits hds (t ++ x))
    rw [length_append] at hm
    simp only [numberLength, append_assoc]
    rw [if_neg (by omega), length_append]
    exact ht.le_behind hm (le_numberRest ht x (by simp; omega))

/-! ### Texts in quotes -/

/-- What may follow when the character before it may be a backslash. -/
def EnclosedFrom (escaped : Bool) (s : List Char) : Prop :=
  Enclosed s ∨ escaped = true ∧ ∃ t, Enclosed t ∧ s = '"' :: t

theorem stringEnd_attained (read best : Nat) (escaped : Bool) (cs : List Char) : stringEnd read best escaped cs = best ∨
    ∃ s x, cs = s ++ x ∧ EnclosedFrom escaped s ∧ stringEnd read best escaped cs = read + s.length := by
  fun_induction stringEnd read best escaped cs with
  | case1 => exact .inl rfl
  | case2 read best rest ih =>
    right
    rcases ih with h | ⟨s, x, rfl, hs, h⟩
    · exact ⟨['"'], rest, rfl, .inl .close, h⟩
    · exact ⟨'"' :: s, x, rfl, .inr ⟨rfl, s, hs.elim id (by simp), rfl⟩, by simp [h]; omega⟩
  | case3 read best escaped rest => exact .inr ⟨['"'], rest, rfl, .inl .close, rfl⟩
  | case4 read best escaped c rest hc ih =>
    refine ih.imp id ?_
    rintro ⟨s, x, rfl, hs, h⟩
    refine ⟨c :: s, x, rfl, .inl ?_, by simp [h]; omega⟩
    rcases hs with hs | ⟨hb, t, ht, rfl⟩
    · exact .char hc hs
    · obtain rfl : c = '\\' := by simpa using hb
      exact .quote ht

theorem le_stringEnd (h : Enclosed s) (x : List Char) (read best : Nat) (escaped : Bool) :
    read + s.length ≤ stringEnd read best escaped (s ++ x) := by
  induction h generalizing read best escaped with
  | close =>
    rw [singleton_append, stringEnd]
    split
    · rcases stringEnd_attained (read + 1) (read + 1) false x with h | ⟨_, _, _, _, h⟩ <;> simp [h]
    · exact Nat.le_refl _
  | quote _ ih =>
    have := ih (read + 2) (read + 2) false
    simp [stringEnd, Nat.add_assoc]
    omega
  | @char c s hc _ ih =>
    have := ih (read + 1) best (c == '\\')
    rw [cons_append, stringEnd, length_cons]
    · omega
    · exact hc

theorem longest_string : Longest (fun s => ∃ t, Enclosed t ∧ s = '"' :: t) stringLength where
  attained cs := by
    unfold stringLength
    split
    · rename_i rest
      rcases stringEnd_attained 1 0 false rest with h | ⟨s, x, rfl, hs, h⟩
      · exact ⟨[], _, rfl, .inl rfl, h⟩
      · exact ⟨'"' :: s, x, rfl, .inr ⟨s, hs.resolve_right (by simp), rfl⟩, by simp [h]; omega⟩
    · exact ⟨[], _, rfl, .inl rfl, rfl⟩
  le x s hs := by
    obtain ⟨t, ht, rfl⟩ := hs
    have := le_stringEnd ht x 1 0 false
    simp only [cons_append, stringLength, length_cons]
    omega

theorem enclosed_append (hx : '"' ∉ x) : Enclosed (x ++ ['"']) := by
  induction x with
  | nil => exact .close
  | cons c x ih =>
    rw [mem_cons, not_or] at hx
    exact .char (Ne.symm hx.1) (ih hx.2)

/-- A text that went on could also have ended at the next quote. -/
theorem Enclosed.next_quote (h : Enclosed (s ++ c :: y)) (hx : '"' ∉ x) : Enclosed (s ++ (x ++ ['"'])) := by
  generalize hz : s ++ c :: y = z at h
  induction h generalizing s with
  | close =>
    cases s with
    | nil => exact enclosed_append hx
    | cons => simp at hz
  | quote _ ih =>
    rcases s with _ | ⟨d, _ | ⟨d', s⟩⟩
    · exact enclosed_append hx
    · cases hz
      exact .char (by decide) (enclosed_append hx)
    · cases hz
      exact .quote (ih rfl)
  | char hc _ ih =>
    cases s with
    | nil => exact enclosed_append hx
    | cons =>
      cases hz
      exact .char hc (ih rfl)

theorem Enclosed.getLast? (h : Enclosed s) : s.getLast? = some '"' := by
  induction h with
  | close => rfl
  | quote h ih | char _ h ih => cases h <;> simp_all

theorem stringLength_append (hs : s ≠ []) (h : stringLength (s ++ x) = s.length) (hy : '"' ∈ y → '"' ∈ x) :
    stringLength (s ++ y) = s.length := by
  obtain ⟨t, ht, rfl⟩ : ∃ t, Enclosed t ∧ s = '"' :: t := by
    obtain ⟨u, v, huv, hu, hlen⟩ := longest_string.attained (s ++ x)
    obtain ⟨rfl, -⟩ := append_inj huv (h.symm.trans hlen)
    exact hu.resolve_left hs
  refine Nat.le_antisymm (Nat.le_of_not_lt fun hlt => ?_) (longest_string.le y ⟨t, ht, rfl⟩)
  -- The text would go on to a later quote, so in front of `x` it would go on too.
  obtain ⟨c, w, v, rfl, t', ht', heq⟩ := longest_string.exists_of_lt hlt
  obtain rfl : t ++ c :: w = t' := (cons.inj heq).2
  have hmem : '"' ∈ c :: (w ++ v) := by
    have := ht'.getLast?
    rw [List.getLast?_append, List.getLast?_cons, Option.some_or] at this
    exact mem_append_left v (mem_of_getLast? (List.getLast?_cons.trans this))
  obtain ⟨x₁, x₂, rfl, hx⟩ := eq_append_cons_of_mem (hy hmem)
  have := longest_string.le x₂ ⟨_, ht'.next_quote hx, rfl⟩
  simp only [cons_append, append_assoc, nil_append] at this h
  rw [h] at this
  simp only [length_cons, length_append] at this
  omega

/-! ### Comments -/

/-- `f` counts the characters up to the first `stop`, from `read` on. -/
structure Seeks (stop : List Char) (f : Nat → List Char → Nat) : Prop where
  nil (read : Nat) : f read [] = 0
  here (read : Nat) (x : List Char) : f read (stop ++ x) = read + stop.length
  later (read : Nat) {c : Char} {s : List Char} : ¬ stop <+: c :: s → f read (c :: s) = f (read + 1) s

namespace Seeks

variable {stop : List Char} {f : Nat → List Char → Nat}

theorem attained (h : Seeks stop f) (read : Nat) (cs : List Char) :
    f read cs = 0 ∨ ∃ s x, cs = s ++ x ∧ UpTo stop s ∧ f read cs = read + s.length := by
  induction cs generalizing read with
  | nil => exact .inl (h.nil read)
  | cons c cs ih =>
    by_cases hstop : stop <+: c :: cs
    · obtain ⟨x, hx⟩ := hstop
      exact .inr ⟨stop, x, hx.symm, .stop, by rw [← hx, h.here]⟩
    · rw [h.later read hstop]
      refine (ih (read + 1)).imp id ?_
      rintro ⟨s, x, rfl, hs, hlen⟩
      refine ⟨c :: s, x, rfl, .char (fun hpre => hstop (hpre.trans (prefix_append (c :: s) x))) hs, ?_⟩
      rw [hlen, length_cons]
      omega

theorem append (h : Seeks stop f) (hs : UpTo stop s) (x : List Char) (read : Nat) : f read (s ++ x) = read + s.length := by
  induction hs generalizing read with
  | stop => exact h.here read x
  | @char c s hc hs ih =>
    have hlen : stop.length ≤ s.length := by
      clear ih hc
      induction hs with
      | stop => exact Nat.le_refl _
      | char _ _ ih => exact Nat.le_succ_of_le ih
    rw [cons_append, h.later, ih, length_cons]
    · omega
    · intro hpre
      exact hc (prefix_of_prefix_length_le hpre (prefix_append (c :: s) x) (Nat.le_succ_of_le hlen))

end Seeks

theorem seeks_lineEnd : Seeks ['\n'] lineEnd where
  nil _ := rfl
  here _ _ := rfl
  later read c s hc := by
    rw [lineEnd, if_neg]
    rintro rfl
    simp at hc

theorem seeks_blockEnd : Seeks ['*', '/'] blockEnd where
  nil _ := rfl
  here _ _ := rfl
  later read c s hc := by
    rw [blockEnd]
    rintro y rfl rfl
    simp at hc

theorem longest_comment : Longest Comment commentLength where
  attained cs := by
    unfold commentLength
    split
    · rename_i rest
      rcases seeks_lineEnd.attained 2 rest with h | ⟨s, x, rfl, hs, h⟩
      · exact ⟨[], _, rfl, .inl rfl, h⟩
      · exact ⟨'/' :: '/' :: s, x, rfl, .inr (.line hs), by simp [h]; omega⟩
    · rename_i rest
      rcases seeks_blockEnd.attained 2 rest with h | ⟨s, x, rfl, hs, h⟩
      · exact ⟨[], _, rfl, .inl rfl, h⟩
      · exact ⟨'/' :: '*' :: s, x, rfl, .inr (.block hs), by simp [h]; omega⟩
    · exact ⟨[], _, rfl, .inl rfl, rfl⟩
  le x s hs := by
    cases hs with
    | line hs =>
      simp [commentLength, seeks_lineEnd.append hs]
      omega
    | block hs =>
      simp [commentLength, seeks_blockEnd.append hs]
      omega

/-! ### The rules -/

variable {r : LexemeKind × (List Char → Nat)} {kind : LexemeKind}

theorem longest_blank : Longest (fun s => s ≠ [] ∧ ∀ c ∈ s, isBlank c) blankLength where
  attained cs := by
    obtain ⟨s, x, hcs, hs, hlen⟩ := (Longest.takeWhile isBlank).attained cs
    by_cases hne : s = []
    · exact ⟨s, x, hcs, .inl hne, hlen⟩
    · exact ⟨s, x, hcs, .inr ⟨hne, hs.resolve_left hne⟩, hlen⟩
  le x s hs := (Longest.takeWhile isBlank).le x hs.2

theorem mem_rules :
    r ∈ rules ↔ (∃ w ∈ literals, r = (.token (.literal w), literalLength w.toList)) ∨ r = (.token .ident, identLength) ∨
      r = (.token .string, stringLength) ∨ r = (.token .number, numberLength) ∨ r = (.comment, commentLength) ∨
      r = (.blank, blankLength) := by
  have hlength : ∀ w : String, literalLength w.toList = fun cs => if w.toList.isPrefixOf cs then w.length else 0 := by
    intro w
    funext cs
    rw [literalLength, String.length_toList]
  simp only [rules, hlength, mem_append, mem_map, mem_cons, not_mem_nil, or_false, eq_comm]

/-- **Each rule of the lexer finds the longest text of its language.** -/
theorem longest_of_mem_rules (hr : r ∈ rules) : Longest (Admits r.1) r.2 := by
  rcases mem_rules.1 hr with ⟨w, hw, rfl⟩ | rfl | rfl | rfl | rfl | rfl
  · exact longest_literal hw
  · exact longest_ident
  · exact longest_string
  · exact longest_number
  · exact longest_comment
  · exact longest_blank

/-- The winner so far against one more rule. -/
def better (cs : List Char) (best : LexemeKind × Nat) (r : LexemeKind × (List Char → Nat)) : LexemeKind × Nat :=
  if r.2 cs > best.2 then (r.1, r.2 cs) else best

/-- The winner is the one so far, or the first of the rules that come nowhere short of another. -/
theorem foldl_better (cs : List Char) (rs : List (LexemeKind × (List Char → Nat))) (best : LexemeKind × Nat) :
    (rs.foldl (better cs) best = best ∧ ∀ r ∈ rs, r.2 cs ≤ best.2) ∨
      ∃ as r bs, rs = as ++ r :: bs ∧ rs.foldl (better cs) best = (r.1, r.2 cs) ∧ best.2 < r.2 cs ∧
        (∀ a ∈ as, a.2 cs < r.2 cs) ∧ ∀ b ∈ bs, b.2 cs ≤ r.2 cs := by
  induction rs generalizing best with
  | nil => simp
  | cons r rs ih =>
    rw [foldl_cons]
    by_cases hr : best.2 < r.2 cs
    · have hbetter : better cs best r = (r.1, r.2 cs) := if_pos hr
      rw [hbetter]
      right
      rcases ih (r.1, r.2 cs) with ⟨heq, hle⟩ | ⟨as, q, bs, rfl, heq, hlt, has, hbs⟩
      · exact ⟨[], r, rs, rfl, heq, hr, by simp, hle⟩
      · exact ⟨r :: as, q, bs, rfl, heq, Nat.lt_trans hr hlt, forall_mem_cons.2 ⟨hlt, has⟩, hbs⟩
    · have hbetter : better cs best r = best := if_neg hr
      rw [hbetter]
      rcases ih best with ⟨heq, hle⟩ | ⟨as, q, bs, rfl, heq, hlt, has, hbs⟩
      · exact .inl ⟨heq, forall_mem_cons.2 ⟨Nat.le_of_not_lt hr, hle⟩⟩
      · exact .inr ⟨r :: as, q, bs, rfl, heq, hlt, forall_mem_cons.2 ⟨by omega, has⟩, hbs⟩

theorem longest_eq (cs : List Char) : longest cs = rules.foldl (better cs) (.unrecognised, 0) := rfl

theorem le_of_longest (h : longest cs = (kind, n)) (hr : r ∈ rules) : r.2 cs ≤ n := by
  rw [longest_eq] at h
  rcases foldl_better cs rules (.unrecognised, 0) with ⟨heq, hle⟩ | ⟨as, q, bs, hrules, heq, -, has, hbs⟩
  all_goals
    cases h.symm.trans heq
  · exact hle r hr
  · rw [hrules, mem_append, mem_cons] at hr
    rcases hr with hr | rfl | hr
    · exact Nat.le_of_lt (has r hr)
    · exact Nat.le_refl _
    · exact hbs r hr

theorem longest_mem (h : longest cs = (kind, n)) (hn : n ≠ 0) : ∃ f, (kind, f) ∈ rules ∧ f cs = n := by
  rw [longest_eq] at h
  rcases foldl_better cs rules (.unrecognised, 0) with ⟨heq, -⟩ | ⟨as, r, bs, hrules, heq, -⟩
  all_goals
    cases h.symm.trans heq
  · exact absurd rfl hn
  · exact ⟨r.2, by simp [hrules], rfl⟩

theorem admits_of_longest (h : longest (s ++ x) = (kind, s.length)) (hs : s ≠ []) : Admits kind s := by
  obtain ⟨f, hf, hlen⟩ := longest_mem h (by simpa using hs)
  obtain ⟨u, v, huv, hu, hf⟩ := (longest_of_mem_rules hf).attained (s ++ x)
  obtain ⟨rfl, -⟩ := append_inj huv (hlen.symm.trans hf)
  exact hu.resolve_left hs

theorem exists_longest (cs : List Char) : ∃ kind s x, cs = s ++ x ∧ longest (s ++ x) = (kind, s.length) := by
  obtain ⟨kind, n, hlong⟩ : ∃ kind n, longest cs = (kind, n) := ⟨_, _, rfl⟩
  have hle : n ≤ cs.length := by
    by_cases hn : n = 0
    · omega
    · obtain ⟨f, hf, rfl⟩ := longest_mem hlong hn
      exact (longest_of_mem_rules hf).le_length cs
  refine ⟨kind, cs.take n, cs.drop n, (take_append_drop n cs).symm, ?_⟩
  rw [take_append_drop, hlong, length_take, Nat.min_eq_left hle]

end Modelica.Lexer
