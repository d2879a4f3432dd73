/-
The tokens of written terms.

`Spells follow cs ps` says that the characters `cs` are taken for the tokens
`ps`, whatever stands behind them, as long as it satisfies `follow`. So the
tokens of a text are found part by part (`Spells.append`). Names, whole
numbers and the decimal forms of doubles are spelled as they should be
(`spells_name`, `spells_whole`, `spells_unsigned`).
-/
import Modelica.Proofs.Script.Reading
import Modelica.Decimal.Layout

namespace Modelica.Script.Term

open List

variable {follow : List Char → Prop} {cs ds rest : List Char} {ps : List Part} {s : String} {c : Char}

/-- The characters `cs` are taken for the tokens `ps`, and what follows them
for its own. -/
def Spells (follow : List Char → Prop) (cs : List Char) (ps : List Part) : Prop :=
  ∀ n rest, follow rest → (cs ++ rest).length < n →
    ∃ m, rest.length < m ∧ partsTo n (cs ++ rest) = (partsTo m rest).map (ps ++ ·)

/-- Anything may follow. -/
abbrev Anything : List Char → Prop := fun _ => True

/-- What follows does not go on with a name. -/
def NoName (rest : List Char) : Prop := ∀ c, rest.head? = some c → isNameChar c = false

/-- What follows a term: a blank, a comma, a closing parenthesis, or nothing. -/
def Boundary (rest : List Char) : Prop := ∀ c, rest.head? = some c → c = ' ' ∨ c = ',' ∨ c = ')'

theorem Spells.append {follow' qs} (h : Spells follow cs ps) (h' : Spells follow' ds qs)
    (hf : ∀ rest, follow' rest → follow (ds ++ rest)) : Spells follow' (cs ++ ds) (ps ++ qs) := by
  intro n rest hrest hn
  rw [append_assoc] at hn ⊢
  obtain ⟨m, hm, heq⟩ := h n (ds ++ rest) (hf rest hrest) hn
  obtain ⟨m', hm', heq'⟩ := h' m rest hrest hm
  refine ⟨m', hm', ?_⟩
  rw [heq, heq', Option.map_map]
  simp [Function.comp_def]

theorem Spells.weaken {f f'} (h : Spells f cs ps) (hf : ∀ rest, f' rest → f rest) :
    Spells f' cs ps := fun n rest hrest => h n rest (hf rest hrest)

theorem Spells.parts (h : Spells follow s.toList ps) (hnil : follow []) : parts s = some ps := by
  obtain ⟨m, hm, heq⟩ := h (s.length + 1) [] hnil (by simp [String.length_toList])
  rw [append_nil] at heq
  obtain _ | m := m
  · simp at hm
  simp [Term.parts, heq, partsTo]

theorem Spells.single {p} (hcs : cs ≠ [])
    (h : ∀ n rest, follow rest → partsTo (n + 1) (cs ++ rest) = (partsTo n rest).bind fun ps => some (p :: ps)) :
    Spells follow cs [p] := by
  intro n rest hrest hn
  obtain _ | n := n
  · omega
  have hpos := length_pos_iff.2 hcs
  refine ⟨n, by simp at hn; omega, ?_⟩
  rw [h n rest hrest]
  cases partsTo n rest <;> rfl

/-! ### Blanks and symbols -/

theorem spells_blank : Spells Anything [' '] [] := by
  intro n rest _ hn
  obtain _ | n := n
  · omega
  exact ⟨n, by simpa using hn, by simp [partsTo]⟩

/-- The symbols of one character that no other character can go on with. -/
def plainSymbols : List Char := ['+', '-', '/', '(', ')', ',']

theorem spells_sign (hc : ['+', '-', '*', '/', '(', ')', ',', '.'].contains c = true) :
    Spells (fun rest => (c = '*' → rest.head? ≠ some '*') ∧ (c = '.' → rest.head?.any Char.isDigit = false)) [c]
      [.symbol c.toString] := by
  have hspec : isNameStart c = false ∧ c.isDigit = false ∧ c ≠ ' ' := by
    simp only [contains_cons, contains_nil, Bool.or_false, Bool.or_eq_true, beq_iff_eq] at hc
    rcases hc with rfl | rfl | rfl | rfl | rfl | rfl | rfl | rfl <;> decide
  refine Spells.single (by simp) fun n rest hrest => ?_
  have hpoint : ¬ (c = '.' ∧ rest.head?.any Char.isDigit = true) := fun h => by simp [hrest.2 h.1] at h
  have hstar : ¬ (c = '*' ∧ rest.head? = some '*') := fun h => hrest.1 h.1 h.2
  simp only [cons_append, nil_append, partsTo, hspec, hpoint, hstar, hc, Bool.false_eq_true, or_self, if_false,
    if_true, Option.bind_eq_bind]

theorem spells_symbol (hc : c ∈ plainSymbols) : Spells Anything [c] [.symbol c.toString] := by
  simp only [plainSymbols, mem_cons, not_mem_nil, or_false] at hc
  refine (spells_sign ?_).weaken fun rest _ => ?_ <;> rcases hc with rfl | rfl | rfl | rfl | rfl | rfl <;> simp

theorem spells_times : Spells (fun rest => rest.head? ≠ some '*') ['*'] [.symbol "*"] :=
  (spells_sign (c := '*') (by decide)).weaken fun _ h => ⟨fun _ => h, by simp⟩

theorem spells_point : Spells (fun rest => rest.head?.any Char.isDigit = false) ['.'] [.symbol "."] :=
  (spells_sign (c := '.') (by decide)).weaken fun _ h => ⟨by simp, fun _ => h⟩

theorem spells_power : Spells Anything ['*', '*'] [.symbol "**"] := by
  have hspec : isNameStart '*' = false ∧ '*'.isDigit = false ∧ '*' ≠ ' ' ∧ '*' ≠ '.' := by decide
  refine Spells.single (by simp) fun n rest _ => ?_
  simp [partsTo, hspec]

/-! ### Names -/

theorem takeWhile_append_stop {p} (hcs : ∀ c ∈ cs, p c = true) (hrest : ∀ c, rest.head? = some c → p c = false) :
    (cs ++ rest).takeWhile p = cs ∧ (cs ++ rest).dropWhile p = rest := by
  rw [takeWhile_append_of_pos hcs, dropWhile_append_of_pos hcs]
  cases rest with
  | nil => simp
  | cons c rest => simp [hrest c rfl]

theorem spells_word (hc : isNameStart c = true) (hcs : ∀ d ∈ cs, isNameChar d = true) :
    Spells NoName (c :: cs) [.name (String.ofList (c :: cs))] := by
  have hblank : c ≠ ' ' := by
    rintro rfl
    revert hc
    decide
  refine Spells.single (by simp) fun n rest hrest => ?_
  obtain ⟨htake, hdrop⟩ := takeWhile_append_stop hcs hrest
  simp [partsTo, hblank, hc, htake, hdrop]

theorem spells_name (h : isIdentifier s = true) : Spells NoName s.toList [.name s] := by
  unfold isIdentifier at h
  split at h
  · simp at h
  · next c cs hs =>
    simp only [Bool.and_eq_true, all_eq_true] at h
    have hword := spells_word h.1.1.1 h.1.1.2
    rw [← hs, String.ofList_toList] at hword
    exact hword

theorem not_mem_keywords (h : isIdentifier s = true) : s ∉ keywords := by
  unfold isIdentifier at h
  split at h
  · simp at h
  · simp only [Bool.and_eq_true, Bool.not_eq_true', contains_eq_mem, decide_eq_false_iff_not] at h
    exact h.1.2

theorem Boundary.noName (h : Boundary rest) : NoName rest := by
  intro c hc
  rcases h c hc with rfl | rfl | rfl <;> decide

theorem noName_cons (hc : isNameChar c = false) : NoName (c :: rest) := by
  rintro c' hc'
  cases hc'
  exact hc

theorem spells_rateMark : Spells Anything ").diff(self.t)".toList (.symbol ")" :: rateMark) := by
  have hdiff : Spells NoName "diff".toList [.name "diff"] := spells_name (by decide)
  have hself : Spells NoName "self".toList [.name "self"] := spells_name (by decide)
  have ht : Spells NoName "t".toList [.name "t"] := spells_name (by decide)
  have hopen := spells_symbol (c := '(') (by decide)
  have hclose := spells_symbol (c := ')') (by decide)
  have htime := (hself.append spells_point fun _ _ => noName_cons (by decide)).append
    (ht.append hclose fun _ _ => noName_cons (by decide)) fun _ _ => rfl
  have hmark := (spells_point.append hdiff fun _ _ => rfl).append (hopen.append htime fun _ _ => trivial)
    fun _ _ => noName_cons (by decide)
  exact hclose.append hmark fun _ _ => trivial

/-! ### Numbers -/

theorem Boundary.head? (h : Boundary rest) (hc : rest.head? = some c) :
    c.isDigit = false ∧ c ≠ '.' ∧ c ≠ 'e' ∧ c ≠ 'E' := by
  rcases h c hc with rfl | rfl | rfl <;> decide

theorem exponentPart_none (h : ∀ c, rest.head? = some c → c ≠ 'e' ∧ c ≠ 'E') : exponentPart rest = none := by
  unfold exponentPart
  split
  · next e rest =>
    have := h e rfl
    simp [this]
  · next e rest =>
    have := h e rfl
    simp [this]
  · next e rest _ _ =>
    have := h e rfl
    simp [this]
  · rfl

theorem exponentPart_some {xs} (hxs : ∀ c ∈ xs, c.isDigit = true) (hne : xs ≠ [])
    (hrest : ∀ c, rest.head? = some c → c.isDigit = false) :
    exponentPart ('e' :: '-' :: (xs ++ rest)) = some (-(natOf xs : Int), rest) ∧
      exponentPart ('e' :: '+' :: (xs ++ rest)) = some ((natOf xs : Int), rest) := by
  obtain ⟨htake, hdrop⟩ := takeWhile_append_stop hxs hrest
  have hhead : (xs ++ rest).head?.any Char.isDigit = true := by
    cases xs with
    | nil => exact absurd rfl hne
    | cons x xs => simpa using hxs x (.head _)
  simp only [exponentPart, hhead, htake, hdrop, true_or, and_self, if_true]

section Number

variable {ds fs rest : List Char} (hds : ∀ c ∈ ds, c.isDigit = true)

include hds

theorem numberPart_plain (hrest : ∀ c, rest.head? = some c → c.isDigit = false ∧ c ≠ '.') :
    (exponentPart rest = none → numberPart (ds ++ rest) = (.whole (natOf ds), rest)) ∧
      ∀ e rest', exponentPart rest = some (e, rest') → numberPart (ds ++ rest) = (.decimal (natOf ds) e, rest') := by
  obtain ⟨htake, hdrop⟩ := takeWhile_append_stop hds fun c hc => (hrest c hc).1
  refine ⟨fun hexp => ?_, fun e rest' hexp => ?_⟩ <;> cases rest with
  | nil => simp only [numberPart, htake, hdrop, hexp]; simp
  | cons c rest => simp [numberPart, htake, hdrop, hexp, (hrest c rfl).2]

theorem numberPart_point (hfs : ∀ c ∈ fs, c.isDigit = true) (hrest : ∀ c, rest.head? = some c → c.isDigit = false) :
    (exponentPart rest = none →
      numberPart (ds ++ '.' :: (fs ++ rest)) = (.decimal (natOf (ds ++ fs)) (-(fs.length : Int)), rest)) ∧
    ∀ e rest', exponentPart rest = some (e, rest') →
      numberPart (ds ++ '.' :: (fs ++ rest)) = (.decimal (natOf (ds ++ fs)) (e - fs.length), rest') := by
  obtain ⟨htake, hdrop⟩ := takeWhile_append_stop hds (show ∀ c, ('.' :: (fs ++ rest)).head? = some c → c.isDigit = false by simp)
  obtain ⟨htake', hdrop'⟩ := takeWhile_append_stop hfs hrest
  refine ⟨fun hexp => ?_, fun e rest' hexp => ?_⟩ <;> simp only [numberPart, htake, hdrop, htake', hdrop', hexp, if_true]

end Number

theorem isNameStart_of_isDigit (h : c.isDigit = true) : isNameStart c = false := by
  have hdigits : ∀ k < 10, isNameStart (Char.ofNat (48 + k)) = false := by decide
  have hbounds : 48 ≤ c.toNat ∧ c.toNat ≤ 57 := Char.isDigit_iff_toNat.1 h
  have hc := hdigits (c.toNat - 48) (by omega)
  rwa [show 48 + (c.toNat - 48) = c.toNat by omega, Char.ofNat_toNat] at hc

theorem spells_number {p} (hne : cs ≠ []) (hc : ∀ c, cs.head? = some c → c.isDigit = true)
    (h : ∀ rest, follow rest → numberPart (cs ++ rest) = (p, rest)) : Spells follow cs [p] := by
  cases cs with
  | nil => exact absurd rfl hne
  | cons c cs =>
    have hdigit := hc c rfl
    have hname : isNameStart c = false ∧ c ≠ ' ' :=
      ⟨isNameStart_of_isDigit hdigit, by rintro rfl; simp at hdigit⟩
    refine Spells.single hne fun n rest hrest => ?_
    have hnumber := h rest hrest
    rw [cons_append] at hnumber ⊢
    simp [partsTo, hname, hdigit, hnumber]

theorem isDigit_of_mem_toDigits {n} : ∀ c ∈ Nat.toDigits 10 n, c.isDigit = true :=
  fun _ hc => Nat.isDigit_of_mem_toDigits (by omega) (by omega) hc

theorem natOf_toDigits (n : Nat) : natOf (Nat.toDigits 10 n) = n := Nat.ofDigitChars_ten_toDigits

theorem spells_whole (n : Nat) : Spells Boundary (toString n).toList [.whole n] := by
  rw [Nat.toString_eq_ofList_toDigits, String.toList_ofList]
  refine spells_number Nat.toDigits_ne_nil (fun c hc => isDigit_of_mem_toDigits c (mem_of_mem_head? hc))
    fun rest hrest => ?_
  rw [(numberPart_plain isDigit_of_mem_toDigits fun c hc => ⟨(hrest.head? hc).1, (hrest.head? hc).2.1⟩).1
    (exponentPart_none fun c hc => (hrest.head? hc).2.2), natOf_toDigits]

/-! ### The decimal forms of doubles -/

open Decimal

/-- The number that the written form of `x` has: a whole number is written
with one digit behind the point, unless it is so large that it is written with
an exponent. -/
def numeral (x : Digits) : Nat × Int :=
  if 0 ≤ x.exponent ∧ x.leading < 16 then (x.digits * Nat.pow 10 (x.exponent.toNat + 1), -1) else (x.digits, x.exponent)

theorem natOf_append (ds fs : List Char) : natOf (ds ++ fs) = Nat.ofDigitChars 10 fs (natOf ds) :=
  foldl_append

theorem natOf_zeros_append (n : Nat) (ds : List Char) : natOf (replicate n '0' ++ ds) = natOf ds := by
  rw [natOf_append, show natOf (replicate n '0') = 10 ^ n * 0 from Nat.ofDigitChars_replicate_zero]
  rfl

theorem natOf_append_zeros (n : Nat) (ds : List Char) :
    natOf (ds ++ replicate n '0') = natOf ds * Nat.pow 10 n := by
  rw [natOf_append, Nat.ofDigitChars_replicate_zero, Nat.mul_comm]
  rfl

theorem isDigit_of_mem_zeros {n} : ∀ c ∈ replicate n '0', c.isDigit = true := by
  intro c hc
  rw [eq_of_mem_replicate hc]
  rfl

theorem exponentPart_text (x : Int) (hrest : Boundary rest) :
    exponentPart ('e' :: ((exponentText x).toList ++ rest)) = some (x, rest) := by
  have hstop : ∀ c, rest.head? = some c → c.isDigit = false := fun c hc => (hrest.head? hc).1
  obtain ⟨xs, hxs, hne, hnat, htext⟩ : ∃ xs : List Char, (∀ c ∈ xs, c.isDigit = true) ∧ xs ≠ [] ∧
      natOf xs = x.natAbs ∧ (exponentText x).toList = (if x < 0 then '-' else '+') :: xs := by
    by_cases hsmall : x.natAbs < 10
    · refine ⟨'0' :: Nat.toDigits 10 x.natAbs,
        forall_mem_cons.2 ⟨rfl, isDigit_of_mem_toDigits⟩, by simp, ?_, ?_⟩
      · exact (natOf_zeros_append 1 _).trans (natOf_toDigits _)
      · by_cases hneg : x < 0 <;> simp [exponentText, hsmall, hneg]
    · refine ⟨Nat.toDigits 10 x.natAbs, isDigit_of_mem_toDigits, Nat.toDigits_ne_nil, natOf_toDigits _, ?_⟩
      by_cases hneg : x < 0 <;> simp [exponentText, hsmall, hneg]
  obtain ⟨hminus, hplus⟩ := exponentPart_some hxs hne hstop
  rw [htext, cons_append]
  by_cases hneg : x < 0
  · rw [if_pos hneg, hminus, hnat, show -(x.natAbs : Int) = x by omega]
  · rw [if_neg hneg, hplus, hnat, show (x.natAbs : Int) = x by omega]

section Forms

variable {ds fs : List Char} (hds : ∀ c ∈ ds, c.isDigit = true) (hfs : ∀ c ∈ fs, c.isDigit = true)

include hds

theorem head?_isDigit {cs} (hne : ds ≠ []) {c} (hc : (ds ++ cs).head? = some c) : c.isDigit = true := by
  cases ds with
  | nil => exact absurd rfl hne
  | cons d ds =>
    obtain rfl : d = c := by simpa using hc
    exact hds d (.head _)

theorem spells_exponent (hne : ds ≠ []) (x : Int) :
    Spells Boundary (ds ++ 'e' :: (exponentText x).toList) [.decimal (natOf ds) x] := by
  refine spells_number (by simp) (fun c hc => head?_isDigit hds hne hc) fun rest hrest => ?_
  rw [append_assoc, cons_append]
  exact (numberPart_plain hds (by simp)).2 _ _ (exponentPart_text x hrest)

include hfs

variable (ds fs) in
theorem spells_decimal (hne : ds ≠ []) :
    Spells Boundary (ds ++ '.' :: fs) [.decimal (natOf (ds ++ fs)) (-(fs.length : Int))] := by
  refine spells_number (by simp) (fun c hc => head?_isDigit hds hne hc) fun rest hrest => ?_
  rw [append_assoc, cons_append]
  exact (numberPart_point hds hfs fun c hc => (hrest.head? hc).1).1
    (exponentPart_none fun c hc => (hrest.head? hc).2.2)

theorem spells_decimal_exponent (hne : ds ≠ []) (x : Int) :
    Spells Boundary (ds ++ '.' :: (fs ++ 'e' :: (exponentText x).toList))
      [.decimal (natOf (ds ++ fs)) (x - fs.length)] := by
  refine spells_number (by simp) (fun c hc => head?_isDigit hds hne hc) fun rest hrest => ?_
  rw [append_assoc, cons_append, append_assoc, cons_append]
  exact (numberPart_point hds hfs (by simp)).2 _ _ (exponentPart_text x hrest)

end Forms

section Unsigned

variable {x : Digits}

theorem text_toList : x.text.toList = Nat.toDigits 10 x.digits := String.toList_ofList

theorem leading_eq : x.leading = x.exponent + (Nat.toDigits 10 x.digits).length - 1 := rfl

theorem exponent_le_leading : x.exponent ≤ x.leading := by
  have hlength : 0 < (Nat.toDigits 10 x.digits).length := Nat.length_toDigits_pos
  rw [leading_eq]
  omega

-- a point, zeros, and all the digits behind them
theorem spells_unsigned_small (hlow : -4 ≤ x.leading) (hsmall : x.leading < 0) :
    Spells Boundary (Layout.value.unsigned x).toList [.decimal (numeral x).1 (numeral x).2] := by
  have hform := spells_decimal (replicate 1 '0')
    (replicate (-x.leading - 1).toNat '0' ++ Nat.toDigits 10 x.digits) isDigit_of_mem_zeros
    (forall_mem_append.2 ⟨isDigit_of_mem_zeros, isDigit_of_mem_toDigits⟩) (by simp)
  have hexponent : -((replicate (-x.leading - 1).toNat '0' ++ Nat.toDigits 10 x.digits).length : Int) =
      x.exponent := by
    rw [length_append, length_replicate]
    rw [leading_eq] at hsmall ⊢
    omega
  rw [natOf_zeros_append, natOf_zeros_append, natOf_toDigits, hexponent] at hform
  have hnumeral : numeral x = (x.digits, x.exponent) := by
    rw [numeral, if_neg]
    have := exponent_le_leading (x := x)
    omega
  rw [hnumeral]
  simpa [Layout.unsigned, Layout.value, hlow, hsmall, Int.lt_trans hsmall (by decide : (0 : Int) < 16), text_toList,
    zeros] using hform

-- all the digits and zeros before the point, and one zero behind it
theorem spells_unsigned_whole (hwhole : 0 ≤ x.exponent) (hhigh : x.leading < 16) :
    Spells Boundary (Layout.value.unsigned x).toList [.decimal (numeral x).1 (numeral x).2] := by
  have hform := spells_decimal (Nat.toDigits 10 x.digits ++ replicate x.exponent.toNat '0') ['0']
    (forall_mem_append.2 ⟨isDigit_of_mem_toDigits, isDigit_of_mem_zeros⟩) (by simp) (by simp)
  rw [append_assoc _ _ ['0'], ← replicate_succ', natOf_append_zeros, natOf_toDigits] at hform
  have hlead : 0 ≤ x.leading := Int.le_trans hwhole exponent_le_leading
  have hlong : (Nat.toDigits 10 x.digits).length ≤ x.leading.toNat + 1 := by
    rw [leading_eq] at hlead ⊢
    omega
  have hpad : x.leading.toNat + 1 - (Nat.toDigits 10 x.digits).length = x.exponent.toNat := by
    rw [leading_eq] at hlead ⊢
    omega
  rw [show numeral x = (x.digits * Nat.pow 10 (x.exponent.toNat + 1), -1) from if_pos ⟨hwhole, hhigh⟩]
  simpa [Layout.unsigned, Layout.value, Int.le_trans (by decide : (-4 : Int) ≤ 0) hlead, hhigh, Int.not_lt.2 hlead,
    text_toList, zeros, hlong, hpad, take_of_length_le, drop_of_length_le] using hform

-- the point stands between the digits
theorem spells_unsigned_mixed (hlead : 0 ≤ x.leading) (hhigh : x.leading < 16) (hfraction : x.exponent < 0) :
    Spells Boundary (Layout.value.unsigned x).toList [.decimal (numeral x).1 (numeral x).2] := by
  have hform := spells_decimal ((Nat.toDigits 10 x.digits).take (x.leading.toNat + 1))
    ((Nat.toDigits 10 x.digits).drop (x.leading.toNat + 1))
    (fun c hc => isDigit_of_mem_toDigits c (mem_of_mem_take hc))
    (fun c hc => isDigit_of_mem_toDigits c (mem_of_mem_drop hc)) (by simp)
  rw [take_append_drop, natOf_toDigits] at hform
  have hshort : x.leading.toNat + 1 < (Nat.toDigits 10 x.digits).length := by
    rw [leading_eq] at hlead ⊢
    omega
  have hexponent : -(((Nat.toDigits 10 x.digits).drop (x.leading.toNat + 1)).length : Int) = x.exponent := by
    rw [length_drop]
    rw [leading_eq] at hlead ⊢
    omega
  rw [hexponent] at hform
  rw [show numeral x = (x.digits, x.exponent) from if_neg (by omega)]
  simpa [Layout.unsigned, Layout.value, Int.le_trans (by decide : (-4 : Int) ≤ 0) hlead, hhigh, Int.not_lt.2 hlead,
    text_toList, zeros, Nat.sub_eq_zero_of_le (Nat.le_of_lt hshort), Nat.not_le.2 hshort] using hform

-- one digit before the point, and an exponent
theorem spells_unsigned_exponent (hplace : ¬(-4 ≤ x.leading ∧ x.leading < 16)) :
    Spells Boundary (Layout.value.unsigned x).toList [.decimal (numeral x).1 (numeral x).2] := by
  have hnumeral : numeral x = (x.digits, x.exponent) := by
    rw [numeral, if_neg]
    have := exponent_le_leading (x := x)
    omega
  have hfirst : ∀ c ∈ (Nat.toDigits 10 x.digits).take 1, c.isDigit = true :=
    fun c hc => isDigit_of_mem_toDigits c (mem_of_mem_take hc)
  have hlater : ∀ c ∈ (Nat.toDigits 10 x.digits).drop 1, c.isDigit = true :=
    fun c hc => isDigit_of_mem_toDigits c (mem_of_mem_drop hc)
  rw [hnumeral]
  by_cases hone : (Nat.toDigits 10 x.digits).length = 1
  · have hform := spells_exponent hfirst (by simp) x.leading
    rw [take_of_length_le (by omega), natOf_toDigits] at hform
    have hexponent : x.leading = x.exponent := by
      rw [leading_eq]
      omega
    have hlone : (Nat.toDigits 10 x.digits).tail = [] := length_eq_zero_iff.1 (by simp [hone])
    rw [hexponent] at hplace hform
    simpa [Layout.unsigned, Layout.value, hexponent, hplace, text_toList, hone, hlone, take_of_length_le]
      using hform
  · have hform := spells_decimal_exponent hfirst hlater (by simp) x.leading
    have hlength : 0 < (Nat.toDigits 10 x.digits).length := Nat.length_toDigits_pos
    have hexponent : x.leading - (((Nat.toDigits 10 x.digits).drop 1).length : Int) = x.exponent := by
      rw [length_drop, leading_eq]
      omega
    rw [take_append_drop, natOf_toDigits, hexponent] at hform
    have hmore : (Nat.toDigits 10 x.digits).tail ≠ [] := ne_nil_of_length_pos (by rw [length_tail]; omega)
    simpa [Layout.unsigned, Layout.value, hplace, text_toList, hmore] using hform

/-- The written form of a double that is not negative is one token, the number
it stands for. -/
theorem spells_unsigned (x : Digits) :
    Spells Boundary (Layout.value.unsigned x).toList [.decimal (numeral x).1 (numeral x).2] := by
  by_cases hplace : -4 ≤ x.leading ∧ x.leading < 16
  · by_cases hsmall : x.leading < 0
    · exact spells_unsigned_small hplace.1 hsmall
    · by_cases hwhole : 0 ≤ x.exponent
      · exact spells_unsigned_whole hwhole hplace.2
      · exact spells_unsigned_mixed (by omega) hplace.2 (by omega)
  · exact spells_unsigned_exponent hplace

end Unsigned

end Modelica.Script.Term
