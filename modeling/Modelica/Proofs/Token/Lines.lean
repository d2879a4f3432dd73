/-
Texts with one token to a line.

A token that the longest match finds somewhere is found again at the end of a line
(`longest_of_endsLine`). So tokens that stand apart (`Apart`), as those of every text do,
are read back from a text that has one of them on each line, and nothing is dropped from
that text (`scan_onePerLine`).
-/
import Modelica.Proofs.Token.Lossless

namespace Modelica.Lexer

open List

variable {cs s x y : List Char} {kind : LexemeKind} {n : Nat} {r : LexemeKind × (List Char → Nat)} {t : Terminal} {c : Char}

/-! ### The longest match -/

theorem longest_congr {ds : List Char} (h : ∀ r ∈ rules, r.2 ds = r.2 cs) : longest ds = longest cs := by
  have hfold : ∀ rs : List (LexemeKind × (List Char → Nat)), (∀ r ∈ rs, r.2 ds = r.2 cs) →
      ∀ best, rs.foldl (better ds) best = rs.foldl (better cs) best := by
    intro rs
    induction rs with
    | nil => simp
    | cons r rs ih =>
      intro hrs best
      rw [foldl_cons, foldl_cons, ih (fun r' hr' => hrs r' (.tail _ hr'))]
      unfold better
      rw [hrs r (.head _)]
  exact hfold rules h _

theorem not_blank_of_mem_literals : ∀ w ∈ literals, ∀ c ∈ w.toList, isBlank c = false ∧ c ≠ '"' := by
  have hall : literals.all fun w => w.toList.all fun c => !isBlank c && c != '"' := by decide
  simpa using hall

theorem eq_slash_of_mem_literals : ∀ w ∈ literals, w.toList.head? = some '/' → w.toList = ['/'] := by decide

theorem not_blank_of_isWordChar (hc : isWordChar c) : isBlank c = false ∧ c ≠ '"' ∧ c ≠ '/' := by
  have hnot : ∀ d : Char, isWordChar d = false → c ≠ d := by
    intro d hd h
    rw [h, hd] at hc
    cases hc
  refine ⟨?_, hnot '"' (by decide), hnot '/' (by decide)⟩
  simp [isBlank, hnot ' ' (by decide), hnot '\r' (by decide), hnot '\n' (by decide), hnot '\t' (by decide)]

theorem head_of_admits (h : Admits (.token t) (c :: s)) : isBlank c = false ∧ (c = '/' → s = []) ∧ (c = '"' → t = .string) := by
  have hword : isWordChar c → isBlank c = false ∧ (c = '/' → s = []) ∧ (c = '"' → t = .string) := by
    intro hc
    obtain ⟨hblank, hquote, hslash⟩ := not_blank_of_isWordChar hc
    exact ⟨hblank, fun hc => absurd hc hslash, fun hc => absurd hc hquote⟩
  cases t with
  | literal w =>
    obtain ⟨hw, hs⟩ := h
    obtain ⟨hblank, hquote⟩ := not_blank_of_mem_literals w hw c (by simp [← hs])
    refine ⟨hblank, fun hc => ?_, fun hc => absurd hc hquote⟩
    have hone := eq_slash_of_mem_literals w hw (by simp [← hs, hc])
    exact (cons.inj (hs.trans hone)).2
  | ident =>
    cases h with
    | plain hc => exact hword (by simp [isWordChar, hc])
    | quoted => simp [isBlank]
  | string =>
    obtain ⟨_, _, heq⟩ := h
    cases heq
    simp [isBlank]
  | number =>
    obtain ⟨ds, u, heq, hds, -⟩ := number_iff.1 h
    obtain ⟨d, ds, rfl⟩ := exists_cons_of_ne_nil hds.1
    obtain rfl := (cons.inj heq).1
    exact hword (by simp [isWordChar, hds.2 c (.head _)])

theorem lineFeed_not_mem_quoted (h : Quoted s) : '\n' ∉ s := by
  induction h with
  | nil => simp
  | char hc _ ih =>
    rintro (_ | ⟨_, hmem⟩)
    · exact absurd hc (by decide)
    · exact ih hmem
  | escape hc _ ih =>
    rintro (_ | ⟨_, _ | ⟨_, hmem⟩⟩)
    · exact absurd hc (by decide)
    · exact ih hmem

theorem lineFeed_not_mem_digits (h : Digits s) : '\n' ∉ s := fun hmem => absurd (h.2 _ hmem) (by decide)

theorem lineFeed_not_mem_continues (h : Continues n s) : '\n' ∉ s := by
  induction h with
  | nil => simp
  | point _ ih => simpa using ih
  | number hds _ ih => simpa [lineFeed_not_mem_digits hds] using ih
  | exponent he _ ih =>
    obtain ⟨hc, hsign, hds⟩ := he
    have := lineFeed_not_mem_digits hds
    rcases hc with rfl | rfl <;> rcases hsign with rfl | rfl | rfl <;> simp [*]

/-- Only a text in quotes goes on behind a token and the end of its line. -/
theorem eq_string_of_admits {z : List Char} (h : Admits (.token t) (c :: s)) (hz : Admits kind (c :: s ++ '\n' :: z)) :
    kind = .token .string ∧ t = .string := by
  obtain ⟨hblank, hslash, hquote⟩ := head_of_admits h
  rcases kind with (w | _ | _ | _) | _ | _ | _
  · have := (not_blank_of_mem_literals w hz.1 '\n' (by simp [← hz.2])).1
    simp [isBlank] at this
  · cases hz with
    | plain _ hs => exact absurd (hs '\n' (by simp)) (by decide)
    | quoted _ hs => exact absurd (by simp) (lineFeed_not_mem_quoted hs)
  · obtain ⟨_, _, heq⟩ := hz
    exact ⟨rfl, hquote (cons.inj heq).1⟩
  · obtain ⟨ds, u, heq, hds, hu⟩ := number_iff.1 hz
    have hmem : '\n' ∈ ds ++ u := by simp [← heq]
    rcases mem_append.1 hmem with hmem | hmem
    · exact absurd hmem (lineFeed_not_mem_digits hds)
    · exact absurd hmem (lineFeed_not_mem_continues hu)
  · generalize hw : c :: s ++ '\n' :: z = w at hz
    cases hz <;> simp [hslash (cons.inj hw).1] at hw
  · exact absurd (hz.2 c (by simp)) (by simp [hblank])
  · exact hz.elim

theorem rule_string (hr : r ∈ rules) (hkind : r.1 = .token .string) : r.2 = stringLength := by
  rcases mem_rules.1 hr with ⟨w, hw, rfl⟩ | rfl | rfl | rfl | rfl | rfl <;> cases hkind
  rfl

/-- **A token is the same token at the end of a line**, if no quote follows there that did
not follow before. -/
theorem longest_of_endsLine (hs : s ≠ []) (h : longest (s ++ x) = (.token t, s.length)) (hy : EndsLine y)
    (hquote : '"' ∈ y → '"' ∈ x) : longest (s ++ y) = (.token t, s.length) := by
  rw [← h]
  apply longest_congr
  intro r hr
  by_cases hstring : r.1 = .token .string ∧ t = .string
  · obtain ⟨hkind, rfl⟩ := hstring
    obtain ⟨f, hf, hend⟩ := longest_mem h (by simpa using hs)
    obtain rfl : f = stringLength := rule_string hf rfl
    rw [rule_string hr hkind, stringLength_append hs hend hquote, hend]
  · refine (longest_of_mem_rules hr).eq_of_endsLine (fun z hz => ?_) (le_of_longest h hr) hy
    have hadmits := admits_of_longest h hs
    obtain ⟨c, s, rfl⟩ := exists_cons_of_ne_nil hs
    exact hstring (eq_string_of_admits hadmits hz)

theorem longest_lineFeed (hy : ∀ c, y.head? = some c → isBlank c = false) : longest ('\n' :: y) = (.blank, 1) := by
  obtain ⟨kind, s, x, hcs, hlong⟩ := exists_longest ('\n' :: y)
  have hblank : blankLength ('\n' :: y) ≤ s.length := by
    have := le_of_longest (r := (.blank, blankLength)) (hcs ▸ hlong) (mem_rules.2 (by simp))
    exact this
  cases s with
  | nil => simp [blankLength, isBlank] at hblank
  | cons c s =>
    obtain ⟨rfl, rfl⟩ := cons.inj hcs
    have hadmits := admits_of_longest hlong (cons_ne_nil _ _)
    cases kind with
    | token t => exact absurd (head_of_admits hadmits).1 (by decide)
    | comment => cases hadmits
    | blank =>
      cases s with
      | nil => exact hlong
      | cons d s => simpa [hy d rfl] using hadmits.2 d (by simp)
    | unrecognised => exact hadmits.elim

end Modelica.Lexer

namespace Modelica

open List

/-- What a token is, wherever it stands. -/
def Token.word (t : Token) : Terminal × String := (t.terminal, t.text)

/-- The text that has one of the tokens on each line. -/
def onePerLine (ts : List Token) : String := String.join (ts.map fun t => t.text ++ "\n")

theorem toList_onePerLine_nil : (onePerLine []).toList = [] := by
  simp [onePerLine]

theorem toList_onePerLine_cons (t : Token) (ts : List Token) :
    (onePerLine (t :: ts)).toList = t.text.toList ++ '\n' :: (onePerLine ts).toList := by
  simp [onePerLine, String.toList_join]

namespace Lexer

variable {ts : List Token} {fuel : Nat}

/-- Each token was found in some text, in front of all the quotes of those that follow. -/
inductive Apart : List Token → Prop
  | nil : Apart []
  | cons {t : Token} {ts : List Token} {x : List Char} : t.text.toList ≠ [] →
      longest (t.text.toList ++ x) = (.token t.terminal, t.text.toList.length) →
      ('"' ∈ (onePerLine ts).toList → '"' ∈ x) → Apart ts → Apart (t :: ts)

theorem quote_mem_onePerLine (h : '"' ∈ (onePerLine ts).toList) : ∃ t ∈ ts, '"' ∈ t.text.toList := by
  induction ts with
  | nil => simp [toList_onePerLine_nil] at h
  | cons t ts ih =>
    rw [toList_onePerLine_cons, mem_append, mem_cons] at h
    rcases h with h | h | h
    · exact ⟨t, (.head _), h⟩
    · exact absurd h (by decide)
    · obtain ⟨u, hu, hmem⟩ := ih h
      exact ⟨u, .tail _ hu, hmem⟩

theorem toList_text_of_token? {l : Lexeme} {t : Token} (h : l.token? = some t) : t.text.toList = l.chars := by
  unfold Lexeme.token? at h
  split at h
  · cases h
    exact String.toList_ofList
  · cases h

theorem Cut.apart {p : Position} {cs : List Char} {ls : List Lexeme} (h : Cut p cs ls) :
    Apart (ls.filterMap Lexeme.token?) := by
  induction h with
  | nil => exact .nil
  | @cons p s x kind ls hs hnext hrest ih =>
    rw [filterMap_cons]
    split
    · exact ih
    · rename_i t ht
      cases kind <;> simp only [Lexeme.token?, Option.some.injEq, reduceCtorEq] at ht
      subst ht
      refine .cons (x := x) (by simpa using hs) (by simpa using (longest_of_next hnext).1) ?_ ih
      intro hquote
      obtain ⟨t, ht, hmem⟩ := quote_mem_onePerLine hquote
      obtain ⟨l, hl, hlt⟩ := mem_filterMap.1 ht
      rw [toList_text_of_token? hlt] at hmem
      rw [← hrest.flatMap_chars]
      exact mem_flatMap.2 ⟨l, hl, hmem⟩

theorem Apart.head_not_blank (h : Apart ts) : ∀ c, (onePerLine ts).toList.head? = some c → isBlank c = false := by
  intro c hc
  cases h with
  | nil => simp [toList_onePerLine_nil] at hc
  | @cons t ts x hne hlong _ _ =>
    rw [toList_onePerLine_cons] at hc
    obtain ⟨d, s, hs⟩ := exists_cons_of_ne_nil hne
    rw [hs] at hc hlong
    obtain rfl : d = c := by simpa using hc
    exact (head_of_admits (admits_of_longest hlong (by simp))).1

/-- **Tokens that stand apart are read back from their lines**, and nothing is dropped. -/
theorem scan_onePerLine (h : Apart ts) (p : Position) (hfuel : (onePerLine ts).toList.length ≤ fuel) :
    ((scan fuel p (onePerLine ts).toList).filterMap Lexeme.token?).map Token.word = ts.map Token.word ∧
      ∀ l ∈ scan fuel p (onePerLine ts).toList, l.kind ≠ .unrecognised := by
  induction h generalizing fuel p with
  | nil =>
    rw [toList_onePerLine_nil]
    cases fuel <;> simp [scan]
  | @cons t ts x hne hlong hquote hrest ih =>
    rw [toList_onePerLine_cons] at hfuel ⊢
    simp only [length_append, length_cons] at hfuel
    have htoken : longest (t.text.toList ++ '\n' :: (onePerLine ts).toList) = (.token t.terminal, t.text.toList.length) :=
      longest_of_endsLine hne hlong (by simp [EndsLine]) (by simpa using hquote)
    have hfeed : longest (['\n'] ++ (onePerLine ts).toList) = (.blank, ['\n'].length) :=
      longest_lineFeed hrest.head_not_blank
    have hpos := length_pos_iff.2 hne
    obtain ⟨fuel, rfl⟩ : ∃ n, fuel = n + 1 + 1 := ⟨fuel - 2, by omega⟩
    have hline := @scan_cons _ _ _ (p.advance t.text.toList) fuel (cons_ne_nil _ _) (next_of_longest hfeed (by simp))
    obtain ⟨hwords, hkinds⟩ := @ih fuel ((p.advance t.text.toList).advance ['\n']) (by omega)
    rw [singleton_append] at hline
    rw [scan_cons hne (next_of_longest htoken (by omega)), hline]
    refine ⟨?_, ?_⟩
    · rw [filterMap_cons_some (by rfl), filterMap_cons_none (by rfl), map_cons, map_cons, hwords]
      simp [Token.word]
    · simpa using hkinds

theorem tokens_onePerLine (text : String) :
    (tokens (onePerLine (tokens text))).map Token.word = (tokens text).map Token.word ∧
      ∀ l ∈ lexemes (onePerLine (tokens text)), l.kind ≠ .unrecognised :=
  scan_onePerLine (cut_lexemes text).apart {} (Nat.le_refl _)

end Lexer
end Modelica
