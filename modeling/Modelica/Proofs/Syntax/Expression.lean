/-
Expressions are read as the grammar has them (`readsExpressions`).

The grammar joins expressions by operators without saying which binds tighter, so an
expression is any sequence of operands with operators between them (`lang_expr`). The
parser reads the operators level by level. On each level it may leave operators to the
levels above, and what it leaves is read there: in front of the words `K` that may follow
the whole expression, every level reads in front of "operators and operands, then `K`"
(`ReadsExpressions.operation`), and on the lowest level nothing is left (`operation_zero`).
-/
import Mathlib.Algebra.Order.Kleene
import Mathlib.Tactic.Abel
import Modelica.Proofs.Syntax.Reading
import Modelica.Syntax.Parser.Expression

namespace Modelica.Grammar

open Pattern Rule Computability List

/-- The words that join two expressions, group by group as they bind. -/
def joiners : List String :=
  ["*", "/", ".*", "./"] ++ (["+", "-", ".+", ".-"] ++ (["<", "<=", ">", ">=", "==", "<>"] ++ (["and"] ++ ["or"])))

/-- A primary and the power it may be raised to. -/
def power : Pattern := .seq primary (opt (.seq (words ["^", ".^"]) primary))

/-- A power behind any number of signs. -/
def operand : Pattern := .seq (.star (words ["-", "not"])) power

/-- Any number of operators with their right operands. -/
def joined : Pattern := .star (.seq (words joiners) operand)

theorem lang_words_append {xs ys} (hx : xs ≠ []) (hy : ys ≠ []) :
    lang (words (xs ++ ys)) = lang (words xs) + lang (words ys) := by
  ext w
  rw [Language.mem_add, mem_lang_words hx, mem_lang_words hy, mem_lang_words (by simp [hx])]
  simp [or_and_right, exists_or]

theorem lang_expr_eq : lang (.rule expr) =
    lang (words ["-", "not"]) * lang (.rule expr) +
      (lang (.rule expr) * lang (words joiners) * lang (.rule expr) + lang power) := by
  have hsigns : lang (words ["-", "not"]) = lang (word "-") + lang (word "not") := lang_alt _ _
  have hjoin : lang (words joiners) = lang (words ["*", "/", ".*", "./"]) + (lang (words ["+", "-", ".+", ".-"]) +
      (lang (words ["<", "<=", ">", ">=", "==", "<>"]) + (lang (word "and") + lang (word "or")))) := by
    unfold joiners
    iterate 4 rw [lang_words_append (by simp) (by simp)]
    rfl
  have hpower : lang power = lang primary + lang primary * (lang (words ["^", ".^"]) * lang primary) := by
    simp only [power, opt, lang_seq, lang_alt, lang_empty, mul_add, mul_one]
  rw [hsigns, hjoin, hpower]
  conv_lhs => rw [lang_rule]
  simp only [Rule.body, alts, seqs, lang_alt, lang_seq, mul_add, add_mul, mul_assoc]
  abel

/-- An expression is an operand followed by operators and operands, whatever binds how. -/
theorem lang_expr : lang (.rule expr) = lang operand * lang joined := by
  have hoperand : lang operand = (lang (words ["-", "not"]))∗ * lang power := by
    rw [operand, lang_seq, lang_star]
  have hjoined : lang joined = (lang (words joiners) * lang operand)∗ := by rw [joined, lang_star, lang_seq]
  apply le_antisymm
  · suffices h : ∀ n (w : List Terminal), w.length = n → w ∈ lang (.rule expr) → w ∈ lang operand * lang joined from
      fun w => h _ w rfl
    intro n
    induction n using Nat.strong_induction_on with
    | _ n ih =>
      intro w hl hw
      rw [lang_expr_eq, Language.mem_add, Language.mem_add] at hw
      rcases hw with hw | hw | hw
      · obtain ⟨s, hs, v, hv, rfl⟩ := Language.mem_mul.1 hw
        have hpos := length_pos_of_ne_nil (ne_nil_of_mem_lang rfl hs)
        rw [length_append] at hl
        have hv := ih v.length (by omega) v rfl hv
        have hle : lang (words ["-", "not"]) * (lang operand * lang joined) ≤ lang operand * lang joined := by
          rw [← mul_assoc, hoperand, ← mul_assoc]
          exact mul_le_mul_left (mul_le_mul_left mul_kstar_le_kstar _) _
        exact hle (Language.append_mem_mul hs hv)
      · obtain ⟨uj, huj, v, hv, rfl⟩ := Language.mem_mul.1 hw
        obtain ⟨u, hu, j, hj, rfl⟩ := Language.mem_mul.1 huj
        have hposu := length_pos_of_ne_nil (ne_nil_of_mem_lang rfl hu)
        have hposj := length_pos_of_ne_nil (ne_nil_of_mem_lang rfl hj)
        rw [length_append, length_append] at hl
        have hu := ih u.length (by omega) u rfl hu
        have hv := ih v.length (by omega) v rfl hv
        have hle : lang operand * lang joined * lang (words joiners) * (lang operand * lang joined) ≤
            lang operand * lang joined := by
          rw [hjoined]
          simp only [mul_assoc]
          rw [← mul_assoc (lang (words joiners))]
          exact mul_le_mul_right (kstar_mul_le mul_kstar_le_kstar mul_kstar_le_kstar) _
        exact hle (Language.append_mem_mul (Language.append_mem_mul hu hj) hv)
      · have hle : lang power ≤ lang operand * lang joined := by
          rw [hoperand, hjoined]
          calc lang power = 1 * lang power * 1 := by rw [one_mul, mul_one]
            _ ≤ _ := mul_le_mul' (mul_le_mul' one_le_kstar le_rfl) one_le_kstar
        exact hle hw
  · have hexpr := lang_expr_eq.ge
    have hsign : lang (words ["-", "not"]) * lang (.rule expr) ≤ lang (.rule expr) := le_trans le_self_add hexpr
    have hjoin : lang (.rule expr) * lang (words joiners) * lang (.rule expr) ≤ lang (.rule expr) :=
      le_trans (le_trans le_self_add le_add_self) hexpr
    have hpower : lang power ≤ lang (.rule expr) := le_trans (le_trans le_add_self le_add_self) hexpr
    have hle : lang operand ≤ lang (.rule expr) := hoperand ▸ kstar_mul_le hpower hsign
    rw [hjoined]
    refine mul_kstar_le hle (le_trans ?_ hjoin)
    rw [← mul_assoc]
    exact mul_le_mul_right hle _

/-! ### What may not follow -/

def referenceTail : List Terminal := [.literal ".", .literal "["]

def primaryTail : List Terminal := .literal "(" :: referenceTail

def powerTail : List Terminal := .literal "^" :: .literal ".^" :: primaryTail

def exprTail : List Terminal := joiners.map .literal ++ powerTail

def expressionTail : List Terminal := .literal ":" :: exprTail

theorem joined_mul_joined : lang joined * lang joined = lang joined := by
  rw [joined, lang_star, kstar_mul_kstar]

theorem expr_mul_joined : lang (.rule expr) * lang joined = lang (.rule expr) := by
  rw [lang_expr, mul_assoc, joined_mul_joined]

theorem joined_eq : lang joined = 1 + lang (words joiners) * lang (.rule expr) := by
  rw [lang_expr, ← mul_assoc, ← lang_seq]
  exact lang_star_eq _

theorem lang_expr_head : lang (.rule expr) =
    lang (word "-") * lang (.rule expr) +
      (lang (word "not") * lang (.rule expr) + lang power * lang joined) := by
  have hsigns : lang (words ["-", "not"]) = lang (word "-") + lang (word "not") := lang_alt _ _
  have hoperand : lang operand = lang power + lang (words ["-", "not"]) * lang operand := by
    rw [operand, lang_seq]
    conv_lhs => rw [lang_star_eq]
    rw [add_mul, one_mul, mul_assoc]
  rw [← add_assoc, ← add_mul, ← hsigns, lang_expr, add_comm]
  conv_lhs => rw [hoperand]
  rw [add_mul, mul_assoc]

/-! ### Expressions by their first token -/

/-- What may stand behind the first primary of an expression. -/
def primaryRest : Pattern :=
  seqs [opt (.seq (words ["^", ".^"]) primary), joined, opt (seqs [word ":", expr, opt (seqs [word ":", expr])])]

/-- What may stand behind the first name of an expression. -/
def identRest : Pattern :=
  seqs [opt arraySubscripts, star (.seq (word ".") componentReferenceElement), opt functionCallArgs, primaryRest]

theorem lang_simpleExpression : lang (.rule simpleExpression) = lang (.seq primary primaryRest) +
    lang (.seq (.alt (.seq (word "-") expr) (.seq (word "not") expr))
      (opt (seqs [word ":", expr, opt (seqs [word ":", expr])]))) := by
  have hbody : lang (.rule simpleExpression) =
      lang (.rule expr) * lang (opt (seqs [word ":", expr, opt (seqs [word ":", expr])])) := by
    rw [lang_rule, ← lang_seq]
    rfl
  rw [hbody, lang_expr_head]
  simp only [primaryRest, power, seqs, lang_seq, lang_alt, add_mul, mul_assoc]
  abel

variable {K : Language Terminal} {w : List Terminal}

theorem mem_identRest (h : .ident :: w ∈ lang (.rule functionArgument) * K) : w ∈ lang identRest * K := by
  have h : .ident :: w ∈ lang (.rule expression) * K :=
    mem_of_head h ((lang_rule _).trans ((lang_alt _ _).trans (add_comm _ _))) rfl (by decide)
  have h : .ident :: w ∈ lang (.rule simpleExpression) * K :=
    mem_of_head h ((lang_rule _).trans (lang_alt _ _)) rfl (by decide)
  have h := mem_of_head h lang_simpleExpression rfl (by decide)
  rw [lang_seq, mul_assoc, lang_rule] at h
  obtain ⟨p, hp, h⟩ := exists_branch h
  change p ∈ [seqs [componentReference, functionCallArgs], componentReference] at hp
  have hreference : lang (.rule componentReference) =
      lang (seqs [ident, opt arraySubscripts, star (.seq (word ".") componentReferenceElement)]) := by
    rw [lang_rule, Rule.body, separated, lang_seq, lang_rule]
    simp [Rule.body, seqs, mul_assoc]
  simp only [identRest, seqs, lang_seq, mul_assoc] at hreference ⊢
  have hcall : lang (opt functionCallArgs) = 1 + lang (.rule functionCallArgs) := by rw [opt, lang_alt, lang_empty]
  rw [hcall, add_mul, one_mul, mul_add, mul_add, Language.mem_add]
  rcases mem_pair.1 hp with rfl | rfl
  · simp only [seqs, lang_seq, hreference, mul_assoc] at h
    exact .inr (cons_mem_terminal_mul.1 h).2
  · simp only [hreference, mul_assoc] at h
    exact .inl (cons_mem_terminal_mul.1 h).2

/-! ### Arguments by position -/

/-- Arguments and iterators behind a first argument. -/
def argumentsRest : Pattern := star (alt (seqs [word ",", functionArgument]) (seqs [word "for", forIndices]))

/-- What may stand behind the first iterator of several. -/
def iteratorsRest : Pattern := .seq (star (.seq (word ",") forIndex)) argumentsRest

/-- One more argument, and what may follow it. -/
abbrev moreArguments : Pattern := seqs [word ",", functionArgument, argumentsRest]

/-- One more iterator, and what may follow it. -/
abbrev moreIterators : Pattern := seqs [word ",", forIndex, iteratorsRest]

theorem lang_argumentsRest : lang argumentsRest = lang moreArguments +
    lang (.alt (seqs [word "for", forIndex, iteratorsRest]) .empty) := by
  have hindices : lang (.rule forIndices) = lang (.rule forIndex) * lang (.star (.seq (word ",") forIndex)) := by
    rw [lang_rule, ← lang_seq]
    rfl
  conv_lhs => rw [argumentsRest, lang_star_eq, ← argumentsRest]
  simp only [iteratorsRest, seqs, lang_alt, lang_seq, lang_empty, hindices, add_mul, mul_assoc]
  abel

theorem lang_iteratorsRest : lang iteratorsRest =
    lang moreIterators + lang argumentsRest := by
  conv_lhs => rw [iteratorsRest, lang_seq, lang_star_eq]
  simp only [iteratorsRest, seqs, lang_seq, add_mul, one_mul, mul_assoc]
  abel

end Modelica.Grammar

namespace Modelica.Syntax

open Grammar Grammar.Pattern List

variable {K : Language Terminal} {ts : List Token} {n : Nat}

variable {op : BinaryOp} {strength level k : Nat} {left e : Expr} {rest : List Token} {more : List Token → Bool}
  {w : List Terminal}

/-- Subscripts among the words `K` may always be read in front of `K` too. -/
def TakesSubscripts (K : Language Terminal) : Prop :=
  ∀ w ∈ K, w.head? = some (.literal "[") → w ∈ lang (.rule .arraySubscripts) * K

theorem Follow.takesSubscripts {X} (h : Follow X K) (hX : .literal "[" ∈ X) : TakesSubscripts K :=
  fun w hw hhead => absurd hhead (h.avoids w hw _ hX)

/-- With `n` steps to go, at least twelve for each token and `c` more, the parser reads the
pattern in front of all words that are as `P` says. -/
abbrev ReadsIn {α : Type} (c : Nat) (p : Nat → Parser α) (e : Pattern) (P : Language Terminal → Prop) (n : Nat) :
    Prop :=
  ∀ {K ts}, 12 * ts.length + c ≤ n → P K → Reads [] (p n) e K ts

/-- What the parsers of expressions read with `n` steps to go. -/
structure ReadsExpressions (n : Nat) : Prop where
  expression : ReadsIn 7 Parser.expression (.rule .expression) (Follow expressionTail) n
  simpleExpression : ReadsIn 6 Parser.simpleExpression (.rule .simpleExpression) (Follow expressionTail) n
  operation : ∀ {K ts level}, 12 * ts.length + 5 ≤ n → Follow exprTail K →
    Reads [] (Parser.operation n level) (.rule .expr) (lang joined * K) ts
  operand : ∀ {K ts}, 12 * ts.length + 4 ≤ n → Follow exprTail K →
    Reads [] (Parser.operand n) (.rule .expr) (lang joined * K) ts
  operators : ∀ {K ts level left}, 12 * ts.length + 1 ≤ n →
    Follow exprTail K → Reads [] (Parser.operators n level left) joined (lang joined * K) ts
  power : ReadsIn 3 Parser.power power (Follow powerTail) n
  primary : ReadsIn 2 Parser.primary (.rule .primary) (Follow primaryTail) n
  groupItems : ReadsIn 8 Parser.groupItems (.rule .outputExpressionList) (Begins [.literal ")"]) n
  reference : ∀ {K ts}, 12 * ts.length + 1 ≤ n → Follow [.literal "."] K →
    TakesSubscripts K → Reads [] (Parser.reference n) (.rule .componentReference) K ts
  subscripts : ∀ {K ts}, 12 * ts.length + 1 ≤ n → (∃ w, w ∈ K) →
    TakesSubscripts K → Reads [] (Parser.subscripts n) (opt (.rule .arraySubscripts)) K ts
  callArguments : ReadsIn 1 Parser.callArguments (.rule .functionCallArgs) (fun K => ∃ w, w ∈ K) n
  arguments : ReadsIn 10 Parser.arguments (.rule .functionArguments) (Begins [.literal ")", .literal "\x7d"]) n
  positional : ReadsIn 9 Parser.positional (.seq (.rule .functionArgument) argumentsRest)
    (Begins [.literal ")", .literal "\x7d"]) n
  iterator : ReadsIn 1 Parser.iterator (.rule .forIndex) (Follow (.literal "in" :: expressionTail)) n
  namedArguments : ReadsIn 1 Parser.namedArguments (.rule .namedArguments) (Follow (.literal "," :: expressionTail)) n
  argument : ReadsIn 8 Parser.argument (.rule .functionArgument) (Follow expressionTail) n

theorem ReadsExpressions.reference_of (ih : ReadsExpressions n) (hn : 12 * ts.length + 1 ≤ n) (hK : Follow referenceTail K) :
    Reads [] (Parser.reference n) (.rule .componentReference) K ts :=
  ih.reference hn (hK.mono (by decide)) (hK.takesSubscripts (by decide))

/-! ### Names -/

theorem names_reads {word} (hK : Follow [.literal word] K) :
    Reads [] (Parser.separated word Parser.ident) (separated word ident) K ts :=
  .separated hK rfl fun _ _ => .terminal (mul_nonempty _ hK.nonempty)

theorem qualifiedName_reads (hK : Follow [.literal "."] K) : Reads [] Parser.qualifiedName (.rule .name) K ts := by
  apply Reads.rule
  exact .optional (fun _ _ _ => .map (names_reads hK) _) (hK.mul rfl)

/-! ### Operators -/

theorem joiners_eq : BinaryOp.joiners.map (·.1) = joiners := rfl

theorem text_of_joiners : ∀ e ∈ BinaryOp.joiners, e.2.1.text = e.1 := by decide

theorem head_of_joiner (h : ts.head?.bind BinaryOp.ofToken? = some (op, strength)) :
    (kinds ts).head? = some (.literal op.text) ∧ op.text ∈ joiners := by
  cases ts with
  | nil => cases h
  | cons t rest =>
    obtain ⟨e, he, heq⟩ := Option.map_eq_some_iff.1 (show BinaryOp.ofToken? t = _ from h)
    have hmem := List.mem_of_find?_eq_some he
    have htext : op.text = e.1 := by rw [← text_of_joiners e hmem, heq]
    have his : t.is e.1 = true := by simpa using List.find?_some he
    rw [htext]
    exact ⟨congrArg some (by simpa [Token.is] using his), joiners_eq ▸ mem_map_of_mem hmem⟩

theorem head_of_no_joiner (h : ts.head?.bind BinaryOp.ofToken? = none) :
    ∀ t ∈ joiners.map Terminal.literal, (kinds ts).head? ≠ some t := by
  intro t ht hhead
  cases ts with
  | nil => cases hhead
  | cons t' rest =>
    obtain rfl := Option.some.inj hhead
    rw [← joiners_eq, map_map, mem_map] at ht
    obtain ⟨e, he, heq⟩ := ht
    have hnone := List.find?_eq_none.1 (Option.map_eq_none_iff.1 (show BinaryOp.ofToken? t' = none from h)) e he
    simp [Token.is, ← heq] at hnone

/-- The operator ahead, if it binds tightly enough for the level. -/
def joinerAhead (level : Nat) (ts : List Token) : Option (BinaryOp × Nat) :=
  (ts.head?.bind BinaryOp.ofToken?).filter fun o => decide (level ≤ o.2)

theorem operators_of_none (h : joinerAhead level ts = none) :
    Parser.operators (n + 1) level left ts = .ok (left, ts) := by
  have hjoiner : Parser.joinerAt? level ts = .ok (none, ts) := congrArg (fun o => Except.ok (o, ts)) h
  rw [Parser.operators, bind_of_ok hjoiner]
  rfl

theorem operators_of_some (h : joinerAhead level ts = some (op, strength)) :
    Parser.operators (n + 1) level left ts = (Parser.literal op.text >>= fun _ =>
      Parser.operation n (strength + 1) >>= fun right => Parser.operators n level (.binary op left right)) ts := by
  have hjoiner : Parser.joinerAt? level ts = .ok (some (op, strength), ts) := congrArg (fun o => Except.ok (o, ts)) h
  rw [Parser.operators, bind_of_ok hjoiner]

theorem operators_stops (h : Parser.operators n level left ts = .ok (e, rest)) : joinerAhead level rest = none := by
  induction n generalizing ts left with
  | zero => cases h
  | succ n ih =>
    cases hop : joinerAhead level ts with
    | none =>
      rw [operators_of_none hop] at h
      cases h
      exact hop
    | some o =>
      rw [operators_of_some hop] at h
      obtain ⟨_, _, _, h⟩ := bind_eq_ok.1 h
      obtain ⟨_, _, _, h⟩ := bind_eq_ok.1 h
      exact ih h

theorem operation_stops (h : Parser.operation n 0 ts = .ok (e, rest)) :
    ∀ t ∈ joiners.map Terminal.literal, (kinds rest).head? ≠ some t := by
  cases n with
  | zero => cases h
  | succ n =>
    rw [Parser.operation] at h
    obtain ⟨_, _, _, h⟩ := bind_eq_ok.1 h
    have hstop := operators_stops h
    unfold joinerAhead at hstop
    cases hop : rest.head?.bind BinaryOp.ofToken? with
    | none => exact head_of_no_joiner hop
    | some o => simp [hop] at hstop

namespace ReadsExpressions

theorem operation_zero (h : ReadsExpressions n) (hn : 12 * ts.length + 5 ≤ n) (hK : Follow exprTail K) :
    Reads [] (Parser.operation n 0) (.rule .expr) K ts := by
  refine (h.operation hn hK).resolve expr_mul_joined fun e rest hrun w hnear hw => ?_
  refine mem_of_not_first hw fun t ht hhead => operation_stops hrun t ?_ ((near_one_iff.1 hnear).symm.trans hhead)
  rwa [joined, Pattern.first, Pattern.first, nullable_words (by simp [joiners]), first_words, if_neg (by simp),
    append_nil] at ht

section

variable (ih : ReadsExpressions n)

variable {level : Nat}

include ih

theorem operators_succ {left} (hn : 12 * ts.length + 1 ≤ n + 1) (hK : Follow exprTail K) :
    Reads [] (Parser.operators (n + 1) level left) joined (lang joined * K) ts := by
  have hjoined : lang joined * (lang joined * K) = lang joined * K := by rw [← mul_assoc, joined_mul_joined]
  cases hop : joinerAhead level ts with
  | none =>
    refine .of_head (.of_eq _ (.pure left) (operators_of_none hop)) (by rw [joined_eq, lang_empty]; exact le_self_add)
      fun w hw _ => ?_
    rwa [hjoined, ← one_mul (lang joined * K), ← lang_empty] at hw
  | some o =>
    obtain ⟨op, strength⟩ := o
    obtain ⟨hhead, hmem⟩ := head_of_joiner (Option.filter_eq_some_iff.1 hop).1
    have htake : Reads [] (Parser.operators (n + 1) level left)
        (.seq (word op.text) (.seq (.rule .expr) joined)) (lang joined * K) ts := by
      refine .of_eq _ (.literal_seq (mul_nonempty _ hK.nonempty) fun rest hrest => ?_) (operators_of_some hop)
      refine .seq_lt rfl ?_ fun right rest' hrest' => ih.operators (by omega) hK
      rw [hjoined]
      exact ih.operation (by omega) hK
    have hlang : lang (.seq (word op.text) (.seq (.rule .expr) joined)) = lang (word op.text) * lang (.rule .expr) := by
      rw [lang_seq, lang_seq, expr_mul_joined]
    have hword : lang (word op.text) ≤ lang (words joiners) := fun w hw =>
      (mem_lang_words (by simp [joiners])).2 ⟨_, mem_map_of_mem hmem, mem_lang_terminal.1 hw⟩
    refine htake.of_head ?_ fun w hw hnear => ?_
    · rw [hlang, joined_eq]
      exact le_trans (mul_le_mul_left hword _) le_add_self
    · -- The word begins with the operator, so the operator and an expression stand in front.
      have hw_head := (near_one_iff.1 hnear).trans hhead
      rw [hjoined, joined_eq, add_mul, one_mul, Language.mem_add] at hw
      rcases hw with hw | hw
      · exact absurd hw_head (hK.avoids w hw _ (mem_append_left _ (mem_map_of_mem hmem)))
      · rw [hlang, mul_assoc]
        rw [mul_assoc] at hw
        obtain ⟨u, hu, v, hv, rfl⟩ := Language.mem_mul.1 hw
        obtain ⟨t, -, rfl⟩ := (mem_lang_words (by simp [joiners])).1 hu
        obtain rfl := Option.some.inj hw_head
        refine Language.append_mem_mul (mem_lang_terminal.2 rfl) ?_
        rwa [← mul_assoc, expr_mul_joined]

theorem operation_succ (hn : 12 * ts.length + 5 ≤ n + 1) (hK : Follow exprTail K) :
    Reads [] (Parser.operation (n + 1) level) (.rule .expr) (lang joined * K) ts := by
  rw [Parser.operation]
  have hseq : Reads [] (Parser.operand n >>= fun first => Parser.operators n level first)
      (.seq (.rule .expr) joined) (lang joined * K) ts := by
    refine .seq_lt rfl ?_ fun first rest hrest => ih.operators (by omega) hK
    rw [← mul_assoc, joined_mul_joined]
    exact ih.operand (by omega) hK
  exact hseq.congr (by rw [lang_seq, expr_mul_joined])

theorem operand_succ (hn : 12 * ts.length + 4 ≤ n + 1) (hK : Follow exprTail K) :
    Reads [] (Parser.operand (n + 1)) (.rule .expr) (lang joined * K) ts := by
  have hpower : Follow powerTail (lang joined * K) := hK.mul rfl
  rw [Parser.operand]
  refine .ifAccept_of_eq (e := .rule .expr) (d := .alt (.seq (word "not") (.rule .expr)) (.seq Grammar.power joined))
    (fun _ _ => .map (ih.operation (by omega) hK) _) (fun _ => ?_) (hpower.empty.mul rfl) ?_
  · refine .ifAccept_of_eq (e := .rule .expr) (d := .seq Grammar.power joined)
      (fun _ _ => .map (ih.operation (by omega) hK) _) (fun _ => ?_) (hpower.empty.mul rfl) ?_
    · refine .of_head (ih.power (by omega) hpower) ?_ fun w hw _ => ?_
      · rw [lang_seq, joined_eq, mul_add, mul_one]
        exact le_self_add
      · rwa [lang_seq, mul_assoc, ← mul_assoc (lang joined), joined_mul_joined] at hw
    · exact lang_alt _ _
  · rw [lang_seq, lang_alt, lang_seq, lang_seq]
    exact lang_expr_head

theorem power_succ : ReadsIn 3 Parser.power Grammar.power (Follow powerTail) (n + 1) := by
  intro K ts hn hK
  rw [Parser.power]
  refine .seq_lt rfl (ih.primary (by omega) (hK.mul rfl)) fun base rest hrest => ?_
  refine .ifAccept_of_eq (e := .rule .primary) (d := .alt (.seq (word ".^") (.rule .primary)) .empty)
    (fun rest' hrest' => .map (ih.primary (by omega) (hK.mono (by decide))) _) (fun _ => ?_)
    (hK.mul rfl) ?_
  · refine .ifAccept_of_eq (e := .rule .primary) (d := .empty)
      (fun rest' hrest' => .map (ih.primary (by omega) (hK.mono (by decide))) _) (fun _ => .pure _)
      (hK.mul rfl) ?_
    exact lang_alt _ _
  · simp only [opt, words, alts, map, lang_alt, lang_seq, lang_empty, add_mul]
    abel

theorem simpleExpression_succ : ReadsIn 6 Parser.simpleExpression (.rule .simpleExpression)
    (Follow expressionTail) (n + 1) := by
  intro K ts hn hK
  rw [Parser.simpleExpression]
  apply Reads.rule
  refine .seq_lt rfl (ih.operation_zero (by omega) (hK.mul rfl)) fun start rest hrest => ?_
  refine .ifAccept_of_eq (e := seqs [.rule .expr, opt (seqs [word ":", .rule .expr])])
    (fun rest' hrest' => ?_) (fun _ => .pure _) (hK.mul rfl) (lang_opt _)
  refine .seq_lt rfl (ih.operation_zero (by omega) (hK.mul rfl)) fun stop rest'' hrest'' => ?_
  exact .ifAccept_of_eq (fun rest3 hrest3 => .map (ih.operation_zero (by omega) (hK.mono (by decide))) _)
    (fun _ => .pure _) (hK.mul rfl) (lang_opt _)

theorem expression_succ : ReadsIn 7 Parser.expression (.rule .expression) (Follow expressionTail) (n + 1) := by
  intro K ts hn hK
  rw [Parser.expression]
  apply Reads.rule
  refine .ifAccept_of_eq (e := seqs [.rule .expression, word "then", .rule .expression,
      .star (seqs [word "elseif", .rule .expression, word "then", .rule .expression]), word "else", .rule .expression])
    (d := .rule .simpleExpression) (fun _ _ => ?_) (fun _ => ih.simpleExpression (by omega) hK)
    (hK.mul rfl) ?_
  · refine .seq_lt rfl (ih.expression (by omega) (hK.mul rfl)) fun _ _ _ => ?_
    refine .literal_seq hK.nonempty fun _ _ => ?_
    refine .seq_lt rfl (ih.expression (by omega) (hK.mul rfl)) fun _ _ _ => ?_
    have helse : Follow (.literal "elseif" :: expressionTail) (lang (seqs [word "else", .rule .expression]) * K) :=
      hK.mul rfl
    refine .seq (.moreAfter (helse.mono (by decide)) fun _ _ => ?_) fun _ rest hrest => ?_
    · have hbranch := helse.mul (X := expressionTail)
        (e := .star (seqs [word "elseif", .rule .expression, word "then", .rule .expression])) (by decide)
      refine .seq_lt rfl (ih.expression (by omega) (hbranch.mul rfl)) fun _ _ _ => ?_
      exact .literal_seq hbranch.nonempty fun _ _ => .map (ih.expression (by omega) hbranch) _
    · exact .literal_seq hK.nonempty fun _ _ => .map (ih.expression (by omega) hK) _
  · simp only [Rule.body, seqs, lang_alt, lang_seq]
    abel

theorem subscripts_succ (hn : 12 * ts.length + 1 ≤ n + 1) (hne : ∃ w, w ∈ K)
    (hK : TakesSubscripts K) : Reads [] (Parser.subscripts (n + 1)) (opt (.rule .arraySubscripts)) K ts := by
  have hlang : lang (.rule .arraySubscripts) =
      lang (.seq (word "[") (seqs [separated "," (.rule .subscript), word "]"])) := lang_rule _
  have hopt : lang (opt (.rule .arraySubscripts)) = 1 + lang (.rule .arraySubscripts) := by
    rw [opt, lang_alt, lang_empty]
  rw [Parser.subscripts]
  refine .accept_of (e := seqs [separated "," (.rule .subscript), word "]"]) (d := .empty) (fun rest hrest => ?_)
    (fun _ => .pure []) ?_ ?_ (fun w hw hhead => ?_) fun w hw hhead => ?_
  · have hclose := begins_word "]" hne
    refine .seq_lt rfl (.separated (hclose.follow rfl) rfl fun rest' hrest' => ?_)
      fun _ _ _ => .map (.literal hne) _
    have hitems : Follow expressionTail (lang (.star (.seq (word ",") (.rule .subscript))) * (lang (word "]") * K)) :=
      hclose.before rfl
    apply Reads.rule
    refine .ifAccept_of_eq (e := .empty) (d := .rule .expression) (fun _ _ => .pure _)
      (fun _ => ih.expression (by omega) hitems) (hitems.mul rfl) ?_
    rw [lang_seq, lang_empty, mul_one]
    exact lang_alt _ _
  · rw [← hlang, hopt]
    exact le_add_self
  · rw [lang_empty, hopt]
    exact le_self_add
  · rw [hopt, add_mul, one_mul, Language.mem_add] at hw
    rw [← hlang]
    exact hw.elim (fun h => hK w h hhead) id
  · rw [hopt, add_mul, Language.mem_add] at hw
    rw [lang_empty]
    exact hw.resolve_right fun h => hhead (head_eq_first rfl rfl h)

theorem reference_succ (hn : 12 * ts.length + 1 ≤ n + 1) (hK : Follow [.literal "."] K)
    (hsub : TakesSubscripts K) : Reads [] (Parser.reference (n + 1)) (.rule .componentReference) K ts := by
  rw [Parser.reference]
  apply Reads.rule
  refine .separated hK rfl fun rest hrest => ?_
  have hmore : K ≤ lang (.star (.seq (word ".") (.rule .componentReferenceElement))) * K := fun w hw =>
    Language.append_mem_mul (show [] ∈ lang (.star _) from .done) hw
  apply Reads.rule
  refine .ident_seq (mul_nonempty _ hK.nonempty) fun name rest' hrest' => .map (ih.subscripts (by omega)
    (mul_nonempty _ hK.nonempty) fun w hw hhead => ?_) _
  refine mul_le_mul_right hmore _ (hsub w (mem_of_not_first hw fun t ht h => ?_) hhead)
  obtain rfl := Option.some.inj (hhead.symm.trans h)
  revert ht
  decide

theorem callArguments_succ : ReadsIn 1 Parser.callArguments (.rule .functionCallArgs)
    (fun K => ∃ w, w ∈ K) (n + 1) := by
  intro K ts hn hK
  have hclose := begins_word ")" hK
  rw [Parser.callArguments]
  apply Reads.rule
  refine .literal_seq hK fun _ _ => ?_
  refine .ifAccept_of_eq (e := .empty) (d := seqs [.rule .functionArguments, word ")"]) (fun _ _ => .pure _) (fun _ => ?_)
    ((Follow.of_nonempty hK).mul rfl) ?_
  · refine .seq_lt rfl (ih.arguments (by omega) (hclose.mono (by decide))) fun _ _ _ => .map (.literal hK) _
  · simp [seqs, opt, add_mul]

theorem groupItems_succ : ReadsIn 8 Parser.groupItems (.rule .outputExpressionList)
    (Begins [.literal ")"]) (n + 1) := by
  intro K ts hn hK
  have hfollow : Follow (.literal "," :: expressionTail) K := hK.follow rfl
  have hitems : Follow expressionTail (lang (.star (.seq (word ",") (.rule .expression))) * K) :=
    hfollow.mul rfl
  have hcomma : Follow [.literal ","] K := hfollow.mono (by decide)
  have hlang : lang (.rule .outputExpressionList) = lang (.star (.seq (word ",") (.rule .expression))) +
      lang (separated "," (.rule .expression)) := by
    rw [lang_rule]
    simp [Rule.body, separated, seqs, opt, add_mul]
  rw [Parser.groupItems]
  refine .ifSees_of (e := .empty) (d := .rule .outputExpressionList) (fun _ => .pure []) (fun hclose => ?_) ?_ le_rfl
    (fun w hw hhead => ?_) fun w hw _ => hw
  · refine .ifSees_of (e := .star (.seq (word ",") (.rule .expression))) (d := .rule .outputExpressionList)
      (fun _ => .moreAfter hcomma fun _ _ => ih.expression (by omega) hitems) (fun hhead => ?_) ?_ le_rfl
      (fun w hw hhead => ?_) fun w hw _ => hw
    · refine .of_head (.separated hcomma rfl fun _ _ => ih.expression (by omega) hitems) ?_ fun w hw hnear => ?_
      · rw [hlang]
        exact le_add_self
      · rw [hlang, add_mul, Language.mem_add] at hw
        refine hw.resolve_left fun hw => ?_
        have hhead' := near_one_iff.1 hnear
        have hwK := mem_of_not_first hw fun t ht h =>
          hhead (hhead'.symm.trans (h.trans (congrArg some (mem_singleton.1 ht))))
        obtain ⟨t, ht, h⟩ := hK.head w hwK
        exact hclose (hhead'.symm.trans (h.trans (congrArg some (mem_singleton.1 ht))))
    · rw [hlang]
      exact le_self_add
    · obtain ⟨x, w, rfl⟩ := exists_cons_of_ne_nil fun h : w = [] => by simp [h] at hhead
      obtain rfl := Option.some.inj hhead
      exact mem_of_head hw hlang rfl (by decide)
  · rw [lang_empty, hlang, lang_star_eq, add_assoc]
    exact le_self_add
  · rw [lang_empty, one_mul]
    refine mem_of_not_first hw fun t ht h => ?_
    obtain rfl := Option.some.inj (hhead.symm.trans h)
    revert ht
    decide +kernel

theorem iterator_succ : ReadsIn 1 Parser.iterator (.rule .forIndex)
    (Follow (.literal "in" :: expressionTail)) (n + 1) := by
  intro K ts hn hK
  rw [Parser.iterator]
  apply Reads.rule
  refine .ident_seq hK.nonempty fun name rest hrest => ?_
  exact .ifAccept_of_eq (fun rest' hrest' => .map (ih.expression (by omega) (hK.mono (by decide))) _)
    (fun _ => .pure _) (hK.mul rfl) (lang_opt _)

theorem argument_succ : ReadsIn 8 Parser.argument (.rule .functionArgument) (Follow expressionTail) (n + 1) := by
  intro K ts hn hK
  rw [Parser.argument]
  apply Reads.rule
  refine .ifAccept_of_eq (e := seqs [.rule .name, word "(", opt (.rule .namedArguments), word ")"])
    (d := .rule .expression) (fun _ _ => ?_) (fun _ => .map (ih.expression (by omega) hK) _)
    (hK.mul rfl) ?_
  · simp only [pure_bind]
    refine .seq_lt rfl (qualifiedName_reads (hK.mul rfl)) fun name rest hrest => ?_
    refine .literal_seq hK.nonempty fun _ _ => ?_
    refine .ifSees (e := word ")") (d := seqs [.rule .namedArguments, word ")"])
      (fun _ => .map (.literal hK.nonempty) _) (fun _ => ?_) rfl (by simp [word, Pattern.first])
      (hK.mul rfl) ?_
    · refine .seq_lt rfl (ih.namedArguments (by omega) (hK.mul rfl)) fun _ _ _ => ?_
      exact .map (.literal hK.nonempty) _
    · simp [seqs, opt, add_mul]
  · simp [Rule.body, seqs]

theorem namedArguments_succ : ReadsIn 1 Parser.namedArguments (.rule .namedArguments)
    (Follow (.literal "," :: expressionTail)) (n + 1) := by
  intro K ts hn hK
  rw [Parser.namedArguments]
  apply Reads.rule
  refine .separated (hK.mono (by decide)) rfl fun rest hrest => ?_
  have hnext : Follow expressionTail (lang (.star (.seq (word ",") (.rule .namedArgument))) * K) := hK.mul rfl
  apply Reads.rule
  refine .ident_seq hnext.nonempty fun name rest' hrest' => .literal_seq hnext.nonempty fun rest'' hrest'' => ?_
  exact .map (ih.argument (by omega) hnext) _

theorem primary_succ : ReadsIn 2 Parser.primary (.rule .primary) (Follow primaryTail) (n + 1) := by
  intro K ts hn hK
  have hne := hK.nonempty
  rw [Parser.primary]
  apply Reads.rule
  -- The alternatives in the order in which the parser tries them.
  refine .congr (e := alts [number, string, .seq (word "false") .empty, .seq (word "true") .empty,
    .seq (word "der") (.rule .functionCallArgs), .seq (word "initial") (.rule .functionCallArgs),
    .seq (word "end") .empty, .seq (word "(") (seqs [.rule .outputExpressionList, word ")"]),
    .seq (word "[") (seqs [separated ";" (.rule .expressionList), word "]"]),
    .seq (word "\x7b") (seqs [.rule .functionArguments, word "\x7d"]),
    .seq (.rule .componentReference) (opt (.rule .functionCallArgs))]) ?_ ?_
  · refine .ifSeesTerminal (fun _ => .map (.terminal hne) _) (fun _ => ?_) rfl (by simp [Pattern.first])
      (hK.mul rfl) (lang_alt _ _)
    refine .ifSeesTerminal (fun _ => .map (.terminal hne) _) (fun _ => ?_) rfl (by simp [Pattern.first])
      (hK.mul rfl) (lang_alt _ _)
    refine .ifAccept (fun _ _ => .pure _) (fun _ => ?_) (hK.mul rfl)
    refine .ifAccept (fun _ _ => .pure _) (fun _ => ?_) (hK.mul rfl)
    refine .ifAccept (fun _ _ => .map (ih.callArguments (by omega) hne) _) (fun _ => ?_)
      (hK.mul rfl)
    refine .ifAccept (fun _ _ => .map (ih.callArguments (by omega) hne) _) (fun _ => ?_)
      (hK.mul rfl)
    refine .ifAccept (fun _ _ => .pure _) (fun _ => ?_) (hK.mul rfl)
    refine .ifAccept (fun _ _ => ?_) (fun _ => ?_) (hK.mul rfl)
    · exact .seq (ih.groupItems (by omega) (begins_word ")" hne)) fun _ _ _ => .map (.literal hne) _
    refine .ifAccept (fun rest hrest => ?_) (fun _ => ?_) (hK.mul rfl)
    · have hclose := begins_word "]" hne
      refine .seq_lt rfl (.separated (hclose.follow rfl) rfl fun rest' hrest' => ?_)
        fun _ _ _ => .map (.literal hne) _
      have hrow : Follow (.literal "," :: expressionTail)
          (lang (.star (.seq (word ";") (.rule .expressionList))) * (lang (word "]") * K)) :=
        hclose.before rfl
      apply Reads.rule
      exact .separated (hrow.mono (by decide)) rfl fun rest'' hrest'' =>
        ih.expression (by omega) (hrow.mul rfl)
    refine .ifAccept (fun rest hrest => ?_) (fun _ => ?_) (hK.mul rfl)
    · exact .seq_lt rfl (ih.arguments (by omega) ((begins_word _ hne).mono (by decide))) fun _ _ _ =>
        .map (.literal hne) _
    refine .seq_lt rfl (ih.reference_of (by omega) (hK.mul rfl)) fun path rest hrest => ?_
    exact .ifSees (fun _ => .map (ih.callArguments (by omega) hne) _) (fun _ => .pure _) rfl
      (List.Subset.refl _) (hK.mul rfl) (lang_opt _)
  · simp only [Rule.body, alts, seqs, opt, lang_alt, lang_seq, lang_empty, mul_one, mul_add]
    abel

end

/-! ### Arguments by position -/

end ReadsExpressions

/-- One more argument, or the iterators behind `for`. -/
def Parser.furtherArguments (n : Nat) : Parser (List Arg) := do
  if ← accept "," then (do pure [← argument n])
  else
    literal "for"
    let firstIterator ← iterator n
    let others ← repeatWhile isBeforeIterator (do literal ","; iterator n)
    pure (firstIterator :: others)

/-- Whether a further argument or iterators follow. -/
def startsArgument (ts : List Token) : Bool := ts.head?.any fun t => t.is "," || t.is "for"

/-- All further arguments, in `k` rounds at most. -/
abbrev Parser.allArguments (n k : Nat) : Parser (List (List Arg)) := repeatAux startsArgument (furtherArguments n) k

theorem startsArgument_iff : startsArgument ts = true ↔
    (kinds ts).head? = some (.literal ",") ∨ (kinds ts).head? = some (.literal "for") := by
  cases ts <;> simp [startsArgument, Token.is]

section Positional

variable {β : Type} {g : List Arg → Parser β}

theorem furtherArguments_comma (h : (kinds ts).head? = some (.literal ",")) :
    (Parser.furtherArguments n >>= g) ts =
      (Parser.literal "," >>= fun _ => Parser.argument n >>= fun a => g [a]) ts := by
  rw [Parser.furtherArguments, bind_assoc, accept_bind h]
  simp

theorem furtherArguments_for (h : (kinds ts).head? = some (.literal "for")) :
    (Parser.furtherArguments n >>= g) ts = (Parser.literal "for" >>= fun _ => Parser.iterator n >>= fun first =>
      Parser.repeatWhile Parser.isBeforeIterator (Parser.literal "," >>= fun _ => Parser.iterator n) >>= fun others =>
        g (first :: others)) ts := by
  rw [Parser.furtherArguments, bind_assoc, accept_bind_of_ne (by rw [h]; simp)]
  simp

end Positional

/-- Further iterators, and the arguments behind them. -/
def Parser.furtherIterators (n j k : Nat) (g : List Arg → List (List Arg) → List (List Arg)) : Parser (List (List Arg)) := do
  let others ← repeatAux isBeforeIterator (do literal ","; iterator n) j
  let rest ← allArguments n k
  pure (g others rest)

section

variable (ih : ReadsExpressions n) {k : Nat} (hn : 12 * ts.length ≤ n) (hK : Begins [.literal ")", .literal "\x7d"] K)
  (hk : ts.length ≤ k)

include ih hn hK hk

theorem furtherArguments_reads_comma (hrest : ∀ rest k, rest.length < ts.length → rest.length ≤ k →
      Reads [] (Parser.allArguments n k) argumentsRest K rest)
    (hhead : (kinds ts).head? = some (.literal ",")) : Reads [] (Parser.allArguments n k) moreArguments K ts := by
  obtain ⟨k, rfl⟩ : ∃ j, k = j + 1 := ⟨k - 1, by cases ts <;> simp at hhead hk ⊢; omega⟩
  have hnext : Follow expressionTail (lang argumentsRest * K) := hK.before rfl
  refine .of_eq _ ?_ ((if_pos (startsArgument_iff.2 (.inl hhead))).trans (furtherArguments_comma hhead))
  refine .literal_seq hK.nonempty fun rest hlt => .seq_lt rfl (ih.argument (by omega) hnext) fun a rest' hlt' => ?_
  exact .map (hrest rest' k (by omega) (by omega)) _

theorem furtherArguments_reads_for (hrest : ∀ rest j k g, rest.length < ts.length → rest.length ≤ j → rest.length ≤ k →
      Reads [] (Parser.furtherIterators n j k g) iteratorsRest K rest)
    (hhead : (kinds ts).head? = some (.literal "for")) :
    Reads [] (Parser.allArguments n k) (seqs [word "for", .rule .forIndex, iteratorsRest]) K ts := by
  obtain ⟨k, rfl⟩ : ∃ j, k = j + 1 := ⟨k - 1, by cases ts <;> simp at hhead hk ⊢; omega⟩
  have hnext : Follow (.literal "in" :: expressionTail) (lang iteratorsRest * K) := hK.before rfl
  refine .of_eq _ ?_ ((if_pos (startsArgument_iff.2 (.inr hhead))).trans (furtherArguments_for hhead))
  refine .literal_seq hK.nonempty fun rest hlt => .seq_lt rfl (ih.iterator (by omega) hnext) fun first rest' hlt' => ?_
  exact .of_eq _ (hrest rest' rest'.length k (fun others rest => (first :: others) :: rest) (by omega) le_rfl
    (by omega)) rfl

end

theorem repeatAux_bind {α β : Type} {p} {g : List α → Parser β} (h : more ts = true) :
    (Parser.repeatAux more p (k + 1) >>= g) ts =
      (p >>= fun a => Parser.repeatAux more p k >>= fun rest => g (a :: rest)) ts := by
  have hrun : Parser.repeatAux more p (k + 1) ts =
      (p >>= fun a => Parser.repeatAux more p k >>= fun rest => pure (a :: rest)) ts := if_pos h
  rw [bind_congr_left hrun]
  simp

theorem repeatAux_of_false {α : Type} {p : Parser α} (h : more ts = false) :
    Parser.repeatAux more p k ts = .ok ([], ts) := by
  cases k with
  | zero => rfl
  | succ k => exact if_neg (by rw [h]; simp)

/-- The tokens that tell an iterator from an argument, behind a comma and a name. -/
def afterIterator : List Terminal := [",", "for", "in", ")", "\x7d"].map .literal

theorem isBeforeIterator_iff : Parser.isBeforeIterator ts = true ↔
    ∃ x ∈ afterIterator, Near 3 [.literal ",", .ident, x] ts := by
  simp only [near_succ_cons, near_zero, and_true]
  rcases ts with _ | ⟨a, _ | ⟨b, _ | ⟨c, rest⟩⟩⟩
  · simp [Parser.isBeforeIterator]
  · simp [Parser.isBeforeIterator]
  · simp [Parser.isBeforeIterator]
  · simp [Parser.isBeforeIterator, afterIterator, Token.is, and_assoc, and_left_comm, and_comm]

/-- The words with a further iterator in front, by their first three terminals. -/
theorem exists_of_iterator {w} (hK : Begins [.literal ")", .literal "\x7d"] K)
    (hw : w ∈ lang moreIterators * K) :
    ∃ x ∈ afterIterator, ∃ v, w = .literal "," :: .ident :: x :: v := by
  have hrest : Begins afterIterator (lang (opt (seqs [word "in", .rule .expression])) * (lang iteratorsRest * K)) :=
    Begins.mul (Begins.mul hK (by decide) (by decide)) (by decide) (List.Subset.refl _)
  have hindex : lang (.rule .forIndex) = lang ident * lang (opt (seqs [word "in", .rule .expression])) := by
    rw [lang_rule, ← lang_seq]
    rfl
  simp only [seqs, lang_seq, hindex, mul_assoc] at hw
  obtain ⟨u, hu, v, hv, rfl⟩ := Language.mem_mul.1 hw
  obtain ⟨u', hu', v', hv', rfl⟩ := Language.mem_mul.1 hv
  obtain ⟨x, hx, hhead⟩ := hrest.head v' hv'
  obtain ⟨v'', rfl⟩ := List.head?_eq_some_iff.1 hhead
  rw [mem_lang_terminal.1 hu, mem_lang_terminal.1 hu']
  exact ⟨x, hx, v'', rfl⟩

theorem ident_mem_forIndex : [.ident] ∈ lang (.rule .forIndex) := .rule (.seq (.terminal _) (.left .empty))

theorem primary_le_simpleExpression : lang (.rule .primary) ≤ lang (.rule .simpleExpression) := by
  intro w hw
  have hrest : [] ∈ lang primaryRest := .seq (.left .empty) (.seq .done (.left .empty))
  rw [lang_simpleExpression]
  exact .inl (w.append_nil ▸ .seq hw hrest)

theorem ident_mem_functionArgument : [.ident] ∈ lang (.rule .functionArgument) := by
  have hname : [.ident] ∈ lang (.rule .componentReferenceElement) := .rule (.seq (.terminal _) (.left .empty))
  have hprimary : [.ident] ∈ lang (.rule .primary) :=
    .rule (mem_of_branch (t := .ident) (mem_cons_of_mem _ (mem_singleton_self _)) (.rule (.seq hname .done)))
  exact .rule (.right (.rule (.left (primary_le_simpleExpression hprimary))))

theorem iterator_of_argument {x} (hx : x ∈ afterIterator)
    (hw : .literal "," :: .ident :: x :: w ∈ lang moreArguments * K) :
    .literal "," :: .ident :: x :: w ∈ lang moreIterators * K := by
  have hfirst : ∀ x ∈ afterIterator, x ∉ identRest.first := by decide
  simp only [seqs, lang_seq, mul_assoc] at hw ⊢
  have hrest : x :: w ∈ lang argumentsRest * K :=
    mem_of_not_first (mem_identRest (cons_mem_terminal_mul.1 hw).2) fun t ht h =>
      hfirst x hx (Option.some.inj h ▸ ht)
  refine cons_mem_terminal_mul.2 ⟨rfl, Language.append_mem_mul ident_mem_forIndex ?_⟩
  rw [lang_iteratorsRest, add_mul, Language.mem_add]
  exact .inr hrest

theorem two_le_length {d e f} (hd : d.nullable = false) (he : e.nullable = false) {u}
    (hu : u ∈ lang (seqs [d, e, f])) : 2 ≤ u.length := by
  simp only [seqs, lang_seq] at hu
  obtain ⟨a, ha, v, hv, rfl⟩ := Language.mem_mul.1 hu
  obtain ⟨b, hb, c, _, rfl⟩ := Language.mem_mul.1 hv
  have hapos := length_pos_of_ne_nil (ne_nil_of_mem_lang hd ha)
  have hbpos := length_pos_of_ne_nil (ne_nil_of_mem_lang he hb)
  simp only [length_append]
  omega

theorem comma_ident_mem {e d} {v : List Terminal} (he : [.ident] ∈ lang e) (hd : [] ∈ lang d) (hv : v ∈ K) :
    .literal "," :: .ident :: v ∈ lang (seqs [word ",", e, d]) * K := by
  simp only [seqs, lang_seq, mul_assoc]
  exact cons_mem_terminal_mul.2 ⟨rfl, Language.append_mem_mul he (Language.append_mem_mul hd hv)⟩

/-- **Arguments by position.** Behind an iterator a comma and a name may begin a further
iterator or an argument. What follows the name decides, so the loop over the arguments and the
loop over the iterators in it are read together. -/
theorem argumentsRest_reads (ih : ReadsExpressions n) (hK : Begins [.literal ")", .literal "\x7d"] K) (m : Nat) :
    ∀ ts : List Token, ts.length = m → 12 * ts.length ≤ n →
      (∀ k, ts.length ≤ k → Reads [] (Parser.allArguments n k) argumentsRest K ts) ∧
      (∀ j k g, ts.length ≤ j → ts.length ≤ k → Reads [] (Parser.furtherIterators n j k g) iteratorsRest K ts) := by
  have hfollow : Follow [.literal ",", .literal "for"] K := hK.follow rfl
  have hmem_comma : ∀ w : List Terminal, .literal "," :: w ∈ lang argumentsRest * K →
      .literal "," :: w ∈ lang moreArguments * K := fun w hw => by
    have hother : Follow [.literal ","]
        (lang (.alt (seqs [word "for", .rule .forIndex, iteratorsRest]) .empty) * K) := hfollow.mul rfl
    rw [lang_argumentsRest, add_mul, Language.mem_add] at hw
    exact hw.resolve_right fun h => hother.avoids _ h _ (.head _) rfl
  induction m using Nat.strong_induction_on with
  | _ m ihm =>
    intro ts hm hn
    have hcomma : ∀ k, ts.length ≤ k → (kinds ts).head? = some (.literal ",") →
        Reads [] (Parser.allArguments n k) moreArguments K ts := fun k hk hhead =>
      furtherArguments_reads_comma ih hn hK hk
        (fun rest k hlt => (ihm rest.length (by omega) rest rfl (by omega)).1 k) hhead
    have houter : ∀ k, ts.length ≤ k → Reads [] (Parser.allArguments n k) argumentsRest K ts := by
      intro k hk
      refine .choice [.literal ","] (fun t ht hhead => hcomma k hk (mem_singleton.1 ht ▸ hhead)) (fun hhead => ?_)
        rfl (by decide) (hfollow.mul rfl) lang_argumentsRest
      refine .choice [.literal "for"] (fun t ht hhead => ?_) (fun hhead' => ?_) rfl (by decide)
        (hfollow.mul rfl) (lang_alt _ _)
      · exact furtherArguments_reads_for ih hn hK hk
          (fun rest j k g hlt => (ihm rest.length (by omega) rest rfl (by omega)).2 j k g) (mem_singleton.1 ht ▸ hhead)
      · refine .of_eq _ (.pure []) (repeatAux_of_false (Bool.eq_false_iff.2 fun h => ?_))
        rcases startsArgument_iff.1 h with h | h
        · exact hhead _ (.head _) h
        · exact hhead' _ (.head _) h
    refine ⟨houter, fun j k g hj hk => ?_⟩
    have hK' : ∃ w, w ∈ K := hK.nonempty
    cases hit : Parser.isBeforeIterator ts with
    | true =>
      obtain ⟨x, hx, hnear⟩ := isBeforeIterator_iff.1 hit
      obtain ⟨j, rfl⟩ : ∃ i, j = i + 1 := ⟨j - 1, by cases ts <;> simp [Parser.isBeforeIterator] at hit hj ⊢; omega⟩
      have hnext : Follow (.literal "in" :: expressionTail) (lang iteratorsRest * K) := hK.before rfl
      have hread : Reads [] (Parser.furtherIterators n (j + 1) k g) moreIterators K ts := by
        refine .of_eq (Parser.literal "," >>= fun _ => Parser.iterator n >>= fun first =>
          Parser.furtherIterators n j k fun others => g (first :: others)) ?_ ?_
        · refine .literal_seq hK' fun rest hlt => .seq_lt rfl (ih.iterator (by omega) hnext) fun first rest' hlt' => ?_
          exact (ihm rest'.length (by omega) rest' rfl (by omega)).2 j k _ (by omega) (by omega)
        · rw [Parser.furtherIterators, repeatAux_bind hit]
          simp [Parser.furtherIterators]
      refine hread.of_near 2 ?_ (fun u => two_le_length rfl rfl) (fun _ => ?_) fun w hw hnear' => ?_
      · rw [lang_iteratorsRest]
        exact le_self_add
      · obtain ⟨v, hv⟩ := hK'
        exact ⟨_, comma_ident_mem ident_mem_forIndex (.seq .done .done) hv, by simpa [Near] using hnear.mono (j := 2) (by omega)⟩
      · rw [lang_iteratorsRest, add_mul, Language.mem_add] at hw
        refine hw.elim id fun hw => ?_
        have hw_eq : w = [.literal ",", .ident, x] ++ w.drop 3 := by
          have htake : w.take 3 = [.literal ",", .ident, x] := hnear'.trans hnear.symm
          rw [← htake, take_append_drop]
        rw [hw_eq] at hw ⊢
        exact iterator_of_argument hx (hmem_comma _ hw)
    | false =>
      have hrun : Parser.furtherIterators n j k g ts =
          (Parser.allArguments n k >>= fun rest => pure (g [] rest)) ts :=
        bind_of_ok (repeatAux_of_false hit)
      by_cases hhead : (kinds ts).head? = some (.literal ",")
      · have hread := Reads.of_eq _ (.map (hcomma k hk hhead) (g [])) hrun
        have hle : lang moreArguments ≤ lang iteratorsRest := by
          rw [lang_iteratorsRest, lang_argumentsRest]
          exact le_trans le_self_add le_add_self
        have hcomma_of : ∀ w ∈ lang iteratorsRest * K, Near 1 w ts →
            w ∉ lang moreIterators * K →
            w ∈ lang moreArguments * K := fun w hw hnear hnot => by
          rw [lang_iteratorsRest, add_mul, Language.mem_add] at hw
          obtain ⟨v, rfl⟩ := List.head?_eq_some_iff.1 ((near_one_iff.1 hnear).trans hhead)
          exact hmem_comma v (hw.resolve_left hnot)
        obtain ⟨v, hv⟩ := hK'
        have hstart := comma_ident_mem (K := K) ident_mem_functionArgument (d := argumentsRest) .done hv
        by_cases hsecond : Near 2 [.literal ",", .ident] ts
        · refine hread.of_near 2 hle (fun u => two_le_length rfl rfl) (fun _ => ⟨_, hstart, by simpa [Near] using hsecond⟩)
            fun w hw hnear => hcomma_of w hw (hnear.mono (by omega)) fun hw => ?_
          obtain ⟨x, hx, v, rfl⟩ := exists_of_iterator hK hw
          rw [isBeforeIterator_iff.2 ⟨x, hx, hnear⟩] at hit
          cases hit
        · refine hread.of_near 1 hle (fun u hu => Nat.le_of_succ_le (two_le_length rfl rfl hu))
            (fun _ => ⟨_, hstart, near_one_iff.2 hhead.symm⟩)
            fun w hw hnear => hcomma_of w hw (hnear.mono (by omega)) fun hw => hsecond ?_
          obtain ⟨x, hx, v, rfl⟩ := exists_of_iterator hK hw
          simpa [Near] using hnear
      · have hread := Reads.of_eq _ (.map (houter k hk) (g [])) hrun
        refine hread.of_head ?_ fun w hw hnear => ?_
        · rw [lang_iteratorsRest]
          exact le_add_self
        · rw [lang_iteratorsRest, add_mul, Language.mem_add] at hw
          refine hw.resolve_left fun hw => hhead ?_
          obtain ⟨x, hx, v, rfl⟩ := exists_of_iterator hK hw
          exact (near_one_iff.1 hnear).symm

theorem ReadsExpressions.positional_succ (ih : ReadsExpressions n) (hn : 12 * ts.length + 9 ≤ n + 1)
    (hK : Begins [.literal ")", .literal "\x7d"] K) :
    Reads [] (Parser.positional (n + 1)) (.seq (.rule .functionArgument) argumentsRest) K ts := by
  have hnext : Follow expressionTail (lang argumentsRest * K) := hK.before rfl
  rw [Parser.positional]
  refine .seq_lt rfl (ih.argument (by omega) hnext) fun first rest hrest => .map ?_ _
  exact (argumentsRest_reads ih hK rest.length rest rfl (by omega)).1 rest.length le_rfl

theorem arguments_run (n : Nat) (ts : List Token) : Parser.arguments (n + 1) ts =
    if Near 2 [.ident, .literal "="] ts then Parser.namedArguments n ts else Parser.positional n ts := by
  rw [Parser.arguments]
  match ts with
  | [] | [_] => simp [Near]
  | a :: b :: rest =>
    have hnear : Near 2 [.ident, .literal "="] (a :: b :: rest) ↔ (a.terminal == .ident && b.is "=") = true := by
      simp [near_succ_cons, Token.is]
    simp only [hnear]

theorem ReadsExpressions.arguments_succ (ih : ReadsExpressions n) (hn : 12 * ts.length + 10 ≤ n + 1)
    (hK : Begins [.literal ")", .literal "\x7d"] K) :
    Reads [] (Parser.arguments (n + 1)) (.rule .functionArguments) K ts := by
  have hlang : lang (.rule .functionArguments) =
      lang (.seq (.rule .functionArgument) argumentsRest) + lang (.rule .namedArguments) :=
    (lang_rule _).trans (lang_alt _ _)
  have hrest : Follow [.literal "="] (lang identRest * (lang argumentsRest * K)) :=
    (hK.before (Y := [.literal "="]) rfl).mul rfl
  refine .choice_two (x := .ident) (y := .literal "=") (e := .rule .namedArguments) (fun hnear => ?_) (fun hnear => ?_)
    rfl rfl hK.nonempty (fun w hw => ?_) ?_ (fun v hv => ?_) (hlang.trans (add_comm _ _))
  · exact .of_eq _ (ih.namedArguments (by omega) (hK.follow (Y := .literal "," :: expressionTail) rfl))
      ((arguments_run n ts).trans (if_pos hnear))
  · exact .of_eq _ (ih.positional (by omega) hK) ((arguments_run n ts).trans (if_neg hnear))
  · rw [lang_rule, Rule.body, separated, lang_seq, lang_rule, mul_assoc] at hw
    exact eq_cons_cons_of_mem hw
  · obtain ⟨v, hv⟩ := hK.nonempty
    refine ⟨v, ?_⟩
    rw [lang_seq, mul_assoc]
    exact Language.append_mem_mul ident_mem_functionArgument
      (Language.append_mem_mul (show [] ∈ lang argumentsRest from .done) hv)
  · rw [lang_seq, mul_assoc] at hv
    exact hrest.avoids _ (mem_identRest hv) _ (.head _)

theorem readsExpressions (n : Nat) : ReadsExpressions n := by
  induction n with
  | zero => constructor <;> intros <;> omega
  | succ n ih =>
    exact ⟨ih.expression_succ, ih.simpleExpression_succ, ih.operation_succ, ih.operand_succ, ih.operators_succ,
      ih.power_succ, ih.primary_succ, ih.groupItems_succ, ih.reference_succ, ih.subscripts_succ, ih.callArguments_succ,
      ih.arguments_succ, ih.positional_succ, ih.iterator_succ, ih.namedArguments_succ, ih.argument_succ⟩

end Modelica.Syntax
