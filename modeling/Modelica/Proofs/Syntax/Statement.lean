/-
Statements are read as the grammar has them (`readsStatements`).
-/
import Modelica.Proofs.Syntax.Modification
import Modelica.Syntax.Parser.Equation

namespace Modelica.Syntax

open Grammar Grammar.Pattern

variable {K : Language Terminal} {ts : List Token} {n : Nat}

theorem iterators_reads (hn : 12 * ts.length ≤ n) (hK : Follow (.literal "," :: .literal "in" :: expressionTail) K) :
    Reads [] (Parser.iterators n) (.rule .forIndices) K ts := by
  refine .rule (.separated (hK.mono (by decide)) rfl fun rest hrest => .rule ?_)
  have hnext : Follow (.literal "in" :: expressionTail) (lang (.star (.seq (word ",") (.rule .forIndex))) * K) :=
    hK.mul rfl
  refine .ident_seq hnext.nonempty fun name rest' hrest' => ?_
  exact .ifAccept_of_eq
    (fun rest'' hrest'' => .map ((readsExpressions n).expression (by omega) (hnext.mono fun t ht => by simp [ht])) _)
    (fun _ => .pure _) (hnext.mul rfl) (lang_opt _)

/-- Further branches, each with a condition of its own. -/
abbrev branchesOf (branch : String) (block : Rule) : Pattern :=
  .star (seqs [word branch, .rule .expression, word "then", .rule block])

/-- What the parsers of statements read with `n` steps to go. -/
structure ReadsStatements (n : Nat) : Prop where
  statements : ReadsIn 4 Parser.statements (.rule .statementBlock) (Follow Rule.statement.first) n
  statement : ReadsIn 3 Parser.statement (.rule .statement) (Begins [.literal ";"]) n
  statementBody : ReadsIn 2 Parser.statementBody (.rule .statementOptions)
    (Begins [.string, .literal "annotation", .literal ";"]) n
  statementBranches : ∀ {K ts branch}, 12 * ts.length + 1 ≤ n →
    .literal branch ∉ Rule.statement.first → Follow (.literal branch :: Rule.statement.first) K →
    Reads [] (Parser.statementBranches n branch) (branchesOf branch .statementBlock) K ts

theorem startsStatement_iff : Parser.startsStatement ts = true ↔
    ∃ t ∈ Rule.statement.first, (kinds ts).head? = some t := by
  cases ts with
  | nil => simp [Parser.startsStatement]
  | cons t rest => simp [Parser.startsStatement, Rule.first, Token.is]

namespace ReadsStatements

variable (ih : ReadsStatements n)

include ih

theorem statements_succ (hn : 12 * ts.length + 4 ≤ n + 1) (hK : Follow Rule.statement.first K) :
    Reads [] (Parser.statements (n + 1)) (.rule .statementBlock) K ts := by
  rw [Parser.statements]
  refine .rule (.repeatWhile rfl hK (fun _ => startsStatement_iff) fun _ _ => ?_)
  have hnext := mul_nonempty (.star (seqs [.rule .statement, word ";"])) hK.nonempty
  exact .seq_lt rfl (ih.statement (by omega) (begins_word ";" hnext)) fun _ _ _ => .map (.literal hnext) _

theorem statement_succ (hn : 12 * ts.length + 3 ≤ n + 1) (hK : Begins [.literal ";"] K) :
    Reads [] (Parser.statement (n + 1)) (.rule .statement) K ts := by
  rw [Parser.statement]
  refine .rule (.seq_lt rfl (ih.statementBody (by omega) (hK.mul (by decide) (by decide))) fun _ _ _ => ?_)
  exact .map ((readsModifications n).comment (by omega) (hK.follow rfl)) _

theorem statementBranches_succ {branch} (hn : 12 * ts.length + 1 ≤ n + 1)
    (hbranch : .literal branch ∉ Rule.statement.first) (hK : Follow (.literal branch :: Rule.statement.first) K) :
    Reads [] (Parser.statementBranches (n + 1) branch) (branchesOf branch .statementBlock) K ts := by
  have hnext : Follow Rule.statement.first (lang (branchesOf branch .statementBlock) * K) :=
    (hK.mono (by simp)).mul_of_first fun t ht => by
      obtain rfl := List.mem_singleton.1 ht
      exact hbranch
  rw [Parser.statementBranches]
  refine .moreAfter (hK.mono (by simp)) fun _ _ => ?_
  refine .seq_lt rfl ((readsExpressions n).expression (by omega) (hnext.mul rfl)) fun _ _ _ => ?_
  exact .literal_seq hnext.nonempty fun _ _ => .map (ih.statements (by omega) hnext) _

theorem statementBody_succ (hn : 12 * ts.length + 2 ≤ n + 1)
    (hK : Begins [.string, .literal "annotation", .literal ";"] K) :
    Reads [] (Parser.statementBody (n + 1)) (.rule .statementOptions) K ts := by
  have hne := hK.nonempty
  have hone := Follow.of_nonempty hne
  have hexpr : Follow expressionTail K := hK.follow rfl
  have hE := readsExpressions n
  rw [Parser.statementBody]
  simp only [pure_bind, bind_assoc]
  apply Reads.rule
  refine .congr (e := alts [.seq (word "(") (seqs [separated "," (.rule .componentReference), word ")", word ":=",
      .rule .componentReference, .rule .functionCallArgs]),
    .seq (word "break") .empty, .seq (word "return") .empty,
    .seq (word "if") (seqs [.rule .expression, word "then", .rule .statementBlock, branchesOf "elseif" .statementBlock,
      opt (seqs [word "else", .rule .statementBlock]), word "end", word "if"]),
    .seq (word "for") (seqs [.rule .forIndices, word "loop", .rule .statementBlock, word "end", word "for"]),
    .seq (word "while") (seqs [.rule .expression, word "loop", .rule .statementBlock, word "end", word "while"]),
    .seq (word "when") (seqs [.rule .expression, word "then", .rule .statementBlock,
      branchesOf "elsewhen" .statementBlock, word "end", word "when"]),
    .seq (.rule .componentReference) (.alt (.seq (word ":=") (.rule .expression)) (.rule .functionCallArgs))]) ?_ ?_
  · refine .ifAccept (fun _ _ => ?_) (fun _ => ?_) (hone.mul rfl)
    · refine .seq_lt rfl (.separated (hone.mul rfl) rfl fun _ _ => ?_) fun _ rest hrest => ?_
      · exact hE.reference_of (by omega) ((hone.mul (X := referenceTail) rfl).mul rfl)
      refine .literal_seq hne fun _ _ => .literal_seq hne fun rest hrest => ?_
      refine .seq_lt rfl (hE.reference_of (by omega) (hone.mul rfl)) fun _ _ _ => ?_
      exact .map (hE.callArguments (by omega) hne) _
    refine .ifAccept (fun _ _ => .pure _) (fun _ => ?_) (hone.mul rfl)
    refine .ifAccept (fun _ _ => .pure _) (fun _ => ?_) (hone.mul rfl)
    refine .ifAccept (fun _ _ => ?_) (fun _ => ?_) (hone.mul rfl)
    · refine .seq_lt rfl (hE.expression (by omega) (hone.mul rfl)) fun _ _ _ => ?_
      refine .literal_seq hne fun _ _ => ?_
      refine .seq (ih.statements (by omega) (hone.mul rfl)) fun _ _ _ => ?_
      refine .seq (ih.statementBranches (by omega) (by decide) (hone.mul rfl)) fun _ _ _ => ?_
      refine .ifAccept_of_eq (e := seqs [.rule .statementBlock, word "end", word "if"]) (d := seqs [word "end", word "if"])
        (fun _ _ => ?_) (fun _ => ?_) (hone.mul rfl) ?_
      · refine .seq (ih.statements (by omega) (hone.mul rfl)) fun _ _ _ => ?_
        exact .literal_seq hne fun _ _ => .map (.literal hne) _
      · exact .literal_seq hne fun _ _ => .map (.literal hne) _
      · simp only [seqs, opt, lang_alt, lang_seq, lang_empty, add_mul, one_mul, mul_assoc]
        abel
    refine .ifAccept (fun _ _ => ?_) (fun _ => ?_) (hone.mul rfl)
    · refine .seq_lt rfl (iterators_reads (by omega) (hone.mul rfl)) fun _ _ _ => ?_
      refine .literal_seq hne fun _ _ => ?_
      refine .seq (ih.statements (by omega) (hone.mul rfl)) fun _ _ _ => ?_
      exact .literal_seq hne fun _ _ => .map (.literal hne) _
    refine .ifAccept (fun _ _ => ?_) (fun _ => ?_) (hone.mul rfl)
    · refine .seq_lt rfl (hE.expression (by omega) (hone.mul rfl)) fun _ _ _ => ?_
      refine .literal_seq hne fun _ _ => ?_
      refine .seq (ih.statements (by omega) (hone.mul rfl)) fun _ _ _ => ?_
      exact .literal_seq hne fun _ _ => .map (.literal hne) _
    refine .ifAccept (fun _ _ => ?_) (fun _ => ?_) (hone.mul rfl)
    · refine .seq_lt rfl (hE.expression (by omega) (hone.mul rfl)) fun _ _ _ => ?_
      refine .literal_seq hne fun _ _ => ?_
      refine .seq (ih.statements (by omega) (hone.mul rfl)) fun _ _ _ => ?_
      refine .seq (ih.statementBranches (by omega) (by decide) (hone.mul rfl)) fun _ _ _ => ?_
      exact .literal_seq hne fun _ _ => .map (.literal hne) _
    refine .seq_lt rfl (hE.reference_of (by omega) (hone.mul rfl)) fun _ _ _ => ?_
    exact .ifAccept (fun _ _ => .map (hE.expression (by omega) hexpr) _)
      (fun _ => .map (hE.callArguments (by omega) hne) _) (hone.mul rfl)
  · have hif := lang_rule .ifStatement
    have hfor := lang_rule .forStatement
    have hwhile := lang_rule .whileStatement
    have hwhen := lang_rule .whenStatement
    simp only [Rule.body, alts, branchesOf, seqs, lang_alt, lang_seq, lang_empty, mul_one, mul_add] at hif hfor hwhile hwhen ⊢
    rw [hif, hfor, hwhile, hwhen]
    abel

end ReadsStatements

theorem readsStatements (n : Nat) : ReadsStatements n := by
  induction n with
  | zero => constructor <;> intros <;> omega
  | succ n ih =>
    exact ⟨ih.statements_succ, ih.statement_succ, ih.statementBody_succ, ih.statementBranches_succ⟩

end Modelica.Syntax
