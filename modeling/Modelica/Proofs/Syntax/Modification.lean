/-
Modifications, declarations and comments are read as the grammar has them
(`readsModifications`).

They may hold one another to any depth, so all of them are shown together by induction
on the steps to go.
-/
import Modelica.Proofs.Syntax.Expression
import Modelica.Syntax.Parser.Modification

namespace Modelica.Grammar

/-! ### What may not follow -/

def commentTail : List Terminal := [.string, .literal "+", .literal "annotation"]

def modificationTail : List Terminal := .literal "(" :: .literal "=" :: .literal ":=" :: expressionTail

end Modelica.Grammar

namespace Modelica.Syntax

open Grammar Grammar.Pattern

variable {K : Language Terminal} {ts : List Token} {n : Nat}

/-! ### Words in front of classes and components -/

theorem category_reads (hK : Follow [.literal "record", .literal "function"] K) :
    Reads [] Parser.category (.rule .classType) K ts := by
  apply Reads.rule
  refine .congr (e := alts [.seq (word "operator") (alts [.seq (word "record") .empty, .seq (word "function") .empty, .empty]),
    .seq (word "expandable") (word "connector"),
    .seq (words ["pure", "impure"]) (.seq (opt (word "operator")) (word "function")),
    words ["class", "model", "record", "block", "connector", "type", "package", "function"]]) ?_ ?_
  · refine .ifAccept (fun _ _ => ?_) (fun _ => ?_) (hK.mul rfl)
    · refine .ifAccept (fun _ _ => .pure _) (fun _ => ?_) (hK.mul rfl)
      exact .ifAccept (fun _ _ => .pure _) (fun _ => .pure _) (hK.mul rfl)
    · refine .ifAccept (fun _ _ => .map (.literal hK.nonempty) _) (fun _ => ?_) (hK.mul rfl)
      refine .acceptAny (by simp) (fun purity rest _ => ?_) (fun _ => .oneOf (by simp) hK.nonempty) (hK.mul rfl)
        (lang_alt _ _)
      exact .optional (fun _ _ _ => .map (.literal hK.nonempty) _) (hK.mul rfl)
  · simp only [Rule.body, alts, seqs, opt, words, List.map, lang_alt, lang_seq, lang_empty, mul_one, mul_add, one_mul, add_mul]
    abel

theorem keywords_reads (hK : Follow (prefixStart.map .literal) K) :
    Reads [] Parser.keywords (.rule .typePrefix) K ts := by
  apply Reads.rule
  refine .optionalAny (by simp) (fun _ _ _ => ?_) (hK.mul rfl)
  refine .optionalAny (by simp) (fun _ _ _ => ?_) (hK.mul rfl)
  refine .acceptAny (e := .empty) (d := .empty) (by simp) (fun _ _ _ => .pure _) (fun _ => .pure _) (hK.mul rfl) ?_
  simp only [seqs, opt, lang_alt, lang_seq, lang_empty, mul_one]
  abel

theorem stringComment_reads (hK : Follow [.string, .literal "+"] K) :
    Reads [] Parser.stringComment (.rule .stringComment) K ts := by
  apply Reads.rule
  refine .ifSeesTerminal (fun _ => .separated (hK.mono (by decide)) rfl fun _ _ => .terminal (mul_nonempty _ hK.nonempty))
    (fun _ => .pure _) rfl (List.Subset.refl _) (hK.mul rfl) (lang_opt _)

theorem lang_typeSpecifier : lang (.rule .typeSpecifier) = lang (separated "." ident) := by
  have helement : lang (.rule .typeSpecifierElement) = lang ident := lang_rule _
  rw [lang_rule]
  simp [Rule.body, separated, lang_star, helement]

theorem takesSubscripts_opt (hK : Follow [.literal "["] K) :
    TakesSubscripts (lang (opt (.rule .arraySubscripts)) * K) := by
  intro w hw hhead
  have hle : K ≤ lang (opt (.rule .arraySubscripts)) * K := fun w hw =>
    Language.append_mem_mul (show [] ∈ lang (opt _) from .left .empty) hw
  rw [opt, lang_alt, lang_empty, add_mul, one_mul, Language.mem_add] at hw
  refine mul_le_mul_right hle _ (hw.resolve_left fun h => ?_)
  exact hK.avoids w h _ (.head _) hhead

/-- What the parsers of modifications read with `n` steps to go. -/
structure ReadsModifications (n : Nat) : Prop where
  classModification : ReadsIn 1 Parser.classModification (.rule .classModification) (fun K => ∃ w, w ∈ K) n
  modificationArgument : ReadsIn 2 Parser.modificationArgument (.rule .argument) (Begins [.literal ",", .literal ")"]) n
  change : ReadsIn 2 Parser.change (opt (.rule .modification)) (Follow modificationTail) n
  constraint : ReadsIn 1 Parser.constraint (opt (.rule .constrainingClause))
    (Follow [.literal "constrainedby", .literal ".", .literal "("]) n
  redeclared : ReadsIn 1 Parser.redeclared (.alt (.rule .shortClassDefinition) (.rule .componentClause1))
    (Begins [.literal "constrainedby", .literal ",", .literal ")"]) n
  enumeration : ∀ {K ts}, 12 * ts.length + 1 ≤ n → (∃ w, w ∈ K) →
    Reads [] (Parser.enumeration n) (seqs [word "(", .alt (opt (.rule .enumList)) (word ":"), word ")"]) K ts
  declaration : ReadsIn 1 Parser.declaration (.rule .declaration) (Follow modificationTail) n
  optionalModification : ReadsIn 2 Parser.optionalModification (opt (.rule .classModification))
    (Follow [.literal "("]) n
  remarks : ReadsIn 1 Parser.remarks (opt (.rule .annotationClause)) (Follow [.literal "annotation"]) n
  comment : ReadsIn 2 Parser.comment (.rule .comment) (Follow commentTail) n

namespace ReadsModifications

section

variable (ih : ReadsModifications n)

include ih

theorem classModification_succ : ReadsIn 1 Parser.classModification (.rule .classModification)
    (fun K => ∃ w, w ∈ K) (n + 1) := by
  intro K ts hn hK
  have hclose := begins_word ")" hK
  rw [Parser.classModification]
  apply Reads.rule
  refine .literal_seq hK fun rest hrest => ?_
  refine .ifAccept_of_eq (e := .empty) (d := seqs [.rule .argumentList, word ")"]) (fun _ _ => .pure _) (fun _ => ?_)
    ((Follow.of_nonempty hK).mul rfl) ?_
  · refine .seq_lt rfl (.rule (.separated (hclose.follow rfl) rfl fun rest' hrest' => ?_))
      fun _ _ _ => .map (.literal hK) _
    exact ih.modificationArgument (by omega) (hclose.mul (by decide) (by decide))
  · simp [seqs, opt, add_mul]

theorem change_succ : ReadsIn 2 Parser.change (opt (.rule .modification)) (Follow modificationTail) (n + 1) := by
  intro K ts hn hK
  have hexpr : Follow expressionTail K := hK.mono fun t ht => by simp [modificationTail, ht]
  have hexpression := @(readsExpressions n).expression K
  rw [Parser.change]
  refine .congr (e := alts [.seq (.rule .classModification) (opt (.seq (word "=") (.rule .expression))),
    .seq (word "=") (.rule .expression), .seq (word ":=") (.rule .expression), .empty]) ?_ ?_
  · refine .ifSees (fun _ => ?_) (fun _ => ?_) rfl (by decide) (hK.mul rfl) (lang_alt _ _)
    · refine .seq_lt rfl (ih.classModification (by omega) (mul_nonempty _ hK.nonempty)) fun _ rest hrest => ?_
      exact .ifAccept_of_eq (fun rest' hrest' => .map (hexpression (by omega) hexpr) _) (fun _ => .pure _)
        (hK.mul rfl) (lang_opt _)
    · refine .ifAccept (fun _ _ => .map (hexpression (by omega) hexpr) _) (fun _ => ?_) (hK.mul rfl)
      exact .ifAccept (fun _ _ => .map (hexpression (by omega) hexpr) _) (fun _ => .pure _) (hK.mul rfl)
  · have hrule := lang_rule .modification
    simp only [Rule.body, alts, seqs, opt, lang_alt, lang_seq, lang_empty] at hrule ⊢
    rw [hrule]
    abel

theorem constraint_succ : ReadsIn 1 Parser.constraint (opt (.rule .constrainingClause))
    (Follow [.literal "constrainedby", .literal ".", .literal "("]) (n + 1) := by
  intro K ts hn hK
  rw [Parser.constraint]
  refine .ifAccept_of_eq (e := seqs [.rule .name, opt (.rule .classModification)]) (d := .empty) (fun rest hrest => ?_)
    (fun _ => .pure _) (hK.mul rfl) ?_
  · refine .seq_lt rfl (qualifiedName_reads (hK.mul rfl)) fun name rest' hrest' => ?_
    exact .ifSees (fun _ => .map (ih.classModification (by omega) hK.nonempty) _) (fun _ => .pure _) rfl
      (List.Subset.refl _) (hK.mul rfl) (lang_opt _)
  · rw [lang_opt, lang_rule]
    rfl

theorem redeclared_succ : ReadsIn 1 Parser.redeclared (.alt (.rule .shortClassDefinition) (.rule .componentClause1))
    (Begins [.literal "constrainedby", .literal ",", .literal ")"]) (n + 1) := by
  intro K ts hn hK
  have hne := hK.nonempty
  have hone := Follow.of_nonempty hne
  have hcomment : Follow commentTail K := hK.follow rfl
  rw [Parser.redeclared]
  refine .ifSeesAny (.rule ?_) (fun _ => .rule ?_) rfl (by decide) (hone.mul rfl) (lang_alt _ _)
  · simp only [discard_bind]
    refine .congr (e := .seq (opt (word "partial")) (seqs [.rule .classType, ident, word "=",
      .alt (seqs [word "enumeration", seqs [word "(", .alt (opt (.rule .enumList)) (word ":"), word ")"], .rule .comment])
        (seqs [.rule .basePrefix, .rule .componentReference, opt (.rule .arraySubscripts),
          opt (.rule .classModification), .rule .comment])])) ?_ ?_
    · refine .optional (fun _ rest hrest => ?_) (hone.mul rfl)
      refine .seq_lt rfl (category_reads (hone.mul rfl)) fun kind rest hrest => ?_
      refine .ident_seq hne fun name rest hrest => .literal_seq hne fun _ _ => ?_
      refine .ifAccept (fun rest hrest => ?_) (fun _ => ?_) (hone.mul rfl)
      · refine .seq_lt rfl (ih.enumeration (by omega) (mul_nonempty _ hne)) fun items rest hrest => ?_
        exact .map (ih.comment (by omega) hcomment) _
      · refine .seq (.rule (keywords_reads (hone.mul rfl))) fun _ _ _ => ?_
        have htail : Follow [.literal ".", .literal "["] (lang (seqs [opt (.rule .classModification), .rule .comment]) * K) :=
          hK.before rfl
        have hsub : TakesSubscripts (lang (seqs [opt (.rule .arraySubscripts), opt (.rule .classModification),
            .rule .comment]) * K) := by
          show TakesSubscripts (lang (.seq _ _) * K)
          rw [lang_seq, mul_assoc]
          exact takesSubscripts_opt (htail.mono (by simp))
        refine .seq_lt rfl ((readsExpressions n).reference (by omega)
          (hK.before rfl) hsub) fun _ _ _ => ?_
        refine .seq ((readsExpressions n).subscripts (by omega) htail.nonempty (htail.takesSubscripts (by simp)))
          fun _ _ _ => ?_
        refine .seq (ih.optionalModification (by omega) (hK.before
          (by decide))) fun _ _ _ => .map (ih.comment (by omega) hcomment) _
    · have hprefixes := lang_rule .classPrefixes
      simp only [Rule.body, seqs, opt, lang_alt, lang_seq, lang_empty] at hprefixes ⊢
      simp only [hprefixes, mul_assoc, mul_add, add_mul]
      abel
  · refine .congr (e := seqs [.rule .typePrefix, separated "." ident, .rule .declaration, .rule .comment]) ?_ ?_
    · refine .seq (keywords_reads (hone.mul rfl)) fun _ _ _ => ?_
      refine .seq_lt rfl (names_reads (hone.mul rfl)) fun _ _ _ => ?_
      refine .seq_lt rfl (ih.declaration (by omega) (hK.before rfl))
        fun _ _ _ => .map (ih.comment (by omega) hcomment) _
    · have hdecl := lang_rule .componentDeclaration1
      simp only [Rule.body, seqs, lang_seq] at hdecl ⊢
      rw [hdecl, lang_typeSpecifier]

theorem modificationArgument_succ : ReadsIn 2 Parser.modificationArgument (.rule .argument)
    (Begins [.literal ",", .literal ")"]) (n + 1) := by
  intro K ts hn hK
  have hne := hK.nonempty
  have hone := Follow.of_nonempty hne
  have htarget : Begins [.literal "constrainedby", .literal ",", .literal ")"] K := hK.mono (by decide)
  have hlimit : Follow [.literal "constrainedby", .literal ".", .literal "("] K := hK.follow rfl
  -- A replacement, with or without a limit to what may replace it.
  have hreplaceable : ∀ {rest : List Token}, rest.length < ts.length → ∀ g : Redeclared → Constraint → Argument,
      Reads [] (Parser.redeclared n >>= fun target => Parser.constraint n >>= fun limit => pure (g target limit))
        (.seq (.alt (.rule .shortClassDefinition) (.rule .componentClause1)) (opt (.rule .constrainingClause))) K rest :=
    fun hrest g => .seq_lt rfl (ih.redeclared (by omega) (htarget.mul (by decide) (List.Subset.refl _)))
      fun target rest' hrest' => .map (ih.constraint (by omega) hlimit) _
  have hreplaceable_lang := lang_rule .elementReplaceable
  rw [Parser.modificationArgument]
  simp only [discard_bind]
  refine .rule (.ifAccept_of_eq (e := .seq (opt (word "each")) (.seq (opt (word "final")) (.alt (.rule .elementReplaceable)
    (.alt (.rule .shortClassDefinition) (.rule .componentClause1)))))
    (d := .rule .elementModificationOrReplaceable) (fun _ _ => ?_) (fun _ => .rule ?_) (hone.mul rfl) ?_)
  · refine .optional (fun _ _ _ => ?_) (hone.mul rfl)
    refine .optional (fun _ _ _ => ?_) (hone.mul rfl)
    refine .ifAccept_of_eq (fun _ _ => hreplaceable (by omega) _) (fun _ => .map (ih.redeclared (by omega) htarget) _)
      (hone.mul rfl) ?_
    rw [lang_alt, hreplaceable_lang]
    rfl
  · refine .optional (fun _ _ _ => ?_) (hone.mul rfl)
    refine .optional (fun _ _ _ => ?_) (hone.mul rfl)
    refine .ifAccept_of_eq (d := .rule .elementModification) (fun _ _ => hreplaceable (by omega) _) (fun _ => .rule ?_)
      (hone.mul rfl) ?_
    · refine .seq_lt rfl ((readsExpressions n).reference_of (by omega) (hK.before rfl))
        fun _ _ _ => ?_
      refine .seq (ih.change (by omega) (hK.before rfl))
        fun _ _ _ => ?_
      exact .map (stringComment_reads (hK.follow rfl)) _
    · rw [seqs, lang_alt, hreplaceable_lang]
      exact add_comm _ _
  · have hredeclaration := lang_rule .elementRedeclaration
    simp only [Rule.body, seqs, lang_alt, lang_seq] at hredeclaration ⊢
    rw [hredeclaration, add_comm, add_comm (lang (.rule .elementReplaceable))]

theorem enumeration_succ (hn : 12 * ts.length + 1 ≤ n + 1) (hK : ∃ w, w ∈ K) :
    Reads [] (Parser.enumeration (n + 1)) (seqs [word "(", .alt (opt (.rule .enumList)) (word ":"), word ")"]) K ts := by
  have hclose := begins_word ")" hK
  rw [Parser.enumeration]
  refine .literal_seq hK fun rest hrest => ?_
  refine .ifAccept_of_eq (e := word ")") (d := .alt (word ")") (seqs [.rule .enumList, word ")"]))
    (fun _ _ => .map (.literal hK) _) (fun _ => ?_) ((Follow.of_nonempty hK).mul rfl) ?_
  · refine .ifAccept_of_eq (e := .empty) (d := seqs [.rule .enumList, word ")"]) (fun _ _ => .pure _) (fun _ => ?_)
      ((Follow.of_nonempty hK).mul rfl) ?_
    · refine .seq_lt rfl (.rule (.separated (hclose.follow rfl) rfl fun rest' hrest' => .rule ?_))
        fun _ _ _ => .map (.literal hK) _
      have hnext : Begins [.literal ",", .literal ")"]
          (lang (.star (.seq (word ",") (.rule .enumerationLiteral))) * (lang (word ")") * K)) :=
        hclose.mul (by decide) (by decide)
      exact .ident_seq hnext.nonempty fun name rest'' hrest'' => .map (ih.comment (by omega) (hnext.follow rfl)) _
    · rw [lang_alt, lang_seq, lang_empty, mul_one]
  · simp only [seqs, opt, lang_alt, lang_seq, lang_empty, add_mul, one_mul]
    abel

theorem declaration_succ : ReadsIn 1 Parser.declaration (.rule .declaration) (Follow modificationTail) (n + 1) := by
  intro K ts hn hK
  have hchange : Follow [.literal "["] (lang (opt (.rule .modification)) * K) := hK.mul rfl
  rw [Parser.declaration]
  refine .rule (.ident_seq hK.nonempty fun name rest hrest => ?_)
  refine .seq ((readsExpressions n).subscripts (by omega) hchange.nonempty (hchange.takesSubscripts (by simp)))
    fun _ rest' hrest' => ?_
  exact .map (ih.change (by omega) hK) _

theorem optionalModification_succ : ReadsIn 2 Parser.optionalModification (opt (.rule .classModification))
    (Follow [.literal "("]) (n + 1) := by
  intro K ts hn hK
  rw [Parser.optionalModification]
  exact .ifSees (fun _ => .map (ih.classModification (by omega) hK.nonempty) _) (fun _ => .pure _) rfl
    (List.Subset.refl _) (hK.mul rfl) (lang_opt _)

theorem remarks_succ : ReadsIn 1 Parser.remarks (opt (.rule .annotationClause))
    (Follow [.literal "annotation"]) (n + 1) := by
  intro K ts hn hK
  rw [Parser.remarks]
  refine .ifAccept_of_eq (e := .rule .classModification) (d := .empty)
    (fun _ _ => .map (ih.classModification (by omega) hK.nonempty) _) (fun _ => .pure _) (hK.mul rfl) ?_
  rw [lang_opt, lang_rule]
  rfl

theorem comment_succ : ReadsIn 2 Parser.comment (.rule .comment) (Follow commentTail) (n + 1) := by
  intro K ts hn hK
  rw [Parser.comment]
  refine .rule (.seq (stringComment_reads (hK.mul rfl)) fun _ _ _ => ?_)
  exact .map (ih.remarks (by omega) (hK.mono (by simp [commentTail]))) _

end

end ReadsModifications

theorem readsModifications (n : Nat) : ReadsModifications n := by
  induction n with
  | zero => constructor <;> intros <;> omega
  | succ n ih =>
    exact ⟨ih.classModification_succ, ih.modificationArgument_succ, ih.change_succ, ih.constraint_succ, ih.redeclared_succ,
      ih.enumeration_succ, ih.declaration_succ, ih.optionalModification_succ, ih.remarks_succ, ih.comment_succ⟩

end Modelica.Syntax
