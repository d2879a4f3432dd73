/-
Equations are read as the grammar has them (`readsEquations`).

An equation may begin with `end` or `initial`, and these words may also follow the
equations of a block. The token behind them decides (`exists_of_end`,
`head_of_initial`), so a block is read with two tokens ahead at these words.
-/
import Modelica.Proofs.Syntax.Call

namespace Modelica.Grammar

open Pattern Rule

variable {K : Language Terminal} {w : List Terminal}

/-- What follows the left side of an equation. -/
def equationRest : Pattern := seqs [word "=", expression, comment, word ";"]

theorem mem_of_primary {u v} (hu : u ∈ lang (.rule primary)) (hv : v ∈ lang equationRest * K) :
    u ++ v ∈ lang (seqs [equation, word ";"]) * K := by
  have hleft : u ∈ lang (.rule simpleExpression) := by
    rw [lang_simpleExpression, Language.mem_add]
    have hrest : [] ∈ lang primaryRest := .seq (.left .empty) (.seq .done (.left .empty))
    exact .inl (u.append_nil ▸ .seq hu hrest)
  have hle : lang (.rule simpleExpression) * lang equationRest ≤ lang (seqs [equation, word ";"]) := by
    have hequation := lang_rule equation
    have hoptions := lang_rule equationOptions
    simp only [Rule.body, equationRest, alts, seqs, lang_seq, lang_alt] at hequation hoptions ⊢
    rw [hequation, hoptions]
    simp only [add_mul, mul_assoc]
    exact le_self_add
  have h := Language.append_mem_mul hleft hv
  rw [← mul_assoc] at h
  exact mul_le_mul_left hle K h

theorem primary_of_equation {t} (h : t :: w ∈ lang (seqs [equation, word ";"]) * K)
    (ht : t = .literal "end" ∨ t = .literal "initial") :
    t :: w ∈ lang (.rule primary) * (lang primaryRest * (lang equationRest * K)) := by
  have hequation := lang_rule equation
  simp only [Rule.body, seqs, lang_seq] at hequation
  simp only [seqs, lang_seq, hequation, lang_rule equationOptions, mul_assoc] at h
  obtain ⟨p, hp, h⟩ := exists_branch h
  obtain rfl : p = seqs [simpleExpression, word "=", expression] := by
    rcases ht with rfl | rfl <;> exact List.mem_singleton.1 hp
  simp only [seqs, lang_seq, mul_assoc] at h
  have h := mem_of_head h lang_simpleExpression rfl (by rcases ht with rfl | rfl <;> decide)
  simpa only [equationRest, seqs, lang_seq, mul_assoc] using h

end Modelica.Grammar

namespace Modelica.Syntax

open Grammar Grammar.Pattern List Language

variable {K : Language Terminal} {ts : List Token} {n : Nat}

variable {w : List Terminal}

/-- The terminals that begin an equation and do not close a block. -/
def equationStart : List Terminal :=
  [.ident, .number, .string] ++ Parser.equationWords.map .literal

/-- What may follow `end` in an equation. -/
def afterEnd : List Terminal := Parser.afterPrimary.map .literal

theorem equation_first : ∀ t ∈ Rule.equation.first,
    t ∈ equationStart ∨ t = .literal "initial" ∨ t = .literal "end" := by decide

theorem exists_of_end (hK : ∃ w, w ∈ K) (h : .literal "end" :: w ∈ lang (seqs [.rule .equation, word ";"]) * K) :
    ∃ x ∈ afterEnd, w.head? = some x := by
  have hrest : Begins afterEnd (lang primaryRest * (lang equationRest * K)) := by
    have hstart : Begins [.literal "="] (lang equationRest * K) := begins_first rfl rfl hK
    exact hstart.mul (by decide) (by decide)
  have h := primary_of_equation h (.inl rfl)
  rw [lang_rule] at h
  obtain ⟨p, hp, h⟩ := exists_branch h
  obtain rfl : p = word "end" := mem_singleton.1 hp
  exact hrest.head w (cons_mem_terminal_mul.1 h).2

theorem head_of_initial (h : .literal "initial" :: w ∈ lang (seqs [.rule .equation, word ";"]) * K) :
    w.head? = some (.literal "(") := by
  have h := primary_of_equation h (.inr rfl)
  rw [lang_rule] at h
  obtain ⟨p, hp, h⟩ := exists_branch h
  obtain rfl : p = seqs [word "initial", .rule .functionCallArgs] := mem_singleton.1 hp
  simp only [seqs, lang_seq, mul_assoc] at h
  exact head_eq_first rfl rfl (cons_mem_terminal_mul.1 h).2

theorem exists_primary {t} (ht : t = .literal "end" ∨ t = .literal "initial") :
    ∃ u, t :: u ∈ lang (.rule .primary) := by
  rcases ht with rfl | rfl
  · exact ⟨[], .rule (mem_of_branch (t := .literal "end") (mem_singleton_self _) (.terminal _))⟩
  · refine ⟨[.literal "(", .literal ")"], .rule (mem_of_branch (t := .literal "initial") (mem_singleton_self _) ?_)⟩
    exact .seq (.terminal _) (.rule (.seq (.terminal _) (.seq (.left .empty) (.terminal _))))

/-- The words that may follow the equations of a block. In the blocks of an equation
(`nested`) no section follows. -/
structure EndsBlock (nested : Bool) (K : Language Terminal) : Prop where
  follow : Follow equationStart K
  after_end {v : List Terminal} : .literal "end" :: v ∈ K → ∀ t ∈ afterEnd, v.head? ≠ some t
  after_initial {v : List Terminal} : .literal "initial" :: v ∈ K → nested = false ∧ v.head? ≠ some (.literal "(")

/-- The words that close a block of an equation. -/
structure ClosesBlock (K : Language Terminal) : Prop extends EndsBlock true K where
  ends : ∃ v, .literal "end" :: v ∈ K

theorem mem_equation_first : ∀ t ∈ .literal "end" :: .literal "initial" :: equationStart, t ∈ Rule.equation.first := by
  decide

variable {nested : Bool} {e d : Pattern}

theorem EndsBlock.mul (h : EndsBlock nested K) (he : ∀ t ∈ e.first, t ∉ Rule.equation.first) :
    EndsBlock nested (lang e * K) := by
  have hmem : ∀ {t : Terminal} {v : List Terminal}, t ∈ Rule.equation.first → t :: v ∈ lang e * K → t :: v ∈ K :=
    fun ht hv => mem_of_not_first hv fun x hx hx' => he x hx (Option.some.inj hx' ▸ ht)
  refine ⟨h.follow.mul_of_first fun t ht ht' => ?_, fun hv => ?_, fun hv => ?_⟩
  · exact he t ht (mem_equation_first t (by simp [ht']))
  · exact h.after_end (hmem (mem_equation_first _ (by simp)) hv)
  · exact h.after_initial (hmem (mem_equation_first _ (by simp)) hv)

theorem ClosesBlock.seq (h : ClosesBlock (lang d * K)) (hnil : [] ∈ lang e)
    (he : ∀ t ∈ e.first, t ∉ Rule.equation.first) : ClosesBlock (lang (.seq e d) * K) := by
  rw [lang_seq, mul_assoc]
  refine ⟨h.toEndsBlock.mul he, ?_⟩
  obtain ⟨v, hv⟩ := h.ends
  exact ⟨v, append_mem_mul hnil hv⟩

theorem ClosesBlock.reads {α β : Type} {p : Parser α} {q : α → Parser β} (h : ClosesBlock (lang d * K))
    (hp : Reads [.literal "end"] p e (lang d * K) ts) (hd : d.nullable = false)
    (hq : ∀ a rest, rest.length ≤ ts.length → Reads [] (q a) d K rest) : Reads [] (p >>= q) (.seq e d) K ts :=
  .seq_of hp hq hd fun _ ht => mem_singleton.1 ht ▸ h.ends

theorem closesBlock_end (word : String) (hK : ∃ w, w ∈ K) (hword : .literal word ∉ afterEnd) :
    ClosesBlock (lang (seqs [Pattern.word "end", Pattern.word word]) * K) := by
  have hhead : ∀ {t : Terminal} {v : List Terminal}, t :: v ∈ lang (seqs [Pattern.word "end", Pattern.word word]) * K →
      t = .literal "end" ∧ v ∈ lang (Pattern.word word) * K := fun h => by
    rw [seqs, lang_seq, mul_assoc] at h
    · exact cons_mem_terminal_mul.1 h
    · simp
  refine ⟨⟨(Follow.of_nonempty hK).mul rfl, fun hv t ht h => ?_, fun hv => ?_⟩, ?_⟩
  · obtain ⟨x, hx, hx'⟩ := (begins_word word hK).head _ (hhead hv).2
    obtain rfl := mem_singleton.1 hx
    exact hword (Option.some.inj (hx'.symm.trans h) ▸ ht)
  · exact absurd (hhead hv).1 (by decide)
  · obtain ⟨w, hw⟩ := hK
    refine ⟨.literal word :: w, ?_⟩
    rw [seqs, lang_seq, mul_assoc]
    · exact cons_mem_terminal_mul.2 ⟨rfl, cons_mem_terminal_mul.2 ⟨rfl, hw⟩⟩
    · simp

/-- The words that take a second token to decide on. -/
def openWords (nested : Bool) : List Terminal :=
  if nested then [.literal "end"] else [.literal "end", .literal "initial"]

theorem startsEquation_iff {nested} : Parser.startsEquation nested ts = true ↔
    (∃ t ∈ equationStart, (kinds ts).head? = some t) ∨
      ((kinds ts).head? = some (.literal "initial") ∧
        (nested = true ∨ (kinds ts).tail.head? = some (.literal "("))) ∨
      ((kinds ts).head? = some (.literal "end") ∧ ∃ x ∈ afterEnd, (kinds ts).tail.head? = some x) := by
  match ts with
  | [] => simp [Parser.startsEquation]
  | [a] => simp [Parser.startsEquation, equationStart, Token.is, or_assoc, eq_comm (a := a.terminal)]
  | a :: b :: rest =>
    simp [Parser.startsEquation, equationStart, afterEnd, Token.is, or_assoc, eq_comm (a := a.terminal),
      eq_comm (a := b.terminal)]

/-- What the parsers of equations read with `n` steps to go. -/
structure ReadsEquations (n : Nat) : Prop where
  equations : ∀ {K ts nested}, 12 * ts.length + 9 ≤ n → EndsBlock nested K →
    Reads (openWords nested) (Parser.equations n nested) (.rule .equationBlock) K ts
  equation : ReadsIn 8 Parser.equation (.rule .equation) (Begins [.literal ";"]) n
  equationBody : ReadsIn 7 Parser.equationBody (.rule .equationOptions)
    (Begins [.string, .literal "annotation", .literal ";"]) n
  equationBranches : ∀ {K ts branch}, 12 * ts.length + 1 ≤ n →
    .literal branch ∉ Rule.equation.first → Follow [.literal branch] K → ClosesBlock K →
    Reads [.literal "end"] (Parser.equationBranches n branch) (branchesOf branch .equationBlock) K ts

namespace ReadsEquations

section

variable (ih : ReadsEquations n)

variable {branch : String}

include ih

theorem equations_succ {nested} (hn : 12 * ts.length + 9 ≤ n + 1) (hK : EndsBlock nested K) :
    Reads (openWords nested) (Parser.equations (n + 1) nested) (.rule .equationBlock) K ts := by
  have hnext : ∃ w, w ∈ lang (.star (seqs [.rule .equation, word ";"])) * K := mul_nonempty _ hK.follow.nonempty
  -- Both words may begin an equation.
  have hstart : ∀ t, t = .literal "end" ∨ t = .literal "initial" →
      ∃ w, t :: w ∈ lang (.seq (seqs [.rule .equation, word ";"]) (.star (seqs [.rule .equation, word ";"]))) * K := by
    intro t ht
    obtain ⟨v, hv⟩ := mul_nonempty equationRest hnext
    obtain ⟨u, hu⟩ : ∃ u, t :: u ∈ lang (.rule .primary) := exists_primary ht
    refine ⟨u ++ v, ?_⟩
    rw [lang_seq, mul_assoc]
    exact mem_of_primary hu hv
  rw [Parser.equations]
  refine .rule (.repeatAux_of (k := ts.length) rfl (fun rest hrest hmore => ⟨?_, ?_⟩) (fun rest hmore w hw hagrees => ?_)
    (fun t ht => ⟨?_, .inl ht⟩) le_rfl)
  · exact .seq_lt rfl (ih.equation (by omega) (begins_word ";" hnext)) fun _ _ _ => .map (.literal hnext) _
  · rcases startsEquation_iff.1 hmore with ⟨t, ht, hhead⟩ | ⟨hhead, hsecond⟩ | ⟨hhead, x, hx, hsecond⟩
    · exact .inl (hK.follow.not_near ht hhead)
    · obtain ⟨v, hv⟩ := hstart _ (.inr rfl)
      refine .inr ⟨⟨_, hv, near_one_iff.2 hhead.symm⟩, fun w hw hnear => ?_⟩
      obtain ⟨hw_head, hw_second⟩ := near_two_iff.1 hnear
      obtain ⟨w, rfl⟩ := List.head?_eq_some_iff.1 (hw_head.trans hhead)
      obtain ⟨hnested, hnot⟩ := hK.after_initial hw
      exact hnot (hw_second.trans (hsecond.resolve_left (by simp [hnested])))
    · obtain ⟨v, hv⟩ := hstart _ (.inl rfl)
      refine .inr ⟨⟨_, hv, near_one_iff.2 hhead.symm⟩, fun w hw hnear => ?_⟩
      obtain ⟨hw_head, hw_second⟩ := near_two_iff.1 hnear
      obtain ⟨w, rfl⟩ := List.head?_eq_some_iff.1 (hw_head.trans hhead)
      exact hK.after_end hw x hx (hw_second.trans hsecond)
  · -- No equation begins where the loop ends.
    rw [lang_seq, mul_assoc] at hw
    have hnot : ¬ Parser.startsEquation nested rest = true := by simp [hmore]
    obtain ⟨x, hx, hw_head⟩ := exists_first rfl hw
    obtain ⟨w, rfl⟩ := List.head?_eq_some_iff.1 hw_head
    have hhead := (near_one_iff.1 hagrees.near).symm
    refine hnot (startsEquation_iff.2 ?_)
    rcases equation_first x (append_nil Rule.equation.first ▸ hx) with hx | rfl | rfl
    · exact .inl ⟨x, hx, hhead⟩
    · refine .inr (.inl ⟨hhead, ?_⟩)
      cases nested with
      | true => exact .inl rfl
      | false =>
        have hnear := near_two_iff.1 (hagrees.2 _ (by simp [openWords]) rfl)
        exact .inr (hnear.2.symm.trans (head_of_initial hw))
    · have hnear := near_two_iff.1 (hagrees.2 _ (by cases nested <;> simp [openWords]) rfl)
      obtain ⟨x, hx, hx'⟩ := exists_of_end hnext hw
      exact .inr (.inr ⟨hhead, x, hx, hnear.2.symm.trans hx'⟩)
  · have ht : t = .literal "end" ∨ t = .literal "initial" := by
      cases nested <;> simp [openWords] at ht <;> simp [ht]
    obtain ⟨w, hw⟩ := hstart t ht
    refine ⟨w, ?_⟩
    rw [lang_star_eq, ← lang_seq, add_mul, mem_add]
    exact .inr hw

theorem equation_succ : ReadsIn 8 Parser.equation (.rule .equation) (Begins [.literal ";"]) (n + 1) := by
  intro K ts hn hK
  rw [Parser.equation]
  refine .rule (.seq_lt rfl (ih.equationBody (by omega) (hK.mul (by decide) (by decide))) fun _ _ _ => ?_)
  exact .map ((readsModifications n).comment (by omega) (hK.follow rfl)) _

theorem equationBranches_succ (hn : 12 * ts.length + 1 ≤ n + 1) (hbranch : .literal branch ∉ Rule.equation.first)
    (hfollow : Follow [.literal branch] K) (hK : ClosesBlock K) :
    Reads [.literal "end"] (Parser.equationBranches (n + 1) branch) (branchesOf branch .equationBlock) K ts := by
  have hstar : ClosesBlock (lang .empty * K) := by rwa [lang_empty, one_mul]
  have hnext : ClosesBlock (lang (branchesOf branch .equationBlock) * K) := by
    have := hstar.seq (e := branchesOf branch .equationBlock) .done fun t ht => mem_singleton.1 ht ▸ hbranch
    rwa [lang_seq, lang_empty, mul_one] at this
  have hone := hnext.follow.empty
  rw [Parser.equationBranches]
  refine .moreAfter_of hfollow (fun _ _ => ?_) fun t ht => mem_singleton.1 ht ▸ hnext.ends
  refine .seq_lt rfl ((readsExpressions n).expression (by omega) (hone.mul rfl)) fun _ _ _ => ?_
  exact .literal_seq hone.nonempty fun _ _ => .map (ih.equations (by omega) hnext.toEndsBlock) _

theorem equationBody_succ : ReadsIn 7 Parser.equationBody (.rule .equationOptions)
    (Begins [.string, .literal "annotation", .literal ";"]) (n + 1) := by
  intro K ts hn hK
  have hne := hK.nonempty
  have hone := Follow.of_nonempty hne
  have hE := readsExpressions n
  rw [Parser.equationBody]
  simp only [pure_bind, bind_assoc]
  apply Reads.rule
  refine .congr (e := alts [
    .seq (word "if") (seqs [.rule .expression, word "then", .rule .equationBlock, branchesOf "elseif" .equationBlock,
      opt (seqs [word "else", .rule .equationBlock]), word "end", word "if"]),
    .seq (word "for") (seqs [.rule .forIndices, word "loop", .rule .equationBlock, word "end", word "for"]),
    .seq (word "connect") (seqs [word "(", .rule .componentReference, word ",", .rule .componentReference, word ")"]),
    .seq (word "when") (seqs [.rule .expression, word "then", .rule .equationBlock,
      branchesOf "elsewhen" .equationBlock, word "end", word "when"]),
    .alt (seqs [.rule .simpleExpression, word "=", .rule .expression]) (seqs [.rule .name, .rule .functionCallArgs])]) ?_ ?_
  · refine .ifAccept (fun _ _ => ?_) (fun _ => ?_) (hone.mul rfl)
    · have hclose := closesBlock_end "if" hne (by decide)
      have helse := hclose.seq (e := opt (seqs [word "else", .rule .equationBlock])) (.left .empty) (by decide)
      have hbranches := helse.seq (e := branchesOf "elseif" .equationBlock) .done (by decide)
      refine .seq_lt rfl (hE.expression (by omega) (hone.mul rfl)) fun _ _ _ => ?_
      refine .literal_seq hne fun _ _ => hbranches.reads (ih.equations (by omega) hbranches.toEndsBlock) rfl fun _ _ _ => ?_
      refine helse.reads (ih.equationBranches (by omega) (by decide) (hone.mul rfl) helse) rfl fun _ _ _ => ?_
      refine .ifAccept_of_eq (e := seqs [.rule .equationBlock, word "end", word "if"]) (d := seqs [word "end", word "if"])
        (fun _ _ => hclose.reads (ih.equations (by omega) hclose.toEndsBlock) rfl fun _ _ _ => ?_) (fun _ => ?_) (hone.mul rfl) ?_
      · exact .literal_seq hne fun _ _ => .map (.literal hne) _
      · exact .literal_seq hne fun _ _ => .map (.literal hne) _
      · simp only [seqs, opt, lang_alt, lang_seq, lang_empty, add_mul, one_mul, mul_assoc]
        abel
    refine .ifAccept (fun _ _ => ?_) (fun _ => ?_) (hone.mul rfl)
    · have hclose := closesBlock_end "for" hne (by decide)
      refine .seq_lt rfl (iterators_reads (by omega) (hone.mul rfl)) fun _ _ _ => ?_
      refine .literal_seq hne fun _ _ => hclose.reads (ih.equations (by omega) hclose.toEndsBlock) rfl fun _ _ _ => ?_
      exact .literal_seq hne fun _ _ => .map (.literal hne) _
    refine .ifAccept (fun _ _ => ?_) (fun _ => ?_) (hone.mul rfl)
    · refine .literal_seq hne fun _ _ => ?_
      refine .seq_lt rfl (hE.reference_of (by omega) (hone.mul rfl)) fun _ _ _ => .literal_seq hne fun rest hrest => ?_
      exact .seq_lt rfl (hE.reference_of (by omega) (hone.mul rfl)) fun _ _ _ => .map (.literal hne) _
    refine .ifAccept (fun _ _ => ?_) (fun _ => ?_) (hone.mul rfl)
    · have hclose := closesBlock_end "when" hne (by decide)
      have hbranches := hclose.seq (e := branchesOf "elsewhen" .equationBlock) .done (by decide)
      refine .seq_lt rfl (hE.expression (by omega) (hone.mul rfl)) fun _ _ _ => ?_
      refine .literal_seq hne fun _ _ => hbranches.reads (ih.equations (by omega) hbranches.toEndsBlock) rfl fun _ _ _ => ?_
      refine hclose.reads (ih.equationBranches (by omega) (by decide) (hone.mul rfl) hclose) rfl fun _ _ _ => ?_
      exact .literal_seq hne fun _ _ => .map (.literal hne) _
    have hlang : ∀ d e, lang (alts [.alt d e]) = lang e + lang d := fun d e => (lang_alt d e).trans (add_comm _ _)
    refine .ifSees_of (e := seqs [.rule .name, .rule .functionCallArgs]) (fun _ => ?_)
      (equationOrCall_reads (by omega) hK) (hlang _ _ ▸ le_self_add) le_rfl (fun w hw hhead => ?_) fun w hw _ => hw
    · refine .seq_lt rfl (qualifiedName_reads (hone.mul rfl)) fun _ _ _ => ?_
      exact .map (hE.callArguments (by omega) hne) _
    · obtain ⟨w, rfl⟩ := List.head?_eq_some_iff.1 hhead
      exact mem_of_head hw (hlang _ _) rfl (by decide)
  · have hif := lang_rule .ifEquation
    have hfor := lang_rule .forEquation
    have hconnect := lang_rule .connectClause
    have hwhen := lang_rule .whenEquation
    simp only [Rule.body, alts, branchesOf, seqs, lang_alt, lang_seq] at hif hfor hconnect hwhen ⊢
    rw [hif, hfor, hconnect, hwhen]
    abel

end

end ReadsEquations

theorem readsEquations (n : Nat) : ReadsEquations n := by
  induction n with
  | zero => constructor <;> intros <;> omega
  | succ n ih => exact {
      equations := ih.equations_succ
      equation := ih.equation_succ
      equationBody := ih.equationBody_succ
      equationBranches := ih.equationBranches_succ }

end Modelica.Syntax
