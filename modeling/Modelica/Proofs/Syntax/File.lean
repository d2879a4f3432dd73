/-
Whole files are read exactly as the grammar has them (`parse_accepts`).

A file ends where no further class begins, and what stands behind it is not looked at. So
reading succeeds on every list of tokens that begins with a sentence of the grammar behind
which no class begins (`parse_ok_iff`), and otherwise stops at the first token up to which
no sentence goes on (`parse_error`).
-/
import Modelica.Proofs.Syntax.Class

namespace Modelica.Grammar

open Pattern Rule List

variable {w : List Terminal}

theorem exists_classType : ∀ t ∈ classType.first, ∃ v, t :: v ∈ lang (.rule classType) := by
  have hbody : ∀ {p t} {w : List Terminal}, p ∈ classType.body.branches t → w ∈ lang p → w ∈ lang (.rule classType) :=
    fun hp hw => .rule (mem_of_branch hp hw)
  have hword : ∀ {s : String}, s ∈ ["class", "model", "block", "type", "package", "operator"] →
      ∃ v, .literal s :: v ∈ lang (.rule classType) := fun {s} hs =>
    ⟨[], hbody (p := word s) (t := .literal s) (by simp at hs; rcases hs with rfl | rfl | rfl | rfl | rfl | rfl <;> decide)
      (.terminal _)⟩
  have hfunction : ∀ {u : List Terminal}, u ∈ lang (opt (words ["pure", "impure"])) →
      u ++ [.literal "function"] ∈ lang (.rule classType) := fun hu =>
    hbody (t := .literal "function") (mem_singleton_self _) (.seq hu (.seq (.left .empty) (.terminal _)))
  intro t ht
  obtain ⟨s, hs, rfl⟩ := mem_map.1 ht
  simp only [classStart, mem_cons, not_mem_nil, or_false] at hs
  rcases hs with rfl | rfl | rfl | rfl | rfl | rfl | rfl | rfl | rfl | rfl | rfl | rfl
  · exact hword (by simp)
  · exact hword (by simp)
  · exact hword (by simp)
  · exact ⟨[], hbody (t := .literal "record") (mem_singleton_self _) (.seq (.left .empty) (.terminal _))⟩
  · exact hword (by simp)
  · exact ⟨[.literal "connector"], hbody (t := .literal "expandable") (mem_singleton_self _)
      (.seq (.right (.terminal _)) (.terminal _))⟩
  · exact ⟨[], hbody (t := .literal "connector") (mem_singleton_self _) (.seq (.left .empty) (.terminal _))⟩
  · exact hword (by simp)
  · exact hword (by simp)
  · exact ⟨_, hfunction (.right (.left (.terminal _)))⟩
  · exact ⟨_, hfunction (.right (.right (.terminal _)))⟩
  · exact ⟨_, hfunction (.left .empty)⟩

theorem exists_storedDefinitionClass :
    ∀ t ∈ storedDefinitionClass.first, ∃ v, t :: v ∈ lang (.rule storedDefinitionClass) := by
  obtain ⟨body, hbody⟩ := exists_derives (.rule classSpecifier)
  -- Words in front of a class, and the class.
  have hclass : ∀ {a b c v : List Terminal}, a ∈ lang (opt (word "final")) → b ∈ lang (opt (word "encapsulated")) →
      c ∈ lang (opt (word "partial")) → v ∈ lang (.rule classType) →
      a ++ ((b ++ ((c ++ v) ++ body)) ++ [.literal ";"]) ∈ lang (.rule storedDefinitionClass) := fun ha hb hc hv =>
    .rule (.seq ha (.seq (.rule (.seq hb (.seq (.rule (.seq hc hv)) hbody))) (.terminal _)))
  obtain ⟨v, hv⟩ := exists_derives (.rule classType)
  intro t ht
  have hfirst : storedDefinitionClass.first =
      [.literal "final", .literal "encapsulated", .literal "partial"] ++ classType.first := rfl
  rw [hfirst, mem_append] at ht
  rcases ht with ht | ht
  · simp only [mem_cons, not_mem_nil, or_false] at ht
    rcases ht with rfl | rfl | rfl
    · exact ⟨_, hclass (.right (.terminal _)) (.left .empty) (.left .empty) hv⟩
    · exact ⟨_, hclass (.left .empty) (.right (.terminal _)) (.left .empty) hv⟩
    · exact ⟨_, hclass (.left .empty) (.left .empty) (.right (.terminal _)) hv⟩
  · obtain ⟨v, hv⟩ := exists_classType t ht
    exact ⟨_, hclass (.left .empty) (.left .empty) (.left .empty) hv⟩

end Modelica.Grammar

namespace Modelica.Syntax

open Grammar Grammar.Pattern List Language

variable {K : Language Terminal} {ts u rest : List Token} {n : Nat}

theorem startsClass_iff : Parser.startsClass ts = true ↔
    ∃ t ∈ Pattern.first (.rule .storedDefinitionClass), (kinds ts).head? = some t := by
  have hstart : Parser.startsClass ts = true ↔
      ∃ t ∈ ("final" :: "encapsulated" :: Parser.classWords).map Terminal.literal, (kinds ts).head? = some t := by
    cases ts with
    | nil => simp [Parser.startsClass]
    | cons a rest => simp [Parser.startsClass, Token.is, eq_comm (a := a.terminal)]
  exact hstart.trans (exists_mem_congr (by decide) (by decide))

/-! ### Reading a file -/

/-- The part of a file that names the package it lies within. -/
def withinPart : Pattern := seqs [word "within", opt (.rule .componentReference), word ";"]

theorem withinClause_reads (hn : 12 * ts.length ≤ n) (hK : ∃ w, w ∈ K)
    (hhead : (kinds ts).head? = some (.literal "within")) : Reads [] (Parser.withinClause n) withinPart K ts := by
  have hone := Follow.of_nonempty hK
  refine .of_eq _ (.literal_seq hK fun _ _ => ?_) (accept_bind hhead)
  refine .ifAccept_of_eq (e := .empty) (d := seqs [.rule .componentReference, word ";"]) (fun _ _ => .pure _) (fun _ => ?_)
    (hone.mul rfl) ?_
  · exact .seq_lt rfl ((readsExpressions n).reference_of (by omega) (hone.mul rfl)) fun _ _ _ => .map (.literal hK) _
  · simp [seqs, opt, add_mul]

section

variable (hn : 12 * ts.length + 1 ≤ n) (hK : Follow Rule.storedDefinitionClass.first K)

include hn hK

theorem classes_reads :
    Reads [] (Parser.repeatWhile Parser.startsClass (Parser.accept "final" >>= fun isFinal =>
        Parser.classDefinition n >>= fun definition => Parser.literal ";" >>= fun _ => pure (isFinal, definition)))
      (.star (.rule .storedDefinitionClass)) K ts := by
  have hne := mul_nonempty (.star (.rule .storedDefinitionClass)) hK.nonempty
  refine .repeatWhile rfl hK (fun _ => startsClass_iff) fun rest hrest => .rule ?_
  refine .optional (fun _ rest' hrest' => ?_) ((Follow.of_nonempty hne).mul rfl)
  exact .seq_lt rfl ((readsClasses n).classDefinition (by omega) ((begins_word ";" hne).mono (by decide))) fun _ _ _ =>
    .map (.literal hne) _

theorem file_reads_within (hhead : (kinds ts).head? = some (.literal "within")) :
    Reads [] (Parser.file n) (.seq withinPart (.star (.rule .storedDefinitionClass))) K ts :=
  .seq_lt rfl (withinClause_reads (by omega) (mul_nonempty _ hK.nonempty) hhead) fun _ _ _ =>
    .map (classes_reads (by omega) hK) _

theorem file_reads_classes (hhead : (kinds ts).head? ≠ some (.literal "within")) :
    Reads [] (Parser.file n) (.star (.rule .storedDefinitionClass)) K ts := by
  refine .of_eq _ (.map (classes_reads hn hK) fun classes => (⟨none, classes⟩ : File)) ?_
  have hwithin : Parser.withinClause n ts = .ok (none, ts) := accept_bind_of_ne hhead
  rw [Parser.file, bind_of_ok hwithin]

end

theorem lang_storedDefinition : lang (.rule .storedDefinition) =
    lang (.seq withinPart (.star (.rule .storedDefinitionClass))) + lang (.star (.rule .storedDefinitionClass)) := by
  rw [lang_rule]
  simp only [Rule.body, withinPart, seqs, opt, lang_alt, lang_seq, lang_empty, add_mul, one_mul, mul_assoc]
  abel

theorem head_of_within {w} (h : w ∈ lang (.seq withinPart (.star (.rule .storedDefinitionClass))) * K) :
    w.head? = some (.literal "within") := head_eq_first rfl rfl h

theorem file_reads (hn : 12 * ts.length + 1 ≤ n) (hK : Follow (.literal "within" :: Rule.storedDefinitionClass.first) K) :
    Reads [] (Parser.file n) (.rule .storedDefinition) K ts := by
  have hclasses : Follow Rule.storedDefinitionClass.first K := hK.mono (by simp)
  by_cases hhead : (kinds ts).head? = some (.literal "within")
  · refine (file_reads_within hn hclasses hhead).left (fun w hw hnear => ?_) lang_storedDefinition
    exact ((hK.mono (X := [.literal "within"]) (by simp)).mul (X := [.literal "within"]) rfl).avoids w hw _
      (.head _) ((near_one_iff.1 hnear).trans hhead)
  · refine (file_reads_classes hn hclasses hhead).left (fun w hw hnear => hhead ?_) (lang_storedDefinition.trans (add_comm _ _))
    exact (near_one_iff.1 hnear).symm.trans (head_of_within hw)

/-! ### Files and sentences -/

/-- The tokens are a sentence of the grammar. -/
def IsSentence (ts : List Token) : Prop := Derives (.rule .storedDefinition) (kinds ts)

/-- Some sentence begins with the tokens. -/
def BeginsSentence (ts : List Token) : Prop := ∃ w, Derives (.rule .storedDefinition) (kinds ts ++ w)

/-- Some class begins with the token. -/
def BeginsClass (t : Token) : Prop := ∃ w, Derives (.rule .storedDefinitionClass) (t.terminal :: w)

theorem beginsClass_iff {t} : BeginsClass t ↔ t.terminal ∈ Rule.storedDefinitionClass.first :=
  ⟨fun ⟨_, hw⟩ => mem_first hw rfl, exists_storedDefinitionClass _⟩

theorem sentence_append {u v} (hu : u ∈ lang (.rule .storedDefinition))
    (hv : v ∈ lang (.rule .storedDefinitionClass)) : u ++ v ∈ lang (.rule .storedDefinition) := by
  have hstar : lang (.star (.rule .storedDefinitionClass)) * lang (.rule .storedDefinitionClass) ≤
      lang (.star (.rule .storedDefinitionClass)) := by
    rw [lang_star]
    exact kstar_mul_le_kstar
  have hle : lang (.rule .storedDefinition) * lang (.rule .storedDefinitionClass) ≤ lang (.rule .storedDefinition) := by
    rw [lang_storedDefinition, add_mul, lang_seq, mul_assoc]
    gcongr
  exact hle (append_mem_mul hu hv)

theorem follow_of_beginsClass (h : ∀ t, rest.head? = some t → ¬ BeginsClass t) :
    Follow Rule.storedDefinitionClass.first ({kinds rest} : Set (List Terminal)) := by
  refine follow_singleton fun x hx hhead => ?_
  cases rest with
  | nil => cases hhead
  | cons t rest =>
    obtain rfl := Option.some.inj hhead
    exact h t rfl (beginsClass_iff.2 hx)

/-- A file is read from a sentence behind which no class begins, and from no other tokens. Nothing is
read from nothing only if `within` does not follow. -/
theorem parse_ok_iff : (∃ file, parse ts = .ok (file, rest)) ↔ ∃ u, ts = u ++ rest ∧ IsSentence u ∧
    ∀ t, rest.head? = some t → ¬ BeginsClass t ∧ (u = [] → t.terminal ≠ .literal "within") := by
  have hn : 12 * ts.length + 1 ≤ Parser.steps ts.length := by unfold Parser.steps; omega
  constructor
  · rintro ⟨file, hfile⟩
    obtain ⟨u, hts, hu, hres⟩ := (file_reads hn (follow_one _)).ok hfile
    -- What a sentence may go on with has been taken.
    have hstop : ∀ {t : Token} {w : List Terminal}, rest.head? = some t →
        kinds u ++ t.terminal :: w ∉ lang (.rule .storedDefinition) := fun {t w} ht hmem => by
      have hnear : Near 1 (t.terminal :: w) rest := near_one_iff.2 (by cases rest <;> simp_all)
      cases (mem_one _).1 (hres _ (agrees_nil.2 hnear) (by rwa [mul_one]))
    refine ⟨u, hts, hu, fun t ht => ⟨fun ⟨w, hw⟩ => hstop ht (sentence_append hu hw), fun hnil hwithin => ?_⟩⟩
    subst hnil
    refine hstop (w := [.literal ";"]) ht ?_
    rw [hwithin, lang_storedDefinition]
    exact .inl (.seq (u := [_, _]) (.seq (.terminal _) (.seq (.left .empty) (.terminal _))) .done)
  · rintro ⟨u, rfl, hu, hend⟩
    have hK := follow_of_beginsClass fun t ht => (hend t ht).1
    have hu : kinds u ∈ lang (.rule .storedDefinition) := hu
    rw [lang_storedDefinition, mem_add] at hu
    by_cases hhead : (kinds (u ++ rest)).head? = some (.literal "within")
    · refine (file_reads_within hn hK hhead).ok_of_mem (hu.resolve_right fun hclasses => ?_)
      cases u with
      | nil =>
        cases rest with
        | nil => cases hhead
        | cons t rest => exact (hend t rfl).2 rfl (Option.some.inj hhead)
      | cons t u =>
        have hfirst : t.terminal ∈ Rule.storedDefinitionClass.first := mem_first (p := .star _) hclasses rfl
        rw [Option.some.inj hhead] at hfirst
        revert hfirst
        decide
    · refine (file_reads_classes hn hK hhead).ok_of_mem (hu.resolve_left fun hwithin => hhead ?_)
      have := head_of_within (K := 1) (w := kinds u) (by rwa [mul_one])
      rw [kinds_append, List.head?_append, this]
      rfl

theorem parse_error (h : parse ts = .error rest) : ∃ u, ts = u ++ rest ∧ BeginsSentence u ∧
    (∀ t, rest.head? = some t → ¬ BeginsSentence (u ++ [t])) ∧ (rest = [] → ¬ IsSentence u) := by
  have hn : 12 * ts.length + 1 ≤ Parser.steps ts.length := by unfold Parser.steps; omega
  have hread := file_reads hn (follow_one _)
  unfold Reads at hread
  rw [show Parser.file _ ts = parse ts from rfl, h] at hread
  obtain ⟨u, hts, ⟨w0, hw0⟩, hbad⟩ := hread
  rw [mul_one] at hw0 hbad
  refine ⟨u, hts, ⟨w0, hw0⟩, fun t ht ⟨w, hw⟩ => ?_, fun hrest hu => ?_⟩
  · refine hbad (t.terminal :: w) (near_one_iff.2 (by cases rest <;> simp_all)) ?_
    rwa [kinds_append, append_assoc] at hw
  · subst hrest
    exact hbad [] (near_one_iff.2 rfl) (by rw [append_nil]; exact hu)

/-- **The parser accepts exactly the grammar.** It reads a file from some tokens, and leaves the rest,
if and only if the tokens are a sentence behind which no class begins; the empty sentence may not be
followed by `within` either. Where it fails, it reports the first token such that no sentence begins
with the tokens up to it, or the end of tokens that begin a sentence and are none. -/
theorem parse_accepts (ts : List Token) :
    (∀ rest, (∃ file, parse ts = .ok (file, rest)) ↔ ∃ u, ts = u ++ rest ∧ IsSentence u ∧
      ∀ t, rest.head? = some t → ¬ BeginsClass t ∧ (u = [] → t.terminal ≠ .literal "within")) ∧
    ∀ rest, parse ts = .error rest → ∃ u, ts = u ++ rest ∧ BeginsSentence u ∧
      (∀ t, rest.head? = some t → ¬ BeginsSentence (u ++ [t])) ∧ (rest = [] → ¬ IsSentence u) :=
  ⟨fun _ => parse_ok_iff, fun _ => parse_error⟩

/-- The word that begins a file which lies within a package. -/
def withinToken : Token := ⟨.literal "within", "within", ⟨1, 0⟩⟩

theorem parse_accepts_within : parse [withinToken] = .error [] ∧
    ∃ u, [withinToken] = u ++ [] ∧ BeginsSentence u ∧
      (∀ t, ([] : List Token).head? = some t → ¬ BeginsSentence (u ++ [t])) ∧ (([] : List Token) = [] → ¬ IsSentence u) :=
  ⟨rfl, (parse_accepts [withinToken]).2 [] rfl⟩

/-- In front of a lone `within` the empty sentence ends and no class begins, but no file is read. -/
theorem within_refused : (∃ u rest, [withinToken] = u ++ rest ∧ IsSentence u ∧
    ∀ t, rest.head? = some t → ¬ BeginsClass t) ∧ ¬ ∃ file rest, parse [withinToken] = .ok (file, rest) := by
  refine ⟨⟨[], [withinToken], rfl, .rule (.seq (.left .empty) .done), fun t ht => ?_⟩, ?_⟩
  · obtain rfl := Option.some.inj ht
    rw [beginsClass_iff]
    decide
  · rintro ⟨file, rest, h⟩
    cases h

end Modelica.Syntax
