/-
Classes and whole files are read as the grammar has them (`readsClasses`, `file_reads`).

A class ends with `end` and a name. Both may begin an equation, but no equation has them
in a row, so the token behind `end` decides where the equations of the last section end
(`ClosesClass`). Between two sections the token behind `initial` decides.
-/
import Modelica.Proofs.Syntax.Clause

namespace Modelica.Syntax

open Grammar Grammar.Pattern List Language

variable {K : Language Terminal} {ts : List Token} {n : Nat}

variable {β : Type}

/-! ### Parts that may be left out -/

/-- The annotation of a class. -/
def classNote : Pattern := seqs [.rule .annotationClause, word ";"]

theorem annotation_reads {q : OptionalModification → Parser β} (hn : 12 * ts.length + 1 ≤ n)
    (hK : Follow [.literal "annotation"] K) (hnone : ∃ b, q .none = pure b)
    (hsome : ∀ m, ∃ b, q (.some m) = Parser.literal ";" >>= fun _ => pure b) :
    Reads [] (Parser.remarks n >>= q) (opt classNote) K ts := by
  have hne := hK.nonempty
  obtain _ | n := n
  · omega
  simp only [Parser.remarks, bind_assoc, ite_bind, pure_bind]
  refine .ifAccept_of_eq (e := seqs [.rule .classModification, word ";"]) (d := .empty) (fun _ _ => ?_) (fun _ => ?_)
    (hK.mul rfl) ?_
  · refine .seq_lt rfl ((readsModifications n).classModification (by omega) (mul_nonempty _ hne)) fun m _ _ => ?_
    obtain ⟨b, hb⟩ := hsome m
    rw [hb]
    exact .map (.literal hne) _
  · obtain ⟨b, hb⟩ := hnone
    rw [hb]
    exact .pure b
  · have hnote := lang_rule .annotationClause
    simp only [Rule.body, classNote, seqs, opt, lang_alt, lang_seq, lang_empty] at hnote ⊢
    rw [hnote, mul_assoc, add_comm]

/-- What follows a class or component that may be replaced. -/
def replaceableRest : Pattern := opt (seqs [.rule .constrainingClause, .rule .comment])

theorem constraint_reads {q} (hn : 12 * ts.length + 1 ≤ n) (hK : Begins [.literal ";"] K)
    (hnone : ∃ b, q .none = pure b)
    (hbare : ∀ name, ∃ g : Comment → β, q (.bare name) = Parser.comment n >>= fun note => pure (g note))
    (hmodified : ∀ name m, ∃ g : Comment → β, q (.modified name m) = Parser.comment n >>= fun note => pure (g note)) :
    Reads [] (Parser.constraint n >>= q) replaceableRest K ts := by
  have hne := hK.nonempty
  obtain _ | n := n
  · omega
  have hcomment : ∀ {rest : List Token} {p : Parser β}, rest.length < ts.length →
      (∃ g : Comment → β, p = Parser.comment (n + 1) >>= fun note => pure (g note)) →
      Reads [] p (.rule .comment) K rest := fun hrest hp => by
    obtain ⟨g, rfl⟩ := hp
    exact .map ((readsModifications _).comment (by omega) (hK.follow rfl)) g
  simp only [Parser.constraint, bind_assoc, ite_bind, pure_bind]
  refine .ifAccept_of_eq (e := seqs [.rule .name, opt (.rule .classModification), .rule .comment]) (d := .empty) (fun rest hrest => ?_)
    (fun _ => ?_) (hK.before rfl) ?_
  · refine .seq_lt rfl (qualifiedName_reads (hK.before rfl))
      fun name rest hrest => ?_
    refine .ifSees (e := .seq (.rule .classModification) (.rule .comment)) (d := .rule .comment) (fun _ => ?_)
      (fun _ => hcomment (by omega) (hbare name)) rfl (by decide)
      (hK.before rfl) ?_
    · exact .seq_lt rfl ((readsModifications n).classModification (by omega) (mul_nonempty _ hne)) fun m rest hrest =>
        hcomment (by omega) (hmodified name m)
    · simp only [seqs, opt, lang_alt, lang_seq, lang_empty, add_mul, one_mul]
      abel
  · obtain ⟨b, hb⟩ := hnone
    rw [hb]
    exact .pure b
  · have hlimit := lang_rule .constrainingClause
    simp only [Rule.body, replaceableRest, seqs, opt, lang_alt, lang_seq, lang_empty] at hlimit ⊢
    rw [hlimit, mul_assoc, mul_assoc, add_comm]

/-! ### Sections -/

/-- A section of a class behind its first elements. -/
def sectionBody : Pattern := alts [
  .seq (word "public") (.rule .elementList),
  .seq (word "protected") (.rule .elementList),
  .seq (opt (word "initial")) (.alt (.seq (word "equation") (.rule .equationBlock))
    (.seq (word "algorithm") (.rule .statementBlock)))]

/-- What follows the sections of a class: it does not go on like an equation. -/
structure EndsSections (K : Language Terminal) : Prop where
  begins : Begins [.literal "external", .literal "annotation", .literal "end"] K
  ends : ∃ v, .literal "end" :: v ∈ K
  after_end {v : List Terminal} : .literal "end" :: v ∈ K → ∀ t ∈ afterEnd, v.head? ≠ some t

theorem EndsSections.seq (h : EndsSections K) {e : Pattern} (hnil : [] ∈ lang e)
    (he : e.first ⊆ [.literal "external", .literal "annotation"]) : EndsSections (lang e * K) where
  begins := h.begins.mul (fun t ht => by have := he ht; simp at this ⊢; tauto) (List.Subset.refl _)
  ends := h.ends.imp fun _ hv => append_mem_mul hnil hv
  after_end hv := h.after_end (mem_of_not_first hv fun x hx hx' => by
    obtain rfl := Option.some.inj hx'
    exact absurd (he hx) (by decide))

theorem endsSections_end (hK : ∃ w, w ∈ K) : EndsSections (lang (seqs [word "end", ident]) * K) := by
  have hcons : ∀ {v : List Terminal}, .literal "end" :: v ∈ lang (seqs [word "end", ident]) * K ↔ v ∈ lang ident * K :=
    fun {v} => by
      simp only [seqs, lang_seq, mul_assoc]
      exact cons_mem_terminal_mul.trans (and_iff_right rfl)
  refine ⟨?_, ?_, fun hv t ht hhead => ?_⟩
  · exact (begins_first rfl rfl hK).mono (by decide)
  · obtain ⟨w, hw⟩ := mul_nonempty ident hK
    exact ⟨w, hcons.2 hw⟩
  · obtain rfl := Option.some.inj ((head_eq_first rfl rfl (hcons.1 hv)).symm.trans hhead)
    revert ht
    decide

namespace EndsSections

variable {v : List Terminal}

theorem mem_star (hv : .literal "end" :: v ∈ lang (.star sectionBody) * K) : .literal "end" :: v ∈ K :=
  mem_of_not_first hv fun x hx hx' => by
    obtain rfl := Option.some.inj hx'
    revert hx
    decide

variable (h : EndsSections K)

include h

theorem head_of_initial (hv : .literal "initial" :: v ∈ lang (.star sectionBody) * K) :
    v.head? = some (.literal "equation") ∨ v.head? = some (.literal "algorithm") := by
  rw [lang_star_eq, add_mul, one_mul, mem_add, mul_assoc] at hv
  have hnot : .literal "initial" :: v ∉ K := fun hK => by
    obtain ⟨t, ht, hhead⟩ := h.begins.head _ hK
    obtain rfl := Option.some.inj hhead
    revert ht
    decide
  obtain ⟨p, hp, hv⟩ := exists_branch (hv.resolve_left hnot)
  obtain rfl := mem_singleton.1 hp
  rw [alts, lang_seq, mul_assoc, opt, lang_alt, lang_empty, add_mul, one_mul, mem_add] at hv
  have hv := hv.resolve_left fun h => absurd (nullable_or_first h) (by decide)
  obtain ⟨x, hx, hhead⟩ := exists_first rfl (cons_mem_terminal_mul.1 hv).2
  have hx : x ∈ [.literal "equation", .literal "algorithm"] := hx
  simpa [hhead] using hx

theorem begins_star :
    Begins (sectionBody.first ++ [.literal "external", .literal "annotation", .literal "end"])
    (lang (.star sectionBody) * K) :=
  h.begins.mul (subset_append_left _ _) (subset_append_right _ _)

theorem endsBlock : EndsBlock false (lang (.star sectionBody) * K) where
  follow := h.begins_star.follow rfl
  after_end hv := h.after_end (mem_star hv)
  after_initial hv := ⟨rfl, by rcases h.head_of_initial hv with h | h <;> simp [h]⟩

theorem exists_open : ∀ t ∈ openWords false, ∃ w, t :: w ∈ lang (.star sectionBody) * K := by
  intro t ht
  obtain ⟨v, hv⟩ := h.ends
  obtain rfl | rfl : t = .literal "end" ∨ t = .literal "initial" := by simpa [openWords] using ht
  · exact ⟨v, append_mem_mul (show [] ∈ lang (.star sectionBody) from .done) hv⟩
  · refine ⟨.literal "equation" :: .literal "end" :: v, append_mem_mul
      (a := [.literal "initial", .literal "equation"]) (.more (u := [.literal "initial", .literal "equation"]) ?_ .done) hv⟩
    exact .right (.right (.seq (.right (.terminal _)) (.left (.seq (.terminal _) (.rule .done)))))

end EndsSections

theorem startsSection_iff : Parser.startsSection ts = true ↔ ∃ t ∈ sectionBody.first, (kinds ts).head? = some t := by
  have hstart : Parser.startsSection ts = true ↔
      ∃ t ∈ ["public", "protected", "equation", "algorithm", "initial"].map Terminal.literal, (kinds ts).head? = some t := by
    cases ts with
    | nil => simp [Parser.startsSection]
    | cons a rest => simp [Parser.startsSection, Token.is]
  exact hstart.trans (exists_mem_congr (by decide) (by decide))

theorem startsElement_iff : Parser.startsElement ts = true ↔
    ∃ t ∈ (seqs [.rule .element, word ";"]).first, (kinds ts).head? = some t := by
  have hstart : Parser.startsElement ts = true ↔
      ∃ t ∈ .ident :: Parser.elementWords.map Terminal.literal, (kinds ts).head? = some t := by
    cases ts with
    | nil => simp [Parser.startsElement]
    | cons a rest => simp [Parser.startsElement, Token.is, eq_comm (a := a.terminal)]
  exact hstart.trans (exists_mem_congr (by decide) (by decide))

/-! ### Classes -/

/-- What the parsers of classes read with `n` steps to go. -/
structure ReadsClasses (n : Nat) : Prop where
  classDefinition : ReadsIn 1 Parser.classDefinition (.rule .classDefinition)
    (Begins [.literal ";", .literal "constrainedby"]) n
  classBody : ReadsIn 1 Parser.classBody (.rule .classSpecifier) (Begins [.literal ";", .literal "constrainedby"]) n
  composition : ∀ {K ts}, 12 * ts.length + 4 ≤ n → EndsSections K →
    Begins [.literal "end"] K → Reads [.literal "end"] (Parser.composition n) (.rule .composition) K ts
  classSection : ∀ {K ts}, 12 * ts.length + 1 ≤ n → EndsSections K →
    Reads (openWords false) (Parser.classSection n) sectionBody (lang (.star sectionBody) * K) ts
  elements : ReadsIn 3 Parser.elements (.rule .elementList) (Follow Rule.element.first) n
  element : ReadsIn 2 Parser.element (.rule .element) (Begins [.literal ";"]) n

namespace ReadsClasses

section

variable (ih : ReadsClasses n)

include ih

theorem classDefinition_succ : ReadsIn 1 Parser.classDefinition (.rule .classDefinition)
    (Begins [.literal ";", .literal "constrainedby"]) (n + 1) := by
  intro K ts hn hK
  have hone := Follow.of_nonempty hK.nonempty
  rw [Parser.classDefinition]
  refine .rule (.congr (e := .seq (opt (word "encapsulated")) (.seq (opt (word "partial"))
    (.seq (.rule .classType) (.rule .classSpecifier)))) ?_ ?_)
  · refine .optional (fun _ _ _ => .optional (fun _ rest hrest => ?_) (hone.mul rfl)) (hone.mul rfl)
    refine .seq_lt rfl (category_reads (hone.mul rfl)) fun _ _ _ => ?_
    exact .map (ih.classBody (by omega) hK) _
  · have hprefixes := lang_rule .classPrefixes
    simp only [Rule.body, seqs, lang_seq] at hprefixes ⊢
    rw [hprefixes, mul_assoc]

theorem elements_succ : ReadsIn 3 Parser.elements (.rule .elementList) (Follow Rule.element.first) (n + 1) := by
  intro K ts hn hK
  have hnext := mul_nonempty (.star (seqs [.rule .element, word ";"])) hK.nonempty
  rw [Parser.elements]
  refine .rule (.repeatWhile rfl (hK.mono (by decide)) (fun _ => startsElement_iff) fun _ _ => ?_)
  exact .seq_lt rfl (ih.element (by omega) (begins_word ";" hnext)) fun _ _ _ => .map (.literal hnext) _

theorem classSection_succ (hn : 12 * ts.length + 1 ≤ n + 1) (hK : EndsSections K) :
    Reads (openWords false) (Parser.classSection (n + 1)) sectionBody (lang (.star sectionBody) * K) ts := by
  have hne := hK.begins_star.nonempty
  have hone := Follow.of_nonempty hne
  have helements : ∀ {rest : List Token}, rest.length < ts.length → ∀ g : List Element → Section, Reads (openWords false)
      (Parser.elements n >>= fun items => pure (g items)) (.rule .elementList) (lang (.star sectionBody) * K) rest :=
    fun hrest g => .mono (.map (ih.elements (by omega) (hK.begins_star.follow rfl)) g) (by simp)
  rw [Parser.classSection]
  refine .ifAccept (fun rest hrest => helements hrest _) (fun _ => ?_) (hone.mul rfl)
  refine .ifAccept (fun rest hrest => helements hrest _) (fun _ => ?_) (hone.mul rfl)
  refine .optional (fun initial rest hrest => ?_) (hone.mul rfl)
  refine .ifAccept (fun _ _ => ?_) (fun _ => ?_) (hone.mul rfl)
  · exact .map ((readsEquations n).equations (by omega) hK.endsBlock) _
  · refine .literal_seq hne fun _ _ => .mono (.map ?_ _) (nil_subset _)
    exact (readsStatements n).statements (by omega) (hK.begins_star.follow rfl)

theorem composition_succ (hn : 12 * ts.length + 4 ≤ n + 1) (hK : EndsSections K) (hend : Begins [.literal "end"] K) :
    Reads [.literal "end"] (Parser.composition (n + 1)) (.rule .composition) K ts := by
  have hnote : EndsSections (lang (opt classNote) * K) := hK.seq (.left .empty) (by decide)
  have hrest : EndsSections (lang (seqs [opt externalClause, opt classNote]) * K) := by
    simp only [seqs, lang_seq, mul_assoc]
    exact hnote.seq (.left .empty) (by decide)
  have hsections : Begins (sectionBody.first ++ [.literal "external", .literal "annotation", .literal "end"])
      (lang (seqs [.star sectionBody, opt externalClause, opt classNote]) * K) := by
    have := hrest.begins_star
    rwa [← mul_assoc, ← lang_seq] at this
  rw [Parser.composition]
  refine .rule (.congr (e := seqs [.rule .elementList, .star sectionBody, opt externalClause, opt classNote]) ?_ ?_)
  · refine .seq (ih.elements (by omega) (hsections.follow rfl)) fun _ rest hrest' => ?_
    refine .bind (D := [.literal "end"]) (.repeatWhile_of rfl (hrest.begins.follow rfl) (fun _ => startsSection_iff)
      (fun rest _ => ih.classSection (by omega) hrest) fun t ht => ⟨hrest.exists_open t ht, ?_⟩)
      (fun _ u rest hts _ => .mono (D := []) ?_ (by simp)) fun _ _ _ _ _ t ht _ => ⟨?_, fun _ _ => ht⟩
    · obtain rfl | rfl : t = .literal "end" ∨ t = .literal "initial" := by simpa [openWords] using ht
      · exact .inl (.head _)
      · exact .inr fun w hw => (hrest.begins.follow (Y := [.literal "initial"]) rfl).avoids w hw _ (by simp)
    · have hlen : rest.length ≤ ts.length := by simp [hts] at hrest'; omega
      refine .seq (external_reads (by omega) (hend.before rfl))
        fun _ rest hlen' => ?_
      exact annotation_reads (by omega) (hend.follow rfl) ⟨_, rfl⟩ fun _ => ⟨_, rfl⟩
    · exact mem_singleton.1 ht ▸ hrest.ends
  · have hequations := lang_rule .equationSection
    have halgorithms := lang_rule .algorithmSection
    simp only [Rule.body, seqs, lang_seq] at hequations halgorithms
    simp [Rule.body, sectionBody, externalClause, classNote, alts, seqs, lang_star, hequations, halgorithms, mul_add]

theorem body {β : Type} {g : Composition → β} (hn : 12 * ts.length + 4 ≤ n) (hK : ∃ w, w ∈ K) :
    Reads [] (Parser.composition n >>= fun content => Parser.literal "end" >>= fun _ => Parser.ident >>= fun _ =>
      pure (g content)) (seqs [.rule .composition, word "end", ident]) K ts := by
  have hend := endsSections_end hK
  refine .seq_of (ih.composition hn hend (begins_first rfl rfl hK)) (fun content rest hrest => ?_) rfl fun t ht => mem_singleton.1 ht ▸ hend.ends
  exact .literal_seq hK fun _ _ => .map (.terminal hK) _

theorem classBody_succ : ReadsIn 1 Parser.classBody (.rule .classSpecifier)
    (Begins [.literal ";", .literal "constrainedby"]) (n + 1) := by
  intro K ts hn hK
  have hne := hK.nonempty
  have hone := Follow.of_nonempty hne
  have hcomment : ∀ {rest : List Token}, rest.length < ts.length → Reads [] (Parser.comment n) (.rule .comment) K rest :=
    fun hrest => (readsModifications n).comment (by omega) (hK.follow rfl)
  have hstrings : ∀ rest : List Token, Reads [] Parser.stringComment (.rule .stringComment)
      (lang (seqs [.rule .composition, word "end", ident]) * K) rest := fun rest => stringComment_reads (hone.mul rfl)
  rw [Parser.classBody]
  simp only [discard_bind]
  refine .rule (.congr (e := .alt
    (.seq (word "extends") (seqs [ident, opt (.rule .classModification), .rule .stringComment, .rule .composition,
      word "end", ident]))
    (.seq ident (.alt
      (.seq (word "=") (alts [
        .seq (word "enumeration") (seqs [seqs [word "(", .alt (opt (.rule .enumList)) (word ":"), word ")"], .rule .comment]),
        .seq (word "der") (seqs [word "(", .rule .name, word ",", separated "," ident, word ")", .rule .comment]),
        seqs [.rule .basePrefix, .rule .componentReference, opt (.rule .classModification), .rule .comment]]))
      (seqs [.rule .stringComment, .rule .composition, word "end", ident])))) ?_ ?_)
  · refine .ifAccept (fun rest hrest => ?_) (fun _ => ?_) (hone.mul rfl)
    · refine .ident_seq hne fun name rest hrest => ?_
      refine .seq ((readsModifications n).optionalModification (by omega) (hone.mul rfl)) fun _ rest hrest => ?_
      exact .seq (hstrings rest) fun _ _ _ => ih.body (by omega) hne
    refine .ident_seq hne fun name rest hrest => ?_
    refine .ifAccept (fun _ _ => ?_) (fun _ => ?_) (hone.mul rfl)
    · refine .ifAccept (fun _ _ => ?_) (fun _ => ?_) (hone.mul rfl)
      · refine .seq_lt rfl ((readsModifications n).enumeration (by omega) (mul_nonempty _ hne)) fun _ _ _ => ?_
        exact .map (hcomment (by omega)) _
      refine .ifAccept (fun _ _ => ?_) (fun _ => ?_) (hone.mul rfl)
      · refine .literal_seq hne fun _ _ => .seq_lt rfl (qualifiedName_reads (hone.mul rfl)) fun _ rest hrest => ?_
        refine .literal_seq hne fun _ _ => .seq_lt rfl (names_reads (hone.mul rfl)) fun _ _ _ => ?_
        exact .literal_seq hne fun _ _ => .map (hcomment (by omega)) _
      · refine .seq (.rule (keywords_reads (hone.mul rfl))) fun _ _ _ => ?_
        refine .seq_lt rfl ((readsExpressions n).reference_of (by omega) (hK.before rfl))
          fun _ _ _ => ?_
        exact .seq ((readsModifications n).optionalModification (by omega)
          (hK.before rfl)) fun _ _ _ => .map (hcomment (by omega)) _
    · exact .seq (hstrings _) fun _ _ _ => ih.body (by omega) hne
  · simp only [Rule.body, alts, seqs, lang_alt, lang_seq, mul_add, mul_assoc]
    abel

/-- What an element may hold behind its first words. -/
def elementBody : Pattern := .alt (.rule .classDefinition) (.rule .componentClause)

theorem element_succ : ReadsIn 2 Parser.element (.rule .element) (Begins [.literal ";"]) (n + 1) := by
  intro K ts hn hK
  have hne := hK.nonempty
  have hone := Follow.of_nonempty hne
  have hlimit : Begins [.literal ";", .literal "constrainedby"] (lang replaceableRest * K) :=
    hK.mul (by decide) (by decide)
  rw [Parser.element]
  simp only [discard_bind]
  refine .rule (.congr (e := alts [.rule .importClause,
    .seq (word "extends") (seqs [.rule .componentReference, opt (.rule .classModification), opt (.rule .annotationClause)]),
    .seq (opt (word "redeclare")) (.seq (opt (word "final")) (.seq (opt (word "inner")) (.seq (opt (word "outer"))
      (.alt (.seq (word "replaceable") (.alt (.seq (.rule .classDefinition) replaceableRest)
        (.seq (.rule .componentClause) replaceableRest))) elementBody))))]) ?_ ?_)
  · refine .ifSees (fun _ => importClause_reads (by omega) hK) (fun _ => ?_) rfl (by decide) (hone.mul rfl) (lang_alt _ _)
    refine .ifAccept (fun _ _ => ?_) (fun _ => ?_) (hone.mul rfl)
    · refine .seq_lt rfl ((readsExpressions n).reference_of (by omega) (hK.before rfl))
        fun _ _ _ => ?_
      refine .seq ((readsModifications n).optionalModification (by omega)
        (hK.before rfl)) fun _ _ _ => ?_
      exact .map ((readsModifications n).remarks (by omega) (hK.follow rfl)) _
    refine .optional (fun _ _ _ => .optional (fun _ rest hrest => ?_) (hone.mul rfl)) (hone.mul rfl)
    refine .optional (fun _ _ _ => .optional (fun _ rest hrest => ?_) (hone.mul rfl)) (hone.mul rfl)
    refine .ifAccept (fun _ _ => ?_) (fun _ => ?_) (hone.mul rfl)
    · refine .ifSeesAny ?_ (fun _ => ?_) rfl (by decide) (hone.mul rfl) (lang_alt _ _)
      · refine .seq_lt rfl (ih.classDefinition (by omega) hlimit) fun _ _ _ => ?_
        exact constraint_reads (by omega) hK ⟨_, rfl⟩ (fun _ => ⟨_, rfl⟩) fun _ _ => ⟨_, rfl⟩
      · refine .seq_lt rfl (clause_reads (by omega) hlimit) fun _ _ _ => ?_
        exact constraint_reads (by omega) hK ⟨_, rfl⟩ (fun _ => ⟨_, rfl⟩) fun _ _ => ⟨_, rfl⟩
    · exact .ifSeesAny (.map (ih.classDefinition (by omega) (hK.mono (by decide))) _)
        (fun _ => .map (clause_reads (by omega) (hK.mono (by decide))) _) rfl (by decide) (hone.mul rfl) (lang_alt _ _)
  · have hextends := lang_rule .extendsClause
    have hregular := lang_rule .regularElement
    have hreplaceable := lang_rule .replaceableElement
    simp only [Rule.body, elementBody, replaceableRest, alts, seqs, lang_alt, lang_seq] at hextends hregular hreplaceable ⊢
    rw [hextends, hregular, hreplaceable]
    simp only [mul_add, add_mul]
    abel

end

end ReadsClasses

theorem readsClasses (n : Nat) : ReadsClasses n := by
  induction n with
  | zero => constructor <;> intros <;> omega
  | succ n ih =>
    exact ⟨ih.classDefinition_succ, ih.classBody_succ, ih.composition_succ, ih.classSection_succ, ih.elements_succ,
      ih.element_succ⟩

end Modelica.Syntax
