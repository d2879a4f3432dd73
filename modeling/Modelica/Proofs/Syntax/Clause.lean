/-
Imports, component clauses and external calls are read as the grammar has them.

The path of an import ends at a point that no name follows, so the point is decided with
two tokens (`importPath_reads`). The result of an external call begins like the name of the
function that is called (`externalTarget_reads`).
-/
import Modelica.Proofs.Syntax.Equation
import Modelica.Syntax.Parser.Class

namespace Modelica.Syntax

open Grammar Grammar.Pattern List Modelica.Syntax.Element Language

variable {K : Language Terminal} {ts : List Token} {n : Nat}

variable {w : List Terminal} {rest : List Token}

/-! ### Imports -/

/-- The words that may follow the path of an import: at a point they go on otherwise than a
path does. -/
structure EndsPath (K : Language Terminal) : Prop where
  follow : Follow [.literal "["] K
  after_point {v : List Terminal} : .literal "." :: v ∈ K →
    v.head? = some (.literal "*") ∨ v.head? = some (.literal "\x7b")

/-- The path of an import goes on. -/
def Parser.pathGoesOn : List Token → Bool
  | a :: b :: _ => a.is "." && !(b.is "*" || b.is "\x7b")
  | [a] => a.is "."
  | [] => false

theorem pathGoesOn_iff : Parser.pathGoesOn ts = true ↔ (kinds ts).head? = some (.literal ".") ∧
    (kinds ts).tail.head? ≠ some (.literal "*") ∧ (kinds ts).tail.head? ≠ some (.literal "\x7b") := by
  match ts with
  | [] | [_] => simp [Parser.pathGoesOn, Token.is]
  | a :: b :: rest => simp [Parser.pathGoesOn, Token.is]

/-- A point and what follows it in a path. -/
def pathStep : Pattern := .seq (word ".") (.rule .componentReferenceElement)

theorem lang_pathStep : lang pathStep = lang (seqs [word ".", ident, opt (.rule .arraySubscripts)]) := by
  have helement : lang (.rule .componentReferenceElement) = lang (.seq ident (opt (.rule .arraySubscripts))) := lang_rule _
  simp [pathStep, seqs, helement]

/-- What follows the first name of a reference. -/
def pathRest : Pattern := seqs [opt (.rule .arraySubscripts), .star pathStep]

theorem lang_componentReference : lang (.rule .componentReference) = lang (.seq ident pathRest) := by
  have helement : lang (.rule .componentReferenceElement) = lang (.seq ident (opt (.rule .arraySubscripts))) := lang_rule _
  rw [lang_rule]
  simp [Rule.body, separated, pathRest, seqs, pathStep, helement, mul_assoc]

theorem exists_pathStep (hK : ∃ w, w ∈ K) :
    ∃ v, .literal "." :: .ident :: v ∈ lang (.seq pathStep (.star pathStep)) * K := by
  obtain ⟨w, hw⟩ := hK
  refine ⟨w, append_mem_mul (a := [.literal ".", .ident]) (mem_lang_seq.2
    ⟨[.literal ".", .ident], ?_, [], .done, rfl⟩) hw⟩
  rw [lang_pathStep]
  exact .seq (.terminal _) (.seq (.terminal _) (.left .empty))

theorem importPath_reads (hn : 12 * ts.length + 1 ≤ n) (hK : EndsPath K) :
    Reads [.literal "."] (Parser.importPath n) (.rule .componentReference) K ts := by
  have hne := hK.follow.nonempty
  have hsub : ∀ {rest : List Token}, rest.length < ts.length → Reads [] (Parser.subscripts n) (opt (.rule .arraySubscripts))
      (lang (.star pathStep) * K) rest := fun hrest =>
    (readsExpressions n).subscripts (by omega) (mul_nonempty _ hne)
      ((hK.follow.mul (X := [.literal "["]) rfl).takesSubscripts (by simp))
  have hloop : ∀ {rest : List Token}, rest.length < ts.length →
      Reads [.literal "."] (Parser.repeatWhile Parser.pathGoesOn (Parser.literal "." >>= fun _ => Parser.ident >>= fun name =>
        Parser.subscripts n >>= fun subs => pure (RefPart.mk name subs))) (.star pathStep) K rest := fun {rest} hrest => by
    refine .repeatAux_of rfl (fun rest' hrest' hmore => ⟨?_, .inr ⟨?_, fun w hw hnear => ?_⟩⟩)
      (fun rest' hmore w hw hagrees => ?_) (fun t ht => ⟨?_, .inl ht⟩) le_rfl
    · refine .literal_seq (mul_nonempty _ hne) fun rest'' hlt => .rule ?_
      refine .ident_seq (mul_nonempty _ hne) fun name rest'' hlt => .mono (.map (hsub (by omega)) _) (by simp)
    · obtain ⟨v, hv⟩ := exists_pathStep hne
      exact ⟨_, hv, near_one_iff.2 (pathGoesOn_iff.1 hmore).1.symm⟩
    · obtain ⟨hhead, hstar, hbrace⟩ := pathGoesOn_iff.1 hmore
      obtain ⟨hw_head, hw_second⟩ := near_two_iff.1 hnear
      obtain ⟨v, rfl⟩ := List.head?_eq_some_iff.1 (hw_head.trans hhead)
      rcases hK.after_point hw with h | h
      · exact hstar (hw_second.symm.trans h)
      · exact hbrace (hw_second.symm.trans h)
    · -- A path goes on with a name.
      rw [lang_seq, mul_assoc, lang_pathStep] at hw
      obtain ⟨v, rfl⟩ := eq_cons_cons_of_mem hw
      obtain ⟨hhead, hsecond⟩ := near_two_iff.1 (hagrees.2 _ (.head _) rfl)
      have : Parser.pathGoesOn rest' = true :=
        pathGoesOn_iff.2 ⟨hhead.symm, by rw [← hsecond]; simp, by rw [← hsecond]; simp⟩
      cases this.symm.trans hmore
    · obtain rfl := mem_singleton.1 ht
      obtain ⟨v, hv⟩ := exists_pathStep hne
      refine ⟨.ident :: v, ?_⟩
      rw [lang_star_eq, ← lang_seq, add_mul, mem_add]
      exact .inr hv
  refine .congr (e := seqs [ident, opt (.rule .arraySubscripts), .star pathStep]) ?_ ?_
  · refine .of_eq _ (.ident_seq hne fun first rest hrest => .seq (hsub hrest) fun subs rest' hrest' =>
      .map (hloop (by omega)) (fun rest => RefPart.mk first subs :: rest)) ?_
    rfl
  · exact lang_componentReference.symm

/-- The names behind the first one in an import. -/
def moreNames : Pattern := .star (.seq (word ",") ident)

theorem moreNames_mul_moreNames : lang moreNames * lang moreNames = lang moreNames := by
  rw [moreNames, lang_star, kstar_mul_kstar]

theorem importList_flat {p} (h : Derives p w) : (p = .rule .importList → w ∈ lang (.seq ident moreNames)) ∧
      (p = Rule.importList.body → w ∈ lang (.seq ident moreNames)) ∧
      (p = .seq (word ",") (.rule .importList) → w ∈ lang moreNames) ∧
      (p = .star (.seq (word ",") (.rule .importList)) → w ∈ lang moreNames) := by
  induction h with
  | rule h ih => exact ⟨fun heq => ih.2.1 (by cases heq; rfl), nofun, nofun, nofun⟩
  | seq hp hq ihp ihq =>
    refine ⟨nofun, fun heq => ?_, fun heq => ?_, nofun⟩
    · cases heq
      exact .seq hp (ihq.2.2.2 rfl)
    · cases heq
      obtain ⟨x, hx, y, hy, rfl⟩ := mem_lang_seq.1 (ihq.1 rfl)
      rw [← append_assoc]
      exact .more (.seq hp hx) hy
  | done => exact ⟨nofun, nofun, nofun, fun _ => .done⟩
  | more hp hq ihp ihq =>
    refine ⟨nofun, nofun, nofun, fun heq => ?_⟩
    cases heq
    rw [← moreNames_mul_moreNames]
    exact append_mem_mul (ihp.2.2.1 rfl) (ihq.2.2.2 rfl)
  | _ => exact ⟨nofun, nofun, nofun, nofun⟩

theorem lang_importList : lang (.rule .importList) = lang (separated "," ident) := by
  refine le_antisymm (fun w hw => (importList_flat hw).1 rfl) ?_
  have hone : lang ident ≤ lang (.rule .importList) := fun w hw => .rule (w.append_nil ▸ .seq hw .done)
  have hrule : lang (.rule .importList) = lang (.seq ident (.star (.seq (word ",") (.rule .importList)))) := lang_rule _
  rw [hrule, separated]
  simp only [lang_seq, lang_star]
  gcongr

theorem ifNamesAlias_run {α : Type} {p q : Parser α} :
    (Parser.peekSecond >>= fun second => Parser.seesTerminal .ident >>= fun b =>
      if (b && second.any (·.is "=")) = true then p else q) ts =
      if Near 2 [.ident, .literal "="] ts then p ts else q ts := by
  have hrun : (Parser.peekSecond >>= fun second => Parser.seesTerminal .ident >>= fun b =>
      if (b && second.any (·.is "=")) = true then p else q) ts =
      (if (ts.head?.any (·.terminal == .ident) && (ts.drop 1).head?.any (·.is "=")) = true then p else q) ts := rfl
  have hnear : Near 2 [.ident, .literal "="] ts ↔
      (ts.head?.any (·.terminal == .ident) && (ts.drop 1).head?.any (·.is "=")) = true := by
    match ts with
    | [] | [_] => simp [Near]
    | a :: b :: rest => simp [near_succ_cons, Token.is]
  rw [hrun]
  by_cases h : Near 2 [.ident, .literal "="] ts
  · rw [if_pos h, if_pos (hnear.1 h)]
  · rw [if_neg h, if_neg fun h' => h (hnear.2 h')]

/-- What an import takes from the path in front of the point. -/
def importItems : Pattern := .alt (word "*") (seqs [word "\x7b", .rule .importList, word "\x7d"])

/-- What follows the path of an import. -/
def importRest : Pattern := seqs [opt (.seq (word ".") importItems), .rule .comment]

theorem lang_importRest :
    lang importRest = lang (seqs [word ".", importItems, .rule .comment]) + lang (.rule .comment) := by
  simp only [importRest, seqs, opt, lang_alt, lang_seq, lang_empty, add_mul, one_mul, mul_assoc]
  abel

theorem point_mem_importRest {v : List Terminal} (hK : Begins [.literal ";"] K) :
    .literal "." :: v ∈ lang importRest * K ↔ v ∈ lang (seqs [importItems, .rule .comment]) * K := by
  have hcomment : Follow [.literal "."] (lang (.rule .comment) * K) := hK.before rfl
  simp only [lang_importRest, seqs, lang_seq, add_mul, mem_add, mul_assoc]
  constructor
  · rintro (h | h)
    · exact (cons_mem_terminal_mul.1 h).2
    · exact absurd rfl (hcomment.avoids _ h _ (.head _))
  · exact fun h => .inl (cons_mem_terminal_mul.2 ⟨rfl, h⟩)

theorem endsPath_importRest (hK : Begins [.literal ";"] K) : EndsPath (lang importRest * K) where
  follow := hK.before rfl
  after_point {v} hv := by
    have hitems : Begins [.literal "*", .literal "\x7b"] (lang (seqs [importItems, .rule .comment]) * K) :=
      begins_first rfl rfl hK.nonempty
    simpa using hitems.head v ((point_mem_importRest hK).1 hv)

theorem importPaths_reads (hn : 12 * ts.length + 2 ≤ n) (hK : Begins [.literal ";"] K) :
    Reads [] (Parser.importPath n >>= fun path => Parser.accept "." >>= fun b => if b = true
        then Parser.accept "*" >>= fun b => if b = true
          then Parser.comment n >>= fun note => pure (importClause .all path note)
          else Parser.literal "\x7b" >>= fun _ => Parser.separated "," Parser.ident >>= fun names =>
            Parser.literal "\x7d" >>= fun _ => Parser.comment n >>= fun note =>
              pure (importClause (.some names) path note)
        else Parser.comment n >>= fun note => pure (importClause .whole path note))
      (.seq (.rule .componentReference) importRest) K ts := by
  have hne := hK.nonempty
  have hone := Follow.of_nonempty hne
  have hcomment : ∀ {rest : List Token}, rest.length ≤ ts.length → Reads [] (Parser.comment n) (.rule .comment) K rest :=
    fun hrest => (readsModifications n).comment (by omega) (hK.follow rfl)
  refine .seq_avoiding (importPath_reads (by omega) (endsPath_importRest hK)) (fun path rest hrest => ?_) (fun t ht => ?_)
    (hK.follow (Y := [.literal "."]) rfl).avoids
  · refine .ifAccept_of_eq (fun _ _ => ?_) (fun _ => .map (hcomment (by omega)) _)
      (hK.before rfl) lang_importRest
    refine .ifAccept_of_eq (e := .rule .comment) (d := seqs [word "\x7b", separated "," ident, word "\x7d", .rule .comment])
      (fun _ _ => .map (hcomment (by omega)) _) (fun _ => ?_) (hone.mul rfl) ?_
    · refine .literal_seq hne fun _ _ => .seq_lt rfl (names_reads (hone.mul rfl)) fun _ _ _ => ?_
      exact .literal_seq hne fun _ _ => .map (hcomment (by omega)) _
    · simp [importItems, seqs, lang_importList, add_mul, mul_assoc]
  · obtain rfl := mem_singleton.1 ht
    obtain ⟨w, hw⟩ := mul_nonempty (seqs [importItems, .rule .comment]) hne
    exact ⟨w, (point_mem_importRest hK).2 hw⟩

theorem importClause_reads (hn : 12 * ts.length ≤ n) (hK : Begins [.literal ";"] K) :
    Reads [] (Parser.importClause n) (.rule .importClause) K ts := by
  have hne := hK.nonempty
  have hpathRest : Follow [.literal "="] (lang pathRest * (lang importRest * K)) :=
    (hK.before (Y := [.literal "="]) rfl).mul rfl
  have hcons : ∀ v, .ident :: v ∈ lang (.seq (.rule .componentReference) importRest) * K ↔
      v ∈ lang pathRest * (lang importRest * K) := fun v => by
    rw [lang_seq, lang_componentReference, lang_seq, mul_assoc, mul_assoc]
    exact cons_mem_terminal_mul.trans (and_iff_right rfl)
  refine .rule (.congr (e := .seq (word "import") (.alt
    (seqs [ident, word "=", .rule .componentReference, .rule .comment]) (.seq (.rule .componentReference) importRest))) ?_ ?_)
  · refine .literal_seq hne fun rest hrest => ?_
    refine .choice_two (x := .ident) (y := .literal "=") (fun hnear => .of_eq _ ?_ (ifNamesAlias_run.trans (if_pos hnear)))
      (fun hnear => .of_eq _ (importPaths_reads (by omega) hK) (ifNamesAlias_run.trans (if_neg hnear))) rfl rfl hne
      (fun w hw => ?_) ?_ (fun v hv => ?_) (lang_alt _ _)
    · refine .ident_seq hne fun name rest hrest => .literal_seq hne fun _ _ => ?_
      refine .seq_lt rfl ((readsExpressions n).reference_of (by omega) (hK.before rfl))
        fun _ _ _ => .map ((readsModifications n).comment (by omega) (hK.follow rfl)) _
    · exact eq_cons_cons_of_mem hw
    · obtain ⟨v, hv⟩ := hpathRest.nonempty
      exact ⟨v, (hcons v).2 hv⟩
    · exact hpathRest.avoids v ((hcons v).1 hv) _ (.head _)
  · simp [Rule.body, importRest, importItems, seqs, add_mul, mul_assoc]

/-! ### Component clauses -/

theorem clause_reads (hn : 12 * ts.length + 1 ≤ n) (hK : Begins [.literal ";", .literal "constrainedby"] K) :
    Reads [] (Parser.clause n) (.rule .componentClause) K ts := by
  have hne := hK.nonempty
  have hone := Follow.of_nonempty hne
  have hlist : Begins [.literal ",", .literal ";", .literal "constrainedby"]
      (lang (.star (.seq (word ",") (.rule .componentDeclaration))) * K) := hK.mul (by decide) (by decide)
  have htype : Follow [.literal "["] (lang (.rule .componentList) * K) := hone.mul rfl
  refine .rule (.congr (e := seqs [.rule .typePrefix, separated "." ident, opt (.rule .arraySubscripts),
    .rule .componentList]) ?_ ?_)
  · refine .seq (keywords_reads (hone.mul rfl)) fun _ _ _ => ?_
    refine .seq_lt rfl (names_reads (hone.mul rfl)) fun _ _ _ => ?_
    refine .seq ((readsExpressions n).subscripts (by omega) htype.nonempty (htype.takesSubscripts (by simp)))
      fun _ _ _ => .map (.rule (.separated (hK.follow rfl) rfl fun rest hrest => .rule ?_)) _
    refine .seq_lt rfl ((readsModifications n).declaration (by omega)
      (hlist.before rfl)) fun _ _ _ => ?_
    simp only [bind_assoc, pure_bind]
    refine .ifAccept_of_eq (e := seqs [.rule .expression, .rule .comment]) (d := .rule .comment) (fun _ _ => ?_) (fun _ => ?_)
      (hlist.before rfl) ?_
    · refine .seq_lt rfl ((readsExpressions n).expression (by omega)
        (hlist.before rfl)) fun _ _ _ => ?_
      exact .map ((readsModifications n).comment (by omega) (hlist.follow rfl)) _
    · exact .map ((readsModifications n).comment (by omega) (hlist.follow rfl)) _
    · have hcondition := lang_rule .conditionAttribute
      simp only [Rule.body, seqs, opt, lang_alt, lang_seq, lang_empty, add_mul, one_mul] at hcondition ⊢
      rw [hcondition, mul_assoc, add_comm]
  · simp [Rule.body, seqs, lang_typeSpecifier]

/-! ### External functions -/

theorem reference_name {name : String} (h : Parser.reference n ts = .ok ([.mk name []], rest)) :
    ∃ t : Token, ts = t :: rest ∧ t.terminal = .ident := by
  cases n with
  | zero => cases h
  | succ n =>
    rw [Parser.reference] at h
    obtain ⟨first, mid, hfirst, h⟩ := bind_eq_ok.1 h
    obtain ⟨others, _, hothers, h⟩ := bind_eq_ok.1 h
    cases h
    obtain ⟨_, mid', hname, hfirst⟩ := bind_eq_ok.1 hfirst
    obtain ⟨_, _, hsubs, hfirst⟩ := bind_eq_ok.1 hfirst
    cases hfirst
    obtain ⟨t, rfl, ht, -⟩ := terminal_ok hname
    obtain ⟨-, rfl⟩ := (repeatAux_cases hothers).resolve_right (by simp)
    obtain ⟨-, rfl⟩ := (subscripts_cases hsubs).resolve_right (by simp)
    exact ⟨t, rfl, ht⟩

theorem reference_of_name {t} (hn : 2 ≤ n) (ht : t.terminal = .ident)
    (hrest : ∀ t ∈ referenceTail, (kinds rest).head? ≠ some t) :
    Parser.reference n (t :: rest) = .ok ([.mk t.text []], rest) := by
  obtain ⟨n, rfl⟩ : ∃ m, n = m + 2 := ⟨n - 2, by omega⟩
  have hpoint : (rest.head?.any fun t => t.is ".") = false := by
    simpa using fun h => hrest (.literal ".") (by decide) (head_any_is.1 h)
  have hsubs : Parser.subscripts (n + 1) rest = .ok ([], rest) := by
    rw [Parser.subscripts, accept_bind_of_ne (hrest (.literal "[") (by decide))]
    rfl
  have hname : Parser.ident (t :: rest) = .ok (t.text, rest) := by simp [Parser.ident, Parser.terminal, ht]
  have hfirst : (Parser.ident >>= fun name => Parser.subscripts (n + 1) >>= fun subs => pure (RefPart.mk name subs))
      (t :: rest) = .ok (RefPart.mk t.text [], rest) := by
    rw [bind_of_ok hname, bind_of_ok hsubs]
    rfl
  have hmore : ∀ p : Parser RefPart, Parser.moreAfter "." p rest = .ok ([], rest) := fun _ => repeatAux_of_false hpoint
  rw [Parser.reference, Parser.separated, bind_of_ok hfirst, bind_of_ok (hmore _)]
  rfl

/-- What an external call names when no result is given. -/
def externalName? : Reference → Option (Option Reference × String)
  | [.mk name []] => some (none, name)
  | _ => none

theorem externalTarget_eq (path : Reference) : Parser.externalTarget path = (Parser.accept "=" >>= fun b => if b = true
    then Parser.ident >>= fun name => pure (some path, name) else (externalName? path).elim Parser.stop pure) := by
  match path with
  | [] | [.mk _ []] | [.mk _ (_ :: _)] | .mk _ [] :: _ :: _ | .mk _ (_ :: _) :: _ :: _ => rfl

theorem externalTarget_reads (hn : 12 * ts.length + 1 ≤ n) (hK : Begins [.literal "("] K) :
    Reads [] (Parser.reference n >>= Parser.externalTarget)
      (.alt (seqs [.rule .componentReference, word "=", ident]) ident) K ts := by
  simp only [funext externalTarget_eq]
  refine .sides (X := referenceTail) (fun hK => (readsExpressions n).reference_of hn hK) (by decide) (hK.follow rfl)
    (fun path rest hrest => .map (.terminal hK.nonempty) _) ?_ (fun {path u rest} hts hrun hname => ?_) fun {path u rest} hts hrun hu hrest => ?_
  · exact fun w hw => dotted_le_reference (w.append_nil ▸ .seq hw .done)
  · unfold externalName? at hname
    split at hname
    · obtain ⟨t, hts', ht⟩ := reference_name hrun
      obtain rfl : u = [t] := append_cancel_right (hts.symm.trans hts')
      rw [kinds_cons, ht]
      exact .terminal _
    · cases hname
  · obtain ⟨t, rfl, ht⟩ : ∃ t : Token, u = [t] ∧ t.terminal = .ident := by
      have hu := mem_lang_terminal.1 hu
      match u with
      | [t] => exact ⟨t, rfl, by simpa using hu⟩
      | [] | _ :: _ :: _ => simp at hu
    have hrun' := reference_of_name (n := n) (by simp [hts] at hn; omega) ht hrest
    rw [hts] at hrun
    obtain ⟨rfl, -⟩ := Prod.mk.inj (Except.ok.inj (hrun.symm.trans hrun'))
    rfl

theorem externalCall_reads (hn : 12 * ts.length + 1 ≤ n) (hK : Follow [.ident] K) :
    Reads [] (Parser.externalCall n) (opt (.rule .externalFunctionCall)) K ts := by
  have hne := hK.nonempty
  have hone := Follow.of_nonempty hne
  unfold Parser.externalCall
  simp only [pure_bind]
  refine .ifSeesTerminal (e := .rule .externalFunctionCall) (d := .empty) (fun _ => .rule ?_) (fun _ => .pure _) rfl
    (by decide) (hK.mul rfl) (lang_opt _)
  have hclose := begins_word ")" hne
  refine .congr (e := .seq (.alt (seqs [.rule .componentReference, word "=", ident]) ident)
    (seqs [word "(", opt (.rule .expressionList), word ")"])) ?_ ?_
  · rw [← bind_assoc]
    refine .seq_lt rfl (externalTarget_reads hn (begins_first rfl rfl hne)) fun target rest hrest => ?_
    obtain ⟨result, function⟩ := target
    refine .literal_seq hne fun rest hrest => ?_
    refine .ifSees (e := word ")") (d := seqs [.rule .expressionList, word ")"]) (fun _ => .map (.literal hne) _) (fun _ => ?_)
      rfl (by decide) (hone.mul rfl) ?_
    · refine .seq_lt rfl (.rule (.separated (hclose.follow rfl) rfl fun rest' hrest' => ?_))
        fun _ _ _ => .map (.literal hne) _
      exact (readsExpressions n).expression (by omega) (hclose.before rfl)
    · simp [seqs, opt, add_mul]
  · simp only [Rule.body, seqs, opt, lang_alt, lang_seq, lang_empty, add_mul, one_mul, mul_assoc]
    abel

/-- The body of an external function. -/
def externalClause : Pattern := seqs [word "external", opt (.rule .languageSpecification),
  opt (.rule .externalFunctionCall), opt (.rule .annotationClause), word ";"]

theorem external_reads (hn : 12 * ts.length ≤ n) (hK : Follow [.literal "external"] K) :
    Reads [] (Parser.external n) (opt externalClause) K ts := by
  have hne := hK.nonempty
  have hone := Follow.of_nonempty hne
  unfold Parser.external
  refine .ifAccept_of_eq (d := .empty) (fun rest hrest => ?_) (fun _ => .pure _) (hK.mul rfl)
    (lang_opt _)
  have hlanguage : Reads [] Parser.language (opt (.rule .languageSpecification)) (lang (seqs [
      opt (.rule .externalFunctionCall), opt (.rule .annotationClause), word ";"]) * K) rest :=
    .ifSeesTerminal (e := .rule .languageSpecification) (d := .empty) (fun _ => .rule (.map (.terminal (mul_nonempty _ hne)) _))
      (fun _ => .pure _) rfl (by decide) ((hone.mul (X := [.string]) rfl).mul rfl)
      (lang_opt _)
  refine .seq hlanguage fun _ rest hrest => ?_
  refine .seq (externalCall_reads (by omega) (hone.mul rfl)) fun called rest hrest => ?_
  obtain ⟨result, call⟩ := called
  exact .seq ((readsModifications n).remarks (by omega) (hone.mul rfl)) fun _ _ _ => .map (.literal hne) _

end Modelica.Syntax
