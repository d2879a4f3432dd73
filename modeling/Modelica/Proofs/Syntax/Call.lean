/-
A call that stands alone as an equation begins like the left side of an equation. It is
told from one by the value that was read: a call of a name without subscripts is read
from exactly the words that the grammar has for it (`isSome_callEquation?_iff`).
-/
import Modelica.Proofs.Syntax.Statement

namespace Modelica.Grammar

open List

variable {w : List Terminal}

open Pattern Rule

theorem bracket_mem_of_arraySubscripts (h : w ∈ lang (.rule arraySubscripts)) : .literal "[" ∈ w := by
  rw [lang_rule] at h
  obtain ⟨u, hu, v, _, rfl⟩ := mem_lang_seq.1 h
  rw [mem_lang_terminal.1 hu]
  exact (.head _)

theorem element_of_not_bracket {w} (h : w ∈ lang (.rule componentReferenceElement))
    (hw : .literal "[" ∉ w) : w ∈ lang ident := by
  rw [lang_rule] at h
  obtain ⟨u, hu, v, hv, rfl⟩ := mem_lang_seq.1 h
  rw [seqs, opt, lang_alt, lang_empty, Language.mem_add, Language.mem_one] at hv
  rcases hv with rfl | hv
  · rwa [append_nil]
  · exact absurd (mem_append_right u (bracket_mem_of_arraySubscripts hv)) hw

theorem dotted_of_not_bracket {w} (h : w ∈ lang (.star (.seq (word ".") componentReferenceElement)))
    (hw : .literal "[" ∉ w) : w ∈ lang (.star (.seq (word ".") ident)) := by
  generalize hs : Pattern.star (.seq (word ".") componentReferenceElement) = s at h
  induction h with
  | done => exact .done
  | more hu _ _ ih =>
    cases hs
    rw [mem_append, not_or] at hw
    obtain ⟨a, ha, b, hb, rfl⟩ := mem_lang_seq.1 hu
    exact .more (.seq ha (element_of_not_bracket hb fun h => hw.1 (mem_append_right a h))) (ih hw.2 rfl)
  | _ => cases hs

theorem not_bracket_of_dotted (h : w ∈ lang (.star (.seq (word ".") ident))) : .literal "[" ∉ w := by
  generalize hs : Pattern.star (.seq (word ".") ident) = s at h
  induction h with
  | done => simp
  | more hu _ _ ih =>
    cases hs
    obtain ⟨a, ha, b, hb, rfl⟩ := mem_lang_seq.1 hu
    rw [mem_lang_terminal.1 ha, mem_lang_terminal.1 hb, mem_append, not_or]
    exact ⟨by simp, ih rfl⟩
  | _ => cases hs

theorem mem_dotted_iff (h : w ∈ lang (.rule componentReference)) :
    w ∈ lang (separated "." ident) ↔ .literal "[" ∉ w := by
  constructor
  · intro hw
    obtain ⟨u, hu, v, hv, rfl⟩ := mem_lang_seq.1 hw
    rw [mem_lang_terminal.1 hu, mem_append, not_or]
    exact ⟨by simp, not_bracket_of_dotted hv⟩
  · intro hw
    rw [lang_rule] at h
    obtain ⟨u, hu, v, hv, rfl⟩ := mem_lang_seq.1 h
    rw [mem_append, not_or] at hw
    exact .seq (element_of_not_bracket hu hw.1) (dotted_of_not_bracket hv hw.2)

end Modelica.Grammar

namespace Modelica.Syntax

open Grammar Grammar.Pattern List Language

variable {α β : Type} {ts rest : List Token} {n N : Nat}

variable {e : Expr} {K : Language Terminal} {u : List Token}

theorem follow_one (X : List Terminal) : Follow X 1 := by
  refine ⟨⟨[], rfl⟩, fun w hw t _ h => ?_⟩
  rw [(mem_one w).1 hw] at h
  cases h

theorem subscripts_cases {items} (h : Parser.subscripts n ts = .ok (items, rest)) :
    items = [] ∧ rest = ts ∨ items ≠ [] ∧ (kinds ts).head? = some (.literal "[") := by
  cases n with
  | zero => cases h
  | succ n =>
    rw [Parser.subscripts] at h
    by_cases hhead : (kinds ts).head? = some (.literal "[")
    · rw [accept_bind hhead] at h
      obtain ⟨_, _, _, h⟩ := bind_eq_ok.1 h
      obtain ⟨_, _, hitems, h⟩ := bind_eq_ok.1 h
      obtain ⟨_, _, _, h⟩ := bind_eq_ok.1 h
      obtain ⟨_, _, _, hitems⟩ := bind_eq_ok.1 hitems
      obtain ⟨_, _, _, hitems⟩ := bind_eq_ok.1 hitems
      cases hitems
      cases h
      exact .inr ⟨cons_ne_nil _ _, hhead⟩
    · rw [accept_bind_of_ne hhead] at h
      cases h
      exact .inl ⟨rfl, rfl⟩

theorem subscripts_ok {items} (hn : 12 * ts.length + 1 ≤ n) (h : Parser.subscripts n ts = .ok (items, rest)) :
    ∃ u, ts = u ++ rest ∧ (items = [] ↔ .literal "[" ∉ kinds u) := by
  have hread := (readsExpressions n).subscripts hn (follow_one [.literal "["]).nonempty
    ((follow_one [.literal "["]).takesSubscripts (by simp))
  obtain ⟨u, rfl, hu, hres⟩ := hread.ok h
  refine ⟨u, rfl, ?_⟩
  rw [opt, lang_alt, lang_empty, mem_add, mem_one] at hu
  rcases subscripts_cases h with ⟨rfl, hrest⟩ | ⟨hitems, hhead⟩
  · obtain rfl : u = [] := self_eq_append_left.1 hrest
    simp
  · have hbracket : .literal "[" ∈ kinds u := by
      refine hu.elim (fun hu => ?_) bracket_mem_of_arraySubscripts
      -- Some subscripts begin like the tokens, so not nothing was read.
      obtain ⟨v, hv⟩ := exists_derives (.rule .arraySubscripts)
      obtain ⟨x, v, rfl⟩ := exists_cons_of_ne_nil (ne_nil_of_mem_lang rfl hv)
      obtain rfl : x = .literal "[" := mem_singleton.1 (mem_first hv rfl)
      obtain rfl := kinds_eq_nil.1 hu
      have hnil := hres (.literal "[" :: v) (agrees_nil.2 (near_one_iff.2 hhead.symm)) (by
        rw [mul_one]
        exact .right hv)
      cases (mem_one _).1 hnil
    simp [hbracket, hitems]

theorem element_ok {part} (hn : 12 * ts.length ≤ n)
    (h : (Parser.ident >>= fun name => Parser.subscripts n >>= fun items => pure (RefPart.mk name items)) ts =
      .ok (part, rest)) :
    ∃ u, ts = u ++ rest ∧ (part.subscripts = [] ↔ .literal "[" ∉ kinds u) := by
  obtain ⟨name, mid, hname, h⟩ := bind_eq_ok.1 h
  obtain ⟨items, _, hitems, h⟩ := bind_eq_ok.1 h
  cases h
  obtain ⟨t, rfl, ht, -⟩ := terminal_ok hname
  obtain ⟨u, rfl, hu⟩ := subscripts_ok (by simp at hn; omega) hitems
  exact ⟨t :: u, rfl, by simp [RefPart.subscripts, hu, ht]⟩

theorem repeatAux_cases {more k items} {p : Parser α} (h : Parser.repeatAux more p k ts = .ok (items, rest)) :
    items = [] ∧ rest = ts ∨ ∃ j a mid as, k = j + 1 ∧ p ts = .ok (a, mid) ∧
      Parser.repeatAux more p j mid = .ok (as, rest) ∧ items = a :: as := by
  cases hm : more ts with
  | false =>
    rw [repeatAux_of_false hm] at h
    cases h
    exact .inl ⟨rfl, rfl⟩
  | true =>
    cases k with
    | zero =>
      cases h
      exact .inl ⟨rfl, rfl⟩
    | succ k =>
      have hrun : Parser.repeatAux more p (k + 1) ts =
        (p >>= fun a => Parser.repeatAux more p k >>= fun rest => pure (a :: rest)) ts := if_pos hm
      rw [hrun] at h
      obtain ⟨a, mid, ha, h⟩ := bind_eq_ok.1 h
      obtain ⟨as, _, has, h⟩ := bind_eq_ok.1 h
      cases h
      exact .inr ⟨k, a, mid, as, rfl, ha, has, rfl⟩

theorem repeatAux_ok {more p} {V : α → Prop}
    (hp : ∀ {ts rest : List Token} {a : α}, ts.length ≤ N → p ts = .ok (a, rest) →
      ∃ u, ts = u ++ rest ∧ (V a ↔ .literal "[" ∉ kinds u)) {k items} (hN : ts.length ≤ N)
    (h : Parser.repeatAux more p k ts = .ok (items, rest)) :
    ∃ u, ts = u ++ rest ∧ ((∀ a ∈ items, V a) ↔ .literal "[" ∉ kinds u) := by
  induction items generalizing ts k with
  | nil =>
    obtain ⟨-, rfl⟩ := (repeatAux_cases h).resolve_right (by simp)
    exact ⟨[], rfl, by simp⟩
  | cons a as ih =>
    obtain ⟨h, -⟩ | ⟨_, _, _, _, -, ha, has, ⟨⟩⟩ := repeatAux_cases h
    · cases h
    · obtain ⟨u, rfl, hu⟩ := hp hN ha
      obtain ⟨v, rfl, hv⟩ := ih (by simp at hN; omega) has
      exact ⟨u ++ v, (append_assoc ..).symm, by simp [hu, hv]⟩

theorem reference_ok {path : Reference} (hn : 12 * ts.length + 1 ≤ n) (h : Parser.reference n ts = .ok (path, rest)) :
    ∃ u, ts = u ++ rest ∧ ((∀ part ∈ path, part.subscripts = []) ↔ .literal "[" ∉ kinds u) := by
  obtain _ | n := n
  · omega
  rw [Parser.reference] at h
  obtain ⟨first, mid, hfirst, h⟩ := bind_eq_ok.1 h
  obtain ⟨others, _, hothers, h⟩ := bind_eq_ok.1 h
  cases h
  obtain ⟨u, rfl, hu⟩ := element_ok (by omega) hfirst
  obtain ⟨v, rfl, hv⟩ := repeatAux_ok (N := mid.length) (V := fun part => part.subscripts = []) (fun {ts _ _} hN h => by
    obtain ⟨_, mid', hdot, helement⟩ := bind_eq_ok.1 h
    obtain ⟨t, rfl, ht⟩ := literal_ok hdot
    simp only [length_append, length_cons] at hn hN
    obtain ⟨w, rfl, hw⟩ := element_ok (by omega) helement
    exact ⟨t :: w, rfl, by simp [hw, ht]⟩) (Nat.le_refl _) hothers
  exact ⟨u ++ v, (append_assoc ..).symm, by simp [hu, hv]⟩

/-- A call by itself. -/
def isCall : Expr → Bool
  | .call _ _ => true
  | _ => false

/-- What is read behind a value: nothing, or something that makes it no call. -/
def Extends (base : Expr) (mid : List Token) (e : Expr) (rest : List Token) : Prop :=
  e = base ∧ rest = mid ∨ isCall e = false ∧ ∃ t ∈ expressionTail, (kinds mid).head? = some t

theorem Extends.refl (base : Expr) (mid : List Token) : Extends base mid base mid := .inl ⟨rfl, rfl⟩

theorem Extends.trans {base e' mid mid'} (h : Extends base mid e mid')
    (h' : Extends e mid' e' rest) : Extends base mid e' rest := by
  rcases h with ⟨rfl, rfl⟩ | ⟨hcall, hhead⟩
  · exact h'
  · rcases h' with ⟨rfl, -⟩ | ⟨hcall', -⟩
    · exact .inr ⟨hcall, hhead⟩
    · exact .inr ⟨hcall', hhead⟩

theorem operators_ok {level left} (h : Parser.operators n level left ts = .ok (e, rest)) : Extends left ts e rest := by
  induction n generalizing ts left with
  | zero => cases h
  | succ n ih =>
    cases hop : joinerAhead level ts with
    | none =>
      rw [operators_of_none hop] at h
      cases h
      exact .refl _ _
    | some o =>
      obtain ⟨hhead, hmem⟩ := head_of_joiner (Option.filter_eq_some_iff.1 hop).1
      rw [operators_of_some hop] at h
      obtain ⟨_, _, _, h⟩ := bind_eq_ok.1 h
      obtain ⟨_, _, _, h⟩ := bind_eq_ok.1 h
      refine .inr ⟨?_, _, ?_, hhead⟩
      · rcases ih h with ⟨rfl, -⟩ | ⟨h, -⟩
        · rfl
        · exact h
      · exact .tail _ (mem_append_left _ (mem_map_of_mem hmem))

theorem accept_cases {word q} {r : β × List Token} (h : (Parser.accept word >>= q) ts = .ok r) :
    (kinds ts).head? = some (.literal word) ∧ (∃ rest, q true rest = .ok r) ∨
      (kinds ts).head? ≠ some (.literal word) ∧ q false ts = .ok r := by
  by_cases hhead : (kinds ts).head? = some (.literal word)
  · rw [accept_bind hhead] at h
    obtain ⟨_, rest, _, h⟩ := bind_eq_ok.1 h
    exact .inl ⟨hhead, rest, h⟩
  · rw [accept_bind_of_ne hhead] at h
    exact .inr ⟨hhead, h⟩

theorem power_ok (h : Parser.power (n + 1) ts = .ok (e, rest)) :
    ∃ base mid, Parser.primary n ts = .ok (base, mid) ∧ Extends base mid e rest := by
  rw [Parser.power] at h
  obtain ⟨base, mid, hbase, h⟩ := bind_eq_ok.1 h
  refine ⟨base, mid, hbase, ?_⟩
  rcases accept_cases h with ⟨hhead, _, h⟩ | ⟨-, h⟩
  · obtain ⟨_, _, _, h⟩ := bind_eq_ok.1 h
    cases h
    exact .inr ⟨rfl, _, by decide, hhead⟩
  · rcases accept_cases h with ⟨hhead, _, h⟩ | ⟨-, h⟩
    · obtain ⟨_, _, _, h⟩ := bind_eq_ok.1 h
      cases h
      exact .inr ⟨rfl, _, by decide, hhead⟩
    · cases h
      exact .refl _ _

theorem simpleExpression_ok (h : Parser.simpleExpression (n + 4) ts = .ok (e, rest))
    (hhead : (kinds ts).head? = some .ident) :
    ∃ base mid, Parser.primary n ts = .ok (base, mid) ∧ Extends base mid e rest := by
  rw [Parser.simpleExpression] at h
  obtain ⟨start, r1, hstart, h⟩ := bind_eq_ok.1 h
  rw [Parser.operation] at hstart
  obtain ⟨first, r2, hfirst, hstart⟩ := bind_eq_ok.1 hstart
  rw [Parser.operand, ifAccept_of_ne (by simp [hhead]), ifAccept_of_ne (by simp [hhead])] at hfirst
  obtain ⟨base, mid, hbase, hpower⟩ := power_ok hfirst
  refine ⟨base, mid, hbase, (hpower.trans (operators_ok hstart)).trans ?_⟩
  rcases accept_cases h with ⟨hcolon, _, h⟩ | ⟨-, h⟩
  · obtain ⟨_, _, _, h⟩ := bind_eq_ok.1 h
    refine .inr ⟨?_, _, by decide, hcolon⟩
    rcases accept_cases h with ⟨-, _, h⟩ | ⟨-, h⟩
    · obtain ⟨_, _, _, h⟩ := bind_eq_ok.1 h
      cases h
      rfl
    · cases h
      rfl
  · cases h
    exact .refl _ _

theorem primary_ok (h : Parser.primary (n + 1) ts = .ok (e, rest)) (hhead : (kinds ts).head? = some .ident) :
    ∃ path mid, Parser.reference n ts = .ok (path, mid) ∧
      ((kinds mid).head? = some (.literal "(") ∧
          (∃ items, Parser.callArguments n mid = .ok (items, rest) ∧ e = .call path items) ∨
        (kinds mid).head? ≠ some (.literal "(") ∧ isCall e = false) := by
  rw [Parser.primary] at h
  iterate 2 rw [ifSeesTerminal_run, if_neg (by simp [hhead])] at h
  iterate 8 rw [ifAccept_of_ne (by simp [hhead])] at h
  obtain ⟨path, mid, hpath, h⟩ := bind_eq_ok.1 h
  refine ⟨path, mid, hpath, ?_⟩
  rw [ifSees_run] at h
  split at h
  next hopen =>
    obtain ⟨items, _, hitems, h⟩ := bind_eq_ok.1 h
    cases h
    exact .inl ⟨hopen, items, hitems, rfl⟩
  next hopen =>
    cases h
    exact .inr ⟨hopen, rfl⟩

/-- The words of a call that stands alone. -/
def plainCall : Pattern := .seq (separated "." ident) (.rule .functionCallArgs)

theorem isSome_callEquation? {first} (hfirst : (first.any fun t => t.terminal == .ident) = true) :
    (Parser.callEquation? first e).isSome = true ↔
      ∃ path items, e = .call path items ∧ ∀ part ∈ path, part.subscripts = [] := by
  cases e <;> simp [Parser.callEquation?, Parser.plainName?, hfirst]

theorem dotted_le_reference : lang (separated "." ident) ≤ lang (.rule .componentReference) := by
  have helement : lang ident ≤ lang (.rule .componentReferenceElement) := fun w hw =>
    .rule (w.append_nil ▸ .seq hw (.left .empty))
  rw [lang_rule, Rule.body, separated, separated, lang_seq, lang_seq, lang_star, lang_star, lang_seq, lang_seq]
  exact mul_le_mul' helement (kstar_mono (mul_le_mul_right helement _))

theorem plainCall_le_primary : lang plainCall ≤ lang (.rule .primary) := by
  intro w hw
  obtain ⟨u, hu, v, hv, rfl⟩ := mem_lang_seq.1 hw
  exact .rule (.right (.right (.right (.right (.left (.seq (dotted_le_reference hu) hv))))))

theorem lang_name : lang (.rule .name) = lang (separated "." ident) + lang (seqs [word ".", separated "." ident]) := by
  rw [lang_rule]
  simp [Rule.body, separated, seqs, opt, add_mul]

theorem plainCall_le : lang plainCall ≤ lang (seqs [.rule .name, .rule .functionCallArgs]) := by
  simp only [plainCall, seqs, lang_seq, lang_name, add_mul]
  exact le_self_add

theorem plainCall_of_head {w} (h : w ∈ lang (seqs [.rule .name, .rule .functionCallArgs]) * K)
    (hhead : w.head? ≠ some (.literal ".")) : w ∈ lang plainCall * K := by
  simp only [seqs, lang_seq, lang_name, add_mul, mem_add] at h
  rw [plainCall, lang_seq]
  refine h.resolve_right fun h => hhead ?_
  rw [mul_assoc, mul_assoc] at h
  exact head_eq_first rfl rfl h

theorem head_of_call {v} (h : v ∈ lang (.rule .functionCallArgs)) : v.head? = some (.literal "(") := by
  obtain ⟨x, v, rfl⟩ := exists_cons_of_ne_nil (ne_nil_of_mem_lang rfl h)
  exact congrArg some (mem_singleton.1 (mem_first h rfl))

theorem head_ident {ts} : (ts.head?.any fun t => t.terminal == .ident) = true ↔ (kinds ts).head? = some .ident := by
  cases ts <;> simp

section

variable (hn : 12 * (u ++ rest).length + 6 ≤ n) (h : Parser.simpleExpression n (u ++ rest) = .ok (e, rest))

include hn h

theorem plainCall_of_isSome
    (hcall : (Parser.callEquation? (u ++ rest).head? e).isSome = true) : kinds u ∈ lang plainCall := by
  have hfirst : ((u ++ rest).head?.any fun t => t.terminal == .ident) = true := by
    cases e with
    | call name arguments =>
      simp only [Parser.callEquation?] at hcall
      split at hcall
      · assumption
      · cases hcall
    | _ => cases hcall
  obtain ⟨n, rfl⟩ : ∃ m, n = m + 5 := ⟨n - 5, by omega⟩
  obtain ⟨base, mid, hbase, hext⟩ := simpleExpression_ok h (head_ident.1 hfirst)
  obtain ⟨path, mid', hpath, hcase⟩ := primary_ok hbase (head_ident.1 hfirst)
  obtain ⟨r, hr, hsub⟩ := reference_ok (by omega) hpath
  obtain ⟨_, _, rfl, hplain⟩ := (isSome_callEquation? hfirst).1 hcall
  rcases hext with ⟨rfl, rfl⟩ | ⟨hcall, -⟩
  · rcases hcase with ⟨-, items, hitems, heq⟩ | ⟨-, hcall⟩
    · cases heq
      obtain ⟨r', hr', hmem, -⟩ := ((readsExpressions n).reference (K := 1) (by omega) (follow_one _)
        ((follow_one [.literal "["]).takesSubscripts (by simp))).ok hpath
      obtain rfl := append_cancel_right (hr.symm.trans hr')
      have hlen : mid'.length ≤ (u ++ rest).length := by rw [hr]; simp
      obtain ⟨a, rfl, ha, -⟩ := ((readsExpressions n).callArguments (K := 1) (by omega)
        (follow_one []).nonempty).ok hitems
      obtain rfl : u = r ++ a := by
        rw [← append_assoc] at hr
        exact append_cancel_right hr
      rw [kinds_append]
      exact .seq ((mem_dotted_iff hmem).2 (hsub.1 hplain)) ha
    · cases hcall
  · cases hcall

/-- The words of a call of a name without subscripts are read as such a call, if nothing of an
expression follows them. -/
theorem isSome_of_plainCall (hu : kinds u ∈ lang plainCall)
    (hrest : ∀ t ∈ expressionTail, (kinds rest).head? ≠ some t) :
    (Parser.callEquation? (u ++ rest).head? e).isSome = true := by
  have hhead : (kinds (u ++ rest)).head? = some .ident := by
    obtain ⟨x, v, hx⟩ := exists_cons_of_ne_nil (ne_nil_of_mem_lang rfl hu)
    obtain rfl : x = .ident := mem_singleton.1 (mem_first hu (by rw [hx]; rfl))
    rw [kinds_append, hx]
    rfl
  obtain ⟨nm, hnm, args, hargs, hu_eq⟩ := mem_lang_seq.1 hu
  obtain ⟨n, rfl⟩ : ∃ m, n = m + 5 := ⟨n - 5, by omega⟩
  obtain ⟨base, mid, hbase, hext⟩ := simpleExpression_ok h hhead
  obtain ⟨path, mid', hpath, hcase⟩ := primary_ok hbase hhead
  obtain ⟨r, hr, hsub⟩ := reference_ok (by omega) hpath
  rw [isSome_callEquation? (head_ident.2 hhead)]
  -- The primary is all that was read.
  have hprimary : Reads [] (Parser.primary (n + 1)) (.rule .primary) ({kinds rest} : Set (List Terminal)) (u ++ rest) :=
    (readsExpressions (n + 1)).primary (by omega) (follow_singleton fun t ht => hrest t (mem_cons_of_mem _
      (mem_append_right _ (.tail _ (.tail _ ht)))))
  have hmid := hprimary.eq_of_ok hbase ⟨_, plainCall_le_primary hu, kinds_append u rest⟩
  rcases hext with ⟨rfl, rfl⟩ | ⟨-, t, ht, hhead'⟩
  · -- The reference in it is all that stands in front of the parenthesis.
    have hopen : (args ++ kinds rest).head? = some (.literal "(") := by simp [head_of_call hargs]
    have hreference : Reads [] (Parser.reference n) (.rule .componentReference)
        ({args ++ kinds rest} : Set (List Terminal)) (u ++ rest) :=
      (readsExpressions n).reference_of (by omega) (follow_singleton (by rw [hopen]; decide))
    have hmid' := hreference.eq_of_ok hpath
      ⟨nm, dotted_le_reference hnm, by rw [kinds_append, ← hu_eq, append_assoc]⟩
    rcases hcase with ⟨-, items, -, heq⟩ | ⟨hnot, -⟩
    · refine ⟨path, items, heq, hsub.2 ?_⟩
      obtain rfl : kinds r = nm := by
        have := congrArg kinds hr
        rw [kinds_append, kinds_append, hmid', ← hu_eq, append_assoc] at this
        exact (append_cancel_right this).symm
      exact (mem_dotted_iff (dotted_le_reference hnm)).1 hnm
    · exact absurd (hmid' ▸ hopen) hnot
  · exact absurd (hmid ▸ hhead') (hrest t ht)

end

theorem equationOrCall_reads (hn : 12 * ts.length + 6 ≤ n)
    (hK : Begins [.string, .literal "annotation", .literal ";"] K) (hdot : (kinds ts).head? ≠ some (.literal ".")) :
    Reads [] (Parser.equationOrCall n)
      (.alt (seqs [.rule .simpleExpression, word "=", .rule .expression]) (seqs [.rule .name, .rule .functionCallArgs]))
      K ts := by
  have hfollow : Follow (.literal "=" :: expressionTail) K := hK.follow rfl
  have hE := readsExpressions n
  have hread : Reads [] (Parser.simpleExpression n >>= fun left => Parser.accept "=" >>= fun b => if b = true
      then Parser.expression n >>= fun right => pure (EquationBody.simple left right)
      else (Parser.callEquation? ts.head? left).elim Parser.stop pure)
      (.alt (seqs [.rule .simpleExpression, word "=", .rule .expression]) plainCall) K ts := by
    refine .sides (X := expressionTail) (hE.simpleExpression hn) (by decide) hfollow (fun left rest hrest => ?_)
      (le_trans plainCall_le_primary primary_le_simpleExpression) (fun hts hrun hcall => ?_) fun hts hrun hu hrest => ?_
    · exact .map (hE.expression (by omega) (hfollow.mono (by simp))) _
    · subst hts
      exact plainCall_of_isSome hn hrun hcall
    · subst hts
      exact isSome_of_plainCall hn hrun hu hrest
  refine .of_head (.of_eq _ hread rfl) ?_ fun w hw hnear => ?_
  · rw [lang_alt, lang_alt]
    exact add_le_add_right plainCall_le _
  · rw [lang_alt, add_mul, mem_add] at hw ⊢
    exact hw.imp id fun h => plainCall_of_head h (near_one_iff.1 hnear ▸ hdot)

end Modelica.Syntax
