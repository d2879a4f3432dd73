/-
What it means that a parser reads exactly the words of a pattern.

A parser stands in a context: the words `K` that may follow what it reads. It reads a
pattern (`Reads`) if it takes a word of the pattern such that the rest has to go on with
`K`, or stops at the first token with which no word of the pattern and `K` goes on. "The
rest has to go on with `K`" is said of all words that begin like the rest does: they
have the same first terminal. Where one terminal does not decide how to go on, they
have the same second terminal too (`Agrees`).

The parsers are put together from parts that read parts of the pattern: in sequence
(`Reads.bind`), by choice (`Reads.accept`, `Reads.left`), and in loops
(`Reads.repeatWhile`, `Reads.separated`).
-/
import Modelica.Proofs.Syntax.Grammar
import Modelica.Syntax.Parser.Basic

namespace Modelica.Syntax

open List Language

variable {words : List String} {X Y X' : List Terminal}

open Grammar Grammar.Pattern

/-- The terminals of tokens. -/
def kinds (ts : List Token) : List Terminal := ts.map Token.terminal

@[simp] theorem kinds_nil : kinds [] = [] := rfl

@[simp] theorem kinds_cons (t : Token) (ts : List Token) : kinds (t :: ts) = t.terminal :: kinds ts := rfl

@[simp] theorem kinds_append (ts ts' : List Token) : kinds (ts ++ ts') = kinds ts ++ kinds ts' := map_append

@[simp] theorem length_kinds (ts : List Token) : (kinds ts).length = ts.length := length_map _

@[simp] theorem kinds_eq_nil {ts} : kinds ts = [] ↔ ts = [] := map_eq_nil_iff

/-! ### Words that begin like the tokens ahead -/

/-- The word begins with the first `k` terminals of the tokens, or is all of them if they
are fewer. -/
def Near (k : Nat) (w : List Terminal) (ts : List Token) : Prop := w.take k = (kinds ts).take k

instance (k : Nat) (w : List Terminal) (ts : List Token) : Decidable (Near k w ts) :=
  inferInstanceAs (Decidable (_ = _))

theorem Near.refl (k : Nat) (ts : List Token) : Near k (kinds ts) ts := rfl

theorem Near.mono {j k w ts} (h : Near k w ts) (hj : j ≤ k) : Near j w ts := by
  have := congrArg (take j) h
  rwa [take_take, take_take, Nat.min_eq_left hj] at this

theorem Near.append {k w rest} (h : Near k w rest) (u : List Token) :
    Near (u.length + k) (kinds u ++ w) (u ++ rest) := by
  unfold Near at h ⊢
  rw [kinds_append, ← length_kinds u, take_length_add_append, take_length_add_append, h]

theorem Near.drop {k w u rest} (h : Near k w (u ++ rest)) (hk : u.length ≤ k) :
    ∃ v, w = kinds u ++ v ∧ Near (k - u.length) v rest := by
  have hu : w.take u.length = kinds u := by
    have := h.mono hk
    unfold Near at this
    rw [← length_kinds u] at this ⊢
    rwa [kinds_append, take_left] at this
  refine ⟨w.drop u.length, by rw [← hu, take_append_drop], ?_⟩
  unfold Near at h ⊢
  rw [← drop_take, h, drop_take, kinds_append, ← length_kinds u, drop_left]

theorem near_one_iff {w ts} : Near 1 w ts ↔ w.head? = (kinds ts).head? := by
  unfold Near
  cases w <;> cases kinds ts <;> simp

theorem near_two_iff {w ts} : Near 2 w ts ↔ w.head? = (kinds ts).head? ∧ w.tail.head? = (kinds ts).tail.head? := by
  unfold Near
  match w, kinds ts with
  | [], [] | [], [_] | [], _ :: _ :: _ | [_], [] | [_], [_] | [_], _ :: _ :: _ => simp
  | _ :: _ :: _, [] | _ :: _ :: _, [_] | _ :: _ :: _, _ :: _ :: _ => simp

@[simp] theorem near_zero {w ts} : Near 0 w ts := by simp [Near]

theorem near_succ_cons {k x w ts} :
    Near (k + 1) (x :: w) ts ↔ ∃ t rest, ts = t :: rest ∧ t.terminal = x ∧ Near k w rest := by
  cases ts with
  | nil => simp [Near]
  | cons t rest => simp [Near, eq_comm (a := t.terminal)]

theorem head_any_is {word ts} : ts.head?.any (·.is word) = true ↔ (kinds ts).head? = some (.literal word) := by
  cases ts <;> simp [Token.is]

theorem any_is {t : Token} : (words.any fun w => t.is w) = true ↔ t.terminal ∈ words.map Terminal.literal := by
  simp [Token.is, eq_comm (a := t.terminal)]

theorem head_any_any_is {ts} : (ts.head?.any fun t => words.any fun w => t.is w) = true ↔
      ∃ t ∈ words.map Terminal.literal, (kinds ts).head? = some t := by
  cases ts with
  | nil => simp
  | cons t rest => simp [Token.is, eq_comm (a := t.terminal)]

theorem exists_mem_congr {P : Terminal → Prop} (h : X ⊆ Y) (h' : Y ⊆ X) : (∃ t ∈ X, P t) ↔ ∃ t ∈ Y, P t :=
  ⟨fun ⟨t, ht, hP⟩ => ⟨t, h ht, hP⟩, fun ⟨t, ht, hP⟩ => ⟨t, h' ht, hP⟩⟩

/-- The word begins like the tokens, also in its second terminal if its first is among the
given ones. -/
def Agrees (C : List Terminal) (w : List Terminal) (ts : List Token) : Prop :=
  Near 1 w ts ∧ ∀ t ∈ C, w.head? = some t → Near 2 w ts

variable {C D : List Terminal} {w : List Terminal} {ts rest : List Token}

theorem Agrees.near (h : Agrees C w ts) : Near 1 w ts := h.1

theorem agrees_nil : Agrees [] w ts ↔ Near 1 w ts := by simp [Agrees]

theorem Agrees.append_of_ne_nil (h : Near 1 w rest) {u} (hu : u ≠ []) : Agrees C (kinds u ++ w) (u ++ rest) := by
  have hnear : Near 2 (kinds u ++ w) (u ++ rest) := (h.append u).mono (by
    have := length_pos_of_ne_nil hu
    omega)
  exact ⟨hnear.mono (by omega), fun _ _ _ => hnear⟩

/-! ### Reading a pattern -/

/-- What reading a pattern in front of `K` comes to, from a parser's outcome. -/
def Outcome {α : Type} (C : List Terminal) (e : Pattern) (K : Language Terminal) (ts : List Token) :
    Except (List Token) (α × List Token) → Prop
  | .ok (_, rest) => ∃ u, ts = u ++ rest ∧ kinds u ∈ lang e ∧
      ∀ w, Agrees C w rest → kinds u ++ w ∈ lang e * K → w ∈ K
  | .error rest => ∃ u, ts = u ++ rest ∧ (∃ w, kinds u ++ w ∈ lang e * K) ∧
      ∀ w, Near 1 w rest → kinds u ++ w ∉ lang e * K

/-- The parser takes a word of the pattern in front of which the rest has to go on with `K`,
or stops at the first token with which no word of the pattern and `K` goes on. -/
def Reads {α : Type} (C : List Terminal) (p : Parser α) (e : Pattern) (K : Language Terminal) (ts : List Token) : Prop :=
  Outcome C e K ts (p ts)

variable {α β : Type} {p : Parser α} {q : α → Parser β} {e e' d f : Pattern} {K : Language Terminal} {word : String}

theorem bind_run : (p >>= q) ts = (p ts).bind fun r => q r.1 r.2 := rfl

theorem bind_of_ok {a} (h : p ts = .ok (a, rest)) : (p >>= q) ts = q a rest := by
  rw [bind_run, h]
  rfl

theorem bind_congr_left {p'} (h : p ts = p' ts) : (p >>= q) ts = (p' >>= q) ts := by
  rw [bind_run, h, ← bind_run]

theorem ite_bind {b : Bool} {p p' : Parser α} :
    (if b = true then p else p') >>= q = if b = true then p >>= q else p' >>= q := by cases b <;> rfl

theorem Outcome.congr {r : Except (List Token) (α × List Token)} (h : Outcome C e K ts r) (he : lang e = lang e') :
    Outcome C e' K ts r := by
  cases r with
  | ok r =>
    simp only [Outcome] at h ⊢
    rwa [← he]
  | error rest =>
    simp only [Outcome] at h ⊢
    rwa [← he]

namespace Reads

theorem congr (h : Reads C p e K ts) (he : lang e = lang e') : Reads C p e' K ts := Outcome.congr h he

theorem rule {r} (h : Reads C p r.body K ts) : Reads C p (.rule r) K ts := h.congr (lang_rule r).symm

theorem of_eq (p' : Parser α) (h : Reads C p' e K ts) (hp : p ts = p' ts) : Reads C p e K ts := by
  unfold Reads
  rw [hp]
  exact h

theorem ok (h : Reads C p e K ts) {a} (hp : p ts = .ok (a, rest)) : ∃ u, ts = u ++ rest ∧ kinds u ∈ lang e ∧
    ∀ w, Agrees C w rest → kinds u ++ w ∈ lang e * K → w ∈ K := by
  unfold Reads at h
  rwa [hp] at h

/-- A parser that has stopped short of a word of the pattern in front of one word has not
stopped short. -/
theorem eq_of_ok {v} (h : Reads [] p e ({v} : Set (List Terminal)) ts) {a}
    (hp : p ts = .ok (a, rest)) (hts : ∃ w ∈ lang e, kinds ts = w ++ v) : kinds rest = v := by
  obtain ⟨u, rfl, hu, hres⟩ := h.ok hp
  obtain ⟨w, hw, hts⟩ := hts
  refine hres (kinds rest) (agrees_nil.2 (.refl 1 rest)) ?_
  rw [← kinds_append, hts]
  exact append_mem_mul hw rfl

/-- A word of the pattern is read to its end in front of tokens it can be read in front of. -/
theorem ok_of_mem {u} (h : Reads [] p e ({kinds rest} : Set (List Terminal)) (u ++ rest))
    (hu : kinds u ∈ lang e) : ∃ a, p (u ++ rest) = .ok (a, rest) := by
  cases hp : p (u ++ rest) with
  | error rest' =>
    unfold Reads at h
    rw [hp] at h
    obtain ⟨u', hts, -, hbad⟩ := h
    refine absurd ?_ (hbad (kinds rest') (.refl 1 rest'))
    rw [← kinds_append, ← hts, kinds_append]
    exact append_mem_mul hu rfl
  | ok r =>
    obtain ⟨a, rest'⟩ := r
    obtain ⟨u', hts, -⟩ := h.ok hp
    have hlen := congrArg length (h.eq_of_ok hp ⟨_, hu, kinds_append u rest⟩)
    rw [length_kinds, length_kinds] at hlen
    exact ⟨a, by rw [(append_inj' hts hlen.symm).2]⟩

theorem mono (h : Reads D p e K ts) (hC : ∀ t ∈ D, t ∈ C) : Reads C p e K ts := by
  unfold Reads at h ⊢
  cases hp : p ts with
  | ok r =>
    rw [hp] at h
    obtain ⟨u, hts, hu, hrest⟩ := h
    exact ⟨u, hts, hu, fun w hw => hrest w ⟨hw.1, fun t ht => hw.2 t (hC t ht)⟩⟩
  | error rest =>
    rw [hp] at h
    exact h

theorem pure (a : α) : Reads C (pure a : Parser α) .empty K ts :=
  ⟨[], rfl, .empty, fun w _ hw => by simpa using hw⟩

/-! ### One after the other -/

/-- Reading goes on behind tokens that were taken. At a token that was not decided on before,
the parser must be able to go on, and may leave it to what follows only if that is said of
both. -/
theorem after {u q} {p : Parser β} (hq : Reads C q d K rest) (hp : p (u ++ rest) = q rest)
    (hd : ∀ v ∈ lang d, kinds u ++ v ∈ lang f)
    (hf : ∀ w, Agrees D w rest → kinds u ++ w ∈ lang f * K → w ∈ lang d * K)
    (hC : ∀ t ∈ D, (kinds rest).head? = some t →
      (∃ w, t :: w ∈ lang d * K) ∧ ∀ b, q rest = .ok (b, rest) → t ∈ C) : Reads C p f K (u ++ rest) := by
  unfold Reads at hq ⊢
  rw [hp]
  cases hq' : q rest with
  | ok r =>
    obtain ⟨b, rest'⟩ := r
    rw [hq'] at hq
    obtain ⟨v, rfl, hv, hres⟩ := hq
    refine ⟨u ++ v, (append_assoc ..).symm, ?_, fun w hw h => hres w hw (hf _ ?_ ?_)⟩
    · rw [kinds_append]
      exact hd _ hv
    · -- A token that was not decided on has been taken, or is left to `K`.
      by_cases hv0 : v = []
      · subst hv0
        refine ⟨hw.1, fun t ht hhead => hw.2 t ((hC t ht ?_).2 b hq') hhead⟩
        rw [← hhead]
        exact (near_one_iff.1 hw.1).symm
      · exact .append_of_ne_nil hw.1 hv0
    · rwa [kinds_append, append_assoc] at h
  | error rest' =>
    rw [hq'] at hq
    obtain ⟨v, rfl, ⟨w0, hw0⟩, hbad⟩ := hq
    refine ⟨u ++ v, (append_assoc ..).symm, ⟨w0, ?_⟩, fun w hw h => hbad w hw (hf _ ?_ ?_)⟩
    · obtain ⟨x, hx, y, hy, hxy⟩ := mem_mul.1 hw0
      rw [kinds_append, append_assoc, ← hxy, ← append_assoc]
      exact append_mem_mul (hd x hx) hy
    · by_cases hv0 : v = []
      · subst hv0
        refine ⟨hw, fun t ht hhead => ?_⟩
        have hhead' : (kinds ([] ++ rest')).head? = some t := by
          rw [← hhead]
          exact (near_one_iff.1 hw).symm
        obtain ⟨w', hw'⟩ := (hC t ht hhead').1
        exact absurd hw' (hbad (t :: w') (near_one_iff.2 hhead'.symm))
      · exact .append_of_ne_nil hw hv0
    · rwa [kinds_append, append_assoc] at h

/-- One parser after the other. -/
theorem bind (hp : Reads D p e (lang d * K) ts)
    (hq : ∀ a u rest, ts = u ++ rest → kinds u ∈ lang e → Reads C (q a) d K rest)
    (hC : ∀ a u rest, ts = u ++ rest → kinds u ∈ lang e → ∀ t ∈ D, (kinds rest).head? = some t →
      (∃ w, t :: w ∈ lang d * K) ∧ ∀ b, q a rest = .ok (b, rest) → t ∈ C) :
    Reads C (p >>= q) (.seq e d) K ts := by
  unfold Reads at hp
  cases hp' : p ts with
  | error rest =>
    rw [hp'] at hp
    unfold Reads
    rw [bind_run, hp']
    simpa only [Outcome, Except.bind, lang_seq, mul_assoc] using hp
  | ok r =>
    obtain ⟨a, rest⟩ := r
    rw [hp'] at hp
    obtain ⟨u, rfl, hu, hres⟩ := hp
    refine after (hq a u rest rfl hu) (bind_of_ok hp') (fun v hv => .seq hu hv) (fun w hw h => ?_)
      (hC a u rest rfl hu)
    rw [lang_seq, mul_assoc] at h
    exact hres w hw h

theorem seq (hp : Reads [] p e (lang d * K) ts)
    (hq : ∀ a rest, rest.length ≤ ts.length → Reads C (q a) d K rest) : Reads C (p >>= q) (.seq e d) K ts :=
  bind hp (fun a u rest h _ => hq a rest (by simp [h])) (by simp)

/-- The second parser takes a token, and decides where the first one could not. -/
theorem seq_of (hp : Reads D p e (lang d * K) ts) (hq : ∀ a rest, rest.length ≤ ts.length → Reads C (q a) d K rest)
    (hd : d.nullable = false) (hC : ∀ t ∈ D, ∃ w, t :: w ∈ lang d * K) : Reads C (p >>= q) (.seq e d) K ts := by
  refine bind hp (fun a u rest h _ => hq a rest (by simp [h])) fun a u rest h _ t ht _ => ⟨hC t ht, fun b hb => ?_⟩
  have hread := hq a rest (by simp [h])
  obtain ⟨v, hv, hmem, -⟩ := hread.ok hb
  obtain rfl : v = [] := self_eq_append_left.1 hv
  exact absurd rfl (ne_nil_of_mem_lang hd hmem)

/-- The second parser decides where the first one could not, since what follows both begins
otherwise. -/
theorem seq_avoiding (hp : Reads D p e (lang d * K) ts)
    (hq : ∀ a rest, rest.length ≤ ts.length → Reads [] (q a) d K rest) (hC : ∀ t ∈ D, ∃ w, t :: w ∈ lang d * K)
    (hK : ∀ w ∈ K, ∀ t ∈ D, w.head? ≠ some t) : Reads [] (p >>= q) (.seq e d) K ts := by
  refine bind hp (fun a u rest h _ => hq a rest (by simp [h])) fun a u rest h _ t ht hhead => ⟨hC t ht, fun b hb => ?_⟩
  obtain ⟨v, hv, -, hres⟩ := (hq a rest (by simp [h])).ok hb
  obtain rfl : v = [] := self_eq_append_left.1 hv
  obtain ⟨w, hw⟩ := hC t ht
  exact absurd rfl (hK _ (hres (t :: w) (agrees_nil.2 (near_one_iff.2 hhead.symm)) hw) t ht)

theorem seq_lt (he : e.nullable = false) (hp : Reads [] p e (lang d * K) ts)
    (hq : ∀ a rest, rest.length < ts.length → Reads C (q a) d K rest) : Reads C (p >>= q) (.seq e d) K ts :=
  bind hp (fun a u rest h hu => hq a rest (by
    have hpos := length_pos_of_ne_nil (ne_nil_of_mem_lang he hu)
    rw [length_kinds] at hpos
    rw [h, length_append]
    omega)) (by simp)

theorem map (hp : Reads C p e K ts) (f : α → β) : Reads C (p >>= fun a => Pure.pure (f a)) e K ts := by
  unfold Reads at hp ⊢
  rw [bind_run]
  cases hp' : p ts with
  | ok r =>
    rw [hp'] at hp
    exact hp
  | error rest =>
    rw [hp'] at hp
    exact hp

end Reads

/-! ### What may follow -/

theorem mul_nonempty (e : Pattern) (h : ∃ w, w ∈ K) : ∃ w, w ∈ lang e * K := by
  obtain ⟨v, hv⟩ := h
  obtain ⟨u, hu⟩ := exists_derives e
  exact ⟨u ++ v, append_mem_mul hu hv⟩

/-- There is something to go on with, but it does not begin with the given terminals. -/
structure Follow (X : List Terminal) (K : Language Terminal) : Prop where
  nonempty : ∃ w, w ∈ K
  avoids : ∀ w ∈ K, ∀ t ∈ X, w.head? ≠ some t

namespace Follow

variable {X X' : List Terminal}

theorem mono (h : Follow X' K) (hX : X ⊆ X') : Follow X K :=
  ⟨h.nonempty, fun w hw t ht => h.avoids w hw t (hX ht)⟩

theorem empty (h : Follow X K) : Follow [] K := h.mono (nil_subset X)

theorem of_nonempty (h : ∃ w, w ∈ K) : Follow [] K := ⟨h, by simp⟩

theorem mul_of_first (h : Follow X K) (he : ∀ t ∈ e.first, t ∉ X) : Follow X (lang e * K) := by
  refine ⟨mul_nonempty e h.nonempty, fun w hw t ht hhead => h.avoids w (mem_of_not_first hw fun x hx hx' => ?_) t ht hhead⟩
  exact he x hx (Option.some.inj (hx'.symm.trans hhead) ▸ ht)

theorem mul (h : Follow X' K) (he : e.clears X X' = true) : Follow X (lang e * K) := by
  simp only [Pattern.clears, Bool.and_eq_true, all_eq_true, Bool.not_eq_eq_eq_not, Bool.not_true,
    contains_eq_mem, decide_eq_false_iff_not, Bool.or_eq_true, decide_eq_true_eq] at he
  obtain ⟨hfirst, hnull⟩ := he
  refine ⟨mul_nonempty e h.nonempty, fun w hw t ht hhead => ?_⟩
  obtain ⟨u, hu, v, hv, rfl⟩ := mem_mul.1 hw
  cases u with
  | nil =>
    obtain hnull | hX := hnull
    · rw [nullable_of_derives hu] at hnull
      cases hnull
    · exact h.avoids v hv t (hX t ht) hhead
  | cons x u => exact hfirst t (mem_first hu hhead) ht

theorem not_near (h : Follow X K) {t} (ht : t ∈ X) (hts : (kinds ts).head? = some t) :
    ∀ w ∈ K, ¬ Near 1 w ts := fun w hw hnear =>
  h.avoids w hw t ht ((near_one_iff.1 hnear).trans hts)

end Follow

theorem follow_singleton {v} (h : ∀ t ∈ X, v.head? ≠ some t) : Follow X ({v} : Set (List Terminal)) :=
  ⟨⟨v, rfl⟩, fun _ hw t ht => Set.mem_singleton_iff.1 hw ▸ h t ht⟩

/-- There is something to go on with, and it begins with one of the given terminals. -/
structure Begins (X : List Terminal) (K : Language Terminal) : Prop where
  nonempty : ∃ w, w ∈ K
  head : ∀ w ∈ K, ∃ t ∈ X, w.head? = some t

theorem Begins.mono (h : Begins X K) (hX : X ⊆ X') : Begins X' K :=
  ⟨h.nonempty, fun w hw => (h.head w hw).imp fun _ ht => ⟨hX ht.1, ht.2⟩⟩

theorem Begins.follow (h : Begins X K) (hd : X.all (fun t => !Y.contains t) = true) : Follow Y K := by
  refine ⟨h.nonempty, fun w hw t ht hhead => ?_⟩
  obtain ⟨x, hx, hx'⟩ := h.head w hw
  obtain rfl := Option.some.inj (hx'.symm.trans hhead)
  simpa [ht] using all_eq_true.1 hd x hx

theorem Begins.mul (h : Begins X' K) (he : e.first ⊆ X) (hX : X' ⊆ X) : Begins X (lang e * K) := by
  refine ⟨mul_nonempty e h.nonempty, fun w hw => ?_⟩
  obtain ⟨u, hu, v, hv, rfl⟩ := mem_mul.1 hw
  cases u with
  | nil =>
    obtain ⟨t, ht, hhead⟩ := h.head v hv
    exact ⟨t, hX ht, hhead⟩
  | cons x u => exact ⟨x, he (mem_first hu rfl), rfl⟩

/-- What is before words that begin with `X` does not begin with `Y` if neither does. -/
theorem Begins.before (h : Begins X K) (hd : (e.first ++ X).all (fun t => !Y.contains t) = true) :
    Follow Y (lang e * K) :=
  (h.mul (X := e.first ++ X) (subset_append_left _ _) (subset_append_right _ _)).follow hd

theorem begins_first (he : e.nullable = false) (hX : e.first = X) (h : ∃ w, w ∈ K) : Begins X (lang e * K) :=
  ⟨mul_nonempty e h, fun _ hw => hX ▸ exists_first he hw⟩

theorem begins_word (word : String) (h : ∃ w, w ∈ K) : Begins [.literal word] (lang (Pattern.word word) * K) :=
  begins_first rfl rfl h

theorem bind_eq_ok {r} : (p >>= q) ts = .ok r ↔ ∃ a rest, p ts = .ok (a, rest) ∧ q a rest = .ok r := by
  rw [bind_run]
  cases p ts with
  | ok r =>
    obtain ⟨a, rest⟩ := r
    simp [Except.bind]
  | error rest => simp [Except.bind]

theorem terminal_ok {k text} (h : Parser.terminal k ts = .ok (text, rest)) :
    ∃ t : Token, ts = t :: rest ∧ t.terminal = k ∧ t.text = text := by
  cases ts with
  | nil => cases h
  | cons t rest' =>
    by_cases ht : t.terminal = k
    · simp [Parser.terminal, ht] at h
      exact ⟨t, by rw [h.2], ht, h.1⟩
    · simp [Parser.terminal, ht] at h

theorem literal_eq : Parser.literal word ts = (Parser.terminal (.literal word) >>= fun _ => Pure.pure ()) ts := by
  cases ts with
  | nil => rfl
  | cons t rest =>
    rw [bind_run, Parser.literal, Parser.terminal, Token.is]
    split <;> rfl

theorem literal_ok {u} (h : Parser.literal word ts = .ok (u, rest)) :
    ∃ t : Token, ts = t :: rest ∧ t.terminal = .literal word := by
  rw [literal_eq] at h
  obtain ⟨text, rest', h, hrest⟩ := bind_eq_ok.1 h
  cases hrest
  exact (terminal_ok h).imp fun t ht => ⟨ht.1, ht.2.1⟩

theorem discard_bind {q : PUnit → Parser β} : (discard p >>= q) = p >>= fun _ => q ⟨⟩ := by
  rw [discard, LawfulFunctor.map_const, Function.comp_apply, map_eq_pure_bind, bind_assoc]
  simp [Function.const]

theorem accept_bind {g : Bool → Parser β} (h : (kinds ts).head? = some (.literal word)) :
    (Parser.accept word >>= g) ts = (Parser.literal word >>= fun _ => g true) ts := by
  cases ts with
  | nil => cases h
  | cons t rest =>
    have ht : t.is word = true := by simpa [Token.is] using h
    simp [bind_run, Parser.accept, Parser.literal, ht, Except.bind]

theorem accept_bind_of_ne {g : Bool → Parser β} (h : (kinds ts).head? ≠ some (.literal word)) :
    (Parser.accept word >>= g) ts = g false ts := by
  cases ts with
  | nil => rfl
  | cons t rest =>
    have ht : t.is word = false := by simpa [Token.is] using h
    simp [bind_run, Parser.accept, ht, Except.bind]

theorem acceptAny_bind {g : Option String → Parser β} {t} (h : t.terminal ∈ words.map Terminal.literal) :
    (Parser.acceptAny words >>= g) (t :: rest) = g (some t.text) rest := by
  rw [bind_run]
  simp [Parser.acceptAny, any_is.2 h, Except.bind]

theorem acceptAny_bind_of_ne {g : Option String → Parser β}
    (h : ∀ t ∈ words.map Terminal.literal, (kinds ts).head? ≠ some t) :
    (Parser.acceptAny words >>= g) ts = g none ts := by
  rw [bind_run]
  cases ts with
  | nil => rfl
  | cons t rest =>
    have hany : (words.any fun w => t.is w) = false := Bool.eq_false_iff.2 fun ht => h _ (any_is.1 ht) rfl
    simp only [Parser.acceptAny, hany, Except.bind]
    rfl

theorem ifAccept_of_ne {p q : Parser β} (h : (kinds ts).head? ≠ some (.literal word)) :
    (Parser.accept word >>= fun b => if b = true then p else q) ts = q ts := accept_bind_of_ne h

theorem ifSeesTerminal_run {k} {p q : Parser β} :
    (Parser.seesTerminal k >>= fun b => if b = true then p else q) ts =
      if (kinds ts).head? = some k then p ts else q ts := by
  have hrun : (Parser.seesTerminal k >>= fun b => if b = true then p else q) ts =
      (if ts.head?.any (·.terminal == k) = true then p else q) ts := rfl
  have hany : ts.head?.any (·.terminal == k) = true ↔ (kinds ts).head? = some k := by cases ts <;> simp
  simp only [hrun, hany, apply_ite (fun x : Parser β => x ts)]

theorem ifSees_run {p q : Parser β} : (Parser.sees word >>= fun b => if b = true then p else q) ts =
      if (kinds ts).head? = some (.literal word) then p ts else q ts := ifSeesTerminal_run

namespace Reads

variable {X : List Terminal} {words : List String} {more : List Token → Bool}

theorem resolve {M} (h : Reads C p e (M * K) ts) (hM : lang e * M = lang e)
    (hrest : ∀ a rest, p ts = .ok (a, rest) → ∀ w, Near 1 w rest → w ∈ M * K → w ∈ K) : Reads C p e K ts := by
  have hmul : lang e * (M * K) = lang e * K := by rw [← mul_assoc, hM]
  unfold Reads at h ⊢
  cases hp : p ts with
  | ok r =>
    rw [hp] at h
    obtain ⟨u, hts, hu, hres⟩ := h
    rw [hmul] at hres
    exact ⟨u, hts, hu, fun w hw hmem => hrest _ _ hp w hw.near (hres w hw hmem)⟩
  | error rest =>
    rw [hp] at h
    simpa only [Outcome, hmul] using h

/-! ### Tokens -/

theorem of_tokens (hd : ∀ w, w ∈ lang d ↔ ∃ x ∈ X, w = [x]) (hK : ∃ w, w ∈ K)
    (hok : ∀ t rest, ts = t :: rest → t.terminal ∈ X → ∃ a, p ts = .ok (a, rest))
    (hbad : (∀ x ∈ X, (kinds ts).head? ≠ some x) → p ts = .error ts) : Reads C p d K ts := by
  unfold Reads
  by_cases hhead : ∃ x ∈ X, (kinds ts).head? = some x
  · obtain ⟨x, hx, hhead⟩ := hhead
    cases ts with
    | nil => cases hhead
    | cons t rest =>
      obtain rfl := Option.some.inj hhead
      obtain ⟨a, ha⟩ := hok t rest rfl hx
      rw [ha]
      refine ⟨[t], rfl, (hd _).2 ⟨_, hx, rfl⟩, fun w _ hw => ?_⟩
      obtain ⟨u, hu, v, hv, huv⟩ := mem_mul.1 hw
      obtain ⟨y, -, rfl⟩ := (hd u).1 hu
      cases huv
      exact hv
  · rw [hbad fun x hx h => hhead ⟨x, hx, h⟩]
    refine ⟨[], rfl, mul_nonempty _ hK, fun w hnear hw => ?_⟩
    obtain ⟨u, hu, v, hv, rfl⟩ := mem_mul.1 hw
    obtain ⟨y, hy, rfl⟩ := (hd u).1 hu
    exact hhead ⟨y, hy, (near_one_iff.1 hnear).symm⟩

section

variable (hK : ∃ w, w ∈ K)

include hK

theorem terminal {k} : Reads C (Parser.terminal k) (.terminal k) K ts := by
  refine of_tokens (X := [k]) (fun w => mem_lang_terminal.trans (by simp)) hK (fun t rest hts ht => ⟨t.text, ?_⟩)
    fun hhead => ?_
  · subst hts
    simp [Parser.terminal, mem_singleton.1 ht]
  · cases ts with
    | nil => rfl
    | cons t rest =>
      have ht : t.terminal ≠ k := fun h => hhead k (.head _) (congrArg some h)
      simp [Parser.terminal, ht]

theorem literal : Reads C (Parser.literal word) (Pattern.word word) K ts :=
  of_eq _ (map (terminal hK) _) literal_eq

theorem literal_seq {q : Parser β} (hq : ∀ rest, rest.length < ts.length → Reads C q e K rest) :
    Reads C (Parser.literal word >>= fun _ => q) (.seq (Pattern.word word) e) K ts :=
  seq_lt rfl (literal (mul_nonempty e hK)) fun _ => hq

theorem ident_seq {q : String → Parser β}
    (hq : ∀ name rest, rest.length < ts.length → Reads C (q name) e K rest) :
    Reads C (Parser.ident >>= q) (.seq Pattern.ident e) K ts :=
  seq_lt rfl (terminal (mul_nonempty e hK)) hq

end

theorem take {q} {p : Parser β} {t} (hd : ∀ w, w ∈ lang d ↔ ∃ x ∈ X, w = [x]) (ht : t.terminal ∈ X)
    (hp : p (t :: rest) = q rest) (hq : Reads C q e K rest) : Reads C p (.seq d e) K (t :: rest) := by
  refine after (D := []) (u := [t]) hq hp (fun v hv => .seq ((hd _).2 ⟨_, ht, rfl⟩) hv) (fun w _ hw => ?_) (by simp)
  rw [lang_seq, mul_assoc] at hw
  obtain ⟨u, hu, v, hv, huv⟩ := mem_mul.1 hw
  obtain ⟨x, -, rfl⟩ := (hd u).1 hu
  cases huv
  exact hv

/-! ### Choices -/

/-- A parser of some of the words of a pattern reads the pattern, when the others do not
begin like the tokens. They are compared one terminal further than the parser is sure to
come. -/
theorem of_near (k : Nat) (h : Reads C p e K ts) (hle : lang e ≤ lang f) (hmin : ∀ u ∈ lang e, k ≤ u.length)
    (hstart : 0 < k → ∃ w ∈ lang e * K, Near k w ts)
    (hx : ∀ w ∈ lang f * K, Near (k + 1) w ts → w ∈ lang e * K) : Reads C p f K ts := by
  unfold Reads at h ⊢
  cases hp : p ts with
  | ok r =>
    obtain ⟨a, rest⟩ := r
    rw [hp] at h
    obtain ⟨u, rfl, hu, hrest⟩ := h
    have hk : k ≤ u.length := length_kinds u ▸ hmin _ hu
    exact ⟨u, rfl, hle hu, fun w hw hmem => hrest w hw (hx _ hmem ((hw.near.append u).mono (by omega)))⟩
  | error rest =>
    rw [hp] at h
    obtain ⟨u, rfl, ⟨w0, hw0⟩, hbad⟩ := h
    have hk : k ≤ u.length := by
      by_contra hlt
      obtain ⟨w, hw, hnear⟩ := hstart (by omega)
      obtain ⟨v, rfl, hv⟩ := hnear.drop (by omega)
      exact hbad v (hv.mono (by omega)) hw
    refine ⟨u, rfl, ⟨w0, ?_⟩, fun w hw hmem => hbad w hw (hx _ hmem ((hw.append u).mono (by omega)))⟩
    exact mul_le_mul_left hle K hw0

theorem of_head (h : Reads C p e K ts) (hle : lang e ≤ lang f) (hx : ∀ w ∈ lang f * K, Near 1 w ts → w ∈ lang e * K) :
    Reads C p f K ts :=
  of_near 0 h hle (fun _ _ => Nat.zero_le _) (by simp) hx

/-- Reading one of two patterns, when no word of the other begins like the tokens. -/
theorem left (h : Reads C p e K ts) (hx : ∀ w ∈ lang d * K, ¬ Near 1 w ts) (he : lang f = lang e + lang d) :
    Reads C p f K ts := by
  refine of_head h (he ▸ le_self_add) fun w hw hnear => ?_
  rw [he, add_mul, mem_add] at hw
  exact hw.resolve_right fun h => hx w h hnear

theorem left_two (h : Reads C p e K ts) (hne : e.nullable = false) (hstart : ∃ w ∈ lang e * K, Near 1 w ts)
    (hx : ∀ w ∈ lang d * K, ¬ Near 2 w ts) (he : lang f = lang e + lang d) : Reads C p f K ts := by
  refine of_near 1 h (he ▸ le_self_add) (fun u hu => ?_) (fun _ => hstart) fun w hw hnear => ?_
  · exact length_pos_of_ne_nil (ne_nil_of_mem_lang hne hu)
  · rw [he, add_mul, mem_add] at hw
    exact hw.resolve_right fun h => hx w h hnear

/-- A choice by the next token: the words that begin with the terminals `X` are those of one
pattern, the others those of the other one. -/
theorem choice_of (X : List Terminal) (hyes : ∀ t ∈ X, (kinds ts).head? = some t → Reads C p e K ts)
    (hno : (∀ t ∈ X, (kinds ts).head? ≠ some t) → Reads C p d K ts) (hle : lang e ≤ lang f) (hle' : lang d ≤ lang f)
    (hx : ∀ w ∈ lang f * K, ∀ t ∈ X, w.head? = some t → w ∈ lang e * K)
    (hx' : ∀ w ∈ lang f * K, (∀ t ∈ X, w.head? ≠ some t) → w ∈ lang d * K) : Reads C p f K ts := by
  by_cases hhead : ∃ t ∈ X, (kinds ts).head? = some t
  · obtain ⟨t, ht, hhead⟩ := hhead
    refine of_head (hyes t ht hhead) hle fun w hw hnear => ?_
    exact hx w hw t ht ((near_one_iff.1 hnear).trans hhead)
  · have hhead : ∀ t ∈ X, (kinds ts).head? ≠ some t := fun t ht h => hhead ⟨t, ht, h⟩
    refine of_head (hno hhead) hle' fun w hw hnear => hx' w hw fun t ht h => ?_
    exact hhead t ht ((near_one_iff.1 hnear).symm.trans h)

theorem choice_of_one (k : Terminal) (hyes : (kinds ts).head? = some k → Reads C p e K ts)
    (hno : (kinds ts).head? ≠ some k → Reads C p d K ts) (hle : lang e ≤ lang f) (hle' : lang d ≤ lang f)
    (hx : ∀ w ∈ lang f * K, w.head? = some k → w ∈ lang e * K)
    (hx' : ∀ w ∈ lang f * K, w.head? ≠ some k → w ∈ lang d * K) : Reads C p f K ts :=
  choice_of [k] (by simpa using hyes) (by simpa using hno) hle hle' (by simpa using hx) (by simpa using hx')

/-- A choice by the next token: one pattern begins with the terminals `X`, and the other and
what follows it do not. -/
theorem choice (X : List Terminal) (hyes : ∀ t ∈ X, (kinds ts).head? = some t → Reads C p e K ts)
    (hno : (∀ t ∈ X, (kinds ts).head? ≠ some t) → Reads C p d K ts) (hne : e.nullable = false) (hX : e.first ⊆ X)
    (hK : Follow X (lang d * K)) (he : lang f = lang e + lang d) : Reads C p f K ts := by
  refine choice_of X hyes hno (he ▸ le_self_add) (he ▸ le_add_self) (fun w hw t ht hhead => ?_) fun w hw hhead => ?_
  · rw [he, add_mul, mem_add] at hw
    exact hw.resolve_right fun h => hK.avoids w h t ht hhead
  · rw [he, add_mul, mem_add] at hw
    refine hw.resolve_left fun h => ?_
    obtain ⟨x, hx, h⟩ := exists_first hne h
    exact hhead x (hX hx) h

/-- A choice by the next two tokens: all words of one pattern begin with the terminals `x`
and `y`, and words of the other one may begin with `x`, but never with both. -/
theorem choice_two {x y} (hyes : Near 2 [x, y] ts → Reads C p e K ts)
    (hno : ¬ Near 2 [x, y] ts → Reads C p d K ts) (hne : e.nullable = false) (hne' : d.nullable = false)
    (hK : ∃ w, w ∈ K) (hx : ∀ w ∈ lang e * K, ∃ v, w = x :: y :: v) (hd : ∃ v, x :: v ∈ lang d * K)
    (hd' : ∀ v, x :: v ∈ lang d * K → v.head? ≠ some y) (he : lang f = lang e + lang d) : Reads C p f K ts := by
  by_cases hnear : Near 2 [x, y] ts
  · refine (hyes hnear).left_two hne ?_ (fun w hw hnear' => ?_) he
    · obtain ⟨w, hw⟩ := mul_nonempty e hK
      refine ⟨w, hw, ?_⟩
      obtain ⟨v, rfl⟩ := hx w hw
      exact near_one_iff.2 (near_one_iff.1 (hnear.mono (j := 1) (by omega)))
    · have hw_eq : w = [x, y] ++ w.drop 2 := by
        have htake : w.take 2 = [x, y] := hnear'.trans hnear.symm
        rw [← htake, take_append_drop]
      rw [hw_eq] at hw
      exact hd' _ hw rfl
  · by_cases hhead : (kinds ts).head? = some x
    · obtain ⟨v, hv⟩ := hd
      refine (hno hnear).left_two hne' ⟨x :: v, hv, near_one_iff.2 hhead.symm⟩ (fun w hw hnear' => hnear ?_)
        (he.trans (add_comm _ _))
      obtain ⟨v, rfl⟩ := hx w hw
      exact hnear'
    · refine (hno hnear).left (fun w hw hnear' => hhead ?_) (he.trans (add_comm _ _))
      obtain ⟨v, rfl⟩ := hx w hw
      exact (near_one_iff.1 hnear').symm

section

variable {p q : Parser β} {g : Bool → Parser β}

theorem ifSees_of (hyes : (kinds ts).head? = some (.literal word) → Reads C p e K ts)
    (hno : (kinds ts).head? ≠ some (.literal word) → Reads C q d K ts) (hle : lang e ≤ lang f) (hle' : lang d ≤ lang f)
    (hx : ∀ w ∈ lang f * K, w.head? = some (.literal word) → w ∈ lang e * K)
    (hx' : ∀ w ∈ lang f * K, w.head? ≠ some (.literal word) → w ∈ lang d * K) :
    Reads C (Parser.sees word >>= fun b => if b = true then p else q) f K ts :=
  choice_of_one _ (fun hhead => of_eq _ (hyes hhead) (by rw [ifSees_run, if_pos hhead]))
    (fun hhead => of_eq _ (hno hhead) (by rw [ifSees_run, if_neg hhead])) hle hle' hx hx'

theorem ifSeesTerminal {k} (hyes : (kinds ts).head? = some k → Reads C p e K ts)
    (hno : (kinds ts).head? ≠ some k → Reads C q d K ts) (hne : e.nullable = false) (hX : e.first ⊆ [k])
    (hK : Follow [k] (lang d * K)) (he : lang f = lang e + lang d) :
    Reads C (Parser.seesTerminal k >>= fun b => if b = true then p else q) f K ts := by
  refine choice [k] (fun t ht hhead => ?_) (fun hhead => ?_) hne hX hK he
  · obtain rfl := mem_singleton.1 ht
    exact of_eq _ (hyes hhead) (by rw [ifSeesTerminal_run, if_pos hhead])
  · have hhead := hhead _ (.head _)
    exact of_eq _ (hno hhead) (by rw [ifSeesTerminal_run, if_neg hhead])

theorem ifSees (hyes : (kinds ts).head? = some (.literal word) → Reads C p e K ts)
    (hno : (kinds ts).head? ≠ some (.literal word) → Reads C q d K ts) (hne : e.nullable = false)
    (hX : e.first ⊆ [.literal word]) (hK : Follow [.literal word] (lang d * K)) (he : lang f = lang e + lang d) :
    Reads C (Parser.sees word >>= fun b => if b = true then p else q) f K ts :=
  ifSeesTerminal hyes hno hne hX hK he

theorem ifSeesAny (hyes : Reads C p e K ts)
    (hno : (∀ t ∈ words.map Terminal.literal, (kinds ts).head? ≠ some t) → Reads C q d K ts) (hne : e.nullable = false)
    (hX : e.first ⊆ words.map Terminal.literal) (hK : Follow (words.map Terminal.literal) (lang d * K))
    (he : lang f = lang e + lang d) : Reads C (Parser.seesAny words >>= fun b => if b = true then p else q) f K ts := by
  have hrun : (Parser.seesAny words >>= fun b => if b = true then p else q) ts =
      (if (ts.head?.any fun t => words.any fun w => t.is w) = true then p else q) ts := rfl
  refine choice _ (fun t ht hhead => ?_) (fun hhead => ?_) hne hX hK he
  · exact of_eq _ hyes (by rw [hrun, if_pos (head_any_any_is.2 ⟨t, ht, hhead⟩)])
  · refine of_eq _ (hno hhead) ?_
    rw [hrun, if_neg fun h => ?_]
    obtain ⟨t, ht, h⟩ := head_any_any_is.1 h
    exact hhead t ht h

section

variable (hyes : ∀ rest, rest.length < ts.length → Reads C (g true) e K rest)
  (hno : (kinds ts).head? ≠ some (.literal word) → Reads C (g false) d K ts)

include hyes hno

theorem accept_of (hle : lang (.seq (Pattern.word word) e) ≤ lang f) (hle' : lang d ≤ lang f)
    (hx : ∀ w ∈ lang f * K, w.head? = some (.literal word) → w ∈ lang (.seq (Pattern.word word) e) * K)
    (hx' : ∀ w ∈ lang f * K, w.head? ≠ some (.literal word) → w ∈ lang d * K) :
    Reads C (Parser.accept word >>= g) f K ts := by
  refine choice_of_one _ (fun hhead => ?_) (fun hhead => of_eq _ (hno hhead) (accept_bind_of_ne hhead)) hle hle' hx hx'
  cases ts with
  | nil => cases hhead
  | cons t rest =>
    have ht : t.terminal = .literal word := Option.some.inj hhead
    refine take (X := [.literal word]) (fun w => mem_lang_terminal.trans (by simp)) (by simp [ht]) ?_
      (hyes rest (by simp))
    rw [accept_bind hhead, bind_run]
    simp [Parser.literal, Token.is, ht, Except.bind]

/-- Taking the next token or leaving it, when it does not begin what is read otherwise. -/
theorem accept
    (hK : Follow [.literal word] (lang d * K)) (he : lang f = lang (.seq (Pattern.word word) e) + lang d) :
    Reads C (Parser.accept word >>= g) f K ts := by
  have hmem : ∀ w ∈ lang f * K, w ∈ lang (.seq (Pattern.word word) e) * K ∨ w ∈ lang d * K := fun w hw => by
    rwa [he, add_mul, mem_add] at hw
  refine accept_of hyes hno (he ▸ le_self_add) (he ▸ le_add_self) (fun w hw hhead => ?_) fun w hw hhead => ?_
  · exact (hmem w hw).resolve_right fun h => hK.avoids w h _ (.head _) hhead
  · exact (hmem w hw).resolve_left fun h => hhead (head_eq_first rfl rfl h)

end

variable (hyes : ∀ rest, rest.length < ts.length → Reads C p e K rest)
  (hno : (kinds ts).head? ≠ some (.literal word) → Reads C q d K ts) (hK : Follow [.literal word] (lang d * K))

include hyes hno hK

theorem ifAccept_of_eq (he : lang f = lang (.seq (Pattern.word word) e) + lang d) :
    Reads C (Parser.accept word >>= fun b => if b = true then p else q) f K ts :=
  accept hyes hno hK he

theorem ifAccept :
    Reads C (Parser.accept word >>= fun b => if b = true then p else q) (.alt (.seq (Pattern.word word) e) d) K ts :=
  accept hyes hno hK (lang_alt _ _)

end

/-- The left side of two, or something that begins like it. Which of the two has been read is told
by the word that follows, and whether it was a word of `f` by the value that came of it. -/
theorem sides {g : α → Parser β} {v : α → Option β} (hp : ∀ {K}, Follow X K → Reads [] p e K ts)
    (hX : .literal word ∉ X) (hK : Follow (.literal word :: X) K)
    (hg : ∀ a rest, rest.length < ts.length → Reads [] (g a) d K rest) (hle : lang f ≤ lang e)
    (hsome : ∀ {a u rest}, ts = u ++ rest → p ts = .ok (a, rest) → (v a).isSome = true → kinds u ∈ lang f)
    (hsome' : ∀ {a u rest}, ts = u ++ rest → p ts = .ok (a, rest) → kinds u ∈ lang f →
      (∀ t ∈ X, (kinds rest).head? ≠ some t) → (v a).isSome = true) :
    Reads [] (p >>= fun a => Parser.accept word >>= fun b => if b = true then g a else (v a).elim Parser.stop Pure.pure)
      (.alt (.seq e (.seq (Pattern.word word) d)) f) K ts := by
  have hword : Begins [.literal word] (lang (.seq (Pattern.word word) d) * K) := begins_first rfl rfl hK.nonempty
  have hmul : ∀ w, w ∈ lang (.alt (.seq e (.seq (Pattern.word word) d)) f) * K ↔
      w ∈ lang e * (lang (.seq (Pattern.word word) d) * K) ∨ w ∈ lang f * K := fun w => by
    simp only [lang_alt, lang_seq, add_mul, mem_add, mul_assoc]
  have hle' : lang f * K ≤ lang e * K := mul_le_mul_left hle K
  -- What follows the left side, and what follows the other one.
  have hleft := hp (K := lang (.seq (Pattern.word word) d) * K) (hword.follow (by simpa using hX))
  have hother := hp (K := K) (hK.mono (by simp))
  cases hrun : p ts with
  | error rest =>
    unfold Reads at hleft hother ⊢
    rw [bind_run]
    rw [hrun] at hleft hother ⊢
    obtain ⟨u, hts, ⟨w0, hw0⟩, hbad⟩ := hleft
    obtain ⟨u', hts', -, hbad'⟩ := hother
    obtain rfl := append_cancel_right (hts.symm.trans hts')
    refine ⟨u, hts, ⟨w0, (hmul _).2 (.inl hw0)⟩, fun w hw hmem => ?_⟩
    exact ((hmul _).1 hmem).elim (hbad w hw) fun h => hbad' w hw (hle' h)
  | ok r =>
    obtain ⟨a, rest⟩ := r
    obtain ⟨u, hts, hu, hres⟩ := hleft.ok hrun
    obtain ⟨u', hts', -, hres'⟩ := hother.ok hrun
    obtain rfl := append_cancel_right (hts.symm.trans hts')
    by_cases heq : (kinds rest).head? = some (.literal word)
    · have hlen : rest.length ≤ ts.length := by rw [hts]; simp
      have hright : Reads [] (Parser.literal word >>= fun _ => g a) (.seq (Pattern.word word) d) K rest :=
        literal_seq hK.nonempty fun rest' h => hg a rest' (by omega)
      refine hts ▸ after (D := []) hright ?_ (fun _ hd => .left (.seq hu hd)) (fun w hagree hmem => ?_) (by simp)
      · rw [← hts, bind_of_ok hrun, accept_bind heq]
        rfl
      · refine ((hmul _).1 hmem).elim (hres _ hagree) fun h => ?_
        exact absurd ((near_one_iff.1 hagree.near).trans heq) (hK.avoids _ (hres' _ hagree (hle' h)) _ (by simp))
    · have hcont : ∀ w, Near 1 w rest → kinds u ++ w ∈ lang (.alt (.seq e (.seq (Pattern.word word) d)) f) * K →
          kinds u ++ w ∈ lang f * K := fun w hnear hmem => by
        refine ((hmul _).1 hmem).resolve_left fun h => heq ?_
        obtain ⟨t, ht, hhead⟩ := hword.head _ (hres w (agrees_nil.2 hnear) h)
        obtain rfl := mem_singleton.1 ht
        exact (near_one_iff.1 hnear).symm.trans hhead
      unfold Reads
      rw [bind_of_ok hrun, accept_bind_of_ne heq]
      simp only [Bool.false_eq_true, if_false]
      cases hv : v a with
      | some b =>
        refine ⟨u, hts, .right (hsome hts hrun (by rw [hv]; rfl)), fun w hw h => ?_⟩
        exact hres' w hw (hle' (hcont w hw.near h))
      | none =>
        refine ⟨u, hts, ?_, fun w hw h => ?_⟩
        · obtain ⟨k, hk⟩ := hword.nonempty
          exact ⟨k, (hmul _).2 (.inl (append_mem_mul hu hk))⟩
        · obtain ⟨c, hc, k, hk, hck⟩ := mem_mul.1 (hcont w hw h)
          -- A word of `f` in front of `K` ends where the left side has ended.
          obtain ⟨u', hu', -, hend⟩ := (hp (K := ({k} : Set (List Terminal)))
            (follow_singleton fun t ht => hK.avoids k hk t (.tail _ ht))).ok hrun
          obtain rfl := append_cancel_right (hts.symm.trans hu')
          obtain rfl : w = k := hend w (agrees_nil.2 hw) (hck ▸ append_mem_mul (hle hc) rfl)
          obtain rfl := append_cancel_right hck
          have := hsome' hts hrun hc fun t ht => by
            rw [← near_one_iff.1 hw]
            exact hK.avoids w hk t (.tail _ ht)
          rw [hv] at this
          cases this

theorem acceptAny {g : Option String → Parser β} (hwords : words ≠ [])
    (hyes : ∀ text rest, rest.length < ts.length → Reads C (g (some text)) e K rest)
    (hno : (∀ t ∈ words.map Terminal.literal, (kinds ts).head? ≠ some t) → Reads C (g none) d K ts)
    (hK : Follow (words.map Terminal.literal) (lang d * K))
    (he : lang f = lang (.seq (Pattern.words words) e) + lang d) : Reads C (Parser.acceptAny words >>= g) f K ts := by
  refine choice (e := .seq (Pattern.words words) e) _ (fun t ht hhead => ?_) (fun hhead => ?_) ?_ ?_ hK ?_
  · cases ts with
    | nil => cases hhead
    | cons t' rest =>
      obtain rfl := Option.some.inj hhead
      exact take (fun w => mem_lang_words hwords) ht (acceptAny_bind ht) (hyes t'.text rest (by simp))
  · exact of_eq _ (hno hhead) (acceptAny_bind_of_ne hhead)
  · rw [Pattern.nullable, nullable_words hwords, Bool.false_and]
  · rw [Pattern.first, nullable_words hwords, first_words]
    simp
  · exact he

theorem optional {q : Bool → Parser β} (hq : ∀ b rest, rest.length ≤ ts.length → Reads C (q b) e K rest)
    (hK : Follow [.literal word] (lang e * K)) :
    Reads C (Parser.accept word >>= q) (.seq (opt (Pattern.word word)) e) K ts := by
  refine accept (e := e) (d := e) (fun rest h => hq _ rest (by omega)) (fun _ => hq _ ts le_rfl) hK ?_
  rw [lang_seq, lang_seq, opt, lang_alt, lang_empty, add_mul, one_mul, add_comm]

theorem optionalAny {q : Option String → Parser β} (hwords : words ≠ [])
    (hq : ∀ text rest, rest.length ≤ ts.length → Reads C (q text) e K rest)
    (hK : Follow (words.map Terminal.literal) (lang e * K)) :
    Reads C (Parser.acceptAny words >>= q) (.seq (opt (Pattern.words words)) e) K ts := by
  refine acceptAny (e := e) (d := e) hwords (fun _ rest h => hq _ rest (by omega)) (fun _ => hq _ ts le_rfl) hK ?_
  rw [lang_seq, lang_seq, opt, lang_alt, lang_empty, add_mul, one_mul, add_comm]

theorem oneOf (hwords : words ≠ []) {g : String → α} (hK : ∃ w, w ∈ K) :
    Reads C (Parser.acceptAny words >>= fun found => match found with
      | some word => Pure.pure (g word)
      | none => Parser.stop) (Pattern.words words) K ts := by
  refine of_tokens (fun w => mem_lang_words hwords) hK (fun t rest hts ht => ⟨g t.text, ?_⟩) fun hhead => ?_
  · rw [hts, acceptAny_bind ht]
    rfl
  · rw [acceptAny_bind_of_ne hhead]
    rfl

/-! ### Loops -/

/-- A loop. It goes on only where what follows the loop does not begin like the tokens, and ends only
where what is repeated does not. Of the tokens that what is repeated could not decide on alone, the
loop takes those that do not begin what follows it. -/
theorem repeatAux_of {k} (hne : e.nullable = false)
    (hgo : ∀ rest, rest.length ≤ k → more rest = true → Reads D p e (lang (.star e) * K) rest ∧
      ((∀ w ∈ K, ¬ Near 1 w rest) ∨
        (∃ w ∈ lang (.seq e (.star e)) * K, Near 1 w rest) ∧ ∀ w ∈ K, ¬ Near 2 w rest))
    (hstop : ∀ rest, more rest = false → ∀ w ∈ lang (.seq e (.star e)) * K, ¬ Agrees C w rest)
    (hC : ∀ t ∈ D, (∃ w, t :: w ∈ lang (.star e) * K) ∧ (t ∈ C ∨ ∀ w ∈ K, w.head? ≠ some t)) (hlen : ts.length ≤ k) :
    Reads C (Parser.repeatAux more p k) (.star e) K ts := by
  have hstar : lang (.star e) = lang (.seq e (.star e)) + lang .empty := by
    rw [lang_seq, lang_empty, add_comm]
    exact lang_star_eq e
  induction k generalizing ts with
  | zero =>
    obtain rfl := eq_nil_of_length_eq_zero (Nat.le_zero.1 hlen)
    refine ⟨[], rfl, .done, fun w hw hmem => ?_⟩
    obtain rfl : w = [] := List.head?_eq_none_iff.1 (near_one_iff.1 hw.near)
    obtain ⟨u, -, v, hv, huv⟩ := mem_mul.1 hmem
    rwa [(append_eq_nil_iff.1 huv).2] at hv
  | succ k ih =>
    have hrun : Parser.repeatAux more p (k + 1) ts =
        if more ts then (p >>= fun a => Parser.repeatAux more p k >>= fun rest => Pure.pure (a :: rest)) ts
        else .ok ([], ts) := rfl
    cases hm : more ts with
    | false =>
      unfold Reads
      rw [hrun, hm]
      refine ⟨[], rfl, .done, fun w hw hmem => ?_⟩
      rw [hstar, add_mul, mem_add, lang_empty, one_mul] at hmem
      exact hmem.resolve_left fun h => hstop ts hm w h hw
    | true =>
      obtain ⟨hp, hx⟩ := hgo ts hlen hm
      have hseq : Reads C (p >>= fun a => Parser.repeatAux more p k >>= fun rest => Pure.pure (a :: rest))
          (.seq e (.star e)) K ts := by
        have hloop : ∀ (a : α) (u rest : List Token), ts = u ++ rest → kinds u ∈ lang e →
            Reads C (Parser.repeatAux more p k >>= fun rest => Pure.pure (a :: rest)) (.star e) K rest :=
          fun a u rest hts hu => by
            have := length_pos_of_ne_nil (ne_nil_of_mem_lang hne hu)
            rw [length_kinds] at this
            rw [hts, length_append] at hlen
            exact map (ih (fun rest hr => hgo rest (by omega)) (by omega)) _
        refine bind hp hloop fun a u rest hts hu t ht hhead => ⟨(hC t ht).1, fun b hb => ?_⟩
        by_contra hnot
        obtain ⟨w, hw⟩ := (hC t ht).1
        obtain ⟨v, hv, -, hres⟩ := (hloop a u rest hts hu).ok hb
        obtain rfl : v = [] := self_eq_append_left.1 hv
        refine (hC t ht).2.resolve_left hnot _ (hres (t :: w) ⟨near_one_iff.2 hhead.symm, fun t' ht' h => ?_⟩ hw) rfl
        exact absurd ht' (Option.some.inj h ▸ hnot)
      refine of_eq _ ?_ (hrun.trans (if_pos hm))
      rcases hx with hx | ⟨hstart, hx⟩
      · exact left hseq (fun w hw => hx w (by simpa using hw)) hstar
      · exact left_two hseq (by rw [Pattern.nullable, hne, Bool.false_and]) hstart
          (fun w hw => hx w (by simpa using hw)) hstar

section

variable (hne : e.nullable = false) (hK : Follow e.first K)
  (hmore : ∀ ts, more ts = true ↔ ∃ t ∈ e.first, (kinds ts).head? = some t)

include hne hK hmore

theorem repeatWhile_of (hp : ∀ rest, rest.length ≤ ts.length → Reads D p e (lang (.star e) * K) rest)
    (hC : ∀ t ∈ D, (∃ w, t :: w ∈ lang (.star e) * K) ∧ (t ∈ C ∨ ∀ w ∈ K, w.head? ≠ some t)) :
    Reads C (Parser.repeatWhile more p) (.star e) K ts := by
  refine repeatAux_of hne (fun rest hrest hm => ⟨hp rest hrest, .inl ?_⟩) (fun rest hm w hw hagrees => ?_) hC
    le_rfl
  · obtain ⟨t, ht, hhead⟩ := (hmore rest).1 hm
    exact hK.not_near ht hhead
  · rw [lang_seq, mul_assoc] at hw
    obtain ⟨x, hx, hhead⟩ := exists_first hne hw
    rw [(hmore rest).2 ⟨x, hx, (near_one_iff.1 hagrees.near).symm.trans hhead⟩] at hm
    cases hm

theorem repeatWhile (hp : ∀ rest, rest.length ≤ ts.length → Reads [] p e (lang (.star e) * K) rest) :
    Reads [] (Parser.repeatWhile more p) (.star e) K ts :=
  repeatWhile_of hne hK hmore hp (by simp)

end

theorem moreAfter_of (hK : Follow [.literal word] K)
    (hp : ∀ rest, rest.length < ts.length → Reads C p e (lang (.star (.seq (Pattern.word word) e)) * K) rest)
    (hC : ∀ t ∈ C, ∃ w, t :: w ∈ lang (.star (.seq (Pattern.word word) e)) * K) :
    Reads C (Parser.moreAfter word p) (.star (.seq (Pattern.word word) e)) K ts := by
  refine repeatWhile_of rfl hK (fun ts => head_any_is.trans ?_) (fun rest hrest =>
    literal_seq (mul_nonempty _ hK.nonempty) fun rest' h => hp rest' (by omega)) fun t ht => ⟨hC t ht, .inl ht⟩
  simp [Pattern.first, Pattern.word, Pattern.nullable]

theorem moreAfter (hK : Follow [.literal word] K)
    (hp : ∀ rest, rest.length < ts.length → Reads [] p e (lang (.star (.seq (Pattern.word word) e)) * K) rest) :
    Reads [] (Parser.moreAfter word p) (.star (.seq (Pattern.word word) e)) K ts :=
  moreAfter_of hK hp (by simp)

theorem separated (hK : Follow [.literal word] K) (hne : e.nullable = false)
    (hp : ∀ rest, rest.length ≤ ts.length → Reads [] p e (lang (.star (.seq (Pattern.word word) e)) * K) rest) :
    Reads [] (Parser.separated word p) (Pattern.separated word e) K ts :=
  seq_lt hne (hp ts le_rfl) fun _ _ h =>
    map (moreAfter hK fun rest hrest => hp rest (by omega)) _

end Reads
end Modelica.Syntax
