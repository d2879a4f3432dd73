/-
Reading the tokens of a term.

The readers take a term that is grouped for their level off the front of its
tokens, if what follows does not belong to it (`Stops`). Each of them needs
only as much fuel as there are tokens, four times over: from a sum to what
stands in parentheses inside it there are four levels.
-/
import Modelica.Proofs.Script.Grouping

namespace Modelica.Script.Term

open List Option

variable {k n : Nat} {rest ps : List Part} {t u : Term} {operator : Part → Option Operator} {operand : Reader}
  {ts : List Term}

/-- Whether a symbol goes on with a term that is read for a place of the given
strength. -/
def Continues (k : Nat) (s : String) : Prop :=
  s = "(" ∨ s = "." ∨ (k ≤ 2 ∧ s = "**") ∨ (k ≤ 1 ∧ (s = "*" ∨ s = "/")) ∨ (k = 0 ∧ (s = "+" ∨ s = "-"))

/-- A term for a place of the given strength ends here. -/
def Stops (k : Nat) (rest : List Part) : Prop := ∀ s, rest.head? = some (.symbol s) → ¬ Continues k s

theorem Stops.mono {k'} (h : Stops k rest) (hk : k ≤ k') : Stops k' rest := by
  intro s hs hc
  refine h s hs ?_
  simp only [Continues] at hc ⊢
  grind

theorem stops_symbol {s} (h : ¬ Continues k s) (rest : List Part) : Stops k (.symbol s :: rest) := by
  rintro s' hs'
  cases hs'
  exact h

theorem stops_nil (k : Nat) : Stops k [] := by simp [Stops]

/-- None of the names of a term has a meaning of its own. -/
def Named (t : Term) : Prop := ∀ s, Part.name s ∈ t.tokens → s ∉ keywords

theorem Named.of_subset (h : t.Named) (hs : u.tokens ⊆ t.tokens) : u.Named := fun s hu => h s (hs hu)

theorem length_tokens_pos (t : Term) : 0 < t.tokens.length := by
  cases t with
  | binary op l r =>
    rw [tokens, length_append, length_cons]
    omega
  | _ => simp [tokens]

/-! ### One level at a time -/

theorem chain_stop (hn : 0 < n) (t : Term) (h : ∀ p, rest.head? = some p → operator p = none) :
    chain operator operand n t rest = some (t, rest) := by
  obtain _ | n := n
  · omega
  cases rest with
  | nil => rw [chain]
  | cons p rest => simp only [chain, h p rfl]

theorem rates_stop (h : Stops 4 rest) : rates n t rest = (t, rest) := by
  cases n with
  | zero => rw [rates]
  | succ n =>
    rw [rates, if_neg]
    intro htake
    refine h "." ?_ (by simp [Continues])
    cases rest with
    | nil => simp [rateMark] at htake
    | cons p rest =>
      simp only [rateMark, length_cons, take_succ_cons, cons.injEq] at htake
      rw [htake.1, List.head?_cons]

theorem rates_step (hn : 0 < n) (h : Stops 4 rest) : rates n t (rateMark ++ rest) = (.rate t, rest) := by
  obtain _ | n := n
  · omega
  rw [rates, if_pos (take_left), drop_left, rates_stop h]

/-- Reading a term with the marks of differentiation behind it. -/
def base (n : Nat) : Reader := fun ps => (atom (sumTo n) n ps).map fun x => rates n x.1 x.2

theorem powerTo_stop (h : base n ps = some (t, rest)) (hrest : Stops 2 rest) : powerTo (n + 1) ps = some (t, rest) := by
  obtain ⟨x, hx, hrates⟩ := map_eq_some_iff.1 h
  simp only [powerTo, hx, bind_eq_bind, bind_some, hrates]
  split
  · next rest' => exact absurd (by simp [Continues]) (hrest "**" rfl)
  · rfl

theorem powerTo_step {ps'} (h : base n ps = some (t, .symbol "**" :: ps'))
    (hu : factorTo n ps' = some (u, rest)) : powerTo (n + 1) ps = some (.binary .power t u, rest) := by
  obtain ⟨x, hx, hrates⟩ := map_eq_some_iff.1 h
  simp [powerTo, hx, hrates, hu]

theorem factorTo_sign {negative} (h : factorTo n ps = some (t, rest)) :
    factorTo (n + 1) (.symbol (signSymbol negative) :: ps) = some (.sign negative t, rest) := by
  cases negative <;> simp [factorTo, signSymbol, h]

theorem factorTo_power (h : ∀ s, ps.head? = some (.symbol s) → s ≠ "-" ∧ s ≠ "+") :
    factorTo (n + 1) ps = powerTo n ps := by
  match ps with
  | [] | .name _ :: _ | .whole _ :: _ | .decimal _ _ :: _ => rw [factorTo]; simp
  | .symbol s :: rest =>
    obtain ⟨h1, h2⟩ := h s rfl
    simp [factorTo, h1, h2]

/-! ### Terms -/

/-- The reader of sums reads a term off the front of its tokens. -/
def Reads (t : Term) : Prop :=
  ∀ n rest, 4 * t.tokens.length ≤ n → Stops 0 rest → sumTo n (t.tokens ++ rest) = some (t, rest)

theorem head?_tokens : ∀ (t : Term) (rest : List Part), (t.tokens ++ rest).head? ≠ some (.symbol ")")
  | .binary op l r, rest => by
    rw [tokens, append_assoc]
    exact head?_tokens l _
  | .sign negative t, rest => by cases negative <;> simp [tokens, signSymbol]
  | .name _, _ | .whole _, _ | .decimal _ _, _ | .call _ _, _ | .rate _, _ => by simp [tokens]

theorem head?_unsigned (h : t.strength = 4) (rest : List Part) :
    ∀ s, (t.tokens ++ rest).head? = some (.symbol s) → s ≠ "-" ∧ s ≠ "+" := by
  cases t with
  | binary op l r => cases op <;> simp [strength, Operator.strength] at h
  | sign negative u => simp [strength] at h
  | rate u =>
    rintro s hs
    simp only [tokens, cons_append, List.head?_cons, some.injEq, Part.symbol.injEq] at hs
    subst hs
    decide
  | _ => simp [tokens]

theorem arguments_tokens (hts : ∀ t ∈ ts, Reads t) (ht : Reads t) {m}
    (hm : 4 * (argumentTokens (t :: ts)).length ≤ m) (hn : ts.length < n) (rest : List Part) :
    arguments (sumTo m) n (argumentTokens (t :: ts) ++ rest) = some (t :: ts, rest) := by
  induction ts generalizing t n with
  | nil =>
    obtain _ | n := n
    · simp at hn
    have hlen : 4 * t.tokens.length ≤ m := by
      simp [argumentTokens, laterTokens] at hm
      omega
    have hread := ht m (.symbol ")" :: rest) hlen (stops_symbol (by simp [Continues]) _)
    simp [arguments, argumentTokens, laterTokens, hread]
  | cons u us ih =>
    obtain _ | n := n
    · simp at hn
    have hlen : 4 * t.tokens.length ≤ m ∧ 4 * (argumentTokens (u :: us)).length ≤ m := by
      simp [argumentTokens, laterTokens] at hm ⊢
      omega
    have hread := ht m (.symbol "," :: (argumentTokens (u :: us) ++ rest)) hlen.1 (stops_symbol (by simp [Continues]) _)
    have hus := ih (fun v hv => hts v (.tail _ hv)) (hts u (.head _)) (n := n) hlen.2
      (by simp at hn; omega)
    have heq : argumentTokens (t :: u :: us) ++ rest =
        t.tokens ++ .symbol "," :: (argumentTokens (u :: us) ++ rest) := by
      simp [argumentTokens, laterTokens]
    rw [heq, arguments]
    simp [hread, hus]

theorem length_lt_laterTokens (ts : List Term) : ts.length < (laterTokens ts).length := by
  induction ts with
  | nil => simp [laterTokens]
  | cons t ts ih =>
    simp only [laterTokens, length_cons, length_append]
    omega

theorem tokens_sublist_laterTokens (h : t ∈ ts) : t.tokens.Sublist (laterTokens ts) := by
  induction ts with
  | nil => simp at h
  | cons u us ih =>
    rw [laterTokens]
    refine List.Sublist.cons _ ?_
    rcases mem_cons.1 h with rfl | h
    · exact sublist_append_left _ _
    · exact (ih h).trans (sublist_append_right _ _)

theorem tokens_sublist_argumentTokens (h : t ∈ ts) : t.tokens.Sublist (argumentTokens ts) := by
  cases ts with
  | nil => simp at h
  | cons u us =>
    rw [argumentTokens]
    rcases mem_cons.1 h with rfl | h
    · exact sublist_append_left _ _
    · exact (tokens_sublist_laterTokens h).trans (sublist_append_right _ _)

section Levels

variable {t : Term} (hgrouped : t.Grouped) (hnamed : t.Named)
  (hreads : ∀ u : Term, u.tokens.length < t.tokens.length → u.Grouped → u.Named → Reads u)

variable {rest : List Part}

include hgrouped hnamed hreads

theorem base_tokens (hstrength : t.strength = 4) {n} (hn : 4 * t.tokens.length ≤ n + 4) (hrest : Stops 4 rest) :
    base n (t.tokens ++ rest) = some (t, rest) := by
  cases hgrouped with
  | @binary op l r => cases op <;> simp [strength, Operator.strength] at hstrength
  | sign => simp [strength] at hstrength
  | whole k => simp [base, tokens, atom, rates_stop hrest]
  | decimal d e => simp [base, tokens, atom, rates_stop hrest]
  | name s =>
    have hs : s ∉ keywords := hnamed s (by simp [tokens])
    have hatom : atom (sumTo n) n (.name s :: rest) = some (.name s, rest) := by
      cases rest with
      | nil => simp [atom, hs]
      | cons p rest =>
        cases p with
        | symbol s' =>
          have hparen : s' ≠ "(" := fun heq => hrest s' rfl (by simp [Continues, heq])
          simp [atom, hs, hparen]
        | name | whole | decimal => simp [atom, hs]
    simp [base, tokens, hatom, rates_stop hrest]
  | @call f ts hts =>
    have hf : f ∉ keywords := hnamed f (by simp [tokens])
    have hread : ∀ u ∈ ts, Reads u := by
      intro u hu
      have hsub : u.tokens.Sublist (argumentTokens ts) := tokens_sublist_argumentTokens hu
      refine hreads u ?_ (hts u hu) (hnamed.of_subset fun p hp => ?_)
      · have := hsub.length_le
        simp only [tokens, length_cons]
        omega
      · simp only [tokens, mem_cons]
        exact .inr (.inr (hsub.subset hp))
    have hatom : atom (sumTo n) n (.name f :: .symbol "(" :: (argumentTokens ts ++ rest)) = some (.call f ts, rest) := by
      cases ts with
      | nil => simp [atom, hf, argumentTokens]
      | cons u us =>
        have hlen : 4 * (argumentTokens (u :: us)).length ≤ n ∧ us.length < n := by
          have := length_lt_laterTokens us
          simp [tokens, argumentTokens] at hn ⊢
          omega
        have hargs := arguments_tokens (fun v hv => hread v (.tail _ hv)) (hread u (.head _))
          hlen.1 hlen.2 rest
        have hhead := head?_tokens u (laterTokens us ++ rest)
        simp only [atom, contains_iff_mem, hf, if_false, if_true]
        split
        · next rest' heq =>
          rw [argumentTokens, append_assoc] at heq
          rw [heq] at hhead
          simp at hhead
        · simp [hargs]
    simp [base, tokens, hatom, rates_stop hrest]
  | @rate u hu =>
    have hlen : 4 * u.tokens.length ≤ n ∧ 0 < n := by
      simp [tokens, rateMark] at hn
      omega
    have hread : Reads u := by
      refine hreads u ?_ hu (hnamed.of_subset fun p hp => ?_)
      · simp only [tokens, length_cons, length_append]
        omega
      · simp only [tokens, mem_cons, mem_append]
        exact .inr (.inl hp)
    have hsum := hread n (.symbol ")" :: (rateMark ++ rest)) hlen.1 (stops_symbol (by simp [Continues]) _)
    simp [base, tokens, atom, hsum, rates_step hlen.2 hrest]

theorem factorTo_tokens (hstrength : 2 ≤ t.strength) {n} (hn : 4 * t.tokens.length ≤ n + 2)
    (hrest : Stops 2 rest) : factorTo n (t.tokens ++ rest) = some (t, rest) := by
  induction hgrouped generalizing n rest with
  | @sign negative u hu hsu ih =>
    obtain ⟨n, rfl⟩ : ∃ k, n = k + 1 := ⟨n - 1, by simp [tokens] at hn; omega⟩
    have hlen : u.tokens.length < (Term.sign negative u).tokens.length := by simp [tokens]
    refine factorTo_sign (ih (hnamed.of_subset ?_) (fun v hv => hreads v (by omega)) hsu ?_ hrest)
    · simp [tokens]
    · simp only [tokens, length_cons] at hn
      omega
  | @binary op l r hl hr hsl hsr ihl ihr =>
    obtain rfl : op = .power := by
      cases op <;> simp [strength, Operator.strength] at hstrength ⊢
    have hlen : (Term.binary .power l r).tokens.length = l.tokens.length + (r.tokens.length + 1) := by simp [tokens]
    have := l.length_tokens_pos
    have := r.length_tokens_pos
    obtain ⟨n, rfl⟩ : ∃ k, n = k + 2 := ⟨n - 2, by omega⟩
    have hl4 : l.strength = 4 := Nat.le_antisymm l.strength_le hsl
    have hbase := base_tokens hl (hnamed.of_subset (by simp [tokens])) (fun v hv => hreads v (by omega)) hl4
      (n := n) (by omega) (stops_symbol (s := "**") (by simp [Continues]) (r.tokens ++ rest))
    have hexponent := ihr (hnamed.of_subset (by simp [tokens])) (fun v hv => hreads v (by omega)) hsr (n := n)
      (by omega) hrest
    have heq : (Term.binary .power l r).tokens ++ rest = l.tokens ++ .symbol "**" :: (r.tokens ++ rest) := by
      simp [tokens, Operator.symbol]
    rw [heq, factorTo_power (head?_unsigned hl4 _), powerTo_step hbase hexponent]
  | name | whole | decimal | call | rate =>
    obtain ⟨n, rfl⟩ : ∃ k, n = k + 2 := ⟨n - 2, by simp [tokens] at hn; omega⟩
    rw [factorTo_power (head?_unsigned rfl _)]
    exact powerTo_stop (base_tokens (by constructor <;> assumption) hnamed hreads rfl (by omega)
      (hrest.mono (by omega))) hrest

end Levels

/-- Operands joined by operators of one strength: reading them comes to where
all of the term is on the left of what follows. -/
theorem chain_tokens (operand : Reader) (hk : k < 2)
    (hop : ∀ op : Operator, op.strength = k → op.left = k ∧ op.right = k + 1 ∧
      operator (.symbol op.symbol) = some op ∧ ¬ Continues (k + 1) op.symbol) (hgrouped : t.Grouped)
    (hnamed : t.Named) (hstrength : k ≤ t.strength)
    (hoperand : ∀ u : Term, u.tokens.length ≤ t.tokens.length → u.Grouped → u.Named → k < u.strength →
      ∀ rest, Stops (k + 1) rest → operand (u.tokens ++ rest) = some (u, rest)) (hn : t.tokens.length ≤ n)
    (hrest : Stops (k + 1) rest) :
    ∃ m, n < m + t.tokens.length ∧
      ((operand (t.tokens ++ rest)).bind fun x => chain operator operand n x.1 x.2) =
        chain operator operand m t rest := by
  have hsingle : ∀ u : Term, u.tokens.length ≤ t.tokens.length → u.Grouped → u.Named → k < u.strength →
      ∀ rest, Stops (k + 1) rest → ∃ m, n < m + u.tokens.length ∧
        ((operand (u.tokens ++ rest)).bind fun x => chain operator operand n x.1 x.2) =
          chain operator operand m u rest := by
    intro u hlen hu hnu hsu rest hrest
    refine ⟨n, Nat.lt_add_of_pos_right u.length_tokens_pos, ?_⟩
    rw [hoperand u hlen hu hnu hsu rest hrest, bind_some]
  -- Along the left operands, down to one that is no longer joined by such an operator.
  induction hgrouped generalizing rest with
  | @binary op l r hl hr hsl hsr ihl ihr =>
    by_cases hlt : k < op.strength
    · exact hsingle _ (Nat.le_refl _) (.binary hl hr hsl hsr) hnamed hlt rest hrest
    obtain ⟨hleft, hright, hsymbol, hcont⟩ := hop op (Nat.le_antisymm (Nat.not_lt.1 hlt) hstrength)
    have hlen : (Term.binary op l r).tokens.length = l.tokens.length + (r.tokens.length + 1) := by simp [tokens]
    have heq : (Term.binary op l r).tokens ++ rest = l.tokens ++ .symbol op.symbol :: (r.tokens ++ rest) := by
      simp [tokens]
    have hread := hoperand r (by omega) hr (hnamed.of_subset (by simp [tokens])) (by omega) rest hrest
    obtain ⟨m, hm, hreadl⟩ := ihl (hnamed.of_subset (by simp [tokens])) (by omega) (fun u hu => hoperand u (by omega))
      (by omega) (stops_symbol hcont (r.tokens ++ rest)) fun u hu => hsingle u (by omega)
    obtain _ | m := m
    · omega
    refine ⟨m, by omega, ?_⟩
    rw [heq, hreadl]
    simp [chain, hsymbol, hread]
  | name | whole | decimal | sign | call | rate =>
    refine hsingle _ (Nat.le_refl _) (by constructor <;> assumption) hnamed ?_ rest hrest
    simp only [strength]
    omega

section Levels

variable {t : Term} (hgrouped : t.Grouped) (hnamed : t.Named)
  (hreads : ∀ u : Term, u.tokens.length < t.tokens.length → u.Grouped → u.Named → Reads u)

include hgrouped hnamed hreads

theorem productTo_tokens (hstrength : 1 ≤ t.strength) {n} (hn : 4 * t.tokens.length ≤ n + 1) {rest}
    (hrest : Stops 1 rest) : productTo n (t.tokens ++ rest) = some (t, rest) := by
  have hpos := t.length_tokens_pos
  obtain _ | n := n
  · omega
  have hop : ∀ op : Operator, op.strength = 1 → op.left = 1 ∧ op.right = 1 + 1 ∧
      multiplicative (.symbol op.symbol) = some op ∧ ¬ Continues (1 + 1) op.symbol := by
    intro op h
    cases op <;> simp [Operator.strength] at h <;>
      simp [Operator.left, Operator.right, multiplicative, Operator.symbol, Continues]
  obtain ⟨m, hm, hread⟩ := chain_tokens (factorTo n) (by omega) hop hgrouped hnamed hstrength
    (fun u hlen hu hnu hsu rest hrest => factorTo_tokens hu hnu (fun v hv => hreads v (by omega)) hsu (by omega) hrest)
    (n := n) (by omega) (hrest.mono (by omega))
  rw [productTo]
  refine hread.trans (chain_stop (by omega) t fun p hp => ?_)
  cases p with
  | symbol s =>
    have hs := hrest s hp
    simp [Continues] at hs
    simp [multiplicative, hs]
  | name | whole | decimal => rfl

end Levels

theorem sumTo_tokens (hgrouped : t.Grouped) (hnamed : t.Named) : Reads t := by
  induction hlen : t.tokens.length using Nat.strongRecOn generalizing t with
  | ind len ih =>
    subst hlen
    have hreads : ∀ u : Term, u.tokens.length < t.tokens.length → u.Grouped → u.Named → Reads u :=
      fun u hu hgu hnu => ih _ hu hgu hnu rfl
    intro n rest hn hrest
    have hpos := t.length_tokens_pos
    obtain _ | n := n
    · omega
    have hop : ∀ op : Operator, op.strength = 0 → op.left = 0 ∧ op.right = 0 + 1 ∧
        additive (.symbol op.symbol) = some op ∧ ¬ Continues (0 + 1) op.symbol := by
      intro op h
      cases op <;> simp [Operator.strength] at h <;>
        simp [Operator.left, Operator.right, additive, Operator.symbol, Continues]
    obtain ⟨m, hm, hread⟩ := chain_tokens (productTo n) (by omega) hop hgrouped hnamed (Nat.zero_le _)
      (fun u hlen hu hnu hsu rest hrest =>
        productTo_tokens hu hnu (fun v hv => hreads v (by omega)) hsu (by omega) hrest)
      (n := n) (by omega) (hrest.mono (by omega))
    rw [sumTo]
    refine hread.trans (chain_stop (by omega) t fun p hp => ?_)
    cases p with
    | symbol s =>
      have hs := hrest s hp
      simp [Continues] at hs
      simp [additive, hs]
    | name | whole | decimal => rfl

end Modelica.Script.Term
