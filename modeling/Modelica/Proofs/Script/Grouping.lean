/-
What a term stands for when it is written without parentheses.

`Term.tokens` writes the operands of an operator next to it as they are. The
term `regroup t` has the same tokens as `t`, and its operands bind tightly
enough for their places (`Grouped`), so that it is the one that is read from
them (`sumTo_tokens`). A term is read back as itself exactly when nothing in
it needs parentheses (`regroup_eq_iff`).
-/
import Modelica.Script.Term

namespace Modelica.Script

namespace Operator

def symbol : Operator → String
  | .plus => "+"
  | .minus => "-"
  | .times => "*"
  | .divided => "/"
  | .power => "**"

/-- How tightly an operator binds. A sign stands between products and powers. -/
def strength : Operator → Nat
  | .plus | .minus => 0
  | .times | .divided => 1
  | .power => 3

/-- How tightly a term must bind to stand on the left of an operator. -/
def left : Operator → Nat
  | .plus | .minus => 0
  | .times | .divided => 1
  | .power => 4

/-- How tightly a term must bind to stand on the right of an operator. -/
def right : Operator → Nat
  | .plus | .minus => 1
  | .times | .divided | .power => 2

theorem strength_le_left (op : Operator) : op.strength ≤ op.left := by
  cases op <;> decide

theorem reaches {op op' : Operator} (h : op'.strength < op.left) :
    op'.strength ≤ op.strength ∧ op'.right ≤ op.strength := by
  cases op <;> cases op' <;> revert h <;> decide

theorem reaches_sign {op : Operator} (h : 2 < op.left) : 2 ≤ op.strength := by
  cases op <;> revert h <;> decide

theorem left_le (op : Operator) : op.left ≤ 4 := by
  cases op <;> decide

theorem right_le (op : Operator) : op.right ≤ 2 := by
  cases op <;> decide

end Operator

namespace Term

variable {op : Operator} {l r t : Term} {negative : Bool}

def signSymbol (negative : Bool) : String := if negative then "-" else "+"

mutual

/-- The tokens of a term whose operands are written as they are. -/
def tokens : Term → List Part
  | .name s => [.name s]
  | .whole n => [.whole n]
  | .decimal d e => [.decimal d e]
  | .sign negative t => .symbol (signSymbol negative) :: tokens t
  | .binary op l r => tokens l ++ .symbol op.symbol :: tokens r
  | .call f ts => .name f :: .symbol "(" :: argumentTokens ts
  | .rate t => .symbol "(" :: (tokens t ++ .symbol ")" :: rateMark)

/-- The arguments of a call and the parenthesis behind them. -/
def argumentTokens : List Term → List Part
  | [] => [.symbol ")"]
  | t :: ts => tokens t ++ laterTokens ts

/-- The arguments behind the first one. -/
def laterTokens : List Term → List Part
  | [] => [.symbol ")"]
  | t :: ts => .symbol "," :: (tokens t ++ laterTokens ts)

end

/-- How tightly a term binds as it is written. -/
def strength : Term → Nat
  | .binary op _ _ => op.strength
  | .sign .. => 2
  | _ => 4

theorem strength_le (t : Term) : t.strength ≤ 4 := by
  cases t with
  | binary op l r => cases op <;> simp [strength, Operator.strength]
  | _ => simp [strength]

/-- Only a term that ends in an operand can be too weak for the left of an
operator. -/
theorem left_le_strength (t : Term) (op : Operator) (hb : ∀ op l r, t = .binary op l r → False)
    (hs : ∀ negative u, t = .sign negative u → False) : op.left ≤ t.strength := by
  cases t with
  | binary op' l r => exact (hb op' l r rfl).elim
  | sign negative u => exact (hs negative u rfl).elim
  | _ => exact op.left_le

theorem two_le_strength (t : Term) (hb : ∀ op l r, t = .binary op l r → False) : 2 ≤ t.strength := by
  cases t with
  | binary op l r => exact (hb op l r rfl).elim
  | _ => simp [strength]

/-- Every operand binds tightly enough for its place. -/
inductive Grouped : Term → Prop
  | name (s : String) : Grouped (.name s)
  | whole (n : Nat) : Grouped (.whole n)
  | decimal (d : Nat) (e : Int) : Grouped (.decimal d e)
  | sign {negative : Bool} {t : Term} (ht : Grouped t) (hs : 2 ≤ t.strength) : Grouped (.sign negative t)
  | binary {op : Operator} {l r : Term} (hl : Grouped l) (hr : Grouped r) (hsl : op.left ≤ l.strength)
      (hsr : op.right ≤ r.strength) : Grouped (.binary op l r)
  | call {f : String} {ts : List Term} (hts : ∀ t ∈ ts, Grouped t) : Grouped (.call f ts)
  | rate {t : Term} (ht : Grouped t) : Grouped (.rate t)

/-! ### Regrouping -/

/-- Writes an operator and a term that fits to its right behind a term. It
applies to as much at the end of the left term as it binds more tightly than. -/
def attach (op : Operator) (l r : Term) : Term :=
  if op.left ≤ l.strength then .binary op l r
  else match l with
    | .binary op' l1 l2 => .binary op' l1 (attach op l2 r)
    | .sign negative l1 => .sign negative (attach op l1 r)
    | l => .binary op l r

/-- Writes an operator between any two terms. -/
def join (op : Operator) (l r : Term) : Term :=
  if op.right ≤ r.strength then attach op l r
  else match r with
    | .binary op' r1 r2 => attach op' (join op l r1) r2
    | r => attach op l r

/-- Writes a sign in front of any term. -/
def signed (negative : Bool) (t : Term) : Term :=
  if 2 ≤ t.strength then .sign negative t
  else match t with
    | .binary op t1 t2 => attach op (signed negative t1) t2
    | t => .sign negative t

mutual

/-- The term that is meant when a term is written without parentheses. -/
def regroup : Term → Term
  | .sign negative t => signed negative (regroup t)
  | .binary op l r => join op (regroup l) (regroup r)
  | .call f ts => .call f (regroupAll ts)
  | .rate t => .rate (regroup t)
  | t => t

def regroupAll : List Term → List Term
  | [] => []
  | t :: ts => regroup t :: regroupAll ts

end

theorem attach_of_le (h : op.left ≤ l.strength) : attach op l r = .binary op l r := by
  unfold attach
  rw [if_pos h]

theorem join_of_le (h : op.right ≤ r.strength) : join op l r = attach op l r := by
  unfold join
  rw [if_pos h]

theorem signed_of_le (h : 2 ≤ t.strength) : signed negative t = .sign negative t := by
  unfold signed
  rw [if_pos h]

theorem tokens_attach (op : Operator) (l r : Term) :
    (attach op l r).tokens = l.tokens ++ .symbol op.symbol :: r.tokens := by
  fun_induction attach op l r with
  | case1 l h => rw [tokens]
  | case2 op' l1 l2 h ih => simp [tokens, ih]
  | case3 negative l1 h ih => simp [tokens, ih]
  | case4 l h _ _ => rw [tokens]

theorem tokens_join (op : Operator) (l r : Term) :
    (join op l r).tokens = l.tokens ++ .symbol op.symbol :: r.tokens := by
  fun_induction join op l r with
  | case1 r h => exact tokens_attach op l r
  | case2 op' r1 r2 h ih => simp [tokens_attach, ih, tokens]
  | case3 r h _ => exact tokens_attach op l r

theorem tokens_signed (negative : Bool) (t : Term) :
    (signed negative t).tokens = .symbol (signSymbol negative) :: t.tokens := by
  fun_induction signed negative t with
  | case1 t h => rw [tokens]
  | case2 op t1 t2 h ih => simp [tokens_attach, ih, tokens]
  | case3 t h _ => rw [tokens]

mutual

theorem tokens_regroup : ∀ t : Term, t.regroup.tokens = t.tokens
  | .sign negative t => by rw [regroup, tokens_signed, tokens_regroup t, tokens]
  | .binary op l r => by rw [regroup, tokens_join, tokens_regroup l, tokens_regroup r, tokens]
  | .call f ts => by rw [regroup, tokens, (tokens_regroupAll ts).1, tokens]
  | .rate t => by rw [regroup, tokens, tokens_regroup t, tokens]
  | .name _ | .whole _ | .decimal _ _ => by rw [regroup] <;> simp

theorem tokens_regroupAll : ∀ ts : List Term,
    argumentTokens (regroupAll ts) = argumentTokens ts ∧ laterTokens (regroupAll ts) = laterTokens ts
  | [] => by simp [regroupAll]
  | t :: ts => by
    simp [regroupAll, argumentTokens, laterTokens, tokens_regroup t, (tokens_regroupAll ts).2]

end

theorem strength_attach (op : Operator) (l r : Term) : (attach op l r).strength = min l.strength op.strength := by
  fun_induction attach op l r with
  | case1 l h => exact (Nat.min_eq_right (Nat.le_trans op.strength_le_left h)).symm
  | case2 op' l1 l2 h ih => exact (Nat.min_eq_left (Operator.reaches (Nat.not_le.1 h)).1).symm
  | case3 negative l1 h ih => exact (Nat.min_eq_left (Operator.reaches_sign (Nat.not_le.1 h))).symm
  | case4 l h hb hs => exact absurd (l.left_le_strength op hb hs) h

theorem grouped_attach (hl : l.Grouped) (hr : r.Grouped) (h : op.right ≤ r.strength) : (attach op l r).Grouped := by
  fun_induction attach op l r with
  | case1 l hle => exact .binary hl hr hle h
  | case2 op' l1 l2 hlt ih =>
    cases hl with
    | binary hl1 hl2 hs1 hs2 =>
      -- What stands on the right of `op'` still fits there with `op` behind it.
      refine .binary hl1 (ih hl2) hs1 ?_
      rw [strength_attach]
      exact Nat.le_min.2 ⟨hs2, (Operator.reaches (Nat.not_le.1 hlt)).2⟩
  | case3 negative l1 hlt ih =>
    cases hl with
    | sign hl1 hs1 =>
      refine .sign (ih hl1) ?_
      rw [strength_attach]
      exact Nat.le_min.2 ⟨hs1, Operator.reaches_sign (Nat.not_le.1 hlt)⟩
  | case4 l hlt hb hs => exact absurd (l.left_le_strength op hb hs) hlt

theorem grouped_join (hl : l.Grouped) (hr : r.Grouped) : (join op l r).Grouped := by
  fun_induction join op l r with
  | case1 r h => exact grouped_attach hl hr h
  | case2 op' r1 r2 h ih =>
    cases hr with
    | binary hr1 hr2 hs1 hs2 => exact grouped_attach (ih hr1) hr2 hs2
  | case3 r hb h => exact absurd (Nat.le_trans op.right_le (r.two_le_strength hb)) h

theorem grouped_signed (ht : t.Grouped) : (signed negative t).Grouped := by
  fun_induction signed negative t with
  | case1 t h => exact .sign ht h
  | case2 op t1 t2 h ih =>
    cases ht with
    | binary ht1 ht2 hs1 hs2 => exact grouped_attach (ih ht1) ht2 hs2
  | case3 t hb h => exact absurd (t.two_le_strength hb) h

mutual

theorem grouped_regroup : ∀ t : Term, t.regroup.Grouped
  | .sign negative t => by
    rw [regroup]
    exact grouped_signed (grouped_regroup t)
  | .binary op l r => by
    rw [regroup]
    exact grouped_join (grouped_regroup l) (grouped_regroup r)
  | .call f ts => by
    rw [regroup]
    exact .call (grouped_regroupAll ts)
  | .rate t => by
    rw [regroup]
    exact .rate (grouped_regroup t)
  | .name s => by simpa [regroup] using .name s
  | .whole n => by simpa [regroup] using .whole n
  | .decimal d e => by simpa [regroup] using .decimal d e

theorem grouped_regroupAll : ∀ ts : List Term, ∀ t ∈ regroupAll ts, t.Grouped
  | [], t, ht => by simp [regroupAll] at ht
  | u :: us, t, ht => by
    rw [regroupAll, List.mem_cons] at ht
    rcases ht with rfl | ht
    · exact grouped_regroup u
    · exact grouped_regroupAll us t ht

end

theorem regroup_of_grouped (h : t.Grouped) : t.regroup = t := by
  induction h with
  | name s => rw [regroup] <;> simp
  | whole n => rw [regroup] <;> simp
  | decimal d e => rw [regroup] <;> simp
  | sign ht hs ih => rw [regroup, ih, signed_of_le hs]
  | binary hl hr hsl hsr ihl ihr => rw [regroup, ihl, ihr, join_of_le hsr, attach_of_le hsl]
  | @call f ts hts ih =>
    rw [regroup]
    congr 1
    clear hts
    induction ts with
    | nil => rfl
    | cons t ts ihts =>
      rw [regroupAll, ih t (.head _), ihts fun u hu => ih u (.tail _ hu)]
  | rate ht ih => rw [regroup, ih]

theorem regroup_eq_iff : t.regroup = t ↔ t.Grouped := ⟨fun h => h ▸ grouped_regroup t, regroup_of_grouped⟩

end Term
end Modelica.Script
