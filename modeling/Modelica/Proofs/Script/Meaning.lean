/-
What the texts of expressions mean.

`Graph.HasTerm g id t` says that the expression at `id` has the operator tree
`t`. The text composed for it has the tokens of `t`, with no parentheses but
those of calls and derivatives. So it is read as `t.regroup`, and as `t` itself
exactly if no operand binds weaker than its place asks for (`read_composed_text`).
-/
import Modelica.Proofs.Graph.Visit
import Modelica.Proofs.Script.Lexing
import Modelica.Script.OfModel

namespace Modelica

open Script Script.Term List Element StateT

/-- The operator as models write it. -/
def Script.Operator.text : Operator → String
  | .power => "^"
  | op => op.symbol

/-- A name without subscripts and with nothing behind it. -/
def Reference.Single (r : Reference) : Prop := (reference r).children = []

theorem Reference.Single.child {r : Reference} (h : r.Single) : r.child = [] := (append_eq_nil_iff.1 h).2

/-- The operator tree of an expression. -/
inductive Graph.HasTerm (g : Graph) : Id → Script.Term → Prop
  | whole {id n : Nat} : g.get? id = some (.primary (.int n)) → HasTerm g id (.whole n)
  | real {id m : Nat} {e : Int} : g.get? id = some (.primary (.real (.finite false m e))) →
      HasTerm g id (.decimal (numeral (Decimal.shortest m e)).1 (numeral (Decimal.shortest m e)).2)
  | name {id : Id} {r : Reference} : g.get? id = some (.reference r) → r.Single →
      isIdentifier (identifier r.name) = true → HasTerm g id (.name (identifier r.name))
  | sign {id a : Id} {negative : Bool} {t : Script.Term} :
      g.get? id = some (.expression (.text (signSymbol negative)) [.node a]) → HasTerm g a t →
      HasTerm g id (.sign negative t)
  | binary {id a b : Id} {op : Operator} {l r : Script.Term} :
      g.get? id = some (.expression (.text op.text) [.node a, .node b]) → HasTerm g a l → HasTerm g b r →
      HasTerm g id (.binary op l r)
  | rate {id a : Id} {t : Script.Term} : g.get? id = some (.expression (.text "der") [.node a]) → HasTerm g a t →
      HasTerm g id (.rate t)
  | call {id f : Id} {r : Reference} {nodes : List Id} {ts : List Script.Term} :
      g.get? id = some (.expression (.node f) (nodes.map .node)) → g.get? f = some (.reference r) → r.Single →
      isIdentifier r.name = true → r.name ≠ "der" → nodes.length = ts.length →
      (∀ p ∈ nodes.zip ts, HasTerm g p.1 p.2) → HasTerm g id (.call r.name ts)

/-! ### Texts of operations -/

namespace Script.Term

variable {s s' : String} {t u : Term}

variable {texts : List String} {ts : List Term}

/-- The text is taken for the tokens of the term. -/
def Writes (s : String) (t : Term) : Prop := Spells Boundary s.toList t.tokens

theorem boundary_cons {c rest} (hc : c = ' ' ∨ c = ',' ∨ c = ')') : Boundary (c :: rest) := by
  rintro c' hc'
  cases hc'
  exact hc

theorem spells_operator (op : Operator) : Spells Anything (op.symbol ++ " ").toList [.symbol op.symbol] := by
  have hblank : ∀ rest : List Char, ([' '] ++ rest).head? ≠ some '*' := by simp
  cases op with
  | plus => exact (spells_symbol (c := '+') (by decide)).append spells_blank fun _ _ => trivial
  | minus => exact (spells_symbol (c := '-') (by decide)).append spells_blank fun _ _ => trivial
  | times => exact spells_times.append spells_blank fun rest _ => hblank rest
  | divided => exact (spells_symbol (c := '/') (by decide)).append spells_blank fun _ _ => trivial
  | power => exact spells_power.append spells_blank fun _ _ => trivial

theorem writes_binary (op : Operator) (hs : Writes s t) (hs' : Writes s' u) :
    Writes (s ++ " " ++ op.symbol ++ " " ++ s') (.binary op t u) := by
  have hright := (spells_operator op).append hs' fun _ _ => trivial
  have hblank := spells_blank.append hright fun _ _ => trivial
  have hall := Spells.append hs hblank fun _ _ => boundary_cons (.inl rfl)
  simpa [Writes, tokens, String.toList_append] using hall

theorem writes_sign (negative : Bool) (hs : Writes s t) :
    Writes (signSymbol negative ++ " " ++ s) (.sign negative t) := by
  have hsign : Spells Anything (signSymbol negative ++ " ").toList [.symbol (signSymbol negative)] := by
    cases negative with
    | false => exact spells_operator .plus
    | true => exact spells_operator .minus
  have hall := hsign.append hs fun _ _ => trivial
  simpa [Writes, tokens, String.toList_append] using hall

theorem writes_rate (hs : Writes s t) : Writes ("(" ++ s ++ ").diff(self.t)") (.rate t) := by
  have hopen := spells_symbol (c := '(') (by decide)
  have hmark := Spells.append hs spells_rateMark fun _ _ => boundary_cons (.inr (.inr rfl))
  have hall := hopen.append hmark fun _ _ => trivial
  refine Spells.weaken (f := Anything) ?_ fun _ _ => trivial
  simpa [tokens, String.toList_append] using hall

theorem spells_arguments (hlen : texts.length = ts.length) (h : ∀ p ∈ texts.zip ts, Writes p.1 p.2) :
    Spells Anything ((String.intercalate "," texts).toList ++ [')']) (argumentTokens ts) := by
  have hclose := spells_symbol (c := ')') (by decide)
  induction ts generalizing texts with
  | nil =>
    obtain rfl : texts = [] := length_eq_zero_iff.1 hlen
    exact hclose
  | cons t ts ih =>
    obtain ⟨s, texts, rfl⟩ := exists_cons_of_length_eq_add_one hlen
    have hfirst : Writes s t := h (s, t) (by simp)
    have hlater := ih (by simpa using hlen) fun p hp => h p (.tail _ hp)
    cases ts with
    | nil =>
      obtain rfl : texts = [] := by simpa using hlen
      have hall := Spells.append hfirst hclose fun _ _ => boundary_cons (.inr (.inr rfl))
      simpa [argumentTokens, laterTokens, String.intercalate_singleton] using hall
    | cons u us =>
      obtain ⟨s', texts, rfl⟩ := exists_cons_of_length_eq_add_one (by simpa using hlen)
      have hcomma := (spells_symbol (c := ',') (by decide)).append hlater fun _ _ => trivial
      have hall := Spells.append hfirst hcomma fun _ _ => boundary_cons (.inr (.inl rfl))
      simpa [argumentTokens, laterTokens, String.intercalate_cons_cons, String.toList_append] using hall

theorem writes_call {f} (hf : isIdentifier f = true) (hlen : texts.length = ts.length)
    (h : ∀ p ∈ texts.zip ts, Writes p.1 p.2) :
    Writes (f ++ "(" ++ String.intercalate "," texts ++ ")") (.call f ts) := by
  have hopen := (spells_symbol (c := '(') (by decide)).append (spells_arguments hlen h) fun _ _ => trivial
  have hall := (spells_name hf).append hopen fun _ _ => noName_cons (by decide)
  refine Spells.weaken (f := Anything) ?_ fun _ _ => trivial
  simpa [tokens, String.toList_append] using hall

/-- A text is read as the term whose operands bind tightly enough and that has
these tokens. -/
theorem Writes.read (h : Writes s t) (hnamed : t.Named) : Term.read s = some t.regroup := by
  have hparts : parts s = some t.tokens := h.parts fun _ hc => by cases hc
  have hnamed' : t.regroup.Named := hnamed.of_subset (by rw [tokens_regroup]; exact fun _ => id)
  have hread := sumTo_tokens (grouped_regroup t) hnamed' (6 * (t.tokens.length + 2)) []
    (by rw [tokens_regroup]; omega) (stops_nil 0)
  rw [append_nil, tokens_regroup] at hread
  simp [Term.read, hparts, hread]

theorem name_mem_laterTokens {s} (h : Part.name s ∈ laterTokens ts) : ∃ t ∈ ts, Part.name s ∈ t.tokens := by
  induction ts with
  | nil => simp [laterTokens] at h
  | cons t ts ih =>
    simp only [laterTokens, mem_cons, mem_append, reduceCtorEq, false_or] at h
    rcases h with h | h
    · exact ⟨t, (.head _), h⟩
    · obtain ⟨u, hu, h⟩ := ih h
      exact ⟨u, .tail _ hu, h⟩

theorem name_mem_argumentTokens {s} (h : Part.name s ∈ argumentTokens ts) : ∃ t ∈ ts, Part.name s ∈ t.tokens := by
  cases ts with
  | nil => simp [argumentTokens] at h
  | cons t ts =>
    simp only [argumentTokens, mem_append] at h
    rcases h with h | h
    · exact ⟨t, (.head _), h⟩
    · obtain ⟨u, hu, h⟩ := name_mem_laterTokens h
      exact ⟨u, .tail _ hu, h⟩

end Script.Term

namespace Graph.HasTerm

variable {g : Graph} {id : Id} {t : Script.Term}

variable {nodes : List Id} {ts : List Script.Term}

theorem exists_node (hlen : nodes.length = ts.length) {t} (ht : t ∈ ts) : ∃ a, (a, t) ∈ nodes.zip ts := by
  have hterms : (nodes.zip ts).map Prod.snd = ts := map_snd_zip (Nat.le_of_eq hlen.symm)
  rw [← hterms] at ht
  obtain ⟨p, hp, rfl⟩ := mem_map.1 ht
  exact ⟨p.1, hp⟩

theorem exists_term (hlen : nodes.length = ts.length) {a} (ha : a ∈ nodes) : ∃ t, (a, t) ∈ nodes.zip ts := by
  have hnodes : (nodes.zip ts).map Prod.fst = nodes := map_fst_zip (Nat.le_of_eq hlen)
  rw [← hnodes] at ha
  obtain ⟨p, hp, rfl⟩ := mem_map.1 ha
  exact ⟨p.2, hp⟩

theorem named (h : g.HasTerm id t) : t.Named := by
  induction h with
  | whole | real => simp [Named, tokens]
  | name _ _ hs => simpa [Named, tokens] using not_mem_keywords hs
  | sign _ _ ih => exact fun s hs => ih s (by simpa [tokens] using hs)
  | binary _ _ _ ihl ihr =>
    intro s hs
    simp only [tokens, mem_append, mem_cons, reduceCtorEq, false_or] at hs
    exact hs.elim (ihl s) (ihr s)
  | rate _ _ ih =>
    intro s hs
    simp only [tokens, rateMark, mem_append, mem_cons, Part.name.injEq, reduceCtorEq, false_or,
      not_mem_nil, or_false] at hs
    rcases hs with hs | rfl | rfl | rfl
    · exact ih s hs
    all_goals decide
  | call _ _ _ hf _ hlen _ ih =>
    intro s hs
    simp only [tokens, mem_cons, Part.name.injEq, reduceCtorEq, false_or] at hs
    rcases hs with rfl | hs
    · exact not_mem_keywords hf
    · obtain ⟨u, hu, hs⟩ := name_mem_argumentTokens hs
      obtain ⟨a, ha⟩ := exists_node hlen hu
      exact ih (a, u) ha s hs

end Graph.HasTerm

/-- A text can be composed for what stands at the address. -/
def Graph.Composable (g : Graph) (id : Id) : Prop :=
  (∃ t, g.HasTerm id t) ∨ ∃ r, g.get? id = some (.reference r) ∧ r.Single

namespace Graph.HasTerm

variable {g : Graph} {id : Id} {t : Script.Term}

theorem nodesAll_map (nodes : List Id) : Value.nodesAll (nodes.map .node) = nodes := by
  induction nodes with
  | nil => rfl
  | cons a nodes ih => simp [Value.nodesAll, Value.nodes, ih]

theorem tree_reference {r : Reference} (h : g.ReferenceAt id r) (hr : r.Single) :
    g.Tree (fun id _ => g.Composable id) g.size id := by
  refine .join h (.inr ⟨r, h, hr⟩) (by simp [Graph.Formed, hr.child]) ?_
  rw [show (reference r).links = [] from hr]
  simp

theorem tree (h : g.HasTerm id t) : g.Tree (fun id _ => g.Composable id) g.size id := by
  induction h with
  | whole h => exact .join h (.inl ⟨_, .whole h⟩) trivial (by simp [links, children, Value.nodes])
  | real h => exact .join h (.inl ⟨_, .real h⟩) trivial (by simp [links, children, Value.nodes])
  | name h hr => exact tree_reference h hr
  | sign h ha ih =>
    exact .join h (.inl ⟨_, .sign h ha⟩) trivial
      (by simpa [links, children, Value.nodes, Value.nodesAll] using ih)
  | binary h ha hb iha ihb =>
    exact .join h (.inl ⟨_, .binary h ha hb⟩) trivial
      (by simpa [links, children, Value.nodes, Value.nodesAll] using ⟨iha, ihb⟩)
  | rate h ha ih =>
    exact .join h (.inl ⟨_, .rate h ha⟩) trivial
      (by simpa [links, children, Value.nodes, Value.nodesAll] using ih)
  | call h hf hr hname hder hlen hts ih =>
    refine .join h (.inl ⟨_, .call h hf hr hname hder hlen hts⟩) trivial ?_
    simp only [links, children, nodesAll_map, Value.nodes, singleton_append, mem_cons]
    rintro c (rfl | hc)
    · exact tree_reference hf hr
    · obtain ⟨u, hu⟩ := exists_term hlen hc
      exact ih _ hu

end Graph.HasTerm

namespace Script

open Build Composing

variable {g : Graph} {d : Draft} {F : Fault → Graph → Prop}

variable {id : Id} {s : String}

def Draft.recorded (d : Draft) (id : Id) (s : String) : Draft := { d with texts := d.texts.insert id s }

theorem get?_recorded (d : Draft) (id a : Id) (s : String) :
    (d.recorded id s).texts.get? a = if a = id then some s else d.texts.get? a := by
  simp [Draft.recorded, Std.TreeMap.getElem?_insert, eq_comm (a := id)]

@[simp] theorem ends_record {Q} : Ends ((record id s).run d) g Q F ↔ Q ((), d.recorded id s) g := Iff.rfl

theorem ends_valueText {a} (h : d.texts.get? a = some s) {Q} :
    Ends ((valueText (.node a)).run d) g Q F ↔ Q (s, d) g := by
  simp only [valueText, Composing.text, run_bind, run_get, pure_bind, h, run_pure, ends_pure]

theorem ends_liftElement {e} (h : g.get? id = some e) {Q} :
    Ends (run (Build.element id : Composing Element) d) g Q F ↔ Q (e, d) g := by
  simp [ends_element h]

section Operations

variable {a b : Id} {s s' : String} {Q : String × Draft → Graph → Prop}

variable {nodes : List Id}

theorem ends_binary (op : Operator) (ha : d.texts.get? a = some s) (hb : d.texts.get? b = some s') :
    Ends ((operation (.text op.text) [.node a, .node b]).run d) g Q F ↔
      Q (s ++ " " ++ op.symbol ++ " " ++ s', d) g := by
  cases op <;>
    simp [operation, Operator.text, Operator.symbol, arithmetic, signs, ends_valueText ha, ends_valueText hb]

theorem ends_sign (negative : Bool) (ha : d.texts.get? a = some s) :
    Ends ((operation (.text (signSymbol negative)) [.node a]).run d) g Q F ↔
      Q (signSymbol negative ++ " " ++ s, d) g := by
  cases negative <;> simp [operation, signSymbol, arithmetic, signs, ends_valueText ha]

theorem ends_rate (ha : d.texts.get? a = some s) :
    Ends ((operation (.text "der") [.node a]).run d) g Q F ↔ Q ("(" ++ s ++ ").diff(self.t)", d) g := by
  simp [operation, ends_valueText ha]

/-- The recorded texts of some elements. -/
def Draft.textsOf (d : Draft) (nodes : List Id) : List String := nodes.map fun a => (d.texts.get? a).getD ""

theorem ends_texts (h : ∀ a ∈ nodes, ∃ s, d.texts.get? a = some s) {Q} :
    Ends (((nodes.map Value.node).mapM valueText).run d) g Q F ↔ Q (d.textsOf nodes, d) g := by
  induction nodes generalizing Q with
  | nil => exact ends_pure
  | cons a nodes ih =>
    obtain ⟨s, hs⟩ := h a (.head _)
    simp only [map_cons, mapM_cons, run_bind, ends_bind, ends_valueText hs,
      ih fun b hb => h b (.tail _ hb), run_pure, ends_pure]
    simp only [Draft.textsOf, map_cons, hs, Option.getD_some]

theorem not_mem_arithmetic (h : isIdentifier s = true) : s ∉ arithmetic := by
  intro hs
  have hnone : ∀ op ∈ arithmetic, isIdentifier op = false := by decide
  rw [hnone s hs] at h
  cases h

theorem ends_call {f r} (hf : g.ReferenceAt f r) (hr : r.Single)
    (hname : isIdentifier r.name = true) (hder : r.name ≠ "der") (h : ∀ a ∈ nodes, ∃ s, d.texts.get? a = some s) :
    Ends ((operation (.node f) (nodes.map Value.node)).run d) g Q F ↔
      Q (r.name ++ "(" ++ String.intercalate "," (d.textsOf nodes) ++ ")", d) g := by
  have hchain : g.Chain f [r] := ⟨hf, by rw [hr.child]⟩
  have hsize : [r].length ≤ g.size := Nat.lt_of_le_of_lt (Nat.zero_le f) (Graph.get?_lt hf)
  have hmem := not_mem_arithmetic hname
  have harithmetic : arithmetic.contains r.name = false := by simpa using hmem
  have hsigns : signs.contains r.name = false := by
    simp only [arithmetic, signs, mem_cons, contains_eq_mem, decide_eq_false_iff_not] at hmem ⊢
    grind
  simp only [operation, run_bind, run_lift, ends_bind, referenceText,
    ends_path hchain hsize, ends_pure, map_cons, map_nil, dottedText, String.intercalate_singleton, hder,
    if_false, harithmetic, hsigns]
  split
  · contradiction
  · contradiction
  · simp only [run_bind, ends_bind, ends_texts h, run_lift, ends_referenceAt hf,
      run_pure, ends_pure]

end Operations

/-- The text recorded for an element is that of every term it has. -/
def Draft.Written (d : Draft) (g : Graph) (id : Id) : Prop :=
  ∀ t, g.HasTerm id t → ∃ s, d.texts.get? id = some s ∧ Writes s t

theorem part_composes {t} (h : g.HasTerm id t) (hchildren : ∀ e, g.get? id = some e → ∀ c ∈ e.children, d.Written g c) :
    Runs ((Composing.part id).run d) g fun r g' => g' = g ∧ ∃ s, r.2 = d.recorded id s ∧ Writes s t := by
  cases h with
  | whole h =>
    simp only [Composing.part, run_bind, ends_bind, ends_liftElement h, ends_record]
    exact ⟨trivial, _, rfl, spells_whole _⟩
  | @real _ m e h =>
    simp only [Composing.part, run_bind, ends_bind, ends_liftElement h, ends_record]
    refine ⟨trivial, _, rfl, ?_⟩
    simpa [Value.word, Binary64.text, Decimal.Layout.write, Writes, tokens] using spells_unsigned (Decimal.shortest m e)
  | name h hr hs =>
    simp only [Composing.part, run_bind, ends_bind, ends_liftElement h, ends_record]
    exact ⟨trivial, _, rfl, (spells_name hs).weaken fun _ hrest => hrest.noName⟩
  | @sign _ a negative u h ha =>
    obtain ⟨s, hs, hwrites⟩ := hchildren _ h a (by simp [children, Value.nodes, Value.nodesAll]) u ha
    simp only [Composing.part, run_bind, ends_bind, ends_liftElement h, ends_sign negative hs, ends_record]
    exact ⟨trivial, _, rfl, writes_sign negative hwrites⟩
  | @binary _ a b op l u h ha hb =>
    obtain ⟨s, hs, hwrites⟩ := hchildren _ h a (by simp [children, Value.nodes, Value.nodesAll]) l ha
    obtain ⟨s', hs', hwrites'⟩ := hchildren _ h b (by simp [children, Value.nodes, Value.nodesAll]) u hb
    simp only [Composing.part, run_bind, ends_bind, ends_liftElement h, ends_binary op hs hs', ends_record]
    exact ⟨trivial, _, rfl, writes_binary op hwrites hwrites'⟩
  | @rate _ a u h ha =>
    obtain ⟨s, hs, hwrites⟩ := hchildren _ h a (by simp [children, Value.nodes, Value.nodesAll]) u ha
    simp only [Composing.part, run_bind, ends_bind, ends_liftElement h, ends_rate hs, ends_record]
    exact ⟨trivial, _, rfl, writes_rate hwrites⟩
  | @call _ f r nodes ts h hf hr hname hder hlen hts =>
    have hnode : ∀ a ∈ nodes, a ∈ (expression (.node f) (nodes.map .node)).children := fun a ha => by
      simp [children, Value.nodes, Graph.HasTerm.nodesAll_map, ha]
    have hwritten : ∀ p ∈ nodes.zip ts, ∃ s, d.texts.get? p.1 = some s ∧ Writes s p.2 := fun p hp =>
      hchildren _ h p.1 (hnode p.1 (of_mem_zip hp).1) p.2 (hts p hp)
    have htexts : ∀ a ∈ nodes, ∃ s, d.texts.get? a = some s := fun a ha => by
      obtain ⟨u, hu⟩ := Graph.HasTerm.exists_term hlen ha
      obtain ⟨s, hs, _⟩ := hwritten _ hu
      exact ⟨s, hs⟩
    simp only [Composing.part, run_bind, ends_bind, ends_liftElement h, ends_call hf hr hname hder htexts,
      ends_record]
    refine ⟨trivial, _, rfl, writes_call hname (by simpa [Draft.textsOf] using hlen) fun p hp => ?_⟩
    rw [Draft.textsOf, zip_map_left] at hp
    obtain ⟨q, hq, rfl⟩ := mem_map.1 hp
    obtain ⟨s, hs, hwrites⟩ := hwritten q hq
    show Writes ((d.texts.get? q.1).getD "") q.2
    rw [hs]
    exact hwrites

/-- A step writes the text of an element and leaves the others. -/
structure Draft.Writes (g : Graph) (id : Id) (d d' : Draft) : Prop where
  written : d'.Written g id
  keeps : ∀ a, d.Written g a → d'.Written g a

theorem Draft.writes_of_recorded (h : (d.recorded id s).Written g id) : Draft.Writes g id d (d.recorded id s) := by
  refine ⟨h, fun a ha t ht => ?_⟩
  by_cases hid : a = id
  · subst hid
    exact h t ht
  · rw [get?_recorded, if_neg hid]
    exact ha t ht

theorem part_writes (h : g.Composable id) (hchildren : ∀ e, g.get? id = some e → ∀ c ∈ e.children, d.Written g c) :
    Runs ((Composing.part id).run d) g fun x g' => g' = g ∧ Draft.Writes g id d x.2 := by
  rcases h with ⟨t, ht⟩ | ⟨r, hr, _⟩
  · -- all terms that the expression has are written by one text
    have hall := Runs.forall (⟨t, ht⟩ : { u // g.HasTerm id u }) fun u => part_composes u.2 hchildren
    refine hall.imp fun x g' h => ⟨(h ⟨t, ht⟩).1, ?_⟩
    obtain ⟨s, hs, _⟩ := (h ⟨t, ht⟩).2
    rw [hs]
    refine Draft.writes_of_recorded fun u hu => ?_
    obtain ⟨s', hs', hwrites⟩ := (h ⟨u, hu⟩).2
    rw [← hs, hs']
    exact ⟨s', by rw [get?_recorded, if_pos rfl], hwrites⟩
  · simp only [Composing.part, run_bind, ends_bind, ends_liftElement hr, ends_record]
    refine ⟨trivial, Draft.writes_of_recorded fun u hu => ?_⟩
    refine ⟨identifier r.name, by rw [get?_recorded, if_pos rfl], ?_⟩
    cases hu with
    | name hr' _ hs =>
      cases hr.symm.trans hr'
      exact (spells_name hs).weaken fun _ hrest => hrest.noName
    | whole h' | real h' | sign h' | binary h' | rate h' | call h' =>
      cases hr.symm.trans h'

theorem runs_forIn_writes {l : List Id} {f : Id → Composing Unit}
    (hf : ∀ c ∈ l, ∀ d, Runs ((f c).run d) g fun x g' => g' = g ∧ Draft.Writes g c d x.2) (d : Draft) :
    Runs ((forIn l PUnit.unit fun c _ => do f c; pure (.yield PUnit.unit)).run d) g fun x g' =>
      g' = g ∧ (∀ a, d.Written g a → x.2.Written g a) ∧ ∀ c ∈ l, x.2.Written g c := by
  induction l generalizing d with
  | nil => exact ⟨rfl, fun _ h => h, by simp⟩
  | cons c l ih =>
    simp only [forIn_cons, run_bind, bind_assoc, pure_bind, ends_bind]
    refine (hf c (.head _) d).imp ?_
    rintro x _ ⟨rfl, hx⟩
    refine (ih (fun b hb => hf b (.tail _ hb)) x.2).imp ?_
    rintro y _ ⟨rfl, hkeeps, hl⟩
    refine ⟨rfl, fun a ha => hkeeps a (hx.keeps a ha), fun b hb => ?_⟩
    rcases mem_cons.1 hb with rfl | hb
    · exact hkeeps b hx.written
    · exact hl b hb

theorem walk_writes {n : Nat} (h : g.Tree (fun id _ => g.Composable id) n id) (d : Draft) :
    Runs ((composer.walk n id).run d) g fun x g' => g' = g ∧ Draft.Writes g id d x.2 := by
  induction n generalizing id d with
  | zero => exact h.elim
  | succ n ih =>
    obtain ⟨e, he, hcomposable, _, hl⟩ := h
    have hloop := runs_forIn_writes (fun c hc d => ih (hl c (mem_links_of_mem_children hc)) d) d
    simp only [Visitor.walk, composer, run_bind, pure_bind, ends_bind, ends_liftElement he]
    refine hloop.imp ?_
    rintro x _ ⟨rfl, hkeeps, hwritten⟩
    refine (part_writes hcomposable fun e' he' c hc => ?_).imp ?_
    · cases he.symm.trans he'
      exact hwritten c hc
    · rintro y _ ⟨rfl, hy⟩
      exact ⟨rfl, hy.written, fun a ha => hy.keeps a (hkeeps a ha)⟩

/-- The text composed for an expression is read as the regrouped operator tree,
and so as the operator tree of the expression exactly if none of its operands
binds weaker than its place asks for. -/
theorem read_composed_text {id : Id} {t : Term} (h : g.HasTerm id t) (d : Draft) :
    Runs (composer.run id d) g fun d' g' => g' = g ∧ ∃ s, d'.texts.get? id = some s ∧
      Term.read s = some t.regroup ∧ (Term.read s = some t ↔ t.Grouped) := by
  simp only [Visitor.run, ends_bind, ends_size, ends_pure]
  refine (walk_writes (h.tree.mono (Nat.le_succ _)) d).imp ?_
  rintro x _ ⟨rfl, hx⟩
  obtain ⟨s, hs, hwrites⟩ := hx.written t h
  have hread := hwrites.read h.named
  refine ⟨rfl, s, hs, hread, ?_⟩
  rw [hread, Option.some.injEq, regroup_eq_iff]

/-- The expression `x * (1 - x)`. -/
def logistic : Graph := { elements := #[
  .reference { name := "x" }, .primary (.int 1), .reference { name := "x" },
  .expression (.text "-") [.node 1, .node 2], .expression (.text "*") [.node 0, .node 3]] }

/-- The text of `x * (1 - x)` is read as `x * 1 - x`. -/
theorem read_composed_text_logistic :
    logistic.HasTerm 4 (.binary .times (.name "x") (.binary .minus (.whole 1) (.name "x"))) ∧
    Runs (composer.run 4 {}) logistic fun d' _ => ∃ s, d'.texts.get? 4 = some s ∧
      Term.read s = some (.binary .minus (.binary .times (.name "x") (.whole 1)) (.name "x")) := by
  have hx : ∀ id, logistic.get? id = some (.reference { name := "x" }) → logistic.HasTerm id (.name "x") :=
    fun id h => .name h rfl (by decide)
  have hminus : logistic.get? 3 = some (.expression (.text Operator.minus.text) [.node 1, .node 2]) := rfl
  have htimes : logistic.get? 4 = some (.expression (.text Operator.times.text) [.node 0, .node 3]) := rfl
  have h : logistic.HasTerm 4 (.binary .times (.name "x") (.binary .minus (.whole 1) (.name "x"))) :=
    .binary htimes (hx 0 rfl) (.binary hminus (.whole (n := 1) rfl) (hx 2 rfl))
  refine ⟨h, (read_composed_text h {}).imp ?_⟩
  rintro d' _ ⟨_, s, hs, hread, _⟩
  exact ⟨s, hs, hread⟩

end Script

end Modelica
