/-
Reading expressions and references.

What is made of an expression is new (`expr_makes`, `reference_makes`). A dotted name
without subscripts becomes an element of which nothing but names are reached
(`typeReference_ends`).
-/
import Modelica.Proofs.Read.Made

namespace Modelica

open List

/-! ### Values -/

/-- The value holds only elements that were not there at the beginning. -/
def Value.New (g0 : Graph) (v : Value) : Prop := ∀ k ∈ v.nodes, g0.New k

namespace Value

variable {g0 : Graph} {v : Value} {vs : List Value} {rows : List (List Value)} {id k : Id}

theorem mem_nodesAll : k ∈ nodesAll vs ↔ ∃ v ∈ vs, k ∈ v.nodes := by
  induction vs with
  | nil => simp [nodesAll]
  | cons v vs ih => simp [nodesAll, ih]

theorem new_nodesAll (h : ∀ v ∈ vs, v.New g0) : ∀ k ∈ nodesAll vs, g0.New k := by
  intro k hk
  obtain ⟨v, hv, hk⟩ := mem_nodesAll.1 hk
  exact h v hv k hk

theorem new_of_nodes_nil (h : v.nodes = []) : v.New g0 := by
  intro k hk
  rw [h] at hk
  cases hk

theorem new_node (h : g0.New id) : (Value.node id).New g0 := by
  intro k hk
  rw [mem_singleton.1 hk]
  exact h

theorem new_list (h : ∀ v ∈ vs, v.New g0) : (Value.list vs).New g0 := new_nodesAll h

end Value

namespace Read

open Build Modelica.Graph

variable {g0 g : Graph} {st : Reading} {id : Id} {e : Element}

/-- What an argument of a call is made of is new. -/
def ArgumentValue.New (g0 : Graph) : ArgumentValue → Prop
  | .value v => v.New g0
  | _ => True

theorem need_makes {v} (h : ∀ a ∈ v, a.New g0) : Makes g0 (need v) (Value.New g0) := by
  cases v with
  | none => exact .throw
  | some a => exact .pure (h a rfl)

theorem primary_makes {v} (hv : v.nodes = []) : Makes g0 (liftM (primary v) : Read Id) g0.New :=
  Makes.alloc (e := .primary v) (Value.new_of_nodes_nil hv)

theorem node_makes (hk : ∀ k ∈ e.children, g0.New k) (hs : e.Shaped := by trivial)
    (hclass : e.skeleton? = none := by rfl) (hclause : ∀ c, e ≠ .clause c := by simp) :
    Makes g0 (node e) fun v => ∀ a ∈ v, a.New g0 := by
  refine (Makes.alloc hk hs hclass hclause).bind fun id hid => .pure ?_
  rintro _ ⟨⟩
  exact Value.new_node hid

theorem chain_makes {parts}
    (h : ∀ p ∈ parts, ∀ row ∈ p.2, ∀ v ∈ row, v.New g0) : Makes g0 (chain parts) fun o => ∀ id ∈ o, g0.New id := by
  induction parts with
  | nil => exact .pure (by simp)
  | cons p parts ih =>
    refine (ih fun q hq => h q (.tail _ hq)).bind fun child hchild => ?_
    refine (Makes.alloc (fun k hk => ?_) ?_ rfl (by simp)).bind fun id hid => .pure (by simpa using hid)
    · rcases mem_append.1 hk with hk | hk
      · obtain ⟨row, hrow, hk⟩ := mem_flatMap.1 hk
        exact Value.new_nodesAll (h p (.head _) row hrow) k hk
      · exact hchild k (Option.mem_toList.1 hk)
    · cases child <;> simp [Element.Shaped]

theorem new_of_chain {o : Option Id} (h : ∀ id ∈ o, g0.New id) : ∀ a ∈ o.map Value.node, a.New g0 := by
  intro a ha
  obtain ⟨id, rfl, rfl⟩ := Option.map_eq_some_iff.1 ha
  exact Value.new_node (h id rfl)

theorem slice_makes {start stop step} (h : start.New g0) (h' : stop.New g0) (h'' : step.New g0) :
    Makes g0 (node (.slice start stop step)) fun v => ∀ a ∈ v, a.New g0 := by
  refine node_makes (fun k hk => ?_)
  simp only [Element.children, mem_append] at hk
  exact hk.elim (·.elim (h k) (h' k)) (h'' k)

theorem numberValue?_nodes {text v} (h : numberValue? text = some v) : v.nodes = [] := by
  simp only [numberValue?] at h
  split at h
  · cases h
    rfl
  · obtain ⟨x, -, rfl⟩ := Option.map_eq_some_iff.1 h
    rfl

theorem operands_makes {items} (h : ∀ a ∈ items, a.New g0) :
    Makes g0 (operands items) fun vs => ∀ v ∈ vs, v.New g0 := by
  rw [operands]
  split
  · exact Makes.bind (P := fun _ => False) .throw fun _ h => h.elim
  · refine (Makes.mapM (P := fun vs => ∀ v ∈ vs, v.New g0) fun a ha => ?_).bind fun found hfound => .pure ?_
    · cases a with
      | value v => exact .pure (by simpa [ArgumentValue.New] using h _ ha)
      | function => exact .throw
      | other => exact .pure (by simp)
    · intro v hv
      obtain ⟨vs, hvs, hv⟩ := mem_flatten.1 hv
      exact hfound vs hvs v hv

theorem grouped_new {vs : List Value} (h : ∀ v ∈ vs, v.New g0) : (grouped vs).New g0 := by
  match vs with
  | [] => exact Value.new_list h
  | [v] => exact h v (.head _)
  | _ :: _ :: _ => exact Value.new_list h

mutual

theorem expr?_makes : ∀ e, Makes g0 (expr? e) fun v => ∀ a ∈ v, a.New g0
  | .number text => by
    rw [expr?]
    split
    · next v hv => exact node_makes (Value.new_of_nodes_nil (numberValue?_nodes hv))
    · exact .throw
  | .string _ => by
    rw [expr?]
    exact node_makes (Value.new_of_nodes_nil rfl)
  | .boolean _ => by
    rw [expr?]
    exact node_makes (Value.new_of_nodes_nil rfl)
  | .ref path => by
    rw [expr?]
    refine (refParts_makes path).bind fun parts hparts => (chain_makes hparts).bind fun o ho => .pure ?_
    exact new_of_chain ho
  | .call path args => by
    rw [expr?]
    refine (refParts_makes path).bind fun parts hparts => (chain_makes hparts).bind fun o ho =>
      (need_makes (new_of_chain ho)).bind fun f hf => (arguments_makes args).bind fun items hitems =>
        (operands_makes hitems).bind fun vs hvs => node_makes (fun k hk => ?_)
    exact (mem_append.1 hk).elim (hf k) (Value.new_nodesAll hvs k)
  | .der args => by
    rw [expr?]
    exact (arguments_makes args).bind fun items hitems => (operands_makes hitems).bind fun vs hvs =>
      node_makes (Value.new_nodesAll hvs)
  | .initial args => by
    rw [expr?]
    exact (arguments_makes args).discard.bind fun _ _ => .pure (by simp)
  | .tuple items => by
    rw [expr?]
    refine (exprs_makes items).bind fun vs hvs => .pure ?_
    rintro _ ⟨⟩
    exact grouped_new hvs
  | .matrix rows => by
    rw [expr?]
    exact (exprRows_makes rows).bind fun _ _ => .pure (by simp)
  | .array args => by
    rw [expr?]
    exact (arguments_makes args).bind fun items hitems => (operands_makes hitems).bind fun vs hvs =>
      node_makes (Value.new_nodesAll hvs)
  | .last => by
    rw [expr?]
    exact .pure (by simp)
  | .neg e => by
    rw [expr?]
    exact (expr?_makes e).bind fun v hv => (need_makes hv).bind fun a ha =>
      node_makes (Value.new_nodesAll (by simpa using ha))
  | .not e => by
    rw [expr?]
    exact (expr?_makes e).bind fun v hv => (need_makes hv).bind fun a ha =>
      node_makes (Value.new_nodesAll (by simpa using ha))
  | .binary op l r => by
    rw [expr?]
    refine (expr?_makes l).bind fun l hl => ?_
    split
    · exact (expr?_makes r).bind fun r hr => (need_makes hl).bind fun a ha => (need_makes hr).bind fun b hb =>
        node_makes (Value.new_nodesAll (by simpa using ⟨ha, hb⟩))
    · exact (need_makes hl).bind fun a ha => (expr?_makes r).bind fun r hr => (need_makes hr).bind fun b hb =>
        node_makes (Value.new_nodesAll (by simpa using ⟨ha, hb⟩))
  | .range items => by
    rw [expr?]
    refine (exprs_makes items).bind fun vs hvs => ?_
    split
    · refine (primary_makes rfl).bind fun step hstep => ?_
      simp only [forall_mem_cons] at hvs
      exact slice_makes hvs.1 hvs.2.1 (Value.new_node hstep)
    · simp only [forall_mem_cons] at hvs
      exact slice_makes hvs.1 hvs.2.1 hvs.2.2.1
    · exact .pure (by simp)
  | .conditional items otherwise => by
    rw [expr?]
    refine (alternatives_makes items).bind fun vs hvs => (expr?_makes otherwise).bind fun last hlast =>
      (need_makes hlast).bind fun a ha => node_makes (fun k hk => ?_) (by simp [Element.Shaped]) rfl (by simp)
    rcases mem_append.1 hk with hk | hk
    · refine Value.new_nodesAll (fun v hv => ?_) k hk
      obtain ⟨p, hp, rfl⟩ := mem_map.1 hv
      exact (hvs p hp).1
    · refine Value.new_nodesAll (fun v hv => ?_) k hk
      rcases mem_append.1 hv with hv | hv
      · obtain ⟨p, hp, rfl⟩ := mem_map.1 hv
        exact (hvs p hp).2
      · rw [mem_singleton.1 hv]
        exact ha
  | .whole => by
    rw [expr?]
    exact (primary_makes rfl).bind fun a ha => (primary_makes rfl).bind fun b hb => (primary_makes rfl).bind fun c hc =>
      slice_makes (Value.new_node ha) (Value.new_node hb) (Value.new_node hc)

theorem exprs_makes : ∀ es, Makes g0 (exprs es) fun vs => ∀ v ∈ vs, v.New g0
  | [] => by
    rw [exprs]
    exact .pure (by simp)
  | e :: rest => by
    rw [exprs]
    exact (expr?_makes e).bind fun v hv => (need_makes hv).bind fun a ha => (exprs_makes rest).bind fun vs hvs =>
      .pure (forall_mem_cons.2 ⟨ha, hvs⟩)

theorem exprRows_makes : ∀ rows, Makes g0 (exprRows rows) fun _ => True
  | [] => by
    rw [exprRows]
    exact .pure trivial
  | row :: rest => by
    rw [exprRows]
    exact (exprs_makes row).discard.bind fun _ _ => exprRows_makes rest

theorem alternatives_makes : ∀ items, Makes g0 (alternatives items) fun vs => ∀ v ∈ vs, v.1.New g0 ∧ v.2.New g0
  | [] => by
    rw [alternatives]
    exact .pure (by simp)
  | a :: rest => by
    rw [alternatives]
    exact (alternative_makes a).bind fun v hv => (alternatives_makes rest).bind fun vs hvs =>
      .pure (forall_mem_cons.2 ⟨hv, hvs⟩)

theorem alternative_makes : ∀ a, Makes g0 (alternative a) fun v => v.1.New g0 ∧ v.2.New g0
  | .mk condition value => by
    rw [alternative]
    exact (expr?_makes condition).bind fun c hc => (need_makes hc).bind fun c hc => (expr?_makes value).bind fun v hv =>
      (need_makes hv).bind fun v hv => .pure ⟨hc, hv⟩

theorem refParts_makes : ∀ path, Makes g0 (refParts path) fun parts => ∀ p ∈ parts, ∀ row ∈ p.2, ∀ v ∈ row, v.New g0
  | [] => by
    rw [refParts]
    exact .pure (by simp)
  | part :: rest => by
    rw [refParts]
    exact (refPart_makes part).bind fun p hp => (refParts_makes rest).bind fun parts hparts =>
      .pure (forall_mem_cons.2 ⟨hp, hparts⟩)

theorem refPart_makes : ∀ part, Makes g0 (refPart part) fun p => ∀ row ∈ p.2, ∀ v ∈ row, v.New g0
  | .mk name subs => by
    rw [refPart]
    refine (exprs_makes subs).bind fun vs hvs => .pure ?_
    split
    · simpa using Value.new_of_nodes_nil rfl
    · simpa using hvs

theorem arguments_makes : ∀ args, Makes g0 (arguments args) fun items => ∀ a ∈ items, a.New g0
  | [] => by
    rw [arguments]
    exact .pure (by simp)
  | a :: rest => by
    rw [arguments]
    exact (argument_makes a).bind fun v hv => (arguments_makes rest).bind fun vs hvs =>
      .pure (forall_mem_cons.2 ⟨hv, hvs⟩)

theorem argument_makes : ∀ a, Makes g0 (argument a) (ArgumentValue.New g0)
  | .value e => by
    rw [argument]
    exact (expr?_makes e).bind fun v hv => (need_makes hv).bind fun a ha => .pure ha
  | .function _ args => by
    rw [argument]
    exact (arguments_makes args).discard.bind fun _ _ => .pure trivial
  | .named _ a => by
    rw [argument]
    exact (argument_makes a).discard.bind fun _ _ => .pure trivial
  | .ranging _ e => by
    rw [argument]
    exact (expr?_makes e).bind fun v hv => (need_makes hv).discard.bind fun _ _ => .pure trivial
  | .iterator _ => by
    rw [argument]
    exact .throw

end

theorem expr_makes (e : Syntax.Expr) : Makes g0 (expr e) (Value.New g0) :=
  (expr?_makes e).bind fun _ => need_makes

theorem reference_makes (path : Syntax.Reference) : Makes g0 (reference path) g0.New :=
  (refParts_makes path).bind fun _ hparts => (chain_makes hparts).bind fun o ho => by
    cases o with
    | none => exact .throw
    | some id => exact .pure (ho id rfl)

end Read
end Modelica
