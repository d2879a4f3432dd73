/-
What connections ask for.

A wire joins two ports, and with them each flow variable of the one to that of
the other. The wires of a class make a graph of flow variables; each of its
components is to have one balance, in which a variable of the class itself
counts with a minus sign when there are variables of its components
(`balances`).

The balances do not depend on the order of the wires or on the sides of a
wire (`Rewired.balances_eq`).
-/
import Modelica.Proofs.Flow.Components
import Mathlib.Data.Multiset.MapFold

namespace Modelica

open List

/-- A connector as one side of a connection. -/
structure Port where
  name : String
  subscripts : List Value
  inner : Bool
  /-- The names of its flow variables. -/
  flows : List String

/-- One of its flow variables. -/
def Port.vertex (p : Port) (flow : String) : FlowKey := ⟨p.name ++ "." ++ flow, p.subscripts, p.inner⟩

/-- A connection of two connectors with the same flow variables. -/
structure Wire where
  left : Port
  right : Port
  matched : left.flows.Perm right.flows

namespace Wire

def swap (w : Wire) : Wire := ⟨w.right, w.left, w.matched.symm⟩

/-- One edge for each flow variable. -/
def edges (w : Wire) : List FlowEdge := w.left.flows.map fun v => (w.left.vertex v, w.right.vertex v)

theorem mem_edges_swap {w : Wire} {a b} : (a, b) ∈ w.swap.edges ↔ (b, a) ∈ w.edges := by
  simp only [edges, swap, mem_map, Prod.mk.injEq, w.matched.mem_iff]
  constructor
  · rintro ⟨v, hv, rfl, rfl⟩
    exact ⟨v, hv, rfl, rfl⟩
  · rintro ⟨v, hv, rfl, rfl⟩
    exact ⟨v, hv, rfl, rfl⟩

end Wire

/-- The graph of connected flow variables. -/
def edgesOf (ws : List Wire) : List FlowEdge := ws.flatMap Wire.edges

/-- Whether a flow variable, with any subscripts, is connected to something. -/
def touches (edges : List FlowEdge) (name : String) : Bool := edges.any fun e => e.1.name = name ∨ e.2.name = name

/-- The same wires in another order, some of them turned around. -/
def Rewired (ws ws' : List Wire) : Prop :=
  ∃ ms, ws.Perm ms ∧ Forall₂ (fun w w' => w' = w ∨ w' = w.swap) ms ws'

/-- An occurrence of a variable in a sum. -/
structure Term where
  negative : Bool
  name : String
  subscripts : List Value
deriving DecidableEq

/-- The terms that sum up to zero for a component. -/
def balanceOf (vs : List FlowKey) : List Term :=
  vs.map fun k => ⟨!k.inner && vs.any (·.inner), k.name, k.subscripts⟩

/-- The balances of all components, in no order of balances or of terms. -/
def balances (comps : List (List FlowKey)) : Multiset (Multiset Term) :=
  comps.map fun vs => Multiset.ofList (balanceOf vs)

/-! ### Components up to order -/

theorem balanceOf_perm {vs vs'} (h : vs.Perm vs') : (balanceOf vs).Perm (balanceOf vs') := by
  have hany : vs.any (·.inner) = vs'.any (·.inner) := h.any_eq
  simp only [balanceOf, hany]
  exact h.map _

namespace Components

variable {edges edges' : List FlowEdge} {comps comps' : List (List FlowKey)}

section

variable (h : Components edges comps)

include h

theorem nodup_of_mem {vs} (hvs : vs ∈ comps) : vs.Nodup := (nodup_flatten.1 h.nodup).1 vs hvs

theorem nodup_map_coe : (comps.map Multiset.ofList).Nodup := by
  rw [List.Nodup, pairwise_map]
  refine (nodup_flatten.1 h.nodup).2.imp_of_mem fun {vs vs'} hvs _ hdis heq => ?_
  obtain ⟨v, hv⟩ := exists_mem_of_ne_nil vs (h.nonempty vs hvs)
  exact hdis hv ((Multiset.coe_eq_coe.1 heq).mem_iff.1 hv)

theorem mem_map_coe (h' : Components edges comps') {m : Multiset FlowKey}
    (hm : m ∈ comps.map Multiset.ofList) : m ∈ comps'.map Multiset.ofList := by
  obtain ⟨vs, hvs, rfl⟩ := mem_map.1 hm
  obtain ⟨v, hv⟩ := exists_mem_of_ne_nil vs (h.nonempty vs hvs)
  obtain ⟨vs', hvs', hv'⟩ := (h'.mem_iff v).2 ((h.mem_iff v).1 ⟨vs, hvs, hv⟩)
  refine mem_map.2 ⟨vs', hvs', Multiset.coe_eq_coe.2 ?_⟩
  refine (perm_ext_iff_of_nodup (h'.nodup_of_mem hvs') (h.nodup_of_mem hvs)).2 fun w => ?_
  rw [h'.connected vs' hvs' v hv', h.connected vs hvs v hv]

theorem congr (hsame : ∀ a b, (a, b) ∈ edges ∨ (b, a) ∈ edges ↔ (a, b) ∈ edges' ∨ (b, a) ∈ edges') :
    Components edges' comps := by
  have connected : ∀ {edges edges' : List FlowEdge},
      (∀ a b, (a, b) ∈ edges ∨ (b, a) ∈ edges ↔ (a, b) ∈ edges' ∨ (b, a) ∈ edges') →
      ∀ {v w}, Connected edges v w → Connected edges' v w := by
    intro edges edges' hsame v w hvw
    induction hvw with
    | rel a b hab =>
      rcases (hsame a b).1 (.inl hab) with hab | hab
      · exact .rel _ _ hab
      · exact .symm (.rel _ _ hab)
    | refl v => exact .refl v
    | symm v w _ ih => exact .symm ih
    | trans u v w _ _ ih1 ih2 => exact .trans ih1 ih2
  have vertex : ∀ {edges edges' : List FlowEdge},
      (∀ a b, (a, b) ∈ edges ∨ (b, a) ∈ edges ↔ (a, b) ∈ edges' ∨ (b, a) ∈ edges') →
      ∀ {v}, IsVertex edges v → IsVertex edges' v := by
    rintro edges edges' hsame v ⟨⟨a, b⟩, hab, hv⟩
    rcases (hsame a b).1 (.inl hab) with hab | hab
    · exact ⟨_, hab, hv⟩
    · exact ⟨_, hab, hv.symm⟩
  have hsame' := fun a b => (hsame a b).symm
  exact {
    nonempty := h.nonempty
    nodup := h.nodup
    connected := fun vs hvs v hv w => (h.connected vs hvs v hv w).trans ⟨connected hsame, connected hsame'⟩
    mem_iff := fun v => (h.mem_iff v).trans ⟨vertex hsame, vertex hsame'⟩ }

theorem balances_eq (h' : Components edges comps') : balances comps = balances comps' := by
  -- the balance of a component up to order is a function of the component up to order
  let unordered : Multiset FlowKey → Multiset Term :=
    Quot.lift (fun vs => Multiset.ofList (balanceOf vs)) fun _ _ hvs => Multiset.coe_eq_coe.2 (balanceOf_perm hvs)
  have lift : ∀ comps, balances comps = Multiset.ofList ((comps.map Multiset.ofList).map unordered) := fun comps => by
    rw [map_map]
    rfl
  rw [lift, lift]
  have hperm := (perm_ext_iff_of_nodup h.nodup_map_coe h'.nodup_map_coe).2 fun _ => ⟨h.mem_map_coe h', h'.mem_map_coe h⟩
  exact Multiset.coe_eq_coe.2 (hperm.map _)

end

end Components

namespace Rewired

variable {ws ws' : List Wire}

theorem mem_edges (h : Rewired ws ws') (a b : FlowKey) :
    (a, b) ∈ edgesOf ws ∨ (b, a) ∈ edgesOf ws ↔ (a, b) ∈ edgesOf ws' ∨ (b, a) ∈ edgesOf ws' := by
  obtain ⟨ms, hperm, hturned⟩ := h
  have horder : ∀ e, e ∈ edgesOf ws ↔ e ∈ edgesOf ms := fun e => (hperm.flatMap_right Wire.edges).mem_iff
  rw [horder, horder]
  clear hperm horder
  induction hturned with
  | nil => exact Iff.rfl
  | @cons w w' ms ws' hw _ ih =>
    have hedge : (a, b) ∈ w.edges ∨ (b, a) ∈ w.edges ↔ (a, b) ∈ w'.edges ∨ (b, a) ∈ w'.edges := by
      rcases hw with rfl | rfl
      · exact Iff.rfl
      · rw [Wire.mem_edges_swap, Wire.mem_edges_swap, or_comm]
    simp only [edgesOf, flatMap_cons, mem_append] at ih ⊢
    grind

theorem touches_eq (h : Rewired ws ws') (name : String) : touches (edgesOf ws) name = touches (edgesOf ws') name := by
  have half : ∀ {edges edges' : List FlowEdge},
      (∀ a b, (a, b) ∈ edges ∨ (b, a) ∈ edges ↔ (a, b) ∈ edges' ∨ (b, a) ∈ edges') →
      touches edges name = true → touches edges' name = true := by
    intro edges edges' hsame ht
    obtain ⟨⟨a, b⟩, hab, hname⟩ := any_eq_true.1 ht
    simp only [decide_eq_true_eq] at hname
    rcases (hsame a b).1 (.inl hab) with hab | hab
    · exact any_eq_true.2 ⟨_, hab, decide_eq_true hname⟩
    · exact any_eq_true.2 ⟨_, hab, decide_eq_true hname.symm⟩
  exact Bool.eq_iff_iff.2 ⟨half h.mem_edges, half fun a b => (h.mem_edges a b).symm⟩

/-- **Neither the order of the wires nor their sides matter** for what has to
balance. -/
theorem balances_eq (h : Rewired ws ws') {comps comps'} (hc : Components (edgesOf ws) comps)
    (hc' : Components (edgesOf ws') comps') : balances comps = balances comps' :=
  (hc.congr h.mem_edges).balances_eq hc'

end Rewired
end Modelica
