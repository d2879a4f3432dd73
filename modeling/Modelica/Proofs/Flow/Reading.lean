/-
How the connect clauses and the equations of a flat class are read.

`Graph.Wired` reads the connect clauses of a class as wires. `Graph.ZeroSum`
reads an equation as a sum of signed variables that is zero, `Graph.Grounded`
one that makes a single symbol zero. A reading is not affected by changes to
a class (`KeepsBut.denotes`, `KeepsBut.sum`).
-/
import Modelica.Proofs.Flow.Wiring
import Modelica.Proofs.Flat.Connector

namespace Modelica

open List

/-- Keywords of variables of connectors that connections make something of. -/
def Supported (words : List String) : Prop :=
  words = [] ∨ words = ["flow"] ∨ ∃ first ∈ ["input", "output", "constant", "parameter"], words.head? = some first

namespace Graph

variable {s : Symbol}

/-- The values of literal subscripts. -/
def literals (g : Graph) : List Value → Option (List Value)
  | [] => some []
  | .null :: rest => g.literals rest
  | .node id :: rest =>
    match g.get? id with
    | some (.primary v) => (g.literals rest).map (Build.subscriptKey v :: ·)
    | _ => none
  | _ :: _ => none

/-- A reference of one part, with literal subscripts. -/
def Denotes (g : Graph) (id : Id) (name : String) (subscripts : List Value) : Prop :=
  ∃ r, g.get? id = some (.reference r) ∧ r.name = name ∧ r.child = [] ∧ g.literals r.indices.flatten = some subscripts

/-- The flow variables of a connector. -/
def flowVariables (g : Graph) (k : ClassDef) : List String :=
  (k.symbols.entries.filter fun e => g.wordsOf e.2 = ["flow"]).map (·.1)

/-- A symbol with the keyword `flow`, under its name. -/
def flowSymbol? (g : Graph) (id : Id) : Option (String × Id) :=
  match g.get? id with
  | some (.symbol s) => if (g.wordsOf id).contains "flow" then some (s.name, id) else none
  | _ => none

/-- The symbols of a flat class with the keyword `flow`, by their names, which
need not be their keys. Of symbols with one name the last one counts. -/
def flowSymbols (g : Graph) (c : ClassDef) : Table String Id := .ofList (c.symbols.values.filterMap g.flowSymbol?)

def isConnect (g : Graph) (e : Id) : Bool := g.get? e matches some (.connect ..)

/-- One side of a connect clause in the class `c`: the connector is a symbol
of the class, and its own class is `k`. -/
structure PortAt (g : Graph) (c : ClassDef) (reference : Id) (inner : Option Bool) (p : Port) (k : ClassDef) :
    Prop where
  denotes : g.Denotes reference p.name p.subscripts
  isInner : inner = some p.inner
  connector : ∃ symbol s id, c.symbols.get? p.name = some symbol ∧ g.get? symbol = some (.symbol s) ∧
    s.connector = some id ∧ g.Connector id k
  flows : p.flows = g.flowVariables k

/-- A connection of two connectors in the class `c`. The variables of the left
one have keywords that are supported. -/
def JoinsConnectors (g : Graph) (c : ClassDef) (k : Build.Connection) (w : Wire) : Prop :=
  ∃ kl kr, g.PortAt c k.left k.leftInner w.left kl ∧ g.PortAt c k.right k.rightInner w.right kr ∧
    ∀ v ∈ kl.symbols.entries, Supported (g.wordsOf v.2)

/-- One side of a connection in the class `c` that is a variable of elementary
type and no flow variable. -/
def VariableAt (g : Graph) (c : ClassDef) (reference : Id) : Prop :=
  ∃ r symbol s t names, g.get? reference = some (.reference r) ∧ r.child = [] ∧ c.symbols.get? r.name = some symbol ∧
    g.get? symbol = some (.symbol s) ∧ "flow" ∉ g.wordsOf symbol ∧ s.connector = none ∧ s.type = .node t ∧
    g.Chain t names ∧ names.length ≤ g.size ∧ Build.isElementary (names.map (·.name)) = true

/-- A connection of two variables. There is no flow to join. -/
def JoinsVariables (g : Graph) (c : ClassDef) (k : Build.Connection) (w : Wire) : Prop :=
  g.VariableAt c k.left ∧ g.VariableAt c k.right ∧ w.edges = []

/-- A connect clause of the class `c`. -/
def WireAt (g : Graph) (c : ClassDef) (e : Id) (w : Wire) : Prop :=
  ∃ l r comment li ri, g.get? e = some (.connect l r comment li ri) ∧
    (g.JoinsConnectors c ⟨l, r, li, ri⟩ w ∨ g.JoinsVariables c ⟨l, r, li, ri⟩ w)

/-- A flat class, its connect clauses read as wires. -/
structure Wired (g : Graph) (flat : Id) (c : ClassDef) (ws : List Wire) : Prop where
  get? : g.get? flat = some (.classDef c)
  symbols : ∀ id ∈ c.symbols.values, ∃ s words, g.get? id = some (.symbol s) ∧
    g.get? s.keywords = some (.keywords words)
  equations : ∀ e ∈ c.equations, e < g.size
  wires : Forall₂ (g.WireAt c) (c.equations.filter g.isConnect) ws

/-! ### Equations -/

/-- A variable with its sign. -/
def TermAt (g : Graph) (id : Id) (t : Term) : Prop :=
  if t.negative then ∃ r, g.get? id = some (.expression (.text "-") [.node r]) ∧ g.Denotes r t.name t.subscripts
  else g.Denotes id t.name t.subscripts

/-- A sum of terms, to the right. -/
def Sum (g : Graph) : Id → List Term → Prop
  | _, [] => False
  | id, [t] => g.TermAt id t
  | id, t :: rest => ∃ l r, g.get? id = some (.expression (.text "+") [.node l, .node r]) ∧ g.TermAt l t ∧ g.Sum r rest

/-- An equation whose right side is zero. -/
def EquatedToZero (g : Graph) (e left : Id) : Prop :=
  ∃ z, g.get? e = some (.equation (.node left) (.node z) "") ∧ g.get? z = some (.primary (.int 0))

def ZeroSum (g : Graph) (e : Id) (ts : List Term) : Prop := ∃ s, g.EquatedToZero e s ∧ g.Sum s ts

/-- An equation between two variables. -/
def Equates (g : Graph) (e : Id) : Prop :=
  ∃ l r, g.get? e = some (.equation (.node l) (.node r) "") ∧ g.IsReference l ∧ g.IsReference r

/-- What becomes of the equations of a flat class when its connect clauses are
expanded: equations that were there stay, in their order, with equations
between connected variables among them; then there are the balances, and at
the end one equation for each symbol that has to be zero. -/
def Expanded (g : Graph) (flat : Id) (c : ClassDef) (sums : Multiset (Multiset Term)) (zeros : List (String × Id))
    (g' : Graph) : Prop :=
  g.KeepsBesides flat g' ∧ ∃ c' kept balanced grounded, g'.get? flat = some (.classDef c') ∧
    c'.equations = kept ++ balanced ++ grounded ∧
    kept.filter (· < g.size) = c.equations.filter (!g.isConnect ·) ∧
    (∀ e ∈ kept, g.size ≤ e → g'.Equates e) ∧
    (∃ ts, Forall₂ g'.ZeroSum balanced ts ∧ sums = ts.map Multiset.ofList) ∧
    Forall₂ (fun e zero => g'.EquatedToZero e zero.2) grounded zeros

/-! ### Readings and changes -/

theorem literals_append (g : Graph) {vs us as bs} (hvs : g.literals vs = some as)
    (hus : g.literals us = some bs) : g.literals (vs ++ us) = some (as ++ bs) := by
  induction vs generalizing as with
  | nil =>
    cases hvs
    exact hus
  | cons v vs ih =>
    cases v with
    | null => exact ih hvs
    | node id =>
      simp only [cons_append, literals] at hvs ⊢
      split at hvs
      · next v hv =>
        obtain ⟨as', has', rfl⟩ := Option.map_eq_some_iff.1 hvs
        simp [ih has']
      · cases hvs
    | _ => cases hvs

theorem literals_of_null (g : Graph) {vs} (h : ∀ v ∈ vs, v = .null) : g.literals vs = some [] := by
  induction vs with
  | nil => rfl
  | cons v vs ih =>
    rw [h v (.head _)]
    exact ih fun v hv => h v (.tail _ hv)

theorem Variable.wordsOf {g : Graph} {id words} (h : g.Variable id s words) : g.wordsOf id = words := by
  simp only [Graph.wordsOf, h.get?, h.keywords]

namespace KeepsBut

variable {changed : Id → Prop} {g g' : Graph}

section

variable (h : KeepsBut changed Element.isClass g g')

variable {id e : Id} {ts : List Term}

include h

theorem literals {vs us} (hvs : g.literals vs = some us) : g'.literals vs = some us := by
  induction vs generalizing us with
  | nil => exact hvs
  | cons v vs ih =>
    cases v with
    | null => exact ih hvs
    | node id =>
      simp only [Graph.literals] at hvs ⊢
      split at hvs
      · next v hv =>
        obtain ⟨us', hus', rfl⟩ := Option.map_eq_some_iff.1 hvs
        simp [h.get? hv rfl, ih hus']
      · cases hvs
    | _ => cases hvs

theorem denotes {name subscripts} (hd : g.Denotes id name subscripts) : g'.Denotes id name subscripts := by
  obtain ⟨r, hr, hname, hchild, hsub⟩ := hd
  exact ⟨r, h.get? hr rfl, hname, hchild, h.literals hsub⟩

theorem termAt {t} (ht : g.TermAt id t) : g'.TermAt id t := by
  simp only [TermAt] at ht ⊢
  split
  · next hneg =>
    rw [if_pos hneg] at ht
    obtain ⟨r, hr, hd⟩ := ht
    exact ⟨r, h.get? hr rfl, h.denotes hd⟩
  · next hneg =>
    rw [if_neg hneg] at ht
    exact h.denotes ht

theorem sum (hs : g.Sum id ts) : g'.Sum id ts := by
  induction ts generalizing id with
  | nil => exact hs
  | cons t ts ih =>
    cases ts with
    | nil => exact h.termAt hs
    | cons t' ts =>
      obtain ⟨l, r, he, ht, hs⟩ := hs
      exact ⟨l, r, h.get? he rfl, h.termAt ht, ih hs⟩

theorem equatedToZero {left} (he : g.EquatedToZero e left) : g'.EquatedToZero e left := by
  obtain ⟨z, he, hz⟩ := he
  exact ⟨z, h.get? he rfl, h.get? hz rfl⟩

theorem zeroSum (he : g.ZeroSum e ts) : g'.ZeroSum e ts := by
  obtain ⟨s, he, hs⟩ := he
  exact ⟨s, h.equatedToZero he, h.sum hs⟩

theorem equates (he : g.Equates e) : g'.Equates e := by
  obtain ⟨l, r, he, hl, hr⟩ := he
  exact ⟨l, r, h.get? he rfl, h.isReference hl, h.isReference hr⟩

end

end KeepsBut

theorem Connector.ne {g : Graph} {flat id symbol k c kc name} (hk : g.Connector id kc)
    (hflat : g.ClassAt flat c) (hsymbol : c.symbols.get? name = some symbol)
    (hs : g.SymbolAt symbol s) (hconnector : s.connector = some k) : id ≠ flat := by
  rintro rfl
  cases hk.get?.symm.trans hflat
  obtain ⟨s', words, hv, -⟩ := hk.symbols _ (Table.mem_entries_of_get? hsymbol)
  cases hv.get?.symm.trans hs
  cases hv.connector.symm.trans hconnector

end Graph
end Modelica
