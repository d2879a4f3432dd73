/-
What elements hold, and how copying goes through it.

`rename φ` puts other addresses into an element, and `relink φ` does so for classes and
arguments too. Of these it leaves out what copying treats in its own way: the mark of the
source, and the links that lead out of what is copied.

The content of an element is copied link by link, so what the function `f` for the links does to each of
them it does to all. `content_matches` says this once for every way to
reason about parts of copying that goes along with `pure` and `>>=` (`Composes`). The result `e'`
is related to `e` as links are to their copies: maps of addresses that do not tell a link from
its copy do not tell `e` from `e'` (`Matches`).
-/
import Modelica.Proofs.Graph.Tree

namespace Modelica

open List Element

/-! ### Renaming -/

mutual

/-- A value with other addresses in it. -/
def Value.rename (φ : Id → Id) : Value → Value
  | .node id => .node (φ id)
  | .list items => .list (Value.renameAll φ items)
  | v => v

def Value.renameAll (φ : Id → Id) : List Value → List Value
  | [] => []
  | v :: rest => v.rename φ :: Value.renameAll φ rest

end

theorem Value.renameAll_eq_map (φ : Id → Id) (vs : List Value) : Value.renameAll φ vs = vs.map (Value.rename φ) := by
  induction vs with
  | nil => rfl
  | cons v rest ih => rw [renameAll, ih, map_cons]

mutual

theorem Value.nodes_rename (φ : Id → Id) : ∀ v : Value, (v.rename φ).nodes = v.nodes.map φ
  | .list items => by simpa [rename, nodes] using Value.nodesAll_renameAll φ items
  | .node id => by simp [rename, nodes]
  | .null | .bool _ | .int _ | .real _ | .text _ => by simp [rename, nodes]

theorem Value.nodesAll_renameAll (φ : Id → Id) :
    ∀ vs : List Value, Value.nodesAll (Value.renameAll φ vs) = (Value.nodesAll vs).map φ
  | [] => rfl
  | v :: rest => by
    simp [renameAll, nodesAll, Value.nodes_rename φ v, Value.nodesAll_renameAll φ rest]

end

theorem Value.nodesOfRows_rename (φ : Id → Id) (rows : List (List Value)) :
    Value.nodesOfRows (rows.map (Value.renameAll φ)) = (Value.nodesOfRows rows).map φ := by
  simp only [Value.nodesOfRows, flatMap_map, Value.nodesAll_renameAll, map_flatMap]

def Reference.rename (φ : Id → Id) (r : Reference) : Reference :=
  { r with indices := r.indices.map (Value.renameAll φ), child := r.child.map φ }

def Symbol.rename (φ : Id → Id) (s : Symbol) : Symbol :=
  { s with
    type := s.type.rename φ, keywords := φ s.keywords, dimensions := s.dimensions.map (Value.renameAll φ),
    start := s.start.rename φ, min := s.min.rename φ, max := s.max.rename φ, nominal := s.nominal.rename φ,
    value := s.value.rename φ, fixed := s.fixed.rename φ, unit := s.unit.rename φ,
    modification := s.modification.map φ, connector := s.connector.map φ }

def Clause.rename (φ : Id → Id) (c : Clause) : Clause :=
  { keywords := φ c.keywords, type := φ c.type, dimensions := c.dimensions.map (Value.renameAll φ),
    symbols := c.symbols.map φ }

/-- An element with other addresses in it. Classes and arguments, whose copies
are made through their sources, are left as they are. -/
def Element.rename (φ : Id → Id) : Element → Element
  | .primary v => .primary (v.rename φ)
  | .array vs => .array (Value.renameAll φ vs)
  | .slice a b c => .slice (a.rename φ) (b.rename φ) (c.rename φ)
  | .reference r => .reference (r.rename φ)
  | .expression op vs => .expression (op.rename φ) (Value.renameAll φ vs)
  | .conditional cs vs => .conditional (Value.renameAll φ cs) (Value.renameAll φ vs)
  | .equation l r c => .equation (l.rename φ) (r.rename φ) c
  | .branch form cs bs c => .branch form (Value.renameAll φ cs) (bs.map fun b => b.map φ) c
  | .iterator name v => .iterator name (v.rename φ)
  | .loopEquation is body c => .loopEquation (is.map φ) (body.map φ) c
  | .connect l r c li ri => .connect (φ l) (φ r) c li ri
  | .assignment ts v c => .assignment (ts.map φ) (v.rename φ) c
  | .loopStatement is body c => .loopStatement (is.map φ) (body.map φ) c
  | .call name vs c => .call name (Value.renameAll φ vs) c
  | .symbol s => .symbol (s.rename φ)
  | .clause c => .clause (c.rename φ)
  | .importAs c name => .importAs (φ c) name
  | .elementModification c vs => .elementModification (φ c) (Value.renameAll φ vs)
  | .shortClass name category c m => .shortClass name category (φ c) (φ m)
  | .modification args => .modification (args.map φ)
  | .argument v scope redeclare source => .argument v scope redeclare source
  | .base c m vis => .base (φ c) (φ m) vis
  | .classDef c => .classDef c
  | .keywords ws => .keywords ws

mutual

theorem Value.rename_id : ∀ v : Value, v.rename (fun l => l) = v
  | .list items => congrArg Value.list (Value.renameAll_id items)
  | .node _ | .null | .bool _ | .int _ | .real _ | .text _ => rfl

theorem Value.renameAll_id : ∀ vs : List Value, Value.renameAll (fun l => l) vs = vs
  | [] => rfl
  | v :: rest => congrArg₂ cons (Value.rename_id v) (Value.renameAll_id rest)

end

theorem Element.rename_id (e : Element) : e.rename (fun l => l) = e := by
  have hrows : ∀ rows : List (List Value), rows.map (Value.renameAll fun l => l) = rows := fun rows =>
    (map_congr_left fun row _ => Value.renameAll_id row).trans (map_id' rows)
  cases e <;> simp [rename, Reference.rename, Symbol.rename, Clause.rename, Value.rename_id, Value.renameAll_id, hrows]

/-- Whether an element is copied through its source. -/
def Element.hasSource : Element → Bool
  | .classDef _ | .argument .. => true
  | _ => false

theorem Element.hasSource_rename (φ : Id → Id) (e : Element) : (e.rename φ).hasSource = e.hasSource := by
  cases e <;> rfl

theorem Element.links_rename (φ : Id → Id) {e : Element} (h : e.hasSource = false) :
    (e.rename φ).links = e.links.map φ := by
  cases e with
  | classDef c => simp [hasSource] at h
  | argument v scope redeclare source => simp [hasSource] at h
  | symbol s =>
    simp [rename, links, Symbol.rename, Symbol.children, Value.nodes_rename, Value.nodesOfRows_rename,
      Option.toList_map]
  | clause c => simp [rename, links, children, Clause.rename, Value.nodesOfRows_rename]
  | reference r => simp [rename, links, children, Reference.rename, Value.nodesOfRows_rename]
  | branch form cs bs c =>
    simp [rename, links, children, Value.nodesAll_renameAll, map_flatten]
  | _ => simp [rename, links, children, Value.nodes_rename, Value.nodesAll_renameAll]

/-- The element without the mark that copying leaves. -/
def Element.unsourced : Element → Element
  | .classDef c => .classDef { c with source := none }
  | .argument v scope redeclare _ => .argument v scope redeclare none
  | e => e

/-- The name of a class and the class it stands in. -/
def Element.place? : Element → Option (Option String × Option Id)
  | .classDef c => some (c.name, c.parent)
  | _ => none

theorem Element.isSome_place? (e : Element) : e.place?.isSome = e.isClass := by
  cases e <;> rfl

/-- The element of which another one was made by copying. -/
def Element.source? : Element → Option Id
  | .classDef c => c.source
  | .argument _ _ _ source => source
  | _ => none

/-! ### Relinking -/

def ClassDef.relink (φ : Id → Id) (c : ClassDef) : ClassDef :=
  { c with
    imports := c.imports.map φ, bases := c.bases.map φ, classes := c.classes.map φ, symbols := c.symbols.map φ,
    functions := c.functions.map φ, initialEquations := c.initialEquations.map φ, equations := c.equations.map φ,
    initialStatements := c.initialStatements.map φ, statements := c.statements.map φ, remarks := c.remarks.map φ,
    environment := c.environment.map φ, parent := none, source := none }

/-- An element with other addresses in it, without its source and what is around it. -/
def Element.relink (φ : Id → Id) : Element → Element
  | .classDef c => .classDef (c.relink φ)
  | .argument v _ redeclare _ => .argument (φ v) none redeclare none
  | e => e.rename φ

theorem ClassDef.relink_id (c : ClassDef) : c.relink (fun l => l) = { c with parent := none, source := none } := by
  simp [relink, Table.map]

theorem Table.values_map {κ : Type} (φ : Id → Id) (t : Table κ Id) : (t.map φ).values = t.values.map φ := by
  simp [Table.values, Table.map, Function.comp_def]

namespace Element

theorem relink_eq_rename (φ : Id → Id) {e : Element} (h : e.hasSource = false) : e.relink φ = e.rename φ := by
  cases e with
  | classDef c => cases h
  | argument v scope redeclare source => cases h
  | _ => rfl

theorem hasSource_relink (φ : Id → Id) (e : Element) : (e.relink φ).hasSource = e.hasSource := by
  cases e <;> rfl

theorem links_relink (φ : Id → Id) (e : Element) : (e.relink φ).links = e.links.map φ := by
  cases h : e.hasSource with
  | false => rw [relink_eq_rename φ h, links_rename φ h]
  | true =>
    cases e with
    | classDef c =>
      simp [relink, links, children, ClassDef.relink, ClassDef.children, Table.values_map, Option.toList_map]
    | argument v scope redeclare source => rfl
    | _ => cases h

end Element

/-! ### Copying link by link -/

/-- The second thing is the first one with related addresses in it. Maps that do not tell an address from
those it is related to do not tell the two apart. -/
def Matches {α β : Type} (R : Id → Id → Prop) (F : (Id → Id) → α → β) (x x' : α) : Prop :=
  ∀ ⦃φ φ' : Id → Id⦄, (∀ l l', R l l' → φ' l' = φ l) → F φ' x' = F φ x

namespace Element

/-- An element and one that holds what is related to its links. Whether the class around a class is the same
is left open. -/
structure Corresponds (R : Id → Id → Prop) (kept : Prop) (e e' : Element) : Prop where
  source : e'.source? = e.source?
  place : kept → e'.place? = e.place?
  content : Matches R relink e e'

namespace Corresponds

variable {R : Id → Id → Prop} {kept : Prop} {e e' : Element}

theorem eq_rename (h : Corresponds R kept e e') (he : e.hasSource = false) {φ : Id → Id}
    (hφ : ∀ l l', R l l' → l' = φ l) : e' = e.rename φ := by
  have heq : e'.relink (fun l => l) = e.relink φ := h.content hφ
  have he' : e'.hasSource = false := by rw [← hasSource_relink fun l => l, heq, hasSource_relink, he]
  rw [relink_eq_rename _ he, relink_eq_rename _ he', rename_id] at heq
  exact heq

theorem eq_relink {c : ClassDef} (h : (classDef c).Corresponds R True e') {φ : Id → Id} (hφ : ∀ l l', R l l' → l' = φ l) :
    e' = .classDef { c.relink φ with parent := c.parent, source := c.source } := by
  have hcontent := h.content hφ
  have hplace := h.place trivial
  have hsource := h.source
  cases e' with
  | classDef c' =>
    have heq := Element.classDef.inj hcontent
    rw [ClassDef.relink_id] at heq
    rw [← heq]
    simp only [place?, source?, Option.some.injEq, Prod.mk.injEq] at hplace hsource
    rw [← hplace.2, ← hsource]
  | _ => cases hplace

open Classical in
theorem related (h : Corresponds R kept e e') {l} (hl : l ∈ e.links) : ∃ l', R l l' := by
  have hmarks : ∀ l l', R l l' → (0 : Id) = if ∃ l', R l l' then 0 else 1 := fun l l' hr => (if_pos ⟨l', hr⟩).symm
  have heq := congrArg links (h.content hmarks)
  rw [links_relink, links_relink] at heq
  have hmem := heq ▸ mem_map_of_mem hl
  by_contra hno
  simp [hno] at hmem

open Classical in
theorem related_of_mem (h : Corresponds R kept e e') {l'} (hl : l' ∈ e'.links) : ∃ l, R l l' := by
  have hmarks : ∀ l l', R l l' → (if ∃ l, R l l' then 0 else 1) = (0 : Id) := fun l l' hr => if_pos ⟨l, hr⟩
  have heq := congrArg links (h.content hmarks)
  rw [links_relink, links_relink] at heq
  have hmem := heq ▸ mem_map_of_mem hl
  by_contra hno
  simp [hno] at hmem

end Corresponds
end Element

namespace Copying

/-- What is said of parts of copying is said of what is put together from them. `P` speaks of the
result of a part as seen from a world `w`. -/
structure Composes {W : Type} (C : ∀ α : Type, Copying α → (W → α → Prop) → Prop) : Prop where
  imp : ∀ {α : Type} {x : Copying α} {P P' : W → α → Prop}, C α x P → (∀ w a, P w a → P' w a) → C α x P'
  pure : ∀ {α : Type} {a : α} {P : W → α → Prop}, (∀ w, P w a) → C α (Pure.pure a) P
  bind : ∀ {α β : Type} {x : Copying α} {k : α → Copying β} {P : W → α → Prop} {Q : W → β → Prop}, C α x P →
    (∀ a, C β (k a) fun w b => P w a → Q w b) → C β (x >>= k) Q

section

variable {α β κ W : Type} {C : ∀ α : Type, Copying α → (W → α → Prop) → Prop} {R : W → Id → Id → Prop} {L : Id → Prop}
  {f : Id → Copying Id}

variable {kept : Prop}

theorem Composes.mapM (hC : Composes C) {xs k} {F : (Id → Id) → α → β}
    (hk : ∀ x ∈ xs, C α (k x) fun w a => Matches (R w) F x a) :
    C (List α) (xs.mapM k) fun w as => Matches (R w) (fun φ => map (F φ)) xs as := by
  induction xs with
  | nil => exact hC.pure fun _ _ _ _ => rfl
  | cons x xs ih =>
    rw [mapM_cons]
    refine hC.bind (hk x (.head _)) fun a =>
      hC.bind (ih fun y hy => hk y (.tail _ hy)) fun as => hC.pure fun w has ha φ φ' hφ => ?_
    exact congrArg₂ cons (ha hφ) (has hφ)

theorem Composes.element (hC : Composes C) {x y a b F G} {make : α → β → Element}
    (hx : C α x fun w => Matches (R w) F a) (hy : C β y fun w => Matches (R w) G b)
    (hmake : ∀ a' b', (make a' b').source? = (make a b).source? ∧ (make a' b').place? = (make a b).place? ∧
      ∀ φ, (make a' b').relink φ = make (F φ a') (G φ b')) :
    C Element (x >>= fun a' => y >>= fun b' => Pure.pure (make a' b')) fun w => Element.Corresponds (R w) kept (make a b) := by
  refine hC.bind hx fun a' => hC.bind hy fun b' => hC.pure fun w hb ha => ⟨(hmake a' b').1, fun _ => (hmake a' b').2.1, ?_⟩
  intro φ φ' hφ
  rw [(hmake a' b').2.2, (hmake a b).2.2, ha hφ, hb hφ]

/-- Each link in `L` is copied to one it is related to. -/
def Relates (C : ∀ α : Type, Copying α → (W → α → Prop) → Prop) (R : W → Id → Id → Prop) (L : Id → Prop)
    (f : Id → Copying Id) : Prop := ∀ l, L l → C Id (f l) fun w l' => R w l l'

theorem Relates.link (hC : Composes C) (hf : Relates C R L f) {l : Id} (hl : L l) :
    C Id (f l) fun w l' => Matches (R w) (fun φ => φ) l l' :=
  hC.imp (hf l hl) fun _ l' hr _ _ hφ => hφ l l' hr

mutual

theorem value_matches (hC : Composes C) (hf : Relates C R L f) : ∀ v : Value, (∀ l ∈ v.nodes, L l) →
    C Value (value f v) fun w v' => Matches (R w) Value.rename v v'
  | .node id, h => hC.bind (hf.link hC (h id (by simp [Value.nodes]))) fun id' => hC.pure fun w hid φ φ' hφ =>
    congrArg Value.node (hid hφ)
  | .list items, h => hC.bind (values_matches hC hf items (by simpa [Value.nodes] using h)) fun items' =>
    hC.pure fun w hitems φ φ' hφ => congrArg Value.list (hitems hφ)
  | .null, _ | .bool _, _ | .int _, _ | .real _, _ | .text _, _ => hC.pure fun _ _ _ _ => rfl

theorem values_matches (hC : Composes C) (hf : Relates C R L f) : ∀ vs : List Value, (∀ l ∈ Value.nodesAll vs, L l) →
    C (List Value) (values f vs) fun w vs' => Matches (R w) Value.renameAll vs vs'
  | [], _ => hC.pure fun _ _ _ _ => rfl
  | v :: rest, h => by
    obtain ⟨hv, hrest⟩ := forall_mem_append.1 h
    refine hC.bind (value_matches hC hf v hv) fun v' => hC.bind (values_matches hC hf rest hrest) fun rest' =>
      hC.pure fun w hr hv φ φ' hφ => ?_
    rw [Value.renameAll, Value.renameAll, hv hφ, hr hφ]

end

variable (hC : Composes C) (hf : Relates C R L f)

include hC hf

theorem rows_match (rows : List (List Value)) (h : ∀ l ∈ Value.nodesOfRows rows, L l) :
    C (List (List Value)) (rows.mapM (values f)) fun w rows' =>
      Matches (R w) (fun φ => map (Value.renameAll φ)) rows rows' :=
  hC.mapM fun row hrow => values_matches hC hf row fun l hl => h l (mem_flatMap.2 ⟨row, hrow, hl⟩)

theorem ids_match (ids : List Id) (h : ∀ l ∈ ids, L l) :
    C (List Id) (ids.mapM f) fun w ids' => Matches (R w) (fun φ => map φ) ids ids' :=
  hC.mapM fun l hl => hf.link hC (h l hl)

theorem option_matches (o : Option Id) (h : ∀ l ∈ o.toList, L l) :
    C (Option Id) (option f o) fun w o' => Matches (R w) (fun φ => Option.map φ) o o' := by
  cases o with
  | none => exact hC.pure fun _ _ _ _ => rfl
  | some id =>
    exact hC.bind (hf.link hC (h id (by simp))) fun id' => hC.pure fun w hid φ φ' hφ => congrArg some (hid hφ)

theorem table_matches (t : Table κ Id) (h : ∀ l ∈ t.values, L l) :
    C (Table κ Id) (table f t) fun w t' => Matches (R w) Table.map t t' := by
  have hentry : ∀ e ∈ t.entries, C (κ × Id) (do pure (e.1, ← f e.2)) fun w e' =>
      Matches (R w) (fun φ (e : κ × Id) => (e.1, φ e.2)) e e' := fun e he =>
    hC.bind (hf.link hC (h e.2 (mem_map_of_mem he))) fun l => hC.pure fun w hl φ φ' hφ =>
      congrArg (Prod.mk e.1) (hl hφ)
  exact hC.bind (hC.mapM hentry) fun entries => hC.pure fun w hes φ φ' hφ => congrArg Table.mk (hes hφ)

theorem symbol_matches (s : Symbol) (h : ∀ l ∈ (Element.symbol s).links, L l) :
    C Symbol (symbol f s) fun w s' => Matches (R w) Symbol.rename s s' := by
  simp only [Element.links, Symbol.children, forall_mem_cons, forall_mem_append] at h
  obtain ⟨hkeywords, ⟨⟨⟨⟨⟨⟨⟨⟨⟨htype, hdims⟩, hstart⟩, hmin⟩, hmax⟩, hnominal⟩, hvalue⟩, hfixed⟩, hunit⟩, hmod⟩, hcon⟩ := h
  have hv := value_matches hC hf
  refine hC.bind (hv _ htype) fun _ => hC.bind (hf.link hC hkeywords) fun _ => hC.bind (rows_match hC hf _ hdims) fun _ => ?_
  refine hC.bind (hv _ hstart) fun _ => hC.bind (hv _ hmin) fun _ => hC.bind (hv _ hmax) fun _ => ?_
  refine hC.bind (hv _ hnominal) fun _ => hC.bind (hv _ hvalue) fun _ => hC.bind (hv _ hfixed) fun _ => ?_
  refine hC.bind (hv _ hunit) fun _ => hC.bind (option_matches hC hf _ hmod) fun _ => ?_
  refine hC.bind (option_matches hC hf _ hcon) fun _ => hC.pure fun w h12 h11 h10 h9 h8 h7 h6 h5 h4 h3 h2 h1 φ φ' hφ => ?_
  simp only [Symbol.rename, h1 hφ, h2 hφ, h3 hφ, h4 hφ, h5 hφ, h6 hφ, h7 hφ, h8 hφ, h9 hφ, h10 hφ, h11 hφ, h12 hφ]

/-- The class around a class is no part of its content, and is copied like one. -/
theorem classDef_matches (c : ClassDef) (h : ∀ l ∈ c.children, L l)
    (hp : ∀ p, c.parent = some p → C Id (f p) fun _ p' => kept → p' = p) :
    C ClassDef (classDef f c) fun w c' => (c'.name = c.name ∧ c'.source = c.source) ∧ (kept → c'.parent = c.parent) ∧
      Matches (R w) ClassDef.relink c c' := by
  have hparent : C (Option Id) (option f c.parent) fun _ o => kept → o = c.parent := by
    cases ho : c.parent with
    | none => exact hC.pure fun _ _ => rfl
    | some p => exact hC.bind (hp p ho) fun p' => hC.pure fun _ hp' hk => congrArg some (hp' hk)
  simp only [ClassDef.children, forall_mem_append] at h
  obtain ⟨⟨⟨⟨⟨⟨⟨⟨⟨⟨himports, hbases⟩, hclasses⟩, hsymbols⟩, hfunctions⟩, hinitial⟩, hequations⟩, hstart⟩, hstatements⟩,
    hremarks⟩, henv⟩ := h
  have hids := ids_match hC hf
  refine hC.bind (hids _ himports) fun _ => hC.bind (hids _ hbases) fun _ => ?_
  refine hC.bind (table_matches hC hf _ hclasses) fun _ => hC.bind (table_matches hC hf _ hsymbols) fun _ => ?_
  refine hC.bind (table_matches hC hf _ hfunctions) fun _ => hC.bind (hids _ hinitial) fun _ => ?_
  refine hC.bind (hids _ hequations) fun _ => hC.bind (hids _ hstart) fun _ => hC.bind (hids _ hstatements) fun _ => ?_
  refine hC.bind (option_matches hC hf _ hremarks) fun _ => hC.bind hparent fun _ => ?_
  refine hC.bind (option_matches hC hf _ henv) fun _ => hC.pure fun w h11 hparent h10 h9 h8 h7 h6 h5 h4 h3 h2 h1 => ?_
  refine ⟨⟨rfl, rfl⟩, hparent, fun φ φ' hφ => ?_⟩
  simp only [ClassDef.relink, h1 hφ, h2 hφ, h3 hφ, h4 hφ, h5 hφ, h6 hφ, h7 hφ, h8 hφ, h9 hφ, h10 hφ, h11 hφ]

theorem content_matches (kept : Prop) (e : Element) (h : ∀ l ∈ e.links, L l)
    (hp : ∀ c p, e = .classDef c → c.parent = some p → C Id (f p) fun _ p' => kept → p' = p) :
    C Element (content f e) fun w e' => Element.Corresponds (R w) kept e e' := by
  have hv := value_matches hC hf
  have hvs := values_matches hC hf
  have hids := ids_match hC hf
  cases e with
  | keywords ws => exact hC.pure fun _ => ⟨rfl, fun _ => rfl, fun _ _ _ => rfl⟩
  | classDef c =>
    refine hC.bind (classDef_matches hC hf c h fun p => hp c p rfl) fun c' => hC.pure fun w hc => ⟨hc.1.2, fun hk => ?_, ?_⟩
    · simp only [Element.place?, hc.1.1, hc.2.1 hk]
    · exact fun φ φ' hφ => congrArg Element.classDef (hc.2.2 hφ)
  | symbol s =>
    exact hC.bind (symbol_matches hC hf s h) fun _ => hC.pure fun w hs => ⟨rfl, fun _ => rfl, fun φ φ' hφ =>
      congrArg Element.symbol (hs hφ)⟩
  | primary v | iterator name v =>
    refine hC.bind (hv v h) fun _ => hC.pure fun w h1 => ⟨rfl, fun _ => rfl, fun φ φ' hφ => ?_⟩
    simp only [Element.relink, Element.rename, h1 hφ]
  | array vs | call name vs c =>
    refine hC.bind (hvs vs h) fun _ => hC.pure fun w h1 => ⟨rfl, fun _ => rfl, fun φ φ' hφ => ?_⟩
    simp only [relink, rename, h1 hφ]
  | modification ids =>
    refine hC.bind (hids ids h) fun _ => hC.pure fun w h1 => ⟨rfl, fun _ => rfl, fun φ φ' hφ => ?_⟩
    simp only [relink, rename, h1 hφ]
  | argument v scope redeclare source | importAs v name =>
    refine hC.bind (hf.link hC (forall_mem_singleton.1 h)) fun _ => hC.pure fun w h1 =>
      ⟨rfl, fun _ => rfl, fun φ φ' hφ => ?_⟩
    simp only [relink, rename, h1 hφ]
  | slice a b c =>
    obtain ⟨hab, hc⟩ := forall_mem_append.1 h
    obtain ⟨ha, hb⟩ := forall_mem_append.1 hab
    refine hC.bind (hv a ha) fun _ => hC.bind (hv b hb) fun _ => hC.bind (hv c hc) fun _ => hC.pure fun w h3 h2 h1 =>
      ⟨rfl, fun _ => rfl, fun φ φ' hφ => ?_⟩
    simp only [relink, rename, h1 hφ, h2 hφ, h3 hφ]
  | reference r =>
    obtain ⟨hr, hc⟩ := forall_mem_append.1 h
    exact hC.element (rows_match hC hf _ hr) (hids _ hc) fun _ _ => ⟨rfl, rfl, fun _ => rfl⟩
  | expression v vs =>
    obtain ⟨hl, hr⟩ := forall_mem_append.1 h
    exact hC.element (hv v hl) (hvs vs hr) fun _ _ => ⟨rfl, rfl, fun _ => rfl⟩
  | conditional cs vs =>
    obtain ⟨hl, hr⟩ := forall_mem_append.1 h
    exact hC.element (hvs cs hl) (hvs vs hr) fun _ _ => ⟨rfl, rfl, fun _ => rfl⟩
  | equation a b c =>
    obtain ⟨hl, hr⟩ := forall_mem_append.1 h
    exact hC.element (hv a hl) (hv b hr) fun _ _ => ⟨rfl, rfl, fun _ => rfl⟩
  | branch form cs bs c =>
    obtain ⟨hl, hr⟩ := forall_mem_append.1 h
    have hblocks := hC.mapM fun b hb => hids b fun l hl => hr l (mem_flatten.2 ⟨b, hb, hl⟩)
    exact hC.element (hvs cs hl) hblocks fun _ _ => ⟨rfl, rfl, fun _ => rfl⟩
  | loopEquation is body c | loopStatement is body c =>
    obtain ⟨hl, hr⟩ := forall_mem_append.1 h
    exact hC.element (hids is hl) (hids body hr) fun _ _ => ⟨rfl, rfl, fun _ => rfl⟩
  | assignment ts v c =>
    obtain ⟨hl, hr⟩ := forall_mem_append.1 h
    exact hC.element (hids ts hl) (hv v hr) fun _ _ => ⟨rfl, rfl, fun _ => rfl⟩
  | connect a b c li ri | shortClass name category a b | base a b vis =>
    obtain ⟨hl, hr⟩ := forall_mem_cons.1 h
    exact hC.element (hf.link hC hl) (hf.link hC (forall_mem_singleton.1 hr)) fun _ _ => ⟨rfl, rfl, fun _ => rfl⟩
  | clause c =>
    simp only [Element.links, children, forall_mem_cons, forall_mem_append] at h
    obtain ⟨hkeywords, ⟨⟨htype, -⟩, hdims⟩, hsymbols⟩ := h
    refine hC.bind (hf.link hC hkeywords) fun _ => hC.bind (hf.link hC htype) fun _ => ?_
    refine hC.bind (rows_match hC hf _ hdims) fun _ => hC.bind (hids _ hsymbols) fun _ => hC.pure fun w h4 h3 h2 h1 =>
      ⟨rfl, fun _ => rfl, fun φ φ' hφ => ?_⟩
    simp only [relink, rename, Clause.rename, h1 hφ, h2 hφ, h3 hφ, h4 hφ]
  | elementModification c vs =>
    obtain ⟨hl, hr⟩ := forall_mem_cons.1 h
    exact hC.element (hf.link hC hl) (hvs vs hr) fun _ _ => ⟨rfl, rfl, fun _ => rfl⟩

end
end Copying
end Modelica
