/-
The nesting of classes in a text, and in a graph.

`Syntax.ClassDef.along` follows a path through the class definitions of a text; of several
definitions with one name the last counts. A class of a graph is the one that is written
(`Written`) if the same paths lead somewhere below both, to classes with the same heading.
`Forest` says this of the classes that a class holds.
-/
import Modelica.Proofs.Read.Made
import Modelica.Proofs.Library.Merge

namespace Modelica.Syntax

/-- The class that an element of a class defines. -/
def Element.definition? : Element → Option ClassDef
  | .classElement d => some d
  | .replaceableClass d _ _ => some d
  | _ => none

/-- The elements of a section. -/
def Section.elements : Section → List Element
  | .publicElements items => items
  | .protectedElements items => items
  | _ => []

def Composition.definitions : Composition → List ClassDef
  | .mk items parts _ _ => (items ++ parts.flatMap Section.elements).filterMap Element.definition?

def ClassBody.definitions : ClassBody → List ClassDef
  | .composition _ _ content => content.definitions
  | .extending _ _ _ content => content.definitions
  | _ => []

/-- Enumerations, derivatives and extensions of an inherited class are not named. -/
def ClassBody.name? : ClassBody → Option String
  | .composition name _ _ => some name
  | .base name _ _ _ => some name
  | _ => none

def ClassBody.comment : ClassBody → String
  | .composition _ strings _ => commentText strings
  | .base _ _ _ note => note.text
  | _ => ""

namespace ClassDef

def body : ClassDef → ClassBody
  | .mk _ _ _ body => body

/-- The classes that are defined directly in a class, in the order of the text. -/
def definitions (d : ClassDef) : List ClassDef := d.body.definitions

def name? (d : ClassDef) : Option String := d.body.name?

/-- What a class is called and what it is. -/
def heading : ClassDef → Modelica.ClassDef
  | .mk encapsulated isPartial category body =>
    { name := body.name?, encapsulated, isPartial, category, comment := body.comment }

end ClassDef

/-- The last of the definitions with a name. -/
def lastNamed (ds : List ClassDef) (name : Option String) : Option ClassDef :=
  ds.reverse.find? fun d => d.name? == name

/-- The class definition that a path leads to. -/
def ClassDef.along : ClassDef → Path → Option ClassDef
  | d, [] => some d
  | d, name :: rest => (lastNamed d.definitions name).bind fun d => d.along rest

theorem lastNamed_concat (ds : List ClassDef) (d : ClassDef) (name : Option String) :
    lastNamed (ds ++ [d]) name = if d.name? = name then some d else lastNamed ds name := by
  rw [lastNamed, List.reverse_append, List.reverse_singleton, List.singleton_append, List.find?_cons]
  by_cases h : d.name? = name
  · rw [if_pos h, beq_iff_eq.2 h]
  · rw [if_neg h, beq_eq_false_iff_ne.2 h]
    rfl

theorem name?_of_lastNamed {ds d name} (h : lastNamed ds name = some d) : d.name? = name := by
  rw [lastNamed] at h
  simpa using List.find?_some h

theorem ClassDef.heading_name (d : ClassDef) : d.heading.name = d.name? := by
  cases d
  rfl

end Modelica.Syntax

namespace Modelica.Graph

open Option

open Syntax (lastNamed)

variable {g g' : Graph} {lo hi hi' id c x y : Id} {name : Option String} {d : Syntax.ClassDef} {ds : List Syntax.ClassDef} {p : Path}

/-! ### Skeletons -/

/-- What a class is called and what it is. -/
def heading (g : Graph) (id : Id) : Option ClassDef :=
  (g.skeleton id).map fun c => { c with classes := {}, parent := none }

theorem nested_eq_classes : g.nested id name = ((g.skeleton id).map ClassDef.classes).bind fun t => t.get? name := by
  rw [nested, skeleton]
  cases g.get? id with
  | none => rfl
  | some e => cases e <;> rfl

theorem heading_of_skeleton (h : g'.skeleton id = g.skeleton id) : g'.heading id = g.heading id := by
  rw [heading, heading, h]

theorem exists_of_skeleton {k} (h : g.skeleton id = some k) : ∃ c, g.ClassAt id c ∧ c.skeleton = k := by
  rw [skeleton, bind_eq_some_iff] at h
  obtain ⟨e, he, hk⟩ := h
  cases e with
  | classDef c => exact ⟨c, he, some.inj hk⟩
  | _ => cases hk

/-- A class hangs like a tree if the classes it holds do, apart from each other and from
the class itself. -/
theorem Treelike.of_nested (hclass : g.IsClass id) (hnodup : ∀ c, g.ClassAt id c → c.classes.keys.Nodup)
    (htree : ∀ name y, g.nested id name = some y → g.Treelike y)
    (hapart : ∀ a b x y, a ≠ b → g.nested id a = some x → g.nested id b = some y → g.Apart x y)
    (hself : ∀ name y p, g.nested id name = some y → g.along y p ≠ some id) : g.Treelike id := by
  have hcases : ∀ p x, g.along id p = some x → x = id ∧ p = [] ∨
      ∃ name q y, p = name :: q ∧ g.nested id name = some y ∧ g.along y q = some x := by
    intro p x hp
    cases p with
    | nil => exact .inl ⟨(some.inj hp).symm, rfl⟩
    | cons name q =>
      obtain ⟨y, hy, hq⟩ := bind_eq_some_iff.1 hp
      exact .inr ⟨name, q, y, rfl, hy, hq⟩
  refine ⟨fun p x hp => ?_, fun p q x hp hq => ?_, fun p x c hp hc => ?_⟩
  · rcases hcases p x hp with ⟨rfl, -⟩ | ⟨name, r, y, -, hy, hr⟩
    · exact hclass
    · exact (htree name y hy).isClass r x hr
  · rcases hcases p x hp with ⟨rfl, rfl⟩ | ⟨a, r, y, rfl, hy, hr⟩ <;>
      rcases hcases q x hq with ⟨hxq, rfl⟩ | ⟨b, r', z, rfl, hz, hr'⟩
    · rfl
    · exact absurd hr' (hself b z r' hz)
    · exact absurd (hxq ▸ hr) (hself a y r hy)
    · by_cases hab : a = b
      · subst hab
        cases hy.symm.trans hz
        rw [(htree a y hy).injective r r' x hr hr']
      · exact absurd hr' (hapart a b y z hab hy hz r r' x hr)
  · rcases hcases p x hp with ⟨rfl, -⟩ | ⟨name, r, y, -, hy, hr⟩
    · exact hnodup c hc
    · exact (htree name y hy).nodup r x c hr hc

/-! ### Classes as they are written -/

/-- The class and all below it are those that are written, at addresses in a range. -/
structure Written (g : Graph) (lo hi : Id) (d : Syntax.ClassDef) (id : Id) : Prop where
  tree : g.Treelike id
  heading : ∀ p, (g.along id p).bind g.heading = (d.along p).map Syntax.ClassDef.heading
  range : ∀ p x, g.along id p = some x → lo ≤ x ∧ x < hi

theorem Written.mono (h : g.Written lo hi d id) {lo'} (hlo : lo' ≤ lo) (hhi : hi ≤ hi') : g.Written lo' hi' d id :=
  ⟨h.tree, h.heading, fun p x hp => ⟨hlo.trans (h.range p x hp).1, Nat.lt_of_lt_of_le (h.range p x hp).2 hhi⟩⟩

theorem Written.unchanged (h : g.Written lo hi d id) (hsame : ∀ x, lo ≤ x → x < hi → g'.skeleton x = g.skeleton x) :
    g'.Written lo hi d id ∧ ∀ p, g'.along id p = g.along id p := by
  have hskeleton : ∀ p x, g.along id p = some x → g'.skeleton x = g.skeleton x := fun p x hp =>
    hsame x (h.range p x hp).1 (h.range p x hp).2
  have hclasses : ∀ p x c, g.along id p = some x → g.ClassAt x c →
      ∃ c', g'.ClassAt x c' ∧ c'.classes = c.classes := fun p x c hp hc => by
    obtain ⟨c', hc', hk⟩ := exists_of_skeleton ((hskeleton p x hp).trans (skeleton_eq hc))
    exact ⟨c', hc', show c'.skeleton.classes = c.skeleton.classes by rw [hk]⟩
  obtain ⟨htree, halong⟩ := h.tree.congr hclasses
  refine ⟨⟨htree, fun p => ?_, fun p x hp => h.range p x (by rwa [← halong])⟩, halong⟩
  rw [← h.heading p, halong]
  cases hp : g.along id p with
  | none => rfl
  | some x => exact heading_of_skeleton (hskeleton p x hp)

/-- The classes that a class holds are those that are written, at addresses in a range, and
apart from each other. -/
structure Forest (g : Graph) (c lo hi : Id) (ds : List Syntax.ClassDef) : Prop where
  nodup : ∀ k, g.skeleton c = some k → k.classes.keys.Nodup
  absent : ∀ name, lastNamed ds name = none → g.nested c name = none
  found : ∀ name d, lastNamed ds name = some d → ∃ id, g.nested c name = some id ∧ g.Written lo hi d id
  apart : ∀ a b x y, a ≠ b → g.nested c a = some x → g.nested c b = some y → g.Apart x y

namespace Forest

theorem written (h : g.Forest c lo hi ds) (hx : g.nested c name = some x) :
    ∃ d, lastNamed ds name = some d ∧ g.Written lo hi d x := by
  cases hd : lastNamed ds name with
  | none =>
    rw [h.absent name hd] at hx
    cases hx
  | some d =>
    obtain ⟨id, hid, hwritten⟩ := h.found name d hd
    cases hx.symm.trans hid
    exact ⟨d, rfl, hwritten⟩

theorem empty (h : (g.skeleton c).map ClassDef.classes = some {}) : g.Forest c lo hi [] := by
  have hnested : ∀ name, g.nested c name = none := fun name => by
    rw [nested_eq_classes, h]
    rfl
  refine ⟨fun k hk => ?_, fun name _ => hnested name, (by simp [lastNamed]), fun a b x y _ hx _ => ?_⟩
  · rw [hk] at h
    rw [some.inj h]
    exact List.nodup_nil
  · rw [hnested] at hx
    cases hx

section

variable (h : g.Forest c lo hi ds)

include h

/-- Only the table of the class and what is in the range matters: another class may hold
the same classes. -/
theorem transfer (hhi : hi ≤ hi')
    (hclasses : (g'.skeleton x).map ClassDef.classes = (g.skeleton c).map ClassDef.classes)
    (hsame : ∀ y, lo ≤ y → y < hi → g'.skeleton y = g.skeleton y) : g'.Forest x lo hi' ds := by
  have hnested : ∀ name, g'.nested x name = g.nested c name := fun name => by
    rw [nested_eq_classes, nested_eq_classes, hclasses]
  refine ⟨fun k hk => ?_, fun name hname => (hnested name).trans (h.absent name hname), fun name d hd => ?_,
    fun a b y z hab hy hz p q w hp hq => ?_⟩
  · rw [hk] at hclasses
    obtain ⟨k', hk', he⟩ := map_eq_some_iff.1 hclasses.symm
    rw [← he]
    exact h.nodup k' hk'
  · obtain ⟨id, hid, hwritten⟩ := h.found name d hd
    exact ⟨id, (hnested name).trans hid, (hwritten.unchanged hsame).1.mono le_rfl hhi⟩
  · rw [hnested] at hy hz
    obtain ⟨_, -, hwy⟩ := h.written hy
    obtain ⟨_, -, hwz⟩ := h.written hz
    rw [(hwy.unchanged hsame).2] at hp
    rw [(hwz.unchanged hsame).2] at hq
    exact h.apart a b y z hab hy hz p q w hp hq

theorem treelike (hclass : g.IsClass c) (hc : c < lo ∨ hi ≤ c) : g.Treelike c := by
  refine .of_nested hclass (fun k hk => h.nodup k.skeleton (skeleton_eq hk)) (fun name y hy => ?_) h.apart
    fun name y p hy hp => ?_
  · obtain ⟨_, -, hwritten⟩ := h.written hy
    exact hwritten.tree
  · obtain ⟨_, -, hwritten⟩ := h.written hy
    have hrange := hwritten.range p c hp
    exact hc.elim (Nat.not_lt.2 hrange.1) (Nat.not_le.2 hrange.2)

theorem heading_cons (name : Option String) (p : Path) : (g.along c (name :: p)).bind g.heading =
      ((lastNamed ds name).bind fun d => d.along p).map Syntax.ClassDef.heading := by
  rw [along_cons]
  cases hd : lastNamed ds name with
  | none => rw [h.absent name hd, bind_none, bind_none, bind_none, map_none]
  | some d =>
    obtain ⟨y, hy, hwritten⟩ := h.found name d hd
    rw [hy, bind_some, bind_some, hwritten.heading]

theorem range_cons (hp : g.along c (name :: p) = some x) : lo ≤ x ∧ x < hi := by
  rw [along_cons, bind_eq_some_iff] at hp
  obtain ⟨y, hy, hp⟩ := hp
  obtain ⟨_, -, hwritten⟩ := h.written hy
  exact hwritten.range p x hp

end

theorem toWritten (h : g.Forest id (id + 1) hi d.definitions) (hheading : g.heading id = some d.heading) (hid : id < hi) :
    g.Written id hi d id := by
  obtain ⟨k, hk, -⟩ := map_eq_some_iff.1 hheading
  obtain ⟨c, hc, -⟩ := exists_of_skeleton hk
  refine ⟨h.treelike ⟨c, hc⟩ (.inl (Nat.lt_succ_self id)), fun p => ?_, fun p x hp => ?_⟩
  · cases p with
    | nil => exact hheading
    | cons name p => exact h.heading_cons name p
  · cases p with
    | nil =>
      cases hp
      exact ⟨le_rfl, hid⟩
    | cons name p => exact ⟨Nat.le_of_lt (h.range_cons hp).1, (h.range_cons hp).2⟩

theorem concat {m} (h : g.Forest c lo m ds) (hd : g.Written m hi d id) (hlo : lo ≤ m) (hhi : m ≤ hi)
    {t} (ht : (g.skeleton c).map ClassDef.classes = some t)
    (ht' : (g'.skeleton c).map ClassDef.classes = some (t.insert d.name? id))
    (hsame : ∀ x, lo ≤ x → x < hi → g'.skeleton x = g.skeleton x) : g'.Forest c lo hi (ds ++ [d]) := by
  have hnew : g'.nested c d.name? = some id := by
    rw [nested_eq_classes, ht', bind_some, Table.get?_insert_self]
  have hold : ∀ name, name ≠ d.name? → g'.nested c name = g.nested c name := fun name hname => by
    rw [nested_eq_classes, nested_eq_classes, ht', ht, bind_some, bind_some,
      Table.get?_insert_other _ _ hname]
  have hd' := hd.unchanged fun x hx => hsame x (hlo.trans hx)
  have hrest : ∀ {name x}, g.nested c name = some x → ∃ d', lastNamed ds name = some d' ∧
      g'.Written lo m d' x ∧ ∀ p, g'.along x p = g.along x p := by
    intro name x hx
    obtain ⟨d', hlast, hwritten⟩ := h.written hx
    exact ⟨d', hlast, hwritten.unchanged fun y hy hym => hsame y hy (hym.trans_le hhi)⟩
  -- what was there before ends where the new class begins
  have hbefore : ∀ {name x}, g.nested c name = some x → g'.Apart x id := by
    intro name x hx p q y hp hq
    obtain ⟨d', -, hwritten, -⟩ := hrest hx
    exact Nat.not_lt.2 (hd'.1.range q y hq).1 (hwritten.range p y hp).2
  refine ⟨fun k hk => ?_, fun name hname => ?_, fun name e he => ?_, fun a b x y hab hx hy => ?_⟩
  · rw [hk] at ht'
    rw [some.inj ht']
    obtain ⟨k0, hk0, hkt⟩ := map_eq_some_iff.1 ht
    exact Table.nodup_keys_insert (hkt ▸ h.nodup k0 hk0) _ _
  · rw [Syntax.lastNamed_concat] at hname
    split at hname
    · cases hname
    · next hne => rw [hold name (Ne.symm hne), h.absent name hname]
  · rw [Syntax.lastNamed_concat] at he
    split at he
    · next hname =>
      cases he
      exact ⟨id, hname ▸ hnew, hd'.1.mono hlo le_rfl⟩
    · next hne =>
      obtain ⟨x, hx, -⟩ := h.found name e he
      obtain ⟨e', hlast, hwritten, -⟩ := hrest hx
      cases he.symm.trans hlast
      exact ⟨x, by rw [hold name (Ne.symm hne), hx], hwritten.mono le_rfl hhi⟩
  · by_cases ha : a = d.name?
    · rw [ha, hnew] at hx
      cases hx
      rw [hold b fun hb => hab (ha.trans hb.symm)] at hy
      exact fun p q z hp hq => hbefore hy q p z hq hp
    · rw [hold a ha] at hx
      by_cases hb : b = d.name?
      · rw [hb, hnew] at hy
        cases hy
        exact hbefore hx
      · rw [hold b hb] at hy
        obtain ⟨_, -, -, hax⟩ := hrest hx
        obtain ⟨_, -, -, hay⟩ := hrest hy
        intro p q z hp hq
        rw [hax] at hp
        rw [hay] at hq
        exact h.apart a b x y hab hx hy p q z hp hq

end Forest

end Modelica.Graph
