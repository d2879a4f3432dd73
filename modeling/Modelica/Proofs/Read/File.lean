/-
Reading files.

The classes of a file go into the packages it says it belongs to, one in the other, and
these into the root of a tree. `treeOf_ends`: the tree has exactly the classes that are
written, each standing in the class around it under its own name and linked to it; all that
is made is new and has the shape it should have; and whether reading succeeds or not,
nothing changes of what was there before.
-/
import Modelica.Proofs.Read.Classes
import Modelica.Proofs.Library.Rooted

namespace Modelica

open List Element StateT Option

namespace Syntax

variable {name : Option String}

/-- What the name of a package in front of a file says about it. -/
def packageHeading (name : String) : Modelica.ClassDef := { name := some name, category := "package" }

/-- The heading of the class that a path leads to from a class with a given heading, in
which stand the given packages, one in the other, and in the last one the given classes. -/
def headingIn : List String → Modelica.ClassDef → List ClassDef → Path → Option Modelica.ClassDef
  | _, own, _, [] => some own
  | [], _, ds, name :: rest => ((lastNamed ds name).bind fun d => d.along rest).map ClassDef.heading
  | package :: inner, _, ds, name :: rest =>
    if name = some package then headingIn inner (packageHeading package) ds rest else none

namespace File

/-- The path of the package that a file says it belongs to. -/
def packages (f : File) : List String := (f.within.getD []).map RefPart.name

/-- The heading of the class that a path leads to in a file. -/
def heading (f : File) (p : Path) : Option Modelica.ClassDef :=
  headingIn f.packages { role := .tree } (f.classes.map (·.2)) p

end File

theorem ClassDef.name?_of_along {d d' : ClassDef} {p} (h : d.along (p ++ [name]) = some d') : d'.name? = name := by
  induction p generalizing d with
  | nil =>
    obtain ⟨e, he, hd'⟩ := bind_eq_some_iff.1 h
    cases hd'
    exact name?_of_lastNamed he
  | cons first p ih =>
    obtain ⟨e, -, hd'⟩ := bind_eq_some_iff.1 h
    exact ih hd'

theorem name_of_headingIn {packages : List String} {own k ds p}
    (h : headingIn packages own ds (p ++ [name]) = some k) : k.name = name := by
  induction p generalizing packages own with
  | nil =>
    cases packages with
    | nil =>
      obtain ⟨d, hd, rfl⟩ := map_eq_some_iff.1 h
      obtain ⟨e, he, hd'⟩ := bind_eq_some_iff.1 hd
      cases hd'
      rw [ClassDef.heading_name, name?_of_lastNamed he]
    | cons package inner =>
      simp only [nil_append, headingIn] at h
      split at h
      · next hname =>
        cases h
        exact hname.symm
      · cases h
  | cons first p ih =>
    cases packages with
    | nil =>
      obtain ⟨d, hd, rfl⟩ := map_eq_some_iff.1 h
      obtain ⟨e, he, hd'⟩ := bind_eq_some_iff.1 hd
      rw [ClassDef.heading_name, ClassDef.name?_of_along hd']
    | cons package inner =>
      simp only [cons_append, headingIn] at h
      split at h
      · exact ih h
      · cases h

end Syntax

namespace Graph

variable {g g' : Graph} {x : Id}

theorem Rearranges.heading (h : g.Rearranges g') (x : Id) : g'.heading x = g.heading x := by
  simp only [Graph.heading, skeleton, map_bind]
  exact h.bind_eq (fun e => by cases e <;> rfl) x

theorem Rearranges.label (h : g.Rearranges g') (x : Id) : g'.label x = g.label x :=
  h.bind_eq (fun e => by cases e <;> rfl) x

end Graph

namespace Read

open Build Modelica.Graph

variable {g0 g : Graph} {st : Reading} {c id : Id}

variable {outer : List Id} {t : Table (Option String) Id} {at_ lo hi : Id} {own k : ClassDef}
  {ds : List Syntax.ClassDef}

/-! ### The classes of a file -/

/-- The classes of a file are read one after the other; those found in the end are those
that were read. -/
theorem definitions_ends (l : List (Bool × Syntax.ClassDef)) {before}
    (h : Filled g0 c outer before st g) (ht : (g.skeleton c).map ClassDef.classes = some t) :
    Ends ((l.mapM fun x => fileClass x.1 x.2).run st) g (fun r g' => Filled g0 c outer (before ++ l.map (·.2)) r.2 g' ∧
      (g'.skeleton c).map ClassDef.classes = some (r.1.foldl (fun acc e => acc.insert e.1 e.2) t))
      fun _ g' => Extends g0 g' := by
  induction l generalizing before st g t with
  | nil =>
    simp only [mapM_nil, run_pure, ends_pure, map_nil, append_nil]
    exact ⟨h, ht⟩
  | cons x l ih =>
    simp only [mapM_cons, fileClass, run_bind, ends_bind, run_pure, ends_pure, ends_run_lift]
    refine (classDefinition_ends (classBody_fills x.2.body) h).imp (fun r g1 hr => ?_) fun _ _ hg => hg
    obtain ⟨⟨hnew, hheading, t', ht', hinsert⟩, hfilled, -⟩ := hr
    cases ht.symm.trans ht'
    refine ends_modifyClass_of (fun k hk => ?_) hfilled.making.grown
    have hlater : Later g0 r.2 g1 r.2 (g1.set r.1 (.classDef { k with isFinal := x.1 })) := .set hk rfl rfl
    have hmaking : Making g0 r.2 (g1.set r.1 (.classDef { k with isFinal := x.1 })) :=
      hfilled.making.set hnew hk (hfilled.making.made _ _ hnew hk).1 trivial rfl
    have hfilled' := hfilled.later hmaking hlater
    have hname : k.name = x.2.name? := by
      rw [heading, skeleton_eq hk] at hheading
      rw [← x.2.heading_name, ← some.inj hheading]
      rfl
    simp only [ends_classAt (get?_set hk _)]
    refine (ih hfilled' (by rw [hlater.skeleton, hinsert])).imp (fun r' g' hr' => ?_) fun _ _ hg => hg
    rw [append_assoc] at hr'
    rw [foldl_cons, hname]
    exact hr'

/-- The classes of a file are read into a class that holds none, and come back in a table. -/
theorem file_ends (f : Syntax.File) (h : Filled g0 c outer [] st g)
    (ht : (g.skeleton c).map ClassDef.classes = some {}) :
    Ends ((file f).run st) g (fun r g' => r.1.1 = f.packages ∧ Filled g0 c outer (f.classes.map (·.2)) r.2 g' ∧
      (g'.skeleton c).map ClassDef.classes = some r.1.2) fun _ g' => Extends g0 g' := by
  simp only [file, run_bind, ends_bind, run_pure, ends_pure]
  refine Ends.imp (Makes.discard (.optionMapM fun r => reference_makes r) _ _ h.making) (fun r1 g1 hr1 => ?_) fun _ _ hg => hg
  obtain ⟨-, hmaking, hlater⟩ := hr1
  refine (definitions_ends f.classes (h.later hmaking hlater) (by rw [hlater.skeleton, ht])).imp
    (fun r2 g2 hr2 => ⟨rfl, hr2⟩) fun _ _ hg => hg

/-! ### The packages around them -/

/-- What hangs at a class that was made after the classes of the file: packages, one in the
other, and the classes. -/
structure Hung (g0 g : Graph) (at_ lo hi : Id) (packages : List String) (own : ClassDef) (ds : List Syntax.ClassDef)
    (st : Reading) (g' : Graph) : Prop where
  making : Making g0 st g'
  tree : g'.Treelike at_
  heading : ∀ p, (g'.along at_ p).bind g'.heading = Syntax.headingIn packages own ds p
  range : ∀ p x, g'.along at_ p = some x → lo ≤ x ∧ x < hi ∨ at_ ≤ x
  skeleton : ∀ x < g.size, x ≠ at_ → g'.skeleton x = g.skeleton x
  parent : (g'.skeleton at_).map ClassDef.parent = (g.skeleton at_).map ClassDef.parent

section

variable (hat : g.get? at_ = some (.classDef k)) (hnone : k.classes = {}) (hheading : g.heading at_ = some own)
  (hhi : hi ≤ at_)

include hat hnone hheading hhi

theorem Hung.classes (h : Making g0 st g) (hnew : g0.New at_) (hforest : g.Forest c lo hi ds)
    (ht : (g.skeleton c).map ClassDef.classes = some t) (hvalues : ∀ x ∈ t.values, g0.New x) :
    Hung g0 g at_ lo hi [] own ds st (g.set at_ (.classDef { k with classes := k.classes.insertAll t })) := by
  have htable : k.classes.insertAll t = t := by
    obtain ⟨kc, hkc, rfl⟩ := map_eq_some_iff.1 ht
    rw [hnone, Table.insertAll_empty (hforest.nodup kc hkc)]
  rw [htable]
  have hself := get?_set hat (.classDef { k with classes := t })
  have hother : ∀ x, x ≠ at_ → (g.set at_ (.classDef { k with classes := t })).skeleton x = g.skeleton x :=
    fun x hx => skeleton_set_other hx
  have hforest' : (g.set at_ (.classDef { k with classes := t })).Forest at_ lo hi ds :=
    hforest.transfer le_rfl (by rw [skeleton_eq hself, ht]; rfl) fun y _ hy =>
      hother y (hy.trans_le hhi).ne
  have hown : (g.set at_ (.classDef { k with classes := t })).heading at_ = some own := by
    rw [Graph.heading, skeleton_eq hat] at hheading
    rw [Graph.heading, skeleton_eq hself]
    exact hheading
  refine ⟨h.set hnew hat (fun a ha => ?_) trivial rfl, hforest'.treelike ⟨_, hself⟩ (.inr hhi), fun p => ?_, fun p x hp => ?_,
    fun x _ => hother x, by rw [skeleton_eq hself, skeleton_eq hat]; rfl⟩
  · have hold := (h.made at_ _ hnew hat).1 a
    have hvalue := hvalues a
    simp only [children, ClassDef.children, mem_append] at ha hold
    grind
  · cases p with
    | nil => exact hown
    | cons name p => exact hforest'.heading_cons name p
  · cases p with
    | nil =>
      cases hp
      exact .inr le_rfl
    | cons name p => exact .inl (hforest'.range_cons hp)

theorem Hung.package {packages package g2 g'} (hg2 : g2 = (g.withClass (Syntax.packageHeading package)).set at_
      (.classDef { k with classes := k.classes.insert (some package) g.size }))
    (h : Hung g0 g2 g.size lo hi packages (Syntax.packageHeading package) ds st g') :
    Hung g0 g at_ lo hi (package :: packages) own ds st g' := by
  have hlt := get?_lt hat
  have hsize : g2.size = g.size + 1 := by rw [hg2, size_set, size_withClass]
  have hself2 : g2.skeleton at_ = some { k.skeleton with classes := k.classes.insert (some package) g.size } := by
    rw [hg2, skeleton_eq (get?_set_self _ _ (by rw [size_withClass]; exact Nat.lt_succ_of_lt hlt))]
    rfl
  have hself : g'.skeleton at_ = some { k.skeleton with classes := k.classes.insert (some package) g.size } := by
    rw [h.skeleton at_ (by rw [hsize]; exact Nat.lt_succ_of_lt hlt) hlt.ne, hself2]
  have hnested : ∀ name, g'.nested at_ name = if name = some package then some g.size else none := by
    intro name
    rw [nested_eq_classes, hself, map_some, bind_some, hnone]
    split
    · next hname => rw [hname, Table.get?_insert_self]
    · next hname => rw [Table.get?_insert_other _ _ hname]; rfl
  have hchild : ∀ {name y}, g'.nested at_ name = some y → name = some package ∧ y = g.size := by
    intro name y hy
    rw [hnested] at hy
    split at hy
    · next hname => exact ⟨hname, (some.inj hy).symm⟩
    · cases hy
  obtain ⟨kat, hkat, hskeleton⟩ := exists_of_skeleton hself
  refine ⟨h.making, .of_nested ⟨kat, hkat⟩ (fun kat' hkat' => ?_) (fun name y hy => ?_) (fun a b x y hab hx hy => ?_)
    fun name y p hy hp => ?_, fun p => ?_, fun p x hp => ?_, fun x hx hne => ?_, ?_⟩
  · cases hkat.symm.trans hkat'
    show kat.skeleton.classes.keys.Nodup
    rw [hskeleton]
    exact Table.nodup_keys_insert (by rw [hnone]; exact nodup_nil) _ _
  · rw [(hchild hy).2]
    exact h.tree
  · exact absurd ((hchild hx).1.trans (hchild hy).1.symm) hab
  · rw [(hchild hy).2] at hp
    rcases h.range p at_ hp with ⟨-, hlt'⟩ | hle
    · exact Nat.not_lt.2 hhi hlt'
    · exact Nat.not_lt.2 hle hlt
  · cases p with
    | nil =>
      rw [Graph.heading, skeleton_eq hat] at hheading
      rw [along_nil, bind_some, Graph.heading, hself]
      exact hheading
    | cons name p =>
      rw [along_cons, hnested, Syntax.headingIn]
      split
      · exact h.heading p
      · rfl
  · cases p with
    | nil =>
      cases hp
      exact .inr le_rfl
    | cons name p =>
      rw [along_cons, bind_eq_some_iff] at hp
      obtain ⟨y, hy, hp⟩ := hp
      rw [(hchild hy).2] at hp
      exact (h.range p x hp).imp_right fun hle => hlt.le.trans hle
  · rw [h.skeleton x (by rw [hsize]; exact Nat.lt_succ_of_lt hx) hx.ne, hg2, skeleton_set_other hne,
      skeleton_withClass_of_lt _ hx]
  · rw [hself, skeleton_eq hat]
    rfl

theorem packages_ends (packages : List String) (h : Making g0 st g) (hnew : g0.New at_) (hforest : g.Forest c lo hi ds)
    (ht : (g.skeleton c).map ClassDef.classes = some t) (hvalues : ∀ x ∈ t.values, g0.New x) (hc : c < at_) :
    Ends (Build.packages packages at_ >>= fun owner => modifyClass owner fun c => { c with classes := c.classes.insertAll t }) g
      (fun _ g' => Hung g0 g at_ lo hi packages own ds st g') fun _ g' => Extends g0 g' := by
  induction packages generalizing g at_ own k with
  | nil =>
    simp only [Build.packages, ends_bind, ends_pure, ends_modifyClass hat]
    exact .classes hat hnone hheading hhi h hnew hforest ht hvalues
  | cons package packages ih =>
    have hlt := get?_lt hat
    have hat1 : (g.withClass (Syntax.packageHeading package)).ClassAt at_ k := by
      exact (get?_withClass_of_lt _ hlt).trans hat
    generalize hg2 : (g.withClass (Syntax.packageHeading package)).set at_
      (.classDef { k with classes := k.classes.insert (some package) g.size }) = g2
    have hsame : ∀ x < at_, g2.skeleton x = g.skeleton x := fun x hx => by
      rw [← hg2, skeleton_set_other hx.ne, skeleton_withClass_of_lt _ (hx.trans hlt)]
    have hpackage : g2.ClassAt g.size { Syntax.packageHeading package with declaration := g.size } := by
      rw [← hg2, ClassAt, get?_set_other _ _ hlt.ne', get?_withClass_self]
    have h2 : Making g0 st g2 := by
      rw [← hg2]
      refine (h.withClass rfl rfl).set hnew hat1 (fun a ha => ?_) trivial rfl
      have hold := (h.made at_ _ hnew hat).1 a
      have hvalues := fun ha : a ∈ (k.classes.insert (some package) g.size).values => Table.mem_values_insert ha
      by_cases hag : a = g.size
      · exact hag ▸ h.size_le
      · refine hold ?_
        simp only [children, ClassDef.children, mem_append] at ha ⊢
        grind
    simp only [Build.packages, ends_bind, ends_freshClass]
    show Ends (modifyClass at_ _) (g.withClass (Syntax.packageHeading package)) _ _
    rw [ends_modifyClass hat1, hg2, ← ends_bind]
    refine (ih hpackage rfl ?_ (hhi.trans hlt.le) h2 h.size_le (hforest.transfer le_rfl (by rw [hsame c hc]) fun y _ hy =>
      hsame y (hy.trans_le hhi)) (by rw [hsame c hc, ht]) (hc.trans hlt)).imp (fun _ g' hung => .package hat hnone hheading hhi hg2.symm hung) fun _ _ hg => hg
    rw [Graph.heading, skeleton_eq hpackage]
    rfl

end

/-! ### The tree -/

/-- The graph has grown by the tree of a file. -/
structure Grown (g0 : Graph) (f : Syntax.File) (root : Id) (g : Graph) : Prop where
  grown : Extends g0 g
  rooted : g.Rooted root
  fresh : ∀ p x, g.along root p = some x → g0.New x
  heading : ∀ p, (g.along root p).bind g.heading = f.heading p
  made : ∀ id e, g0.New id → g.get? id = some e → (∀ k ∈ e.children, g0.New k) ∧ e.Shaped
  tables : ∃ count, g.Lists g0.size count

theorem Grown.of_linked {f root g' g1}
    (h : Hung g0 g1 root lo hi f.packages { role := .tree } (f.classes.map (·.2)) st g) (hlo : g0.New lo)
    (hroot : g0.New root) (hnone : (g1.skeleton root).map ClassDef.parent = some none) (hlinked : g.Linked root g') :
    Grown g0 f root g' := by
  have hnew : ∀ p x, g.along root p = some x → g0.New x := fun p x hp =>
    (h.range p x hp).elim (fun hrange => hlo.trans hrange.1) fun hle => hroot.trans hle
  have htop : ∀ c, g.ClassAt root c → c.parent = none := fun c hc => by
    rw [← h.parent, skeleton_eq hc] at hnone
    exact some.inj hnone
  have hnames : ∀ p x name y, g.along root p = some x → g.nested x name = some y →
      ∀ d, g.ClassAt y d → d.name = name := fun p x name y hp hy d hd => by
    have hheading := h.heading (p ++ [name])
    rw [along_concat hp, hy, bind_some, Graph.heading, skeleton_eq hd, map_some] at hheading
    have hname := Syntax.name_of_headingIn hheading.symm
    exact hname
  obtain ⟨hrooted, halong⟩ := Rooted.of_linked h.tree htop hnames hlinked
  refine ⟨⟨?_, fun id hid _ => ?_⟩, hrooted, fun p x hp => hnew p x (by rwa [← halong]), fun p => ?_,
    fun id e hid he => ?_, st.count, fun id c hid hc => ?_⟩
  · rw [hlinked.rearranges.size_eq]
    exact h.making.grown.size_le
  · rw [hlinked.get? id fun name q hq => Nat.not_lt.2 (hnew _ id hq) hid]
    exact h.making.grown.get? id hid fun hf => hf
  · rw [halong, Syntax.File.heading, ← h.heading p]
    cases g.along root p with
    | none => rfl
    | some x => exact hlinked.rearranges.heading x
  · rcases hlinked.get?_cases h.tree id with hsame | ⟨c, y, hc, hc'⟩
    · exact h.making.made id e hid (by rwa [← hsame])
    · cases hc'.symm.trans he
      exact ⟨(h.making.made id _ hid hc).1, trivial⟩
  · have hlabel := fun (x : Id) (_ : x ∈ c.symbols.values) => hlinked.rearranges.label x
    rcases hlinked.get?_cases h.tree id with hsame | ⟨d, y, hd, hd'⟩
    · exact (h.making.tables id c hid (by rwa [← hsame])).congr hlabel
    · cases hd'.symm.trans hc
      exact (h.making.tables id d hid hd).congr hlabel

theorem treeOf_ends (f : Syntax.File) (g0 : Graph) :
    Ends (treeOf f) g0 (fun root g => Grown g0 f root g) fun _ g => Extends g0 g := by
  have hempty : ((g0.withClass {}).skeleton g0.size).map ClassDef.classes = some {} := by
    rw [skeleton_eq (get?_withClass_self g0 {})]
    rfl
  have hopened : Filled g0 g0.size [] [] { classes := [g0.size] } (g0.withClass {}) :=
    .opened (.start g0) rfl rfl rfl
  simp only [treeOf, ends_bind, ends_freshClass, run'_eq, ends_map, ends_pure]
  refine (file_ends f hopened hempty).imp (fun r g hr => ?_) fun _ _ hg => hg
  obtain ⟨hpackages, hfilled, htable⟩ := hr
  -- the root comes behind the classes, and they go over into it
  have hsame : ∀ x < g.size, (g.withClass { role := .tree }).skeleton x = g.skeleton x := fun x hx =>
    skeleton_withClass_of_lt _ hx
  have hroot := get?_withClass_self g { role := .tree }
  have hmaking : Making g0 r.2 (g.withClass { role := .tree }) := hfilled.making.withClass rfl rfl
  have hforest : (g.withClass { role := .tree }).Forest g0.size (g0.size + 1) g.size
      (f.classes.map (·.2)) := hfilled.forest.transfer le_rfl (by rw [hsame _ hfilled.lt]) fun y _ hy => hsame y hy
  have hvalues : ∀ x ∈ r.1.2.values, g0.New x := by
    obtain ⟨k, hk, hclasses⟩ := map_eq_some_iff.1 htable
    obtain ⟨c, hc, rfl⟩ := exists_of_skeleton hk
    rw [← hclasses]
    intro x hx
    refine (hfilled.making.made _ _ le_rfl hc).1 x ?_
    simp only [children, ClassDef.children, mem_append]
    grind [ClassDef.skeleton]
  rw [hpackages, ← ends_bind]
  refine Ends.imp (packages_ends hroot rfl (by rw [Graph.heading, skeleton_eq hroot]; rfl) le_rfl f.packages hmaking
    hfilled.making.size_le hforest (by rw [hsame _ hfilled.lt, htable]) hvalues hfilled.lt) (fun _ g1 hung => ?_) fun _ _ hg => hg
  refine Ends.imp (linkAll_runs hung.tree) (fun _ g' hlinked => ?_) fun _ _ => False.elim
  exact .of_linked hung (Nat.le_succ _) hfilled.making.size_le (by rw [skeleton_eq hroot]; rfl) hlinked

end Read
end Modelica
