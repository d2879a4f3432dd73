/-
Reading classes.

While a class is read it holds the classes defined in it so far (`Filled`), and nothing
else changes in the classes that were there (`Beside`). A reader inside a class adds the
classes it reads (`Fills`); so each class ends up as it is written
(`classDefinition_ends`).
-/
import Modelica.Proofs.Read.Members
import Modelica.Proofs.Read.Nesting

/-! ### New classes -/

namespace Modelica

/-- The graph with a further class, which descends from no other. -/
def Graph.withClass (g : Graph) (k : ClassDef) : Graph :=
  (g.add (.classDef k)).1.set g.size (.classDef { k with declaration := g.size })

namespace Graph

variable {g : Graph} {id : Id}

theorem get?_withClass_self (g : Graph) (k : ClassDef) :
    (g.withClass k).get? g.size = some (.classDef { k with declaration := g.size }) :=
  get?_set_self _ _ (by simp)

theorem get?_withClass_of_lt (k : ClassDef) (hid : id < g.size) : (g.withClass k).get? id = g.get? id := by
  rw [withClass, get?_set_other _ _ hid.ne, get?_add_of_lt _ _ hid]

theorem skeleton_withClass_of_lt (k : ClassDef) (hid : id < g.size) : (g.withClass k).skeleton id = g.skeleton id := by
  rw [skeleton, get?_withClass_of_lt k hid, skeleton]

@[simp] theorem size_withClass (g : Graph) (k : ClassDef) : (g.withClass k).size = g.size + 1 := by
  simp [withClass]

end Graph

@[simp] theorem Build.ends_freshClass {g k Q F} : Ends (freshClass k) g Q F ↔ Q g.size (g.withClass k) := by
  have hself : (g.add (.classDef k)).1.get? g.size = some (.classDef k) := Graph.get?_add_self _ _
  simp only [freshClass, ends_bind, ends_alloc, ends_modifyClass hself, ends_pure]
  rfl

end Modelica

namespace Modelica.Read

open Build Modelica.Graph List Element StateT

variable {α β : Type} {g0 g g1 g' : Graph} {st st' : Reading} {c id : Id} {outer : List Id}
  {ds ds' : List Syntax.ClassDef}

variable {k : ClassDef} {F : Fault → Graph → Prop} {d : Syntax.ClassDef}

/-- The class `c` is open and holds the given classes so far. -/
structure Filled (g0 : Graph) (c : Id) (outer : List Id) (ds : List Syntax.ClassDef) (st : Reading) (g : Graph) : Prop where
  making : Making g0 st g
  classes : st.classes = c :: outer
  lt : c < g.size
  forest : g.Forest c (c + 1) g.size ds

/-- Of the classes that were there only `c` has changed. -/
structure Beside (c : Id) (g g' : Graph) : Prop where
  size_le : g.size ≤ g'.size
  skeleton : ∀ x < g.size, x ≠ c → g'.skeleton x = g.skeleton x

/-- Of the classes that were there only `c` has changed, and that only in the classes it holds. -/
structure Within (c : Id) (g g' : Graph) : Prop extends Beside c g g' where
  heading : g'.heading c = g.heading c

theorem Beside.trans (h : Beside c g g1) (h' : Beside c g1 g') : Beside c g g' :=
  ⟨h.size_le.trans h'.size_le, fun x hx hne =>
    (h'.skeleton x (hx.trans_le h.size_le) hne).trans (h.skeleton x hx hne)⟩

theorem Within.trans (h : Within c g g1) (h' : Within c g1 g') : Within c g g' :=
  ⟨h.toBeside.trans h'.toBeside, h'.heading.trans h.heading⟩

theorem Within.of_later (h : Later g0 st g st' g') : Within c g g' :=
  ⟨⟨h.size_le, fun x _ _ => congrFun h.skeleton x⟩, heading_of_skeleton (congrFun h.skeleton c)⟩

theorem Filled.later (h : Filled g0 c outer ds st g) (hm : Making g0 st' g') (hlater : Later g0 st g st' g') :
    Filled g0 c outer ds st' g' :=
  ⟨hm, hlater.classes.trans h.classes, h.lt.trans_le hlater.size_le,
    h.forest.transfer hlater.size_le (by rw [hlater.skeleton]) fun x _ _ => congrFun hlater.skeleton x⟩

theorem Filled.setClass {k'} (h : Filled g0 c outer ds st g) (hk : g.ClassAt c k)
    (hsymbols : k'.symbols = k.symbols) (hclasses : k'.classes = k.classes) (hchildren : k'.children = k.children) :
    Filled g0 c outer ds st (g.set c (.classDef k')) ∧ Beside c g (g.set c (.classDef k')) := by
  have hnew : g0.New c := h.making.classes c (by rw [h.classes]; exact (.head _))
  have hother : ∀ x, x ≠ c → (g.set c (.classDef k')).skeleton x = g.skeleton x := fun x hx => skeleton_set_other hx
  refine ⟨⟨h.making.set hnew hk ?_ trivial (by simp only [facet, hsymbols]), h.classes, by simpa using h.lt,
    h.forest.transfer (by simp) ?_ fun x hx _ => hother x (Nat.ne_of_gt hx)⟩, by simp, fun x _ => hother x⟩
  · rw [children, hchildren]
    exact (h.making.made c _ hnew hk).1
  · rw [skeleton_eq hk, skeleton_eq (get?_set hk _)]
    exact congrArg some hclasses

/-! ### Readers inside a class -/

/-- Inside a class, the reader adds the given classes to it, and `P` holds of its result. -/
def Fills (g0 : Graph) (x : Read α) (ds : List Syntax.ClassDef) (P : α → Prop) : Prop :=
  ∀ c outer before st g, Filled g0 c outer before st g →
    Ends (x.run st) g (fun r g' => P r.1 ∧ Filled g0 c outer (before ++ ds) r.2 g' ∧ Within c g g') fun _ g' => Extends g0 g'

namespace Fills

variable {P : α → Prop} {Q : β → Prop} {x : Read α} {f : α → Read β}

theorem of_makes (h : Makes g0 x P) : Fills g0 x [] P := by
  intro c outer before st g hg
  refine Ends.imp (h st g hg.making) (fun r g' hr => ?_) fun _ _ => id
  obtain ⟨hP, hmaking, hlater⟩ := hr
  rw [append_nil]
  exact ⟨hP, hg.later hmaking hlater, .of_later hlater⟩

theorem pure {a} (ha : P a) : Fills g0 (Pure.pure a : Read α) [] P := of_makes (.pure ha)

theorem bind (hx : Fills g0 x ds P) (hf : ∀ a, P a → Fills g0 (f a) ds' Q) : Fills g0 (x >>= f) (ds ++ ds') Q := by
  intro c outer before st g hg
  rw [run_bind, ends_bind]
  refine Ends.imp (hx c outer before st g hg) (fun r g1 hr => ?_) fun _ _ => id
  obtain ⟨hP, hg1, hwithin⟩ := hr
  refine Ends.imp (hf r.1 hP c outer (before ++ ds) r.2 g1 hg1) (fun r' g' hr' => ?_) fun _ _ => id
  rw [← append_assoc]
  exact ⟨hr'.1, hr'.2.1, hwithin.trans hr'.2.2⟩

theorem before (hx : Fills g0 x ds P) (hf : ∀ a, P a → Makes g0 (f a) Q) : Fills g0 (x >>= f) ds Q := by
  rw [← append_nil ds]
  exact bind hx fun a ha => of_makes (hf a ha)

theorem discard (hx : Fills g0 x ds P) : Fills g0 (discard x) ds fun _ => True :=
  before hx fun _ _ => .pure trivial

end Fills
/-! ### One class -/

@[simp] theorem ends_run_modify {f Q} : Ends ((modify f : Read PUnit).run st) g Q F ↔ Q (⟨⟩, f st) g := Iff.rfl

theorem ends_currentClass {Q} (h : st.classes = c :: outer) : Ends (currentClass.run st) g Q F ↔ Q (c, st) g := by
  simp only [currentClass, run_bind, run_get, pure_bind, h]
  exact Iff.rfl

section

variable (h : Making g0 st g) (hchildren : k.children = []) (hsymbols : k.symbols = {})

include h hchildren hsymbols

theorem Making.withClass : Making g0 st (g.withClass k) := by
  have hadd := h.add (e := .classDef k) (by rw [children, hchildren]; simp) trivial (by simp)
    (by rintro _ ⟨⟩; exact hsymbols)
  refine hadd.set h.size_le (get?_add_self _ _) ?_ trivial rfl
  show ∀ a ∈ k.children, _
  rw [hchildren]
  simp

theorem Filled.opened (hclasses : k.classes = {}) :
    Filled g0 g.size st.classes [] { st with classes := g.size :: st.classes } (g.withClass k) := by
  refine ⟨(h.withClass hchildren hsymbols).reopen (Nat.le_refl _) ?_ h.clause h.symbol, rfl, by simp, .empty ?_⟩
  · intro id hid
    rcases mem_cons.1 hid with rfl | hid
    · exact h.size_le
    · exact h.classes id hid
  · rw [skeleton_eq (get?_withClass_self g k)]
    exact congrArg some hclasses

end

/-- A class is open; what is read of its body is what is written. -/
def FillsBody (g0 : Graph) (body : Syntax.ClassBody) : Prop :=
  ∀ id outer st g k, Filled g0 id outer [] st g → g.heading id = some k → k.name = none → k.comment = "" →
    Ends ((classBody body).run st) g (fun r g' => Filled g0 id outer body.definitions r.2 g' ∧ Beside id g g' ∧
      g'.heading id = some { k with name := body.name?, comment := body.comment }) fun _ g' => Extends g0 g'

/-- **A class is read as it is written** and goes into the class around it under its name. -/
theorem classDefinition_ends (hbody : FillsBody g0 d.body) {before} (h : Filled g0 c outer before st g) :
    Ends ((classDefinition d).run st) g (fun r g' => (g0.New r.1 ∧ g'.heading r.1 = some d.heading ∧
        ∃ t, (g.skeleton c).map ClassDef.classes = some t ∧
          (g'.skeleton c).map ClassDef.classes = some (t.insert d.name? r.1)) ∧
      Filled g0 c outer (before ++ [d]) r.2 g' ∧ Within c g g') fun _ g' => Extends g0 g' := by
  obtain ⟨encapsulated, isPartial, category, body⟩ := d
  generalize hk : ({ encapsulated, isPartial, category } : ClassDef) = k
  have hopened : Filled g0 g.size (c :: outer) [] { st with classes := g.size :: st.classes } (g.withClass k) := by
    rw [← h.classes]
    exact .opened h.making (by rw [← hk]; rfl) (by rw [← hk]) (by rw [← hk])
  have hheading : (g.withClass k).heading g.size = some k := by
    rw [heading, skeleton_eq (get?_withClass_self g k), ← hk]
    rfl
  rw [classDefinition]
  simp only [run_bind, ends_bind, ends_run_lift, hk, ends_freshClass, ends_run_modify]
  refine (hbody _ _ _ _ k hopened hheading (by rw [← hk]) (by rw [← hk])).imp (fun r g2 hr => ?_) fun _ _ => id
  obtain ⟨hfilled, hbeside, hheading2⟩ := hr
  have hlt : c < g.size := h.lt
  have hsame : ∀ x < g.size, g2.skeleton x = g.skeleton x := fun x hx => by
    rw [hbeside.skeleton x (by simp; omega) (Nat.ne_of_lt hx), skeleton_withClass_of_lt k hx]
  have hsize : g.size < g2.size := by
    have := hbeside.size_le
    rwa [size_withClass] at this
  have hwritten : g2.Written g.size g2.size (.mk encapsulated isPartial category body) g.size :=
    hfilled.forest.toWritten (by rw [hheading2, ← hk]; rfl) hsize
  have hforest : g2.Forest c (c + 1) g.size before :=
    h.forest.transfer le_rfl (by rw [hsame c hlt]) fun x _ hx => hsame x hx
  -- the name is looked up in the class itself
  obtain ⟨kid, hkid, hkidname⟩ : ∃ kid, g2.ClassAt g.size kid ∧ kid.name = body.name? := by
    obtain ⟨k', hk', he⟩ := Option.map_eq_some_iff.1 hheading2
    obtain ⟨kid, hkid, rfl⟩ := exists_of_skeleton hk'
    exact ⟨kid, hkid, congrArg ClassDef.name he⟩
  have hmaking : Making g0 { r.2 with classes := r.2.classes.drop 1 } g2 :=
    hfilled.making.reopen le_rfl (fun a ha => hfilled.making.classes a (mem_of_mem_drop ha))
      hfilled.making.clause hfilled.making.symbol
  have hdrop : ({ r.2 with classes := r.2.classes.drop 1 } : Reading).classes = c :: outer := by
    show r.2.classes.drop 1 = _
    rw [hfilled.classes, drop_one, tail_cons]
  generalize ({ r.2 with classes := r.2.classes.drop 1 } : Reading) = st2 at hmaking hdrop ⊢
  have hc : g0.New c := h.making.classes c (by rw [h.classes]; exact (.head _))
  simp only [ends_classAt hkid, ends_currentClass hdrop, run_pure, ends_pure]
  refine ends_modifyClass_of (fun kc hkc => ?_) hmaking.grown
  generalize hk' : { kc with classes := kc.classes.insert kid.name g.size } = kc'
  have hkc' := get?_set hkc (.classDef kc')
  have hother : ∀ x, x ≠ c → (g2.set c (.classDef kc')).skeleton x = g2.skeleton x := fun x hx => skeleton_set_other hx
  have ht : (g2.skeleton c).map ClassDef.classes = some kc.classes := by rw [skeleton_eq hkc]; rfl
  have ht' : ((g2.set c (.classDef kc')).skeleton c).map ClassDef.classes = some (kc.classes.insert body.name? g.size) := by
    rw [skeleton_eq hkc', ← hk', ← hkidname]
    rfl
  refine ⟨⟨h.making.size_le, ?_, kc.classes, by rw [← hsame c hlt, ht], ht'⟩,
    ⟨hmaking.set hc hkc (fun a ha => ?_) trivial (by rw [← hk']; rfl), hdrop, ?_, ?_⟩, ⟨?_, fun x hx hne => ?_⟩, ?_⟩
  · rw [heading_of_skeleton (hother _ hlt.ne'), hheading2, ← hk]
    rfl
  · have hold := (hmaking.made c _ hc hkc).1 a
    have hvalues := fun ha : a ∈ (kc.classes.insert kid.name g.size).values => Table.mem_values_insert ha
    by_cases hag : a = g.size
    · exact hag ▸ h.making.size_le
    · refine hold ?_
      simp only [← hk', children, ClassDef.children, mem_append] at ha ⊢
      grind
  · rw [size_set]
    exact hlt.trans hsize
  · rw [size_set]
    exact hforest.concat hwritten hlt (Nat.le_of_lt hsize) ht ht' fun x hx _ => hother x (Nat.ne_of_gt hx)
  · rw [size_set]
    omega
  · rw [hother x hne, hsame x hx]
  · rw [heading, heading, ← hsame c hlt, skeleton_eq hkc', skeleton_eq hkc, ← hk']
    rfl

theorem classDefinition_fills (hbody : FillsBody g0 d.body) :
    Fills g0 (classDefinition d) [d] g0.New := fun _ _ _ _ _ h =>
  (classDefinition_ends hbody h).imp (fun _ _ hr => ⟨hr.1.1, hr.2⟩) fun _ _ => id

theorem Filled.named {k0} (h : Filled g0 c outer ds st g) (hheading : g.heading c = some k)
    (hk : g.ClassAt c k0) (name : String) (text : String) :
    Filled g0 c outer ds st (g.set c (.classDef { k0 with name := some name, comment := text })) ∧
      Beside c g (g.set c (.classDef { k0 with name := some name, comment := text })) ∧
      (g.set c (.classDef { k0 with name := some name, comment := text })).heading c =
        some { k with name := some name, comment := text } := by
  refine and_assoc.1 ⟨h.setClass hk rfl rfl rfl, ?_⟩
  rw [heading, skeleton_eq hk] at hheading
  rw [heading, skeleton_eq (get?_set hk _), ← Option.some.inj hheading]
  rfl

theorem unnamed (hheading : g.heading c = some k) (hname : k.name = none) (hcomment : k.comment = "")
    (h : Filled g0 c outer ([] ++ ds) st' g' ∧ Within c g g') :
    Filled g0 c outer ds st' g' ∧ Beside c g g' ∧ g'.heading c = some { k with name := none, comment := "" } := by
  refine ⟨h.1, h.2.toBeside, ?_⟩
  rw [h.2.heading, hheading, ← hname, ← hcomment]

theorem setRemarks_makes (hid : g0.New id) :
    Makes g0 (do Build.modifyClass (← currentClass) fun c => { c with remarks := some id }) fun _ => True := by
  refine .bind currentClass_makes fun cls hcls => .modifyClass hcls (fun c hk k hmem => ?_) (fun _ => rfl) fun _ => rfl
  have hold := hk k
  simp only [ClassDef.children, Option.toList_some, mem_append, mem_singleton] at hmem hold
  grind

theorem filterMap_definition?_cons (e : Syntax.Element) (rest : List Syntax.Element) :
    (e :: rest).filterMap Syntax.Element.definition? = e.definition?.toList ++ rest.filterMap Syntax.Element.definition? := by
  rw [filterMap_cons]
  cases e.definition? <;> rfl

mutual

theorem classBody_fills : ∀ body, FillsBody g0 body
  | .composition name strings content => by
    intro id outer st g k h hheading _ _
    rw [classBody]
    simp only [run_bind, ends_bind]
    refine (composition_fills content id outer [] st g h).imp (fun r g1 hr => ?_) fun _ _ hg => hg
    obtain ⟨-, hfilled, hwithin⟩ := hr
    simp only [ends_currentClass hfilled.classes, ends_run_lift]
    refine ends_modifyClass_of (fun k0 hk0 => ?_) hfilled.making.grown
    obtain ⟨hfilled', hbeside, hheading'⟩ := hfilled.named (hwithin.heading.trans hheading) hk0 name (Syntax.commentText strings)
    exact ⟨hfilled', hwithin.toBeside.trans hbeside, hheading'⟩
  | .base name path m note => by
    intro id outer st g k h hheading _ _
    rw [classBody]
    simp only [run_bind, ends_bind]
    refine (Fills.of_makes (reference_makes path) id outer [] st g h).imp (fun r1 g1 h1 => ?_) fun _ _ hg => hg
    refine (Fills.of_makes (optionalModification_makes m) id outer _ r1.2 g1 h1.2.1).imp (fun r2 g2 h2 => ?_) fun _ _ hg => hg
    refine (Fills.of_makes (comment_makes note) id outer _ r2.2 g2 h2.2.1).imp (fun r3 g3 h3 => ?_) fun _ _ hg => hg
    have hwithin := (h1.2.2.trans h2.2.2).trans h3.2.2
    simp only [ends_currentClass h3.2.1.classes, ends_run_lift]
    refine ends_modifyClass_of (fun k0 hk0 => ?_) h3.2.1.making.grown
    obtain ⟨hfilled, hbeside, hheading'⟩ := h3.2.1.named (hwithin.heading.trans hheading) hk0 name r3.1
    refine (Fills.of_makes (addBase_makes h1.1 h2.1).discard id outer _ r3.2 _ hfilled).imp (fun r4 g4 h4 => ?_) fun _ _ hg => hg
    refine ⟨h4.2.1, (hwithin.toBeside.trans hbeside).trans h4.2.2.toBeside, ?_⟩
    rw [h4.2.2.heading, hheading', h3.1]
    rfl
  | .enumeration _ items note => by
    intro id outer st g k h hheading hname hcomment
    rw [classBody]
    have hread : Fills g0 (enumLiterals items >>= fun _ => discard (comment note)) [] fun _ => True :=
      .of_makes (.bind (enumLiterals_makes items) fun _ _ => (comment_makes note).discard)
    exact (hread id outer [] st g h).imp (fun r g' hr => unnamed hheading hname hcomment hr.2) fun _ _ hg => hg
  | .derivative _ _ _ note => by
    intro id outer st g k h hheading hname hcomment
    rw [classBody]
    exact (Fills.of_makes (comment_makes note).discard id outer [] st g h).imp
      (fun r g' hr => unnamed hheading hname hcomment hr.2) fun _ _ hg => hg
  | .extending _ m _ content => by
    intro id outer st g k h hheading hname hcomment
    rw [classBody]
    have hread : Fills g0 (discard (optionalModification m) >>= fun _ => composition content) content.definitions fun _ => True :=
      .bind (.of_makes (optionalModification_makes m).discard) fun _ _ => composition_fills content
    exact (hread id outer [] st g h).imp (fun r g' hr => unnamed hheading hname hcomment hr.2) fun _ _ hg => hg

theorem composition_fills : ∀ content, Fills g0 (composition content) content.definitions fun _ => True
  | .mk items parts ext note => by
    rw [composition, Syntax.Composition.definitions, filterMap_append]
    refine .bind (elements_fills items) fun first hfirst => .before (classSections_fills parts) fun contents hcontents => ?_
    refine .bind (Makes.optionMapM external_makes).discard fun _ _ => .bind (optionalModification_makes note) fun remarks hremarks =>
      .bind (assemble_makes hfirst hcontents) fun _ _ => ?_
    cases remarks with
    | none => exact .pure trivial
    | some a => exact setRemarks_makes (hremarks a rfl)

theorem classSections_fills : ∀ parts, Fills g0 (classSections parts)
    ((parts.flatMap Syntax.Section.elements).filterMap Syntax.Element.definition?) fun contents => ∀ s ∈ contents, s.New g0
  | [] => by
    rw [classSections]
    exact .pure (by simp)
  | s :: rest => by
    rw [classSections, flatMap_cons, filterMap_append]
    exact .bind (classSection_fills s) fun c hc => .before (classSections_fills rest) fun cs hcs =>
      .pure (forall_mem_cons.2 ⟨hc, hcs⟩)

theorem classSection_fills : ∀ s, Fills g0 (classSection s) (s.elements.filterMap Syntax.Element.definition?) (SectionContent.New g0)
  | .publicElements items => by
    rw [classSection]
    exact .before (elements_fills items) fun ms hms => .pure hms
  | .protectedElements items => by
    rw [classSection]
    exact .before (elements_fills items) fun ms hms => .pure hms
  | .equations initial es => by
    rw [classSection]
    exact .of_makes (.bind (equations_makes es) fun ids hids => .pure hids)
  | .algorithm initial ss => by
    rw [classSection]
    exact .of_makes (.bind (statements_makes ss) fun ids hids => .pure hids)

theorem elements_fills : ∀ items, Fills g0 (elements items) (items.filterMap Syntax.Element.definition?) fun ms => ∀ m ∈ ms, m.New g0
  | [] => by
    rw [elements]
    exact .pure (by simp)
  | e :: rest => by
    rw [elements, filterMap_definition?_cons]
    exact .bind (element_fills e) fun m hm => .before (elements_fills rest) fun ms hms =>
      .pure (forall_mem_cons.2 ⟨hm, hms⟩)

theorem element_fills : ∀ e, Fills g0 (element e) e.definition?.toList (Member.New g0)
  | .importClause form path note => by
    rw [element]
    exact .of_makes (importClause_makes form path note)
  | .extendsClause path m note => by
    rw [element]
    exact .of_makes (extendsClause_makes path m note)
  | .classElement (.mk encapsulated isPartial category body) => by
    rw [element]
    exact .before (classDefinition_fills (classBody_fills body)).discard fun _ _ => .pure trivial
  | .componentElement c => by
    rw [element]
    exact .of_makes (.bind (clause_makes c) fun id hid => .pure hid)
  | .replaceableClass (.mk encapsulated isPartial category body) limit note => by
    rw [element]
    exact .before (classDefinition_fills (classBody_fills body)).discard fun _ _ => .bind (constraint_makes limit) fun _ _ =>
      .bind (comment_makes note).discard fun _ _ => .pure trivial
  | .replaceableComponent c limit note => by
    rw [element]
    exact .of_makes (.bind (clause_makes c) fun id hid => .bind (constraint_makes limit) fun _ _ =>
      .bind (comment_makes note).discard fun _ _ => .pure hid)

end

end Modelica.Read
