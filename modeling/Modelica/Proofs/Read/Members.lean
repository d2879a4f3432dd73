/-
Reading the members of classes: components, imports and base classes.

The components of a clause are entered into the class around them, one after the other;
what the clause says about all of them comes later and changes neither their names nor
their order.
-/
import Modelica.Proofs.Read.Parts

namespace Modelica.Read

open Build Modelica.Graph List Element

variable {g0 g : Graph} {st : Reading} {id : Id}

variable {m : Option Id} {sections : List SectionContent}

/-! ### Components -/

theorem component_makes (c : Syntax.Component) : Makes g0 (component c) fun _ => True := by
  rw [component]
  refine fun st g h => .bind (openComponent_makesAt h) ?_
  rintro sym st g ⟨hsym, hready⟩ h -
  obtain ⟨⟨name, subs, ch⟩, condition, note⟩ := c
  refine .bind (declaration_makesAt (change_makes ch) h hready) fun _ st g _ h _ => ?_
  exact Makes.bind (Makes.optionMapM expr_makes).discard (fun _ _ => .bind (comment_makes note) fun text _ =>
    closeSymbol_makes hsym text) st g h

theorem sameNamed_makes (symbol : Id) : Makes g0 (sameNamed symbol) g0.New := by
  rw [sameNamed]
  refine fun st g h => .currentClass h fun cls _ _ hcls => .classAt h fun c hc => .symbolAt h fun s _ => ?_
  split
  · next a ha =>
    refine .pure h ((h.made cls _ hcls hc).1 a ?_)
    have hmem : a ∈ c.symbols.values := mem_map.2 ⟨_, Table.mem_entries_of_get? ha, rfl⟩
    simp [children, ClassDef.children, hmem]
  · exact .throw h

theorem keywordsOf_makes (symbol : Id) : Makes g0 (liftM (keywordsOf symbol)) fun _ => True := by
  refine .look fun st g _ => ends_bind.2 (ends_symbolAt_of (fun s _ => ends_bind.2 (ends_element_of (fun e _ => ?_) rfl)) rfl)
  cases e with
  | keywords words => exact ⟨rfl, trivial⟩
  | _ => exact rfl

theorem separate_makesAt {type symbol} (h : Making g0 st g) (htype : g.Plain g0.size type) :
    MakesAt g0 st g (separate type symbol) fun _ _ _ => True := by
  rw [separate]
  refine .bind (sameNamed_makes symbol st g h) fun s st g1 hs h hlater1 => ?_
  refine .bind (keywordsOf_makes s st g1 h) fun words st g2 _ h hlater2 => ?_
  refine .bind ((Makes.alloc (e := .keywords words) (by simp [children])) st g2 h)
    fun words st g3 _ h hlater3 => ?_
  refine .bind (copy_makesAt h (hlater3.plain _ (hlater2.plain _ (hlater1.plain _ htype)))) fun type st g hnew h _ => ?_
  have hset : Makes g0 (liftM (modifySymbol s fun sym => { sym with keywords := words, type := .node type }))
      fun _ => True := .modifySymbol hs (fun s hk k hmem => ?_) (fun _ => rfl) fun _ => rfl
  · exact hset st g h
  have hold := hk k
  simp only [Symbol.children, Value.nodes, mem_append, mem_singleton] at hmem hold
  grind

theorem separateAll_makesAt {type} (symbols : List Id) (h : Making g0 st g) (htype : g.Plain g0.size type) :
    MakesAt g0 st g (symbols.forM (separate type)) fun _ _ _ => True := by
  induction symbols generalizing st g with
  | nil => exact .pure h trivial
  | cons symbol symbols ih =>
    show MakesAt g0 st g (separate type symbol >>= fun _ => symbols.forM (separate type)) _
    exact .bind (separate_makesAt h htype) fun _ st g1 _ h hlater => ih h (hlater.plain _ htype)

theorem openedSymbols_makes : Makes g0 openedSymbols fun ids => ∀ id ∈ ids, g0.New id := by
  rw [openedSymbols]
  refine fun st g h => .get ?_
  split
  · next c hc =>
    refine .clauseAt h fun k hk => .pure h fun id hid => ?_
    exact (h.made c _ (h.clause c hc) hk).1 id (by simp [children, hid])
  · exact .pure h (by simp)

theorem setDimensions_makes {clause symbols subs} (hid : g0.New clause)
    (hsubs : ∀ v ∈ subs, v.New g0) : Makes g0 (setDimensions clause symbols subs) fun _ => True := by
  rw [setDimensions]
  split
  · refine fun st g h => .clauseAt h fun k hk => ?_
    refine .bind (R := fun _ _ _ => True) (.lift (ends_store.2 ⟨trivial, h.set hid hk (fun a ha => ?_) trivial rfl, .set hk rfl rfl⟩))
      fun _ st g _ h _ => ?_
    · have hold := (h.made clause _ hid hk).1 a
      have hrow := fun ha => Value.new_nodesAll hsubs a ha
      simp only [children, Value.nodesOfRows, flatMap_cons, flatMap_nil, append_nil,
        mem_append] at ha hold
      grind
    · exact Makes.forM (fun symbol _ => .bind (sameNamed_makes symbol) fun s hs =>
        .modifySymbol hs (fun _ hk => setDimensions_new hsubs hk) (fun _ => rfl) fun _ => rfl) st g h
  · exact .pure trivial

theorem clause_makes (c : Syntax.Clause) : Makes g0 (clause c) g0.New := by
  rw [clause]
  refine .bind (openClause_makes c.keywords) fun id hid st g h => ?_
  refine .bind (typeReference_makesAt c.type h) fun type st g1 htype h _ => ?_
  refine .bind (exprs_makes c.subscripts st g1 h) fun subs st g2 hsubs h hlater2 => ?_
  refine .bind (Makes.forM (fun d _ => component_makes d) st g2 h) fun _ st g3 _ h hlater3 => ?_
  have hplain := htype.mono fun a ha => hlater3.plain a (hlater2.plain a ha)
  refine .bind (fillType_makesAt h hid hplain) fun _ st g4 _ h _ => ?_
  refine .bind (openedSymbols_makes st g4 h) fun symbols st g5 _ h _ => ?_
  refine .bind (setDimensions_makes hid hsubs st g5 h) fun _ st g6 _ h _ => .clauseAt h fun k hk => ?_
  exact .bind (separateAll_makesAt _ h (h.types id k hid hk)) fun _ _ _ _ h _ => .pure h hid

/-! ### Other members -/

/-- A member of a class is new. -/
def Member.New (g0 : Graph) : Member → Prop
  | .clause id => g0.New id
  | .base id => g0.New id
  | .other => True

theorem setVisibility_makes {m : Member} (hm : m.New g0) (visibility : Visibility) :
    Makes g0 (m.setVisibility visibility) fun _ => True := by
  cases m with
  | clause id =>
    refine fun st g h => .clauseAt h fun k hk => Makes.forM (fun s hs => ?_) st g h
    have hnew : g0.New s := (h.made id _ hm hk).1 s (by simp [children, hs])
    exact .modifySymbol hnew (fun _ hk => hk) (fun _ => rfl) fun _ => rfl
  | base id =>
    refine fun st g h => .element h fun e he => ?_
    cases e with
    | base c m v =>
      exact .lift (ends_store.2 ⟨trivial, h.set hm he (h.made id _ hm he).1 trivial rfl, .set he rfl rfl⟩)
    | _ => exact .pure h trivial
  | other => exact .pure trivial

theorem importClause_makes (form : Syntax.ImportForm) (path : Syntax.Reference) (note : Syntax.Comment) :
    Makes g0 (importClause form path note) (Member.New g0) := by
  rw [importClause]
  refine .bind (reference_makes path) fun component hcomponent => ?_
  cases form with
  | «alias» name =>
    refine .bind (comment_makes note).discard fun _ _ => .bind (.alloc ?_) fun id hid =>
      .bind currentClass_makes fun cls hcls => .bind (.modifyClass hcls (fun c hk k hmem => ?_) (fun _ => rfl) fun _ => rfl)
        fun _ _ => .pure trivial
    · simpa [children] using hcomponent
    · have hold := hk k
      simp only [ClassDef.children, mem_append, mem_singleton] at hmem hold
      grind
  | some names => exact .throw
  | whole => exact .bind (comment_makes note).discard fun _ _ => .throw
  | all => exact .bind (comment_makes note).discard fun _ _ => .throw

theorem orFresh_makes (hm : ∀ id ∈ m, g0.New id) : Makes g0 (orFresh m) g0.New := by
  cases m with
  | none => exact freshModification_makes
  | some id => exact .pure (hm id rfl)

theorem addBase_makes {path} (hpath : g0.New path) (hm : ∀ id ∈ m, g0.New id) : Makes g0 (addBase path m) g0.New := by
  rw [addBase]
  refine .bind (orFresh_makes hm) fun m hm => .bind (.alloc ?_) fun id hid =>
    .bind currentClass_makes fun cls hcls => .bind (.modifyClass hcls (fun c hk k hmem => ?_) (fun _ => rfl) fun _ => rfl)
      fun _ _ => .pure hid
  · simpa [children] using ⟨hpath, hm⟩
  · have hold := hk k
    simp only [ClassDef.children, mem_append, mem_singleton] at hmem hold
    grind

theorem setInExtends_makes (b : Bool) :
    Makes g0 (modify fun st => { st with inExtends := b } : Read PUnit) fun _ => True := fun _ _ h =>
  .modify (h.reopen le_rfl h.classes h.clause h.symbol) rfl trivial

theorem extendsClause_makes (path : Syntax.Reference) (m note : Syntax.OptionalModification) :
    Makes g0 (extendsClause path m note) (Member.New g0) := by
  rw [extendsClause]
  exact .bind (setInExtends_makes true) fun _ _ => .bind (reference_makes path) fun component hcomponent =>
    .bind (optionalModification_makes m) fun m hm => .bind (optionalModification_makes note).discard fun _ _ =>
      .bind (addBase_makes hcomponent hm) fun id hid => .bind (setInExtends_makes false) fun _ _ => .pure hid

theorem external_makes (e : Syntax.External) : Makes g0 (external e) fun _ => True := by
  rw [external]
  refine .bind (Makes.optionMapM reference_makes).discard fun _ _ => ?_
  split
  · exact .bind (exprs_makes _).discard fun _ _ => (optionalModification_makes _).discard
  · exact (optionalModification_makes _).discard

/-! ### Sections -/

/-- What a section of a class contributes is new. -/
def SectionContent.New (g0 : Graph) : SectionContent → Prop
  | .exposed members => ∀ m ∈ members, m.New g0
  | .guarded members => ∀ m ∈ members, m.New g0
  | .equations _ ids => ∀ id ∈ ids, g0.New id
  | .statements _ ids => ∀ id ∈ ids, g0.New id

theorem lastMembers_new {pick}
    (hpick : ∀ s ∈ sections, ∀ ms ∈ pick s, ∀ m ∈ ms, m.New g0) : ∀ m ∈ lastMembers pick sections, m.New g0 := by
  intro m hm
  rw [lastMembers] at hm
  cases hlast : (sections.filterMap pick).getLast? with
  | none =>
    rw [hlast] at hm
    cases hm
  | some ms =>
    rw [hlast] at hm
    obtain ⟨s, hs, hms⟩ := mem_filterMap.1 (mem_of_getLast? hlast)
    exact hpick s hs ms hms m hm

theorem assemble_makes {first : List Member} (hfirst : ∀ m ∈ first, m.New g0) (hsections : ∀ s ∈ sections, s.New g0) :
    Makes g0 (assemble first sections) fun _ => True := by
  rw [assemble]
  refine .bind (.forM fun m hm => setVisibility_makes (hfirst m hm) _) fun _ _ =>
    .bind (.forM fun m hm => setVisibility_makes (lastMembers_new (fun s hs ms hms m hm => ?_) m hm) _) fun _ _ =>
    .bind (.forM fun m hm => setVisibility_makes (lastMembers_new (fun s hs ms hms m hm => ?_) m hm) _) fun _ _ =>
    .bind currentClass_makes fun owner howner => .forM fun s hs => ?_
  · have hnew := hsections s hs
    cases s with
    | exposed members =>
      cases hms
      exact hnew m hm
    | _ => cases hms
  · have hnew := hsections s hs
    cases s with
    | guarded members =>
      cases hms
      exact hnew m hm
    | _ => cases hms
  · have hnew := hsections s hs
    cases s with
    | exposed members => exact .pure trivial
    | guarded members => exact .pure trivial
    | equations initial ids | statements initial ids =>
      cases initial <;> refine .modifyClass howner (fun c hk k hmem => ?_) (fun _ => rfl) fun _ => rfl
      all_goals
        have hold := hk k
        have hids := hnew k
        simp only [ClassDef.children, mem_append] at hmem hold
        grind

end Modelica.Read
