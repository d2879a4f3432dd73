/-
Reading modifications, equations and statements.

None of them makes a class, so that what is known about the classes of a text can be told
from the readers of classes alone.
-/
import Modelica.Proofs.Read.Symbols

namespace Modelica.Read

open Build Modelica.Graph List

variable {g0 g : Graph} {st : Reading} {id : Id}

variable {ch : Syntax.Change}

/-! ### Modifications -/

theorem setDimensions_new {s : Symbol} {subs} (hsubs : ∀ v ∈ subs, v.New g0) (hk : ∀ k ∈ s.children, g0.New k) :
    ∀ k ∈ ({ s with dimensions := [subs] } : Symbol).children, g0.New k := by
  intro k hmem
  have hold := hk k
  have hrow := fun hk => Value.new_nodesAll hsubs k hk
  simp only [Symbol.children, Value.nodesOfRows, flatMap_cons, flatMap_nil, append_nil,
    mem_append] at hmem hold
  grind

theorem declaration_makesAt {name : String} {subs}
    (hchange : Makes g0 (change ch) fun vs => ∀ v ∈ vs, v.New g0) (h : Making g0 st g) (hready : Ready g0 id st g) :
    MakesAt g0 st g (declaration (.mk name subs ch)) fun _ _ _ => True := by
  rw [declaration]
  refine .bind (declare_makesAt h hready) fun _ st g _ h _ => ?_
  refine Makes.bind (exprs_makes subs) (fun subs hsubs => .bind hchange fun vs hvs => ?_) st g h
  have hmodify : Makes g0 (vs.forM modifyOpened) fun _ => True := .forM fun v hv => modifyOpened_makes (hvs v hv)
  split
  · exact .bind openedSymbol_makes fun s hs =>
      .bind (.modifySymbol hs (fun _ hk => setDimensions_new hsubs hk) (fun _ => rfl) fun _ => rfl) fun _ _ => hmodify
  · exact hmodify

theorem modified_makes {component} (hchange : Makes g0 (change ch) fun vs => ∀ v ∈ vs, v.New g0) :
    Makes g0 (do
      let target ← reference component
      let vs ← change ch
      let value ← Build.alloc (.elementModification target vs)
      Build.alloc (.argument value none false none)) g0.New := by
  refine .bind (reference_makes component) fun target htarget => .bind hchange fun vs hvs =>
    .bind (.alloc (fun k hk => ?_)) fun value hvalue =>
      .alloc (by simpa [Element.children] using hvalue)
  rcases mem_cons.1 hk with rfl | hk
  · exact htarget
  · exact Value.new_nodesAll hvs k hk

mutual

theorem classModification_makes : ∀ m, Makes g0 (classModification m) g0.New
  | .mk items => by
    rw [classModification]
    exact .bind (modificationArguments_makes items) fun ids hids => .alloc hids

theorem modificationArguments_makes : ∀ items, Makes g0 (modificationArguments items) fun ids => ∀ id ∈ ids, g0.New id
  | [] => by
    rw [modificationArguments]
    exact .pure (by simp)
  | a :: rest => by
    rw [modificationArguments]
    exact .bind (modificationArgument_makes a) fun id hid => .bind (modificationArguments_makes rest) fun ids hids =>
      .pure (forall_mem_cons.2 ⟨hid, hids⟩)

theorem modificationArgument_makes : ∀ a, Makes g0 (modificationArgument a) g0.New
  | .modify component ch _ => by
    rw [modificationArgument]
    refine fun st g h => .get ?_
    split
    · exact .bind (openSymbol_makes.discard st g h) fun _ st g _ h _ => modified_makes (change_makes ch) st g h
    · exact modified_makes (change_makes ch) st g h
  | .replaceable target limit => by
    rw [modificationArgument]
    exact .bind (redeclared_makes target) fun value hvalue => .bind (constraint_makes limit) fun _ _ =>
      .alloc (by simpa [Element.children] using hvalue)
  | .redeclare target => by
    rw [modificationArgument]
    exact .bind (redeclared_makes target) fun value hvalue =>
      .alloc (by simpa [Element.children] using hvalue)
  | .redeclareReplaceable target limit => by
    rw [modificationArgument]
    exact .bind (redeclared_makes target).discard fun _ _ => .bind (constraint_makes limit) fun _ _ => .throw

theorem change_makes : ∀ ch, Makes g0 (change ch) fun vs => ∀ v ∈ vs, v.New g0
  | .none => by
    rw [change]
    exact .pure (by simp)
  | .value e => by
    rw [change]
    exact .bind (expr_makes e) fun v hv => .pure (by simpa using hv)
  | .nested m none => by
    rw [change]
    exact .bind (classModification_makes m) fun id hid => .pure (by simpa using Value.new_node hid)
  | .nested m (some e) => by
    rw [change]
    exact .bind (classModification_makes m) fun id hid => .bind (expr_makes e) fun v hv =>
      .pure (by simpa using ⟨Value.new_node hid, hv⟩)

theorem constraint_makes : ∀ c, Makes g0 (constraint c) fun _ => True
  | .none => by
    rw [constraint]
    exact .pure trivial
  | .bare _ => by
    rw [constraint]
    exact .pure trivial
  | .modified _ m => by
    rw [constraint]
    exact (classModification_makes m).discard

theorem redeclared_makes : ∀ r, Makes g0 (redeclared r) g0.New
  | .shortClass category name base subs m note => by
    rw [redeclared]
    refine .bind (reference_makes base) fun component hcomponent => .bind (exprs_makes subs).discard fun _ _ =>
      .bind (optionalModification_makes m).discard fun _ _ => .bind (comment_makes note).discard fun _ _ =>
        .bind freshModification_makes fun modification hm => .alloc ?_
    simpa [Element.children] using ⟨hcomponent, hm⟩
  | .enumeration _ _ items note => by
    rw [redeclared]
    exact .bind (enumLiterals_makes items) fun _ _ => .bind (comment_makes note).discard fun _ _ => .throw
  | .component keywords type (.mk name subs ch) note => by
    rw [redeclared]
    refine .bind (openClause_makes keywords) fun clause hclause st g h => ?_
    refine .bind (typeReference_makesAt type h) fun type st g htype h _ => ?_
    refine .bind (openComponent_makesAt h) ?_
    rintro sym st g1 ⟨hsym, hready⟩ h hlater1
    refine .bind (declaration_makesAt (change_makes ch) h hready) fun _ st g2 _ h hlater2 => ?_
    refine .bind (comment_makes note st g2 h) fun text st g3 _ h hlater3 => ?_
    refine .bind (closeSymbol_makes hsym text st g3 h) fun _ st g4 _ h hlater4 => ?_
    have hplain := htype.mono fun id hid => hlater4.plain id (hlater3.plain id (hlater2.plain id (hlater1.plain id hid)))
    exact .bind (fillType_makesAt h hclause hplain) fun _ _ _ _ h _ => .pure h hclause

theorem enumLiterals_makes : ∀ items, Makes g0 (enumLiterals items) fun _ => True
  | [] => by
    rw [enumLiterals]
    exact .pure trivial
  | l :: rest => by
    rw [enumLiterals]
    exact .bind (enumLiteral_makes l) fun _ _ => enumLiterals_makes rest

theorem enumLiteral_makes : ∀ l, Makes g0 (enumLiteral l) fun _ => True
  | .mk _ note => by
    rw [enumLiteral]
    exact (comment_makes note).discard

theorem optionalModification_makes : ∀ m, Makes g0 (optionalModification m) fun o => ∀ id ∈ o, g0.New id
  | .none => by
    rw [optionalModification]
    exact .pure (by simp)
  | .some m => by
    rw [optionalModification]
    exact .bind (classModification_makes m) fun id hid => .pure (by simpa using hid)

theorem comment_makes : ∀ c, Makes g0 (comment c) fun text => text = c.text
  | .mk strings note => by
    rw [comment]
    exact .bind (optionalModification_makes note).discard fun _ _ => .pure rfl

end

/-! ### Equations and statements -/

theorem iterator_makes (it : Syntax.Iterator) : Makes g0 (iterator it) g0.New := by
  rw [iterator]
  split
  · next e _ => exact .bind (expr_makes e) fun v hv => .alloc hv
  · exact .throw

theorem setComment_makes (hid : g0.New id) (text : String) : Makes g0 (setComment id text) fun _ => True := by
  rw [setComment]
  refine fun st g h => .element h fun e he => .lift (ends_store.2 ?_)
  obtain ⟨hk, hs⟩ := h.made id e hid he
  cases e <;> exact ⟨trivial, h.set hid he hk hs rfl, .set he rfl rfl⟩

/-- A block with its condition is made of new elements. -/
def NewBranch (g0 : Graph) (b : Option Value × List Id) : Prop := (∀ c ∈ b.1, c.New g0) ∧ ∀ id ∈ b.2, g0.New id

theorem branch_makes {bs : List (Option Value × List Id)} (form : BranchForm) (hbs : ∀ b ∈ bs, NewBranch g0 b) :
    Makes g0 (liftM (alloc (.branch form (conditions (bs.map (·.1))) (bs.map (·.2)) ""))) g0.New := by
  refine .alloc (fun k hk => ?_) (by simp [Element.Shaped, conditions]) rfl (by simp)
  rcases mem_append.1 hk with hk | hk
  · refine Value.new_nodesAll (fun v hv => ?_) k hk
    obtain ⟨o, ho, rfl⟩ := mem_map.1 hv
    obtain ⟨b, hb, rfl⟩ := mem_map.1 ho
    cases hc : b.1 with
    | none => exact Value.new_of_nodes_nil rfl
    | some c => exact (hbs b hb).1 c hc
  · obtain ⟨ids, hids, hk⟩ := mem_flatten.1 hk
    obtain ⟨b, hb, rfl⟩ := mem_map.1 hids
    exact (hbs b hb).2 k hk

theorem new_loop {is body : List Id} (his : ∀ id ∈ is, g0.New id) (hbody : ∀ id ∈ body, g0.New id) :
    ∀ k ∈ is ++ body, g0.New k := fun k hk => (mem_append.1 hk).elim (his k) (hbody k)

mutual

theorem equation_makes : ∀ e, Makes g0 (equation e) g0.New
  | .mk body note => by
    rw [equation]
    exact .bind (equationBody_makes body) fun id hid => .bind (comment_makes note) fun text _ =>
      .bind (setComment_makes hid text) fun _ _ => .pure hid

theorem equationBody_makes : ∀ e, Makes g0 (equationBody e) g0.New
  | .simple l r => by
    rw [equationBody]
    exact .bind (expr_makes l) fun l hl => .bind (expr_makes r) fun r hr =>
      .alloc (fun k hk => (mem_append.1 hk).elim (hl k) (hr k))
  | .branch branches => by
    rw [equationBody]
    exact .bind (equationBranches_makes branches) fun bs hbs => branch_makes _ hbs
  | .when branches => by
    rw [equationBody]
    exact .bind (equationBranches_makes branches) fun bs hbs => branch_makes _ hbs
  | .loop iterators body => by
    rw [equationBody]
    exact .bind (.mapM fun it _ => iterator_makes it) fun is his => .bind (equations_makes body) fun es hes =>
      .alloc (new_loop his hes)
  | .connect l r => by
    rw [equationBody]
    exact .bind (reference_makes l) fun l hl => .bind (reference_makes r) fun r hr =>
      .alloc (by simpa [Element.children] using ⟨hl, hr⟩)
  | .call name args => by
    rw [equationBody]
    exact .bind (arguments_makes args) fun items hitems => .bind (operands_makes hitems) fun vs hvs =>
      .alloc (Value.new_nodesAll hvs)

theorem equationBranches_makes : ∀ bs, Makes g0 (equationBranches bs) fun bs => ∀ b ∈ bs, NewBranch g0 b
  | [] => by
    rw [equationBranches]
    exact .pure (by simp)
  | b :: rest => by
    rw [equationBranches]
    exact .bind (equationBranch_makes b) fun b hb => .bind (equationBranches_makes rest) fun bs hbs =>
      .pure (forall_mem_cons.2 ⟨hb, hbs⟩)

theorem equationBranch_makes : ∀ b, Makes g0 (equationBranch b) (NewBranch g0)
  | .mk condition body => by
    rw [equationBranch]
    exact .bind (.optionMapM expr_makes) fun c hc => .bind (equations_makes body) fun es hes => .pure ⟨hc, hes⟩

theorem equations_makes : ∀ es, Makes g0 (equations es) fun ids => ∀ id ∈ ids, g0.New id
  | [] => by
    rw [equations]
    exact .pure (by simp)
  | e :: rest => by
    rw [equations]
    exact .bind (equation_makes e) fun id hid => .bind (equations_makes rest) fun ids hids =>
      .pure (forall_mem_cons.2 ⟨hid, hids⟩)

end

mutual

theorem statement_makes : ∀ s, Makes g0 (statement s) g0.New
  | .mk body note => by
    rw [statement]
    refine .bind (statementBody_makes body) fun o ho => .bind (comment_makes note) fun text _ => ?_
    cases o with
    | none => exact .throw
    | some id => exact .bind (setComment_makes (ho id rfl) text) fun _ _ => .pure (ho id rfl)

theorem statementBody_makes : ∀ s, Makes g0 (statementBody s) fun o => ∀ id ∈ o, g0.New id
  | .assign target e => by
    rw [statementBody]
    refine .bind (reference_makes target) fun t ht => .bind (expr_makes e) fun v hv =>
      .bind (.alloc (fun k hk => ?_)) fun id hid => .pure (by simpa using hid)
    rcases mem_cons.1 hk with rfl | hk
    · exact ht
    · exact hv k hk
  | .call target args => by
    rw [statementBody]
    exact .bind (reference_makes target).discard fun _ _ => .bind (arguments_makes args).discard fun _ _ => .throw
  | .assignAll targets function args => by
    rw [statementBody]
    refine .bind (.mapM fun t _ => reference_makes t) fun ts hts => .bind (reference_makes function) fun f hf =>
      .bind (arguments_makes args) fun items hitems => .bind (operands_makes hitems) fun vs hvs =>
      .bind (.alloc (fun k hk => ?_)) fun value hvalue =>
      .bind (.alloc (fun k hk => ?_)) fun id hid => .pure (by simpa using hid)
    · rcases mem_cons.1 hk with rfl | hk
      · exact hf
      · exact Value.new_nodesAll hvs k hk
    · rcases mem_append.1 hk with hk | hk
      · exact hts k hk
      · exact Value.new_node hvalue k hk
  | .leave => by
    rw [statementBody]
    exact .pure (by simp)
  | .finish => by
    rw [statementBody]
    exact .pure (by simp)
  | .branch branches => by
    rw [statementBody]
    exact .bind (statementBranches_makes branches) fun bs hbs => .bind (branch_makes _ hbs) fun id hid =>
      .pure (by simpa using hid)
  | .when branches => by
    rw [statementBody]
    exact .bind (statementBranches_makes branches).discard fun _ _ => .throw
  | .loop iterators body => by
    rw [statementBody]
    exact .bind (.mapM fun it _ => iterator_makes it) fun is his => .bind (statements_makes body) fun ss hss =>
      .bind (.alloc (new_loop his hss)) fun id hid => .pure (by simpa using hid)
  | .whileLoop condition body => by
    rw [statementBody]
    exact .bind (expr_makes condition).discard fun _ _ => .bind (statements_makes body).discard fun _ _ => .pure (by simp)

theorem statementBranches_makes : ∀ bs, Makes g0 (statementBranches bs) fun bs => ∀ b ∈ bs, NewBranch g0 b
  | [] => by
    rw [statementBranches]
    exact .pure (by simp)
  | b :: rest => by
    rw [statementBranches]
    exact .bind (statementBranch_makes b) fun b hb => .bind (statementBranches_makes rest) fun bs hbs =>
      .pure (forall_mem_cons.2 ⟨hb, hbs⟩)

theorem statementBranch_makes : ∀ b, Makes g0 (statementBranch b) (NewBranch g0)
  | .mk condition body => by
    rw [statementBranch]
    exact .bind (.optionMapM expr_makes) fun c hc => .bind (statements_makes body) fun ss hss => .pure ⟨hc, hss⟩

theorem statements_makes : ∀ ss, Makes g0 (statements ss) fun ids => ∀ id ∈ ids, g0.New id
  | [] => by
    rw [statements]
    exact .pure (by simp)
  | s :: rest => by
    rw [statements]
    exact .bind (statement_makes s) fun id hid => .bind (statements_makes rest) fun ids hids =>
      .pure (forall_mem_cons.2 ⟨hid, hids⟩)

end

end Modelica.Read
