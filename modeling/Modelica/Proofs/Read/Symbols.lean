/-
Symbols and clauses while they are open.

A symbol is named right after it was made (`Ready`), so that it is not yet in the table of
any class and comes after all that are (`declare_makesAt`). The type of a clause is a
dotted name all the time, first an empty one, then the one that is written
(`fillType_makesAt`); the copies that components get of it are such names again
(`copy_makesAt`).
-/
import Modelica.Proofs.Read.Terms

namespace Modelica.Read

open Build Modelica.Graph List StateT

variable {α : Type} {g0 g : Graph} {st : Reading} {id : Id} {e e' : Element} {name : String}

variable {m : Copied}

/-! ### Symbols -/

/-- The symbol is open and was made after all that stand in the table of a class. -/
structure Ready (g0 : Graph) (id : Id) (st : Reading) (g : Graph) : Prop where
  symbol : st.symbol = some id
  late : ∃ s, g.get? id = some (.symbol s) ∧ s.order < st.count ∧ g.Lists g0.size s.order

theorem freshSymbol_makes (order : Nat) : Makes g0 (liftM (freshSymbol order) : Read Id) g0.New := by
  have hprimary : ∀ v : Value, v.nodes = [] → Makes g0 (liftM (primary v) : Read Id) g0.New := fun v => primary_makes
  refine (Makes.alloc (e := .reference _) (by simp [Element.children, Value.nodesOfRows, Value.nodesAll, Value.nodes])
    (by simp [Element.Shaped]) rfl (by simp)).lift_bind fun type htype => ?_
  refine (Makes.alloc (e := .keywords []) (by simp [Element.children])).lift_bind fun words _ => ?_
  refine (hprimary _ rfl).lift_bind fun dimension hdimension => (hprimary _ rfl).lift_bind fun start hstart =>
    (hprimary _ rfl).lift_bind fun min hmin => (hprimary _ rfl).lift_bind fun max hmax =>
    (hprimary _ rfl).lift_bind fun nominal hnominal => (hprimary _ rfl).lift_bind fun value hvalue =>
    (hprimary _ rfl).lift_bind fun fixed hfixed => (hprimary _ rfl).lift_bind fun unit hunit =>
      Makes.alloc ?_
  simp [Element.children, Symbol.children, Value.nodesOfRows, Value.nodesAll, Value.nodes, *]

theorem freshSymbol_runs (order : Nat) :
    Runs (freshSymbol order) g fun id g' => ∃ s, g'.SymbolAt id s ∧ s.order = order := by
  simp only [freshSymbol, freshReference, primary, ends_bind, ends_alloc]
  exact ⟨_, get?_add_self _ _, rfl⟩

theorem openSymbol_makesAt (h : Making g0 st g) :
    MakesAt g0 st g openSymbol fun id st' g' => g0.New id ∧ Ready g0 id st' g' := by
  refine .get (.bind (R := fun id st' g' => st' = st ∧ g0.New id ∧ ∃ s, g'.SymbolAt id s ∧ s.order = st.count)
    (.lift ?_) ?_)
  · refine ((ends_run_lift.1 (freshSymbol_makes st.count st g h)).and_runs (freshSymbol_runs st.count)).imp
      (fun id g' hr => ⟨⟨rfl, hr.1.1, hr.2⟩, hr.1.2⟩) fun _ _ => id
  · rintro id st1 g1 ⟨rfl, hid, s, hs, horder⟩ h1 -
    have hopen : Making g0 { st1 with symbol := some id, count := st1.count + 1 } g1 :=
      h1.reopen (Nat.le_succ _) h1.classes h1.clause (by rintro _ ⟨⟩; exact hid)
    refine .bind (R := fun _ st' g' => Ready g0 id st' g') ⟨⟨rfl, s, hs, ?_, ?_⟩, hopen, rfl, le_rfl, rfl, fun _ h => h⟩
      fun _ st2 g2 hready h2 _ => .pure h2 ⟨hid, hready⟩
    · rw [horder]
      exact Nat.lt_succ_self _
    · rw [horder]
      exact h1.tables

theorem openSymbol_makes : Makes g0 openSymbol g0.New := fun _ _ h =>
  Ends.imp (openSymbol_makesAt h) (fun _ _ hr => ⟨hr.1.1, hr.2⟩) fun _ _ => id

theorem MakesAt.currentClass {S} {f : Id → Read α} (h : Making g0 st g)
    (hf : ∀ c outer, st.classes = c :: outer → g0.New c → MakesAt g0 st g (f c) S) :
    MakesAt g0 st g (currentClass >>= f) S := by
  refine .bind (R := fun c st' g' => (st' = st ∧ g' = g) ∧ ∃ outer, st.classes = c :: outer) (.get ?_) ?_
  · split
    · next c outer hc => exact .pure h ⟨⟨rfl, rfl⟩, outer, hc⟩
    · exact .throw h
  · rintro c _ _ ⟨⟨rfl, rfl⟩, outer, hc⟩ - -
    exact hf c outer hc (h.classes c (by rw [hc]; exact (.head _)))

theorem currentClass_makes : Makes g0 currentClass g0.New := fun st g h => by
  rw [← bind_pure currentClass]
  exact .currentClass h fun c _ _ hc => .pure h hc

theorem openedSymbol_makes : Makes g0 openedSymbol g0.New := fun st g h => by
  refine .get ?_
  split
  · next s hs => exact .pure h (h.symbol s hs)
  · exact .throw h

theorem closeSymbol_makes (hid : g0.New id) (comment : String) : Makes g0 (closeSymbol id comment) fun _ => True := by
  rw [closeSymbol]
  refine .bind (.modifySymbol hid (fun _ hk => hk) (fun _ => rfl) fun _ => rfl) fun _ _ st g h => ?_
  exact .modify (h.reopen (Nat.le_refl _) h.classes h.clause (by simp)) rfl trivial

/-! ### Clauses -/

theorem freshReference_makes (name : String) : Makes g0 (liftM (freshReference name) : Read Id) g0.New :=
  Makes.alloc (e := .reference { name }) (by simp [Element.children, Value.nodesOfRows, Value.nodesAll, Value.nodes])
    (by simp [Element.Shaped]) rfl (by simp)

theorem freshModification_makes : Makes g0 (liftM freshModification : Read Id) g0.New :=
  Makes.alloc (e := .modification []) (by simp [Element.children])

theorem openClause_makes (words : String) : Makes g0 (openClause words) g0.New := by
  rw [openClause]
  refine .bind (.alloc (by simp [Element.children])) fun words _ st g h => ?_
  refine .bind (R := fun type _ g' => g0.New type ∧ g'.Plain g0.size type)
    (.lift (ends_alloc.2 ⟨⟨h.size_le, plain_iff.2 ⟨h.size_le, _, get?_add_self _ _, rfl, Nat.zero_le _, by simp⟩⟩,
      h.add ?_ (Nat.zero_le _) (by simp) (by simp), .add rfl⟩)) ?_
  · simp [Element.children, Value.nodesOfRows, Value.nodesAll, Value.nodes]
  rintro type st g ⟨htype, hplain⟩ h -
  refine .bind (primary_makes rfl st g h) fun dimension st g1 hdimension h hlater => ?_
  refine .bind (R := fun id _ _ => g0.New id)
    (.lift (ends_alloc.2 ⟨h.size_le, h.add (fun k hk => ?_) trivial ?_ (by simp), .add rfl⟩)) fun id st g hid h _ => ?_
  · simp only [Element.children, Value.nodesOfRows, Value.nodesAll, Value.nodes, flatMap_cons, flatMap_nil,
      append_nil, mem_append, mem_singleton] at hk
    rcases hk with rfl | rfl
    · exact htype
    · exact hdimension
  · rintro c ⟨⟩
    exact hlater.plain type hplain
  · exact .bind (R := fun _ _ _ => True)
      (.modify (h.reopen le_rfl h.classes (by rintro _ ⟨⟩; exact hid) h.symbol) rfl trivial)
      fun _ _ _ _ h _ => .pure h hid

theorem openComponent_makesAt (h : Making g0 st g) :
    MakesAt g0 st g openComponent fun id st' g' => g0.New id ∧ Ready g0 id st' g' := by
  rw [openComponent]
  refine .bind (openSymbol_makesAt h) ?_
  rintro id st g ⟨hid, hready⟩ h -
  refine .get ?_
  split
  · next c hc =>
    refine .clauseAt h fun k hk => ?_
    have hnew := h.clause c hc
    refine .bind (R := fun _ st' g' => Ready g0 id st' g')
      (.lift (ends_store.2 ⟨?_, h.set hnew hk (fun a ha => ?_) trivial rfl, .set hk rfl rfl⟩))
      fun _ _ _ hready h _ => .pure h ⟨hid, hready⟩
    · obtain ⟨s, hs, hlt, hlate⟩ := hready.late
      refine ⟨hready.symbol, s, ?_, hlt, hlate.replace (get?_lt hk) (fun l hl _ => ?_) (by simp)⟩
      · rw [get?_set_other, hs]
        rintro rfl
        cases hk.symm.trans hs
      · rw [label_eq hk] at hl
        cases hl
    · have hold := (h.made c _ hnew hk).1
      simp only [Element.children, mem_append, mem_singleton] at ha hold
      rcases ha with ha | ha | ha
      · exact hold a (.inl ha)
      · exact hold a (.inr ha)
      · exact ha ▸ hid
  · exact .bind (R := fun _ _ _ => False) (.throw h) fun _ _ _ hf => hf.elim

/-- A symbol that was made last gets its name and goes to the end of the table. -/
theorem declare_makesAt (h : Making g0 st g) (hready : Ready g0 id st g) :
    MakesAt g0 st g (declare name) fun _ _ _ => True := by
  rw [declare]
  refine .get ?_
  have hid := h.symbol id hready.symbol
  obtain ⟨s, hs, hlt, hlate⟩ := hready.late
  rw [hready.symbol]
  cases hclause : st.clause with
  | none => exact .throw h
  | some c =>
    refine .clauseAt h fun k hk => ?_
    generalize hs' : { s with name, dimensions := k.dimensions, keywords := k.keywords, type := .node k.type } = s'
    have hchildren : ∀ a ∈ s'.children, g0.New a := by
      intro a ha
      have hold := (h.made id _ hid hs).1 a
      have hclause := (h.made c _ (h.clause c hclause) hk).1 a
      simp only [← hs', Element.children, Symbol.children, Value.nodes, mem_append, mem_singleton] at ha hold hclause
      grind
    obtain ⟨⟨h1, hlater1⟩, hlate1⟩ := h.setSymbol hid hs hchildren (by rw [← hs']) hlt hlate
    refine .bind (R := fun _ st' g' => st' = st ∧ g' = g.set id (.symbol s'))
      (.lift ((ends_modifySymbol hs).2 ?_)) ?_
    · rw [hs']
      exact ⟨⟨rfl, rfl⟩, h1, hlater1⟩
    rintro _ _ _ ⟨rfl, rfl⟩ - -
    split
    · refine .currentClass h1 fun owner _ _ howner => .classAt h1 fun cls hcls => ?_
      split
      · exact .bind (R := fun _ _ _ => False) (.throw h1) fun _ _ _ hf => hf.elim
      · next hfree =>
        have hnew : s'.name ∉ cls.symbols.keys := by
          intro hmem
          obtain ⟨a, ha⟩ := Table.mem_keys_iff.1 hmem
          rw [← hs'] at ha
          exact hfree (by rw [Table.contains, ha, Option.isSome_some])
        obtain ⟨h2, hlater2⟩ := h1.enter hid (get?_set hs _) (by rw [← hs']; exact hlt) hlate1 howner hcls hnew
        refine .lift ((ends_modifyClass hcls).2 ⟨trivial, ?_⟩)
        rw [← hs'] at h2 hlater2 ⊢
        exact ⟨h2, hlater2⟩
    · exact .pure h1 trivial

theorem setModification_makes {m} (hid : g0.New id) (hm : g0.New m) :
    Makes g0 (liftM (modifySymbol id fun sym => { sym with modification := some m })) fun _ => True := by
  refine .modifySymbol hid (fun s hk k hmem => ?_) (fun _ => rfl) fun _ => rfl
  have hold := hk k
  simp only [Symbol.children, Option.toList_some, mem_append, mem_singleton] at hmem hold
  grind

theorem modification?_makes {v} (hv : v.New g0) : Makes g0 (modification? v) fun o => ∀ id ∈ o, g0.New id := by
  cases v with
  | node id =>
    rw [modification?]
    refine fun st g h => .element h fun e he => ?_
    cases e with
    | modification args =>
      refine .pure h ?_
      rintro _ ⟨⟩
      exact hv id (by simp [Value.nodes])
    | _ => exact .pure h (by simp)
  | _ => exact .pure (by simp)

theorem modifyOpened_makes {v} (hv : v.New g0) : Makes g0 (modifyOpened v) fun _ => True := by
  rw [modifyOpened]
  refine .bind (modification?_makes hv) fun o ho => ?_
  cases o with
  | some id => exact .bind openedSymbol_makes fun s hs => setModification_makes hs (ho id rfl)
  | none =>
    refine .bind (freshReference_makes _) fun component hcomponent => .bind (.alloc ?_) fun change hchange =>
      .bind (.alloc ?_) fun arg harg => .bind openedSymbol_makes fun s hs st g h => .symbolAt h fun sym hsym => ?_
    · intro k hk
      rcases mem_cons.1 hk with rfl | hk
      · exact hcomponent
      · exact Value.new_nodesAll (by simpa using hv) k hk
    · simpa [Element.children] using hchange
    · cases hm : sym.modification with
      | none =>
        exact .bind ((Makes.alloc (e := .modification [arg]) (by simpa [Element.children] using harg)) st g h)
          fun m st g hm h _ => setModification_makes hs hm st g h
      | some m =>
        have hnew : g0.New m := (h.made s _ hs hsym).1 m (by simp [Element.children, Symbol.children, hm])
        refine .argumentsAt h fun args hargs => .lift (ends_setArguments.2
          ⟨trivial, h.set hnew hargs (fun a ha => ?_) trivial rfl, .set hargs rfl rfl⟩)
        rcases mem_append.1 ha with ha | ha
        · exact (h.made m _ hnew hargs).1 a ha
        · rw [mem_singleton.1 ha]
          exact harg

/-! ### Types -/

theorem chain_makesAt (names : List String) (h : Making g0 st g) :
    MakesAt g0 st g (chain (names.map fun n => (n, [[.null]]))) fun o _ g' => ∀ id ∈ o, g'.Plain g0.size id := by
  induction names generalizing st g with
  | nil => exact .pure h (by simp)
  | cons name names ih =>
    refine .bind (ih h) fun child st g hchild h _ => ?_
    refine .bind (R := fun id _ g' => g'.Plain g0.size id)
      (.lift (ends_alloc.2 ⟨?_, h.add (fun k hk => ?_) ?_ (by simp) (by simp), .add rfl⟩)) fun id st g hid h _ => ?_
    · exact plain_iff.2 ⟨h.size_le, _, get?_add_self _ _, rfl, by cases child <;> simp, fun b hb =>
        (hchild b (Option.mem_toList.1 hb)).add _⟩
    · simp only [Element.children, Value.nodesOfRows, Value.nodesAll, Value.nodes, flatMap_cons, flatMap_nil,
        append_nil, nil_append] at hk
      exact (plain_iff.1 (hchild k (Option.mem_toList.1 hk))).1
    · cases child <;> simp [Element.Shaped]
    · exact .pure h (by rintro _ ⟨⟩; exact hid)

theorem typeReference_makesAt (names : List String) (h : Making g0 st g) :
    MakesAt g0 st g (typeReference names) fun r _ g' => g'.PlainReference g0.size r := by
  rw [typeReference]
  refine .bind (chain_makesAt names h) fun o st g ho h _ => ?_
  cases o with
  | none => exact .throw h
  | some id =>
    obtain ⟨-, r, hr, hplain⟩ := plain_iff.1 (ho id rfl)
    exact .lift ((ends_referenceAt hr).2 ⟨hplain, h, .refl _ _ _⟩)

theorem fillType_makesAt {type} (h : Making g0 st g) (hid : g0.New id) (htype : g.PlainReference g0.size type) :
    MakesAt g0 st g (fillType id type) fun _ _ _ => True := by
  rw [fillType]
  refine .clauseAt h fun k hk => .lift (ends_store.2 ⟨trivial, h.fill (h.types id k hid hk) htype⟩)

/-- All copies made so far are names. -/
def BareCopies (g0 : Graph) (m : Copied) (g : Graph) : Prop := ∀ k v : Id, m[k]? = some v → g.Plain g0.size v

theorem BareCopies.record {new} (h : BareCopies g0 m g) (hnew : g.Plain g0.size new) :
    BareCopies g0 (m.insert id new) g := by
  intro k v hv
  rw [Copied.getElem?_record] at hv
  split at hv
  · cases hv
    exact hnew
  · exact h k v hv

theorem BareCopies.later {g'} (h : BareCopies g0 m g) (hlater : Later g0 st g st g') : BareCopies g0 m g' :=
  fun k v hv => hlater.plain v (h k v hv)

theorem copying_ends (n : Nat) (h : Making g0 st g) (hm : BareCopies g0 m g) (hid : g.Plain g0.size id) :
    Ends ((Copying.copy n id).run m) g (fun r g' => (g'.Plain g0.size r.1 ∧ BareCopies g0 r.2 g') ∧
      Making g0 st g' ∧ Later g0 st g st g') fun _ g' => Extends g0 g' := by
  induction n generalizing id m g with
  | zero => exact h.grown
  | succ n ih =>
    obtain ⟨-, r, hr, hindices, hlength, hchild⟩ := plain_iff.1 hid
    cases hcopied : m[id]? with
    | some new =>
      simp only [Copying.copy, Copying.copied?, run_bind, run_get, run_pure, pure_bind,
        Std.TreeMap.get?_eq_getElem?, hcopied, ends_pure]
      exact ⟨⟨hm id new hcopied, hm⟩, h, .refl _ _ _⟩
    | none =>
      have hnew : (g.add (.reference r)).1.Plain g0.size g.size :=
        plain_iff.2 ⟨h.size_le, r, get?_add_self _ _, hindices, hlength, fun b hb => (hchild b hb).add _⟩
      have h1 : Making g0 st (g.add (.reference r)).1 :=
        h.add (h.made id _ (plain_iff.1 hid).1 hr).1 hlength (by simp) (by simp)
      have hlater1 : Later g0 st g st (g.add (.reference r)).1 := .add rfl
      have hm1 : BareCopies g0 (m.insert id g.size) (g.add (.reference r)).1 := (hm.later hlater1).record hnew
      simp only [Copying.copy, Copying.whole, Copying.copied?, Copying.record, run_bind, run_get,
        run_pure, pure_bind, Std.TreeMap.get?_eq_getElem?, hcopied, run_lift, ends_bind, ends_pure,
        run_modify, ends_element hr, ends_alloc, ends_store, Copying.content, hindices,
        mapM_cons, mapM_nil, Copying.values, Copying.value]
      -- at most one part follows
      rcases hparts : r.child with _ | ⟨c, _ | ⟨d, rest⟩⟩
      · simp only [mapM_nil, run_pure, ends_pure]
        obtain ⟨h2, hlater2⟩ := h1.fill hnew (r := { r with indices := [[.null]], child := [] }) ⟨rfl, by simp, by simp⟩
        exact ⟨⟨hlater2.plain _ hnew, (hm1.later hlater2).record (hlater2.plain _ hnew)⟩, h2, hlater1.trans hlater2⟩
      · have hc : g.Plain g0.size c := hchild c (by rw [hparts]; exact mem_singleton_self c)
        simp only [mapM_cons, mapM_nil, run_bind, run_pure, ends_bind, ends_pure]
        refine (ih h1 hm1 (hc.add _)).imp (fun x g2 hx => ?_) fun _ _ hg => hg
        obtain ⟨⟨hx, hm2⟩, h2, hlater2⟩ := hx
        have hnew2 := hlater2.plain _ hnew
        obtain ⟨h3, hlater3⟩ := h2.fill hnew2 (r := { r with indices := [[.null]], child := [x.1] })
          ⟨rfl, by simp, by simpa using hx⟩
        exact ⟨⟨hlater3.plain _ hnew2, (hm2.later hlater3).record (hlater3.plain _ hnew2)⟩, h3,
          (hlater1.trans hlater2).trans hlater3⟩
      · rw [hparts] at hlength
        simp at hlength

theorem copy_makesAt (h : Making g0 st g) (hid : g.Plain g0.size id) :
    MakesAt g0 st g (liftM (Build.copy id)) fun new _ _ => g0.New new := by
  refine .lift ?_
  simp only [Build.copy, ends_bind, ends_size, ends_pure]
  exact (copying_ends _ h (m := {}) (by intro k v hv; simp at hv) hid).imp
    (fun r g' hr => ⟨(plain_iff.1 hr.1.1).1, hr.2⟩) fun _ _ hg => hg

end Modelica.Read
