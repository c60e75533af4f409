import Kernelwright.Proofs.Lowering.ValueWork

/-!
# Bodies are lowered by work

A walk is a piece of work from the node where it starts to its end, with branches, loops and scopes
inside. So is the whole body of a graph, and the body of a function is lowered likewise when every
value in it is watched. Only the declaration of a loop variable does not look at the name of a
value.
-/

namespace Kernelwright.Lowering

open Code

variable {w : Bench} {r : List Diagnostic} {n : Option NodeId} {H : Progress → Prop}
variable {head next : NodeId} {sort : LoopSort} {bound : Option NodeId} {c : Control}

section Values

variable {id array index : NodeId} {value watched : Values} (hvalue : WorksValues w r value watched)
include hvalue

/-! ### Phis and effects -/

abbrev HasNode (x : Name) (p : Progress) : Prop := ∃ id, p.symbols.Binds id x

omit hvalue in
theorem lasting_hasNode (x : Name) : Lasting (HasNode x) :=
  fun _ _ h => .imp fun id hx => h.names id x hx

theorem phiValues_works {merge stop : NodeId} :
    Works w r n anyhow (phiValues w.site value merge stop) (phiValues w.site watched merge stop)
      fun pairs p => ∀ e ∈ pairs, HasNode e.2 p := by
  refine .all (S := fun e : NodeId × Name => HasNode e.2) (fun e => lasting_hasNode e.2)
    fun phi _ => ?_
  exact .check_andThen fun v _ => (hvalue.binds v).andThen fun _ => .result fun _ h => ⟨v, h⟩

omit hvalue in
theorem assignPhis_works {pairs : List (NodeId × Name)} :
    Does w r n (fun p => ∀ e ∈ pairs, HasNode e.2 p) (assignPhis pairs) fun _ => anyhow := by
  induction pairs with
  | nil => exact .idle
  | cons e pairs ih =>
    obtain ⟨phi, v⟩ := e
    refine .andThen (P := fun o p => (∀ x, o = some x → HasName phi x p) ∧ ∀ e ∈ (phi, v) :: pairs,
      HasNode e.2 p)
      (.look_andThen fun q => .result ?_) fun target => ?_
    · rintro p ⟨h, rfl⟩
      exact ⟨fun _ hx => hx, h⟩
    · have hrest {H : Progress → Prop} (hH : ∀ p, H p → ∀ e ∈ (phi, v) :: pairs, HasNode e.2 p) :
          Does w r n H (assignPhis pairs) fun _ => anyhow :=
        ih.imp (fun p h e he => hH p h e (.tail _ he)) fun _ _ h => h
      cases target with
      | none => exact hrest fun _ h => h.2
      | some target =>
        refine .ite (fun hlegal => ?_) fun _ => hrest fun _ h => h.2
        refine .andThen (P := fun _ p => ∀ e ∈ pairs, HasNode e.2 p)
          (.effect (fun p hp => ?_) fun p hp => ?_)
          fun _ => ih
        · refine .write (.bare ⟨rfl, rfl, rfl, rfl⟩ (.inr rfl)) (Nat.le_refl _) fun _ => ?_
          obtain ⟨other, hv⟩ := hp.2 _ (.head _)
          refine .of_single rfl rfl (List.forall_mem_append.2 ⟨?_, ?_⟩) (List.forall_mem_nil _)
            (List.forall_mem_nil _)
          · exact Operand.usable ⟨SymbolTable.binds_of_nameOf? (hp.1 target rfl), hlegal.2⟩
          · exact Operand.usable ⟨hv, hlegal.1⟩
        · exact fun e he => hp.2 e (.tail _ he)

theorem lowerBackEdge_works :
    Works w r n anyhow (lowerBackEdge w.site value id head) (lowerBackEdge w.site watched id head)
      fun _ => anyhow := by
  refine .look_andThen fun p => Works.of_anyhow ?_
  split
  · exact .failure _
  · exact .ite (fun _ => (phiValues_works hvalue).andThen fun _ => assignPhis_works)
      fun _ => .idle

/-- The one statement that may have an illegal name has that of the value from which a phi
starts. -/
theorem lowerLoopPhis_works {first : Bool} {phis : List NodeId}
    (hsort : w.site.IsFunction → sort = .explicit) (hhead : w.site.graph.isLoopHead head = true)
    (hphis : phis ⊆ w.site.graph.phisOf head) :
    Works w r (some head) anyhow (lowerLoopPhis w.site value sort first phis)
      (lowerLoopPhis w.site watched sort first phis) fun _ => anyhow := by
  have hvariable {type : CType} {name init : Name} :
      (loopVariable w.site sort type name init).Local := by
    cases sort <;> exact .declare ⟨rfl, rfl⟩
  induction phis generalizing first with
  | nil => exact .idle
  | cons phi phis ih =>
    obtain ⟨hmem, hphis⟩ := List.cons_subset.1 hphis
    refine .check_andThen fun kind hkind => ?_
    split
    · next merge entry rest =>
      have hkind := Graph.kind_eq_ok_iff.1 hkind
      have hphi : w.Names (some head) phi := .loop hhead hkind
      refine (hvalue.binds entry).andThen fun init => .ite (fun h => ?_) fun _ => ?_
      · refine .next (bind_works hphi fun _ _ => .made rfl fun hw => ?_) fun _ =>
          (ih hphis).next fun _ => ?_
        · cases (hsort hw).symm.trans h.1
        · exact .idle
      · refine (typeOf?_works fun _ _ h => h).andThen fun type => ?_
        cases type with
        | none => exact (suppress_works hphi).next fun _ => ih hphis
        | some type =>
          refine .given_and fun htype => .declaring (K := fun x p => .var x ∈ p.declared)
            (fun p hp => ⟨.bare hvariable.toBare (.inr hvariable.plain), fun hw => ?_⟩) ?_ fun c =>
              (bind_works hphi fun p hp => .made rfl fun _ => ?_).next fun _ => ih hphis
          · cases hsort hw
            simp only [loopVariable, hw.mode, Mode.isKernel]
            refine ⟨List.forall_mem_singleton.2 fun i hi => .inr ?_, ?_, ?_⟩
            · by_cases hinit : init = .illegal
              · subst hinit
                exact .inr ⟨List.mem_singleton.1 hi, rfl, entry,
                  ⟨head, phi, merge, rest, hhead, hmem, hkind⟩, hp⟩
              · exact .inl (.name hp hinit hi)
            · exact List.forall_mem_singleton.2
                (List.forall_mem_singleton.2 (.fresh (Nat.le_refl _) (Nat.lt_succ_self _)))
            · exact List.forall_mem_singleton.2 (List.forall_mem_nil _)
          · intro p x _
            cases sort <;> exact .head _
          · refine .of_declared rfl hp fun harray => ?_
            cases (isArray_of_type htype).symm.trans harray
    · exact .failure _

theorem loopHead_works {init : Option Name} :
    Works w r n anyhow (loopHead w.site value id sort init bound)
      (loopHead w.site watched id sort init bound) fun head _ => sort = .explicit →
      head = .forever := by
  cases sort with
  | parallel => exact .result fun _ _ h => by cases h
  | explicit => exact .result fun _ _ _ => rfl
  | reduction =>
    cases bound with
    | none => exact .failure _
    | some bound => exact (hvalue _ bound).next fun _ => .result fun _ _ h => by cases h

omit hvalue in
theorem storeFields_works (hkernel : ¬ w.site.IsFunction) {cell : FieldPointer → Place} {v : Name}
    {qs : List FieldPointer} : Does w r n anyhow (storeFields cell v qs) fun _ => anyhow := by
  induction qs with
  | nil => exact .idle
  | cons q qs ih => exact (emitKernel_works hkernel (.assign ⟨rfl, rfl⟩)).next fun _ => ih

theorem lowerStore_works {v : NodeId}
    (hk : w.kind? id = some (.control (.storeIndexed array index v next))) :
    Works w r n anyhow (lowerStore w.site value array index v)
      (lowerStore w.site watched array index v) fun _ => anyhow := by
  refine (hvalue.binds array).andThen fun arr => ((hvalue.binds index).keep lasting_binds).andThen
    fun idx => ?_
  refine ((hvalue.binds v).keep fun p p' h hp =>
    ⟨lasting_binds p p' h hp.1, lasting_binds p p' h hp.2⟩).andThen fun v => ?_
  refine .ite (fun _ => .idle) fun hlegal => ?_
  obtain ⟨harr, hidx, hv⟩ := (not_or.1 hlegal).imp_right not_or.1
  refine .ite (fun houtput => ?_) fun _ => ?_
  · exact (storeFields_works fun hw => by simp [hw.splitOutput] at houtput).of_anyhow
  have hcell {H : Progress → Prop} (hH : ∀ p, H p → Operand array arr p ∧ Operand index idx p ∧
    HasNode v p) :
      Does w r n H (do emit (.assign (← elementPlace arr idx) (.place (.name v))))
        fun _ => anyhow := by
    refine elementPlace_works.andThen fun place => ?_
    refine use_works ⟨rfl, rfl, rfl, rfl⟩ (.inr rfl) rfl rfl fun p hp _ i hi => ?_
    obtain ⟨harr, hidx, other, hv'⟩ := hH p hp.2
    obtain hi | hi := List.mem_append.1 hi
    · obtain hi | hi :=
        usable_placeOf rfl harr (fun h => h _ (Graph.mem_of_kind? hk) array (.head _)) i (hp.1 ▸ hi)
      · exact hidx.usable i hi
      · exact hi
    · exact .name hv' hv hi
  split
  · next hsplit =>
    refine .ite (fun _ => ?_) fun _ => hcell fun p hp => ⟨⟨hp.2.2, harr⟩, ⟨hp.2.1, hidx⟩, _, hp.1⟩
    exact (storeFields_works fun hw => by simp [hw.splitInput] at hsplit).of_anyhow
  · exact hcell fun p hp => ⟨⟨hp.2.2, harr⟩, ⟨hp.2.1, hidx⟩, _, hp.1⟩

/-- What is written of a node before the walk passes it. -/
def passing (site : Site) (value : Values) : Control → Lower Unit
  | .storeIndexed array index v _ => lowerStore site value array index v
  | .storeField object field v _ => do
    let obj ← value object
    let v ← value v
    if obj ≠ .illegal ∧ v ≠ .illegal then
      emit (.assign (.field obj (field.toNat + 1)) (.place (.name v)))
  | .guard condition negated _ => do
    if site.guards then
      let c ← value condition
      if c ≠ .illegal then emit (.guard c negated)
  | _ => return ()

omit hvalue in
theorem lowerControl_eq_passing {site : Site} {walk : Walk}
    (hregion : Graph.isRegion (.control c) = false) (hnext : c.onward? = some next) :
    lowerControl site value walk id c = passing site value c >>= fun _ => walk next := by
  cases c with
  | start | storeIndexed =>
    cases hnext
    rfl
  | storeField =>
    cases hnext
    simp only [lowerControl, passing, bind_assoc]
    refine bind_congr fun obj => bind_congr fun v => ?_
    split <;> rfl
  | guard =>
    cases hnext
    simp only [lowerControl, passing]
    split
    · rw [bind_assoc]
      refine bind_congr fun c => ?_
      split <;> rfl
    · rfl
  | region => cases hregion
  | _ => cases hnext

theorem passing_works (hk : w.kind? id = some (.control c)) :
    Works w r n anyhow (passing w.site value c) (passing w.site watched c) fun _ => anyhow := by
  cases c with
  | storeIndexed => exact lowerStore_works hvalue hk
  | storeField object field v =>
    refine (hvalue.binds object).andThen fun obj => ((hvalue.binds v).keep lasting_binds).andThen
      fun v => ?_
    refine .ite (fun hlegal => ?_) fun _ => .idle
    refine use_works ⟨rfl, rfl, rfl, rfl⟩ (.inr rfl) rfl rfl fun p hp _ => ?_
    exact List.forall_mem_append.2
      ⟨Operand.usable ⟨hp.2, hlegal.1⟩, Operand.usable ⟨hp.1, hlegal.2⟩⟩
  | guard condition =>
    refine .ite (fun hguards => ?_) fun _ => .idle
    refine (hvalue.binds condition).andThen fun c => .ite (fun hlegal => ?_) fun _ => .idle
    refine use_works ⟨rfl, rfl, rfl, rfl⟩ (.inr rfl) rfl rfl fun p hp _ => ?_
    exact List.forall_mem_cons.2 ⟨.flag hguards, Operand.usable ⟨hp, hlegal⟩⟩
  | _ => exact .idle

/-! ### Control nodes -/

variable (hwalks : w.walks = true)
include hwalks

omit hvalue in
theorem emitReturn_works {v : Option Name}
    (h : ∀ p, H p → w.site.IsFunction → ∀ i ∈ v.elim [] Name.uses, w.Usable p i) :
    Does w r n H (emitReturn v) fun _ => anyhow := by
  refine .same fun p _ p' hp hrun => ?_
  rcases emitReturn_cases hrun with ⟨rfl, -⟩ | rfl
  · exact ⟨.done, trivial⟩
  · refine ⟨(Bench.Effect.write (.bare ⟨rfl, rfl, rfl, rfl⟩ (.inl hwalks)) (Nat.le_refl _)
      fun hw => ?_).work,
      trivial⟩
    exact .of_single rfl rfl (h p hp hw) (List.forall_mem_nil _) (List.forall_mem_nil _)

omit hvalue in
theorem emitLeave_works : Does w r n H emitLeave fun _ => anyhow := by
  refine .same fun p _ p' _ hrun => ?_
  rcases emitLeave_cases hrun with ⟨rfl, -⟩ | rfl
  · exact ⟨.done, trivial⟩
  · refine ⟨(Bench.Effect.write (.bare ⟨rfl, rfl, rfl, rfl⟩ (.inl hwalks)) (Nat.le_refl _)
      fun _ => ?_).work,
      trivial⟩
    exact .of_single rfl rfl (List.forall_mem_nil _) (List.forall_mem_nil _) (List.forall_mem_nil _)

theorem lowerReturn_works {v : Option NodeId} :
    Works w r n anyhow (lowerReturn w.site value v) (lowerReturn w.site watched v)
      fun _ => anyhow := by
  refine .ite (fun _ => .idle) fun _ => ?_
  cases v with
  | none => exact emitReturn_works hwalks fun _ _ _ => List.forall_mem_nil _
  | some v =>
    refine (hvalue.binds v).andThen fun name => .ite (fun hlegal => ?_) fun _ => .idle
    exact emitReturn_works hwalks fun p hp _ => Operand.usable ⟨hp, hlegal⟩

omit hvalue in
theorem lowerDeoptimize_works : Does w r n H (lowerDeoptimize w.site id) fun _ => anyhow := by
  unfold lowerDeoptimize
  refine report_works.next fun _ =>
    .ite (fun hguards => .next (use_works ⟨rfl, rfl, rfl, rfl⟩ (.inr rfl) rfl
    rfl fun p _ _ => List.forall_mem_singleton.2 (.flag hguards)) fun _ => ?_) fun _ => ?_
  all_goals
    refine .ite (fun _ => emitReturn_works hwalks fun _ _ _ => List.forall_mem_nil _) fun _ => ?_
    split
    · exact emitReturn_works hwalks fun _ _ _ => List.forall_mem_nil _
    · exact .idle

/-- A node of the walk, and everything after it, is lowered by work. -/
def WorksWalk (w : Bench) (r : List Diagnostic) (walk watched : Walk) : Prop :=
  ∀ n id, Works w r n anyhow (walk id) (watched id) fun _ => anyhow

section Control

variable {walk watchedWalk : Walk} (hwalk : WorksWalk w r walk watchedWalk)
include hwalk

theorem lowerBranch_works {condition onTrue onFalse : NodeId} :
    Works w r n anyhow (lowerBranch w.site value walk id condition onTrue onFalse)
      (lowerBranch w.site watched watchedWalk id condition onTrue onFalse) fun _ => anyhow := by
  refine (hvalue.binds condition).andThen fun c => .ite (fun _ => .failure_andThen _)
    fun hlegal => ?_
  intro p x p' hc h
  obtain ⟨⟨x₁, trueArm⟩, p₂, hblock₁, h⟩ := Step.bind_eq_ok.1 h
  obtain ⟨⟨x₂, falseArm⟩, p₃, hblock₂, h⟩ := Step.bind_eq_ok.1 h
  obtain ⟨q₁, htrue, rfl, rfl⟩ := inBlock_eq_ok hblock₁
  obtain ⟨q₂, hfalse, rfl, rfl⟩ := inBlock_eq_ok hblock₂
  replace h := Step.after_ok rfl h
  obtain ⟨ht, -, htrue'⟩ := hwalk n onTrue trivial htrue
  obtain ⟨hf, -, hfalse'⟩ := hwalk n onFalse trivial hfalse
  have hbranch : w.Work n p
      { q₂ with block := .branch c q₁.block.reverse q₂.block.reverse :: p.block } :=
    .branch c hwalks (fun _ => Operand.usable ⟨hc, hlegal⟩) ht hf .done
  have hlast {m m' : Lower (Option NodeId)} {P : Prop}
    (hm : Works w r n anyhow m m' fun _ => anyhow)
      (h : m { q₂ with block := .branch c q₁.block.reverse q₂.block.reverse :: p.block } = .ok
        (x, p'))
      (hP : inBlock (watchedWalk onTrue) p = .ok
        ((x₁, q₁.block.reverse), { q₁ with block := p.block }) →
        inBlock (watchedWalk onFalse) { q₁ with block := p.block } =
          .ok ((x₂, q₂.block.reverse), { q₂ with block := p.block }) →
        m' { q₂ with block := .branch c q₁.block.reverse q₂.block.reverse :: p.block } = .ok
          (x, p') → P) :
      w.Work n p p' ∧ True ∧ (w.site.IsFunction → Tidy p → p'.diagnostics ⊆ r → P) := by
    obtain ⟨hwork, -, hwatched⟩ := hm trivial h
    refine ⟨hbranch.trans hwork, trivial, fun hw htidy hreported => ?_⟩
    have hreported₂ := List.Subset.trans hwork.keeps.diagnostics.subset hreported
    have hreported₁ := List.Subset.trans hf.keeps.diagnostics.subset hreported₂
    have htidy₁ : Tidy q₁ := ht.tidy ⟨htidy.names, htidy.lengths⟩
    exact hP (inBlock_of_ok (htrue' hw ⟨htidy.names, htidy.lengths⟩ hreported₁))
      (inBlock_of_ok (hfalse' hw ⟨htidy₁.names, htidy₁.lengths⟩ hreported₂))
      (hwatched hw (hbranch.tidy htidy) hreported)
  rcases x₁ with _ | a <;> rcases x₂ with _ | b
  all_goals
    refine hlast ?_ h fun h₁ h₂ h₃ => Step.bind_eq_ok.2 ⟨_, _, h₁, Step.bind_eq_ok.2 ⟨_, _, h₂,
      Step.bind_eq_ok.2 ⟨(), _, rfl, h₃⟩⟩⟩
  · exact .idle
  · exact hwalk _ b
  · exact hwalk _ a
  · exact .ite (fun _ => hwalk _ a) fun _ => .failure _

theorem lowerLoop_works (hid : w.site.graph.isLoopHead id = true) :
    Works w r (some id) anyhow (lowerLoop w.site value walk id next bound)
      (lowerLoop w.site watched watchedWalk id next bound) fun _ => anyhow := by
  refine .look_andThen fun q => ?_
  -- in a function every loop is written out
  have hsort (hw : w.site.IsFunction) : loopSort w.site q.loops = .explicit := by
    simp [loopSort, hw.mode, Mode.computation?]
  refine .andThen (P := fun _ p => p.loops = q.loops) ?_ fun init => ?_
  · intro p x p' hp h
    obtain ⟨hwork, -, hwatched⟩ :=
      lowerLoopPhis_works hvalue hsort hid (List.Subset.refl _) trivial h
    exact ⟨hwork, hwork.keeps.loops.trans (congrArg Progress.loops hp.2), hwatched⟩
  refine ((loopHead_works hvalue).keep fun _ _ h hp => h.loops.trans hp).andThen fun head => ?_
  intro p x p' hp h
  replace h := Step.after_ok rfl h
  obtain ⟨⟨y, body⟩, p₄, hbody, h⟩ := Step.bind_eq_ok.1 h
  obtain ⟨q₁, hscope, rfl, rfl⟩ := inBlock_eq_ok hbody
  obtain ⟨q₂, hwalk', rfl⟩ := inScope_eq_ok hscope
  cases h
  obtain ⟨hwork, -, hwatched⟩ := hwalk _ next trivial hwalk'
  refine ⟨?_, trivial, fun hw htidy hreported => ?_⟩
  · rw [← hp.2]
    exact .loop head _ hwalks (fun hw => hp.1 (hsort hw)) hwork .done
  have htidy' := Bench.tidy_invariant.enter (w := w) (n := some id) htidy
  have hbody := hwatched hw ⟨htidy'.names, htidy'.lengths⟩ hreported
  exact Step.bind_eq_ok.2
    ⟨(), _, rfl, Step.bind_eq_ok.2 ⟨_, _, inBlock_of_ok (inScope_of_ok hbody), rfl⟩⟩

theorem lowerControl_works (hk : w.kind? id = some (.control c)) :
    Works w r (some id) anyhow (lowerControl w.site value walk id c)
      (lowerControl w.site watched watchedWalk id c) fun _ => anyhow := by
  cases c with
  | start next | storeIndexed _ _ _ next | storeField _ _ _ next | guard _ _ next =>
    rw [lowerControl_eq_passing rfl rfl, lowerControl_eq_passing rfl rfl]
    exact (passing_works hvalue hk).next fun _ => hwalk _ next
  | region next =>
    intro p x p' _ h
    obtain ⟨q, hbody, rfl⟩ := inScope_eq_ok h
    obtain ⟨hwork, -, hwatched⟩ := hwalk _ next trivial hbody
    refine ⟨.scope hwalks hwork .done, trivial, fun hw htidy hreported => inScope_of_ok ?_⟩
    exact hwatched hw (Bench.tidy_invariant.enter (w := w) (n := some id) htidy) hreported
  | join merge =>
    refine (phiValues_works hvalue).andThen fun pairs => assignPhis_works.next fun _ => ?_
    exact .idle
  | merge next =>
    refine .look_andThen fun q => .of_anyhow (.ite (fun _ => .idle) fun _ => ?_)
    refine .next (P := fun _ => anyhow) (.effect (fun p _ => ?_) fun _ _ => trivial)
      fun _ => hwalk _ next
    exact .meet _ hwalks
  | branch => exact lowerBranch_works hvalue hwalks hwalk
  | loopHead => exact lowerLoop_works hvalue hwalks hwalk (by simp [Graph.isLoopHead, hk])
  | backEdge head => exact (lowerBackEdge_works hvalue).next fun _ => .idle
  | loopExit head next =>
    refine (hwalk _ next).next fun flow => .look_andThen fun q => Works.of_anyhow ?_
    dsimp only
    split
    · refine .ite (fun _ => ?_) fun _ => .idle
      exact (emitLeave_works hwalks).next fun _ => .idle
    · exact .idle
  | ret v => exact (lowerReturn_works hvalue hwalks).next fun _ => .idle
  | deoptimize => exact (lowerDeoptimize_works hwalks).next fun _ => .idle

theorem lowerStep_works : Works w r n anyhow (lowerStep w.site value walk id)
    (lowerStep w.site watched watchedWalk id) fun _ => anyhow := by
  refine .check_andThen fun kind hlookup => ?_
  have hkind := Graph.kind_eq_ok_iff.1 hlookup
  intro p x p' _ h
  replace h := Step.after_ok rfl h
  cases kind with
  | control c =>
    obtain ⟨hwork, -, hwatched⟩ := lowerControl_works hvalue hwalks hwalk hkind trivial h
    exact ⟨.visit hkind hwork ⟨.inl hwalks, nofun, nofun, fun _ _ _ => nofun⟩ .done, trivial,
      fun hw htidy => hwatched hw ⟨htidy.names, htidy.lengths⟩⟩
  | unsupported name inputs next =>
    have hfail {m m' : Lower (Option NodeId)}
      (hm : Works w r (some id) anyhow m m' fun _ => anyhow) :
        Works w r (some id) anyhow
          (do inputs.forM (fun input => discard (value input)); let _ ← fail id name; m)
          (do inputs.forM (fun input => discard (watched input)); let _ ← fail id name; m')
          fun _ => anyhow :=
      (Works.each fun input _ => (hvalue _ input).ignore).next fun _ => (fail_works hkind).next
        fun _ => hm
    have hvisit (hwork : w.Work (some id) _ p') : w.Work n p p' :=
      .visit hkind hwork ⟨.inl hwalks, nofun, nofun, fun _ _ _ => nofun⟩ .done
    cases next with
    | some next =>
      obtain ⟨hwork, -, hwatched⟩ := hfail (hwalk _ next) trivial h
      exact ⟨hvisit hwork, trivial, fun hw htidy => hwatched hw ⟨htidy.names, htidy.lengths⟩⟩
    | none =>
      obtain ⟨hwork, -, hwatched⟩ := hfail .idle trivial h
      exact ⟨hvisit hwork, trivial, fun hw htidy => hwatched hw ⟨htidy.names, htidy.lengths⟩⟩
  | operation op => cases h

end Control

theorem lowerWalk_works (length : Nat) :
    WorksWalk w r (lowerWalk w.site value length) (lowerWalk w.site watched length) := by
  induction length with
  | zero => exact fun _ _ => .failure _
  | succ length ih => exact fun _ _ => lowerStep_works hvalue hwalks ih

end Values

/-! ### Bodies -/

/-- Lower the body of a graph as `lowerBody` does, and watch every value. -/
def watchedBody (reported : List Diagnostic) (site : Site) (lambdas : List Graph)
    (function : Functions) (dimensions : List Name) : Lower Unit := do
  dimensions.forM fun array => emit (.dimension array)
  declareMergePhis site.graph
  let start ← site.graph.start
  let value := watchedValue reported site lambdas function (valueDepth site.graph)
  discard (lowerWalk site value (walkLength site.graph) start)

theorem declareMergePhis_works :
    Does w r none anyhow (declareMergePhis w.site.graph) fun _ => anyhow := by
  refine .each fun phi hphi => (typeOf?_works fun _ _ h => h).andThen fun type => ?_
  have hphi : w.Names none phi := .merge hphi
  split
  · exact (suppress_works hphi).ignore
  · exact (suppress_works hphi).ignore
  · refine .given_and fun htype => .declaring (K := fun x p => .var x ∈ p.declared)
      (fun p _ => ⟨.bare ⟨rfl, rfl, rfl, rfl⟩ (.inr rfl), fun _ => ?_⟩) (fun _ _ _ => .head _)
        fun c =>
        (bind_works hphi fun p hp => .made rfl fun _ => ?_).forget
    · exact .of_fresh rfl rfl rfl (List.forall_mem_nil _) (List.forall_mem_nil _)
    · refine .of_declared rfl hp fun harray => ?_
      cases (isArray_of_type htype).symm.trans harray

theorem lowerBody_works (hw : w.Supplied) (hwalks : w.walks = true) {dimensions : List Name}
    (hdimensions : w.site.IsFunction → ∀ x ∈ dimensions, x.isLegal = true) {opening : List Stmt}
    (hopening : ∀ s ∈ opening, s.Local ∧ ¬ w.site.IsFunction) (r : List Diagnostic) :
    Works w r none anyhow (lowerBody w.site w.lambdas w.function dimensions opening)
      (watchedBody r w.site w.lambdas w.function dimensions) fun _ => anyhow := by
  refine (Works.each fun array harray => emit_works ⟨rfl, rfl, rfl, rfl⟩ (.inr rfl)
    fun p _ hw => ?_).next
    fun _ => declareMergePhis_works.next fun _ => ?_
  · refine .of_single rfl rfl (List.forall_mem_nil _) (List.forall_mem_singleton.2 ?_)
      (List.forall_mem_nil _)
    exact .legal (hdimensions hw array harray) nofun
  have hwalk : Works w r none anyhow
      (do
        let start ← w.site.graph.start
        discard (lowerWalk w.site (lowerValue w.site w.lambdas w.function (valueDepth w.site.graph))
          (walkLength w.site.graph) start))
      (do
        let start ← w.site.graph.start
        discard
          (lowerWalk w.site (watchedValue r w.site w.lambdas w.function (valueDepth w.site.graph))
          (walkLength w.site.graph) start)) fun _ => anyhow :=
    .check_andThen fun start _ =>
      (lowerWalk_works (lowerValue_works hw r _) hwalks _ none start).ignore
  cases opening with
  | nil => exact hwalk
  | cons s ss =>
    -- only kernels have statements that open them
    obtain ⟨-, hkernel⟩ := hopening s (.head _)
    intro p a p' hp h
    obtain ⟨hwork, ha, -⟩ :=
      ((Works.each (r := r) fun s hs => emitKernel_works hkernel (hopening s hs).1).next
        fun _ => hwalk) hp h
    exact ⟨hwork, ha, fun hw => (hkernel hw).elim⟩

end Kernelwright.Lowering
