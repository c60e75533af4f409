import Kernelwright.Proofs.Code.Moves
import Kernelwright.Proofs.Lowering.Quiet

/-!
# The updates of loop variables

At a back edge each phi of the loop is assigned the value that it takes there, one phi after the
other. The variables of the phis are different, so that all are updated at once where no value is
the variable of an earlier phi. Where one is, its old value is lost.
-/

namespace Kernelwright.Lowering

open Code

variable {g : Graph} {site : Site} {value : Values} {id : NodeId} {x : Name} {p p' : Progress}
variable {v stop phi head : NodeId} {pairs : List (NodeId × Name)}

/-! ### Names that stay -/

section Work

variable {w : Bench} {n : Option NodeId}

theorem Bench.Effect.nameOf?_eq (h : w.Effect n p p') (hn : ¬ w.Names n id) :
    p'.symbols.nameOf? id = p.symbols.nameOf? id := by
  cases h with
  | name k hid =>
    rw [SymbolTable.nameOf?_bind, if_neg]
    rintro rfl
    exact hn hid
  | share =>
    rw [SymbolTable.nameOf?_bind, if_neg]
    rintro rfl
    exact hn .here
  | _ => rfl

theorem Bench.Work.nameOf?_eq_some (h : w.Work n p p') (hw : w.walks = false) (hn : ¬ w.Names n id)
    (hx : p.symbols.nameOf? id = some x) : p'.symbols.nameOf? id = some x := by
  induction h with
  | done => exact hx
  | effect heffect _ ih => exact ih hn ((heffect.nameOf?_eq hn).trans hx)
  | @visit _ _ kind _ _ _ hkind _ hdone _ ihvisit ih =>
    obtain ⟨hvalue, hnone⟩ := hdone.value.resolve_left (by simp [hw])
    refine ih hn (ihvisit (fun hnames => ?_) hx)
    cases hnames with
    | here => cases hnone.symm.trans hx
    | loop hhead =>
      cases kind with
      | control c => exact hvalue c rfl
      | _ => simp [Graph.isLoopHead, hkind] at hhead
  | branch _ hwalks | loop _ _ hwalks | scope hwalks => cases hw.symm.trans hwalks

/-- Lowering a value keeps the names of all nodes; it may be taken to happen at any node but a
loop. -/
theorem WritesValues.names {here : NodeId} {y : Name} (hvalue : WritesValues site value)
    (hhere : site.graph.isLoopHead here = false) (h : value v p = .ok (y, p')) :
    p.symbols.counter ≤ p'.symbols.counter ∧ p'.symbols.nameOf? v = some y ∧
      ∀ id x, id ≠ here → p.symbols.nameOf? id = some x → p'.symbols.nameOf? id = some x := by
  obtain ⟨w, watched, rfl, hw, hvalue⟩ := hvalue
  obtain ⟨hwork, hy, -⟩ := hvalue (some here) v trivial h
  refine ⟨hwork.keeps.counter, hy, fun id x hne hx => hwork.nameOf?_eq_some hw
    (fun hnames => ?_) hx⟩
  cases hnames with
  | here => exact hne rfl
  | loop hhead => cases hhere.symm.trans hhead

end Work

/-! ### Variables of a loop -/

theorem typeOf?_eq_ok {k : ValueKind} {type : Option CType} (h : typeOf? k p = .ok (type, p')) :
    p'.symbols = p.symbols := by
  unfold typeOf? at h
  generalize CType.ofKind? k = o at h
  cases o with
  | none => cases h; rfl
  | some type => cases type <;> (cases h; rfl)

/-- Phis whose names are legal in the end have variables of their own, with rising numbers. -/
theorem lowerLoopPhis_names {phis : List NodeId} {first : Bool} {init : Option Name}
    (hvalue : WritesValues site value) (hnodup : phis.Nodup)
    (hlegal : ∀ phi ∈ phis, p'.symbols.nameOf? phi ≠ some .illegal)
    (h : lowerLoopPhis site value .explicit first phis p = .ok (init, p')) :
    (∀ id x, id ∉ phis → p.symbols.nameOf? id = some x → p'.symbols.nameOf? id = some x) ∧
      ∃ is : List Nat, phis.map p'.symbols.nameOf? = is.map (fun i => some (.fresh .loop i)) ∧
        is.Pairwise (· < ·) ∧ ∀ i ∈ is, p.symbols.counter ≤ i := by
  induction phis generalizing p first init with
  | nil =>
    cases Step.pure_eq_ok.1 h
    exact ⟨fun _ _ _ hx => hx, [], rfl, .nil, List.forall_mem_nil _⟩
  | cons phi phis ih =>
    obtain ⟨hphi, hnodup⟩ := List.nodup_cons.1 hnodup
    obtain ⟨hlegal, hlegals⟩ := List.forall_mem_cons.1 hlegal
    obtain ⟨kind, hkind, h⟩ := Step.lift_bind_eq_ok.1 h
    split at h
    · have hhere : site.graph.isLoopHead phi = false := by
        simp [Graph.isLoopHead, Graph.kind_eq_ok_iff.1 hkind]
      obtain ⟨init, p₁, hinit, h⟩ := Step.bind_eq_ok.1 h
      obtain ⟨hc, -, hothers⟩ := hvalue.names hhere hinit
      simp only [reduceCtorEq, false_and, if_false] at h
      obtain ⟨type, p₂, htype, h⟩ := Step.bind_eq_ok.1 h
      rw [← typeOf?_eq_ok htype] at hc hothers
      cases type with
      | none =>
        replace h := Step.after_ok rfl h
        exact absurd ((ih hnodup hlegals h).1 phi .illegal hphi
          (SymbolTable.nameOf?_bind.trans (if_pos rfl))) hlegal
      | some type =>
        obtain ⟨name, p₃, hfresh, h⟩ := Step.bind_eq_ok.1 h
        obtain ⟨_, p₄, hemit, h⟩ := Step.bind_eq_ok.1 h
        obtain ⟨_, p₅, hbind, h⟩ := Step.bind_eq_ok.1 h
        cases hfresh
        cases hemit
        cases hbind
        obtain ⟨hkept, is, his, hrising, habove⟩ := ih hnodup hlegals h
        have hname := hkept phi _ hphi (SymbolTable.nameOf?_bind.trans (if_pos rfl))
        -- the phis behind this one get higher numbers
        have hlater (i : Nat) (hi : i ∈ is) : p₂.symbols.counter < i :=
          Nat.lt_of_lt_of_le (Nat.lt_succ_self _)
            (SymbolTable.counter_bind.symm.le.trans (habove i hi))
        refine ⟨fun id y hid hy => ?_, p₂.symbols.counter :: is,
          by rw [List.map_cons, hname, his]; rfl,
          .cons hlater hrising, List.forall_mem_cons.2 ⟨hc, fun i hi => hc.trans (hlater i hi).le⟩⟩
        obtain ⟨hne, hid⟩ := not_or.1 (mt List.mem_cons.2 hid)
        exact hkept id y hid
          (SymbolTable.nameOf?_bind.trans ((if_neg hne).trans (hothers id y hne hy)))
    · cases h

/-! ### Back edges -/

/-- What is assigned to a phi at a back edge: its variable, and the name of its value. -/
def Update (g : Graph) (stop : NodeId) (t : SymbolTable Name) (phi : NodeId) (e : Name × Name) :
    Prop :=
  t.nameOf? phi = some e.1 ∧ ∃ v, g.phiValueAt phi stop = .ok v ∧ t.nameOf? v = some e.2

theorem Update.unique {t : SymbolTable Name} {e e' : Name × Name} (h : Update g stop t phi e)
    (h' : Update g stop t phi e') : e = e' := by
  obtain ⟨htarget, v, hv, hsource⟩ := h
  obtain ⟨htarget', v', hv', hsource'⟩ := h'
  cases hv.symm.trans hv'
  exact Prod.ext (Option.some.inj (htarget.symm.trans htarget'))
    (Option.some.inj (hsource.symm.trans hsource'))

theorem assignPhis_eq_moves {es : List (Name × Name)}
    (h : List.Forall₂ (fun e m => p.symbols.nameOf? e.1 = some m.1 ∧ m.1 ≠ .illegal ∧ e.2 = m.2)
      pairs es) :
    assignPhis pairs p
      = .ok ((), { p with block := (moves (es.filter (·.2 ≠ .illegal))).reverse ++ p.block }) := by
  induction pairs generalizing p es with
  | nil =>
    cases h
    rfl
  | cons e pairs ih =>
    cases h with
    | @cons _ m _ es he h =>
      obtain ⟨hname, hlegal, hsource⟩ := he
      have hlook : nameOf? e.1 p = .ok (some m.1, p) := by rw [← hname]; rfl
      rw [assignPhis, Step.bind_of_ok hlook]
      dsimp only
      by_cases hm : m.2 = .illegal
      · rw [if_neg (by simp [hsource, hm]), List.filter_cons_of_neg (by simp [hm])]
        exact ih h
      · rw [if_pos ⟨hsource ▸ hm, hlegal⟩, List.filter_cons_of_pos (by simp [hm]), moves,
          List.map_cons,
          List.reverse_cons, List.append_assoc, hsource]
        exact ih (p := { p with block := .assign (.name m.1) (.place (.name m.2)) :: p.block }) h

theorem ne_of_mem_phisOf {c : Control} (hvalid : g.Valid) (hstop : g.kind? stop = some (.control c))
    (h : phi ∈ g.phisOf head) : phi ≠ stop := by
  rintro rfl
  obtain ⟨vs, hphi⟩ := hvalid.mem_phisOf.1 h
  cases hstop.symm.trans hphi

theorem phiValues_updates (hvalid : site.graph.Valid)
    (hstop : site.graph.kind? stop = some (.control (.backEdge head)))
    (hvalue : WritesValues site value)
    (hnames : ∀ phi ∈ site.graph.phisOf head, ∃ x, p.symbols.nameOf? phi = some x ∧ x ≠ .illegal)
    (h : phiValues site value head stop p = .ok (pairs, p')) :
    Advances site.graph p p' ∧
      (∀ id x, id ≠ stop → p.symbols.nameOf? id = some x → p'.symbols.nameOf? id = some x) ∧
      ∃ es, List.Forall₂ (Update site.graph stop p'.symbols) (site.graph.phisOf head) es ∧
        List.Forall₂ (fun e m => p'.symbols.nameOf? e.1 = some m.1 ∧ m.1 ≠ .illegal ∧ e.2 = m.2)
          pairs es := by
  have hphi : ∀ phi ∈ site.graph.phisOf head, phi ≠ stop := fun _ => ne_of_mem_phisOf hvalid hstop
  have hhere : site.graph.isLoopHead stop = false := by simp [Graph.isLoopHead, hstop]
  have hoperand (phi v : NodeId) (hv : site.graph.phiValueAt phi stop = .ok v) : v ≠ stop := by
    rintro rfl
    obtain ⟨m, vs, hkind, hmem⟩ := Graph.phiValueAt_eq_ok hv
    obtain ⟨k, hk, hvalue⟩ := hvalid.input hkind hmem
    cases hstop.symm.trans hk
    cases hvalue
  unfold phiValues at h
  generalize site.graph.phisOf head = phis at h hnames hphi ⊢
  induction phis generalizing p pairs with
  | nil =>
    cases Step.pure_eq_ok.1 h
    exact ⟨.refl _, fun _ _ _ hx => hx, [], .nil, .nil⟩
  | cons phi phis ih =>
    rw [List.mapM_cons] at h
    obtain ⟨e, p₁, he, h⟩ := Step.bind_eq_ok.1 h
    obtain ⟨rest, p₂, hrest, ⟨⟩⟩ := Step.bind_pure_eq_ok.1 h
    obtain ⟨v, hv, he⟩ := Step.lift_bind_eq_ok.1 he
    obtain ⟨y, p₃, hy, ⟨⟩⟩ := Step.bind_pure_eq_ok.1 he
    obtain ⟨hne, hphi⟩ := List.forall_mem_cons.1 hphi
    obtain ⟨⟨x, hx, hlegal⟩, hnames⟩ := List.forall_mem_cons.1 hnames
    obtain ⟨-, hname, hothers⟩ := hvalue.names hhere hy
    obtain ⟨hadvances, hothers', es, hes, hpairs⟩ := ih hrest (fun other hother => by
      obtain ⟨z, hz, hlegal⟩ := hnames other hother
      exact ⟨z, hothers other z (hphi other hother) hz, hlegal⟩) hphi
    have hx' := hothers' phi x hne (hothers phi x hne hx)
    exact ⟨(hvalue.at hy).1.trans hadvances, fun id z hid hz => hothers' id z hid
      (hothers id z hid hz),
      (x, y) :: es, .cons ⟨hx', v, hv, hothers' v y (hoperand phi v hv) hname⟩ hes,
      .cons ⟨hx', hlegal, rfl⟩ hpairs⟩

/-- Every phi of a loop has a variable of its own, to which its value at the back edge is assigned
unless it has no legal name. The assignments update all variables at once, if no value is the
variable of an earlier phi that changes. -/
theorem loop_updates_at_once {lambdas : List Graph} {callers : List String} {guards : Bool}
    {depth fuel : Nat} {head : NodeId} {init : Option Name} {p₀ p₁ : Progress}
    {outer : List LoopFrame}
    (hvalid : site.graph.Valid) (hedge : site.graph.kind? id = some (.control (.backEdge head)))
    (hvalue : value = lowerValue site lambdas
      (functionFor lambdas callers (lowerBundle lambdas guards depth)) fuel)
    (hphis : lowerLoopPhis site value .explicit true (site.graph.phisOf head) p₀ = .ok (init, p₁))
    (hnames : ∀ phi ∈ site.graph.phisOf head, p.symbols.nameOf? phi = p₁.symbols.nameOf? phi ∧
      p.symbols.nameOf? phi ≠ some .illegal)
    (hloops : p.loops = ⟨true, false⟩ :: outer)
    (hrun : lowerBackEdge site value id head p = .ok ((), p')) :
    ∃ values es ms, (∀ s ∈ values, site.graph.Quiet s) ∧
      List.Forall₂ (Update site.graph id p'.symbols) (site.graph.phisOf head) es ∧
      ms = es.filter (·.2 ≠ .illegal) ∧ p'.block = (values ++ moves ms).reverse ++ p.block ∧
      (Unspoiled ms → ∀ s : State, s.Ready ms → s.MovesAtOnce ms) := by
  have hvalue : WritesValues site value := by
    subst hvalue
    exact ⟨⟨site, lambdas, callers, lowerBundle lambdas guards depth, false⟩, _, rfl, rfl,
      lowerValue_works (Bench.supplied_of_lower rfl) [] fuel⟩
  have hnodup : (site.graph.phisOf head).Nodup := hvalid.ids.sublist (List.filter_sublist.map _)
  obtain ⟨-, is, his, hrising, -⟩ := lowerLoopPhis_names hvalue hnodup
    (fun phi hphi => (hnames phi hphi).1 ▸ (hnames phi hphi).2) hphis
  have hnamed (phi : NodeId) (hphi : phi ∈ site.graph.phisOf head) :
      ∃ x, p.symbols.nameOf? phi = some x ∧ x ≠ .illegal := by
    obtain ⟨i, -, hi⟩ := List.mem_map.1 (his ▸ List.mem_map_of_mem hphi)
    exact ⟨_, (hnames phi hphi).1.trans hi.symm, nofun⟩
  replace hrun := Step.after_ok rfl hrun
  rw [hloops] at hrun
  obtain ⟨pairs, q, hpairs, hassign⟩ := Step.bind_eq_ok.1 hrun
  obtain ⟨hadvances, hothers, es, hes, hmoves⟩ :=
    phiValues_updates hvalid hedge hvalue hnamed hpairs
  rw [assignPhis_eq_moves hmoves] at hassign
  cases hassign
  obtain ⟨values, hblock, hquiet⟩ := hadvances.block
  -- the targets are still the variables that the head of the loop has declared
  have hkept (phi : NodeId) (hphi : phi ∈ site.graph.phisOf head) :
      p₁.symbols.nameOf? phi = q.symbols.nameOf? phi := by
    obtain ⟨x, hx, -⟩ := hnamed phi hphi
    rw [← (hnames phi hphi).1, hx, hothers phi x (ne_of_mem_phisOf hvalid hedge hphi) hx]
  have htargets : es.map (fun e => some e.1) = is.map fun i => some (.fresh .loop i) := by
    rw [← his, List.map_congr_left hkept, eq_comm, ← List.forall₂_eq_eq_eq,
      List.forall₂_map_left_iff, List.forall₂_map_right_iff]
    exact hes.imp fun _ _ he => he.1
  have hmoves : Targets es := by
    have hfst : es.map Prod.fst = is.map (.fresh .loop) :=
      List.map_injective_iff.2 (Option.some_injective _)
        (by simpa [Function.comp_def] using htargets)
    refine ⟨hfst ▸ (hrising.imp Nat.ne_of_lt).map _ fun i j hij heq => hij (Name.fresh.inj heq).2,
      fun e he l heq => ?_⟩
    obtain ⟨i, -, hi⟩ := List.mem_map.1 (hfst ▸ List.mem_map_of_mem he)
    cases hi.trans heq
  refine ⟨values, es, _, hquiet, hes, rfl, by simp [hblock], fun h s hready d rounds => ?_⟩
  obtain ⟨s', hexec, hgets, -⟩ :=
    State.exec_moves ⟨hmoves.nodup.sublist (List.filter_sublist.map _),
    fun e he => hmoves.assignable e (List.mem_of_mem_filter he)⟩ hready h d rounds
  exact ⟨s', hexec, hgets⟩

/-- A loop with two variables that goes on while the first is true. In each round the first gets the
second, and the second gets a value. -/
def handover (v : NodeId) : Graph := .ofKinds "handover" [
  .start 3,
  .parameter 0 .boolean,
  .parameter 1 .boolean,
  .loopHead 6 none,
  .phi 3 [1, 5],
  .phi 3 [2, v],
  .branch 4 7 9,
  .region 8,
  .backEdge 3,
  .loopExit 3 10,
  .ret (some 5)]

namespace handover

/-- The updates, where the second variable gets the value of a name. -/
def updates (x : Name) : List (Name × Name) :=
  [(.fresh .loop 0, .fresh .loop 1), (.fresh .loop 1, x)]

def siteOf (v : NodeId) : Site := ⟨handover v, .function, false, [], [], none, none, []⟩

def valuesOf (v : NodeId) : Values :=
  lowerValue (siteOf v) [] (functionFor [] [] (lowerBundle [] false 0)) 1

/-- The state ahead of the loop: the arguments have names. -/
def before : Progress := .start ((SymbolTable.empty.bind (.parameter 0) 1 (.scalar .boolean)).bind
  (.parameter 1) 2 (.scalar .boolean)) .empty

/-- The state in a block of the loop, where the variables have names too. -/
def inside : Progress := { before with
  symbols := (before.symbols.bind (.fresh .loop 0) 4 (.scalar .boolean)).bind
    (.fresh .loop 1) 5 (.scalar .boolean)
  loops := [⟨true, false⟩] }

/-- The names of the variables are those that the head of the loop gives them. -/
def Declares (v : NodeId) : Prop := ∃ init p₁,
  lowerLoopPhis (siteOf v) (valuesOf v) .explicit true ((handover v).phisOf 3)
    before = .ok (init, p₁) ∧
  ∀ phi ∈ (handover v).phisOf 3, inside.symbols.nameOf? phi = p₁.symbols.nameOf? phi ∧
    inside.symbols.nameOf? phi ≠ some .illegal

theorem declares (hv : v = 2 ∨ v = 4) : Declares v := by
  have hphis : (handover v).phisOf 3 = [4, 5] := by rcases hv with rfl | rfl <;> rfl
  have hrun : ∃ r, lowerLoopPhis (siteOf v) (valuesOf v) .explicit true [4, 5] before = .ok r ∧
      ∀ phi ∈ ([4, 5] : List NodeId), inside.symbols.nameOf? phi = r.2.symbols.nameOf? phi ∧
        inside.symbols.nameOf? phi ≠ some .illegal := by
    rcases hv with rfl | rfl <;> decide +kernel
  obtain ⟨⟨init, p₁⟩, hrun⟩ := hrun
  rw [Declares, hphis]
  exact ⟨init, p₁, hrun⟩

/-- The second variable gets the second argument: both are updated at once. -/
theorem handover_updates_at_once : (handover 2).validate = .ok () ∧ Declares 2 ∧
    lowerBackEdge (siteOf 2) (valuesOf 2) 8 3 inside = .ok ((), { inside with
      block := (moves (updates (.parameter 1))).reverse }) ∧
    ∀ s : State, s.Ready (updates (.parameter 1)) → s.MovesAtOnce (updates (.parameter 1)) := by
  have hvalid : (handover 2).validate = .ok () := by decide +kernel
  have hdeclares : Declares 2 := declares (.inl rfl)
  have hrun : lowerBackEdge (siteOf 2) (valuesOf 2) 8 3 inside = .ok ((), { inside with
      block := (moves (updates (.parameter 1))).reverse }) := rfl
  refine ⟨hvalid, hdeclares, hrun, ?_⟩
  obtain ⟨init, p₁, hphis, hnames⟩ := hdeclares
  obtain ⟨values, es, ms, -, hes, rfl, -, honce⟩ :=
    loop_updates_at_once (Graph.valid_of_validate hvalid) rfl rfl hphis hnames rfl hrun
  obtain rfl : es = updates (.parameter 1) :=
    List.right_unique_forall₂' (fun _ _ _ he he' => he.unique he') hes
      (.cons ⟨rfl, _, rfl, rfl⟩ (.cons ⟨rfl, _, rfl, rfl⟩ .nil))
  exact honce (by decide)

/-- The second variable gets the first one, which has the value of the second by then. -/
theorem exchange_loses_value : (handover 4).validate = .ok () ∧ Declares 4 ∧
    lowerBackEdge (siteOf 4) (valuesOf 4) 8 3 inside = .ok ((), { inside with
      block := (moves (updates (.fresh .loop 0))).reverse }) ∧
    ¬ ∀ s : State, s.Ready (updates (.fresh .loop 0)) →
      s.MovesAtOnce (updates (.fresh .loop 0)) := by
  refine ⟨by decide +kernel, declares (.inr rfl), rfl, fun h => ?_⟩
  let s : State :=
    ⟨[(.fresh .loop 0, .boolean true), (.fresh .loop 1, .boolean false)], [], fun _ => none, 0⟩
  have hready : ∀ m ∈ updates (.fresh .loop 0), (s.value? m.1).isSome ∧
    (s.value? m.2).isSome := by decide
  obtain ⟨s', hexec, hgets⟩ := h s hready ⟨fun _ => [], fun _ _ => .int 0, 0⟩ 0
  cases hexec
  exact absurd (hgets _ (.tail _ (.head _)) (.boolean true) (.boolean false) rfl rfl) (by decide)

end handover

end Kernelwright.Lowering
