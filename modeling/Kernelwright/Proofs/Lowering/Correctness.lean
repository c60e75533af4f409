import Kernelwright.Proofs.Lowering.Entry
import Kernelwright.Proofs.Lowering.Walk

/-!
# Lowering preserves meaning

The function of a structured graph of words, printed and read back, gives what the host gives. The
text is read as the program that `Lowers` follows through the walk; it begins as the signature and
the reserved phis say.
-/

namespace Kernelwright

open Code
open Grammar (isLetter isDigit)
open Program (Val Vars execAll)

variable {lambdas : List Graph}

/-! ### Names of functions -/

theorem toList_functionName (lambda : String) :
    (functionName lambda).toList = ['l', 'a', 'm', 'b', 'd', 'a', '_'] ++
      lambda.toList.map fun c => if c.isAlphanum then c else '_' := by
  have hstart : "lambda_".toList = ['l', 'a', 'm', 'b', 'd', 'a', '_'] := rfl
  unfold functionName
  rw [String.toList_ofList, hstart]

theorem isWordChar_of_isAlphanum {c : Char} (h : c.isAlphanum = true) :
    Program.isWordChar c = true := by
  have hletter : (c.isUpper || c.isLower || c.isDigit) = true := h
  rw [Bool.or_eq_true, Bool.or_eq_true] at hletter
  obtain (hupper | hlower) | hdigit := hletter
  · have hrange : 'A' ≤ c ∧ c ≤ 'Z' := of_decide_eq_true hupper
    simp [Program.isWordChar, isLetter, hrange]
  · have hrange : (decide ('a' ≤ c) && decide (c ≤ 'z')) = true := hlower
    simp [Program.isWordChar, isLetter, hrange]
  · have hrange : isDigit c = true := hdigit
    simp [Program.isWordChar, hrange]

theorem isWordChar_functionName (lambda : String) :
    ∀ c ∈ (functionName lambda).toList, Program.isWordChar c = true := by
  intro c hc
  rw [toList_functionName, List.mem_append, List.mem_map] at hc
  obtain hc | ⟨d, -, rfl⟩ := hc
  · have hall : ∀ c ∈ ['l', 'a', 'm', 'b', 'd', 'a', '_'], Program.isWordChar c = true :=
      List.all_eq_true.1 rfl
    exact hall c hc
  · split
    · rename_i hd
      exact isWordChar_of_isAlphanum hd
    · rfl

theorem wordToken?_functionName (lambda : String) :
    Program.wordToken? (functionName lambda).toList = some
      (.operand (.var (functionName lambda))) := by
  have hreserved : Program.reservedWords.lookup (functionName lambda) = none := by
    rw [List.lookup_eq_none_iff]
    intro p hp
    have hstart : ∀ p ∈ Program.reservedWords, p.1.toList.take 2 ≠ ['l', 'a'] := by decide
    rw [bne_iff_ne]
    rintro heq
    refine hstart p hp ?_
    rw [← heq, toList_functionName]
    rfl
  have hlist : String.ofList (functionName lambda).toList = functionName lambda :=
    String.ofList_toList
  rw [toList_functionName] at hlist ⊢
  rw [List.cons_append, Program.wordToken?, ← List.cons_append, hlist, hreserved]
  rfl

/-! ### Calls on the host -/

namespace Host

theorem place_scalars (ss : List Scalar) (arena : Arena) :
    place (ss.map fun s => .value (.scalar s)) arena = (scalarSlots ss, arena) := by
  induction ss with
  | nil => rfl
  | cons s ss ih =>
    rw [List.map_cons, place, ih]
    rfl

theorem call_eq_ok {g : Graph} {ss : List Scalar} (hfit : Fits g (scalarSlots ss))
    (hlambda : lambda? lambdas g.name = some g) {fuel : Nat} {v : HostValue}
    (h : call lambdas fuel g.name (ss.map fun s => .value (.scalar s)) = .ok v) :
    ∃ (sem : Semantics) (start : NodeId) (r : Slot × Machine), g.start = .ok start ∧
      Evaluates g (scalarSlots ss) sem.eval ∧
      sem.Walks g start ⟨.enter g (scalarSlots ss), #[]⟩ r ∧ v = fetch r.2.arena r.1 := by
  simp only [call, hlambda, place_scalars] at h
  split at h
  · rename_i s m hrun
    cases h
    cases fuel with
    | zero =>
      rw [run] at hrun
      cases hrun
    | succ fuel =>
      rw [run, if_neg (by decide)] at hrun
      obtain ⟨m₁, hact, rfl⟩ := Run.within_eq_ok hrun
      obtain ⟨start, hstart, hwalk⟩ := Run.ofGraph_bind_eq_ok.1 hact
      exact ⟨_, start, (s, m₁), hstart, eval_evaluates hfit lambdas fuel 0,
        ⟨fuel, false, hwalk⟩, rfl⟩
  · cases h

end Host

namespace Lowering

variable {g : Graph} {ss : List Scalar} {guards : Bool}
variable {function : Functions} {b : Bundle} {nested : List Graph}

/-! ### Bodies -/

/-- The body of a function is read as a program that returns what the host returns. -/
theorem lowerBody_runs (site : Site) {p p' : Progress} {sem : Host.Semantics}
    (hfit : Host.Fits site.graph (Host.scalarSlots ss))
    (htypes : site.graph.parameters.map (·.type) = ss.map fun a => .scalar a.kind)
    (heval : Host.Evaluates site.graph (Host.scalarSlots ss) sem.eval)
    (hmode : site.mode.isKernel = false) (hstructured : site.graph.Structured)
    (hsymbols : p.symbols = bindParameters .empty site.graph.parameters) (hblock : p.block = [])
    (hmerges : p.merges = []) (h : lowerBody site lambdas function [] [] p = .ok ((), p')) :
    p'.functions = p.functions ∧ ∃ ts ps, Stmt.Reads p'.body ts ps ∧
      ∀ {start r} u, site.graph.start = .ok start →
        sem.Walks site.graph start ⟨.enter site.graph (Host.scalarSlots ss), #[]⟩ r →
        ∃ s u', r.1 = .value (.scalar s) ∧ site.graph.returnKind = .scalar s.kind ∧
          execAll (parameterVars site.graph.parameters ss) ps u
            = some (.returned (.ofScalar s), u') := by
  obtain ⟨p₁, start, x, hphis, hstart, hwalk⟩ := lowerBody_eq_ok h
  obtain ⟨start', seen, hstart', hflow⟩ := hstructured
  cases hstart.symm.trans hstart'
  obtain ⟨hnamed, hmodels, hunbound⟩ := bindParameters_binds hfit.valid hfit.words htypes
  rw [← hsymbols] at hnamed hmodels hunbound
  obtain ⟨qs, hreserves⟩ := declareMergePhis_eq_ok hfit hnamed hunbound hphis
  change lowerWalk _ _ _ _ p₁ = _ at hwalk
  obtain ⟨-, ps, hlowers⟩ :=
    lowerWalk_lowers hfit (lowerValue_adds hfit _) heval hmode hflow nofun hwalk
    hreserves.named (hreserves.merges.trans hmerges) (hreserves.unreturned (hblock ▸ nofun))
  have hwrites := hreserves.toWrites.trans hlowers.toWrites
  obtain ⟨ss, ts, hss, hreads⟩ := hwrites.block
  refine ⟨hwrites.functions, ts, qs ++ ps, ?_, ?_⟩
  · rw [Progress.body, hss]
    simpa [hblock] using hreads
  · intro start' r u hstart' hw
    cases hstart.symm.trans hstart'
    obtain ⟨vars₁, u₁, hexec₁, hmodels₁⟩ := hreserves.runs u hmodels
    obtain ⟨o, u₂, hexec₂, hended⟩ := hlowers.runs u₁ hmodels₁ (Host.Frame.remembers_enter _ _)
      (fun _ _ _ _ _ => rfl) hw
    cases hended with
    | returned hr hkind =>
      exact ⟨_, u₂, hr, hkind, (Program.execAll_append_running hexec₁ ps).trans hexec₂⟩
    | running hexit => cases hexit

/-! ### Functions -/

theorem lowerLambda_eq_ok (h : lowerLambda g nested guards = .ok b) :
    g.Valid ∧ ∃ function, lowerFunction (g :: nested) guards g function = .ok b := by
  obtain ⟨_, hvalid, h⟩ := bind_eq_ok.1 h
  exact ⟨Graph.valid_of_validate hvalid, _, h⟩

/-- The function of a lambda is read as a program that gives what a walk of the host gives. -/
theorem lowerLambda_runs (sem : Host.Semantics) (hwords : g.OnWords) (hstructured : g.Structured)
    (h : lowerLambda g nested guards = .ok b)
    (htypes : g.parameters.map (·.type) = ss.map fun a => .scalar a.kind)
    (heval : Host.Evaluates g (Host.scalarSlots ss) sem.eval) :
    ∃ f program, b.functions = [f] ∧ Program.read (f.text false) = some program ∧
      ∀ {start r} u, g.start = .ok start →
        sem.Walks g start ⟨.enter g (Host.scalarSlots ss), #[]⟩ r →
        ∃ s, r.1 = .value (.scalar s) ∧ g.returnKind = .scalar s.kind ∧
          program.run (ss.map .ofScalar) u = some (.ofScalar s) := by
  obtain ⟨hg, function, h⟩ := lowerLambda_eq_ok h
  have hfit := fits_of_types hg hwords htypes
  obtain ⟨k, hkind, hword⟩ := hstructured.returnKind_word hg hwords
  obtain ⟨result, structs, s, p, hresult, hs, hbody, rfl⟩ := lowerFunction_eq_ok h
  rw [hkind] at hresult
  cases hresult
  obtain ⟨blocks, structs, hblocks, rfl⟩ := ofFunction_eq_ok hs
  obtain ⟨hparameters, hdimensions⟩ := stated_scalars hblocks htypes
  rw [hdimensions] at hbody
  obtain ⟨hnone, ts, ps, hreads, hruns⟩ :=
    lowerBody_runs _ hfit htypes heval rfl hstructured rfl rfl rfl hbody
  obtain ⟨us, hparams⟩ := scalarParameters_reads g.parameters
    (fun _ => isWord_of_types hg hwords htypes) guards
  refine ⟨_, _, by rw [hnone, hparameters]; rfl,
    read_text hword ⟨isWordChar_functionName _, wordToken?_functionName _⟩
    hparams hreads, fun u hstart hw => ?_⟩
  obtain ⟨a, u', hr, hreturn, hexec⟩ := hruns u hstart hw
  have hlength : g.parameters.length = ss.length := by
    simpa using congrArg List.length htypes
  refine ⟨a, hr, hreturn, ?_⟩
  rw [Program.Function.run_eq (bindParams_readParameters hlength guards) hexec,
    ValueKind.scalar.inj (hkind.symm.trans hreturn), ← Val.ty_ofScalar, Val.convert_ty]

/-- A graph of words can be called: there are arguments of the kinds of its parameters. -/
theorem exists_arguments (hg : g.Valid) (hwords : g.OnWords) :
    ∃ ss : List Scalar, g.parameters.map (·.type) = ss.map fun a => .scalar a.kind := by
  have hscalar : ∀ p ∈ g.parameters, ∃ k, p.type = .scalar k := by
    intro p hp
    have hword := hwords.isOnWords (hg.mem_parameters.1 hp)
    cases htype : p.type with
    | scalar k => exact ⟨k, rfl⟩
    | _ => rw [htype] at hword; cases hword
  generalize g.parameters = ps at hscalar
  induction ps with
  | nil => exact ⟨[], rfl⟩
  | cons p ps ih =>
    obtain ⟨k, hk⟩ := hscalar p (.head _)
    obtain ⟨ss, hss⟩ := ih fun q hq => hscalar q (.tail _ hq)
    exact ⟨.zero k :: ss, by rw [List.map_cons, List.map_cons, hk, hss, Scalar.kind_zero]⟩

/-- Zero for a negative argument, and else the greater of both arguments plus the first. -/
def lift : Graph := .ofKinds "lift" [
  .start 4,
  .parameter 0 .int,
  .parameter 1 .int,
  .int 0,
  .branch 5 6 8,
  .compare .lt 1 3,
  .region 7,
  .ret (some 3),
  .region 9,
  .join 10,
  .merge 11,
  .branch 12 13 15,
  .compare .lt 1 2,
  .region 14,
  .join 17,
  .region 16,
  .join 17,
  .merge 19,
  .phi 17 [2, 1],
  .ret (some 20),
  .binary .add 18 1]

namespace lift

theorem parameters_eq : lift.parameters = [⟨1, 0, .scalar .int⟩, ⟨2, 1, .scalar .int⟩] :=
  Graph.parameters_of_pairwise rfl (by decide)

theorem onWords : lift.OnWords where
  nodes := by decide
  legal := by decide +kernel
  choices := by decide +kernel
  returns := by decide +kernel
  parameters := by
    rw [parameters_eq]
    rfl

theorem ready_leaf {id : NodeId} (h : id = 1 ∨ id = 2 ∨ id = 3) (seen : List NodeId) :
    lift.Ready seen id := by
  obtain rfl | rfl | rfl := h
  · exact .of_needs_eq_nil (o := .parameter 0 (.scalar .int)) rfl rfl rfl
  · exact .of_needs_eq_nil (o := .parameter 1 (.scalar .int)) rfl rfl rfl
  · exact .of_needs_eq_nil (o := .constant (.scalar (.int 0))) rfl rfl rfl

theorem structured : lift.Structured := by
  have hneeds {seen : List NodeId} {x y : NodeId} (hx : lift.Ready seen x)
    (hy : lift.Ready seen y) :
      ∀ z ∈ [x, y], lift.Ready seen z :=
    List.forall_mem_cons.2 ⟨hx, List.forall_mem_singleton.2 hy⟩
  have hsign : lift.Ready [] 5 := .of_needs (o := .compare .lt 1 3) rfl rfl
    (hneeds (ready_leaf (.inl rfl) _) (ready_leaf (.inr (.inr rfl)) _))
  have hless : lift.Ready [10] 12 := .of_needs (o := .compare .lt 1 2) rfl rfl
    (hneeds (ready_leaf (.inl rfl) _) (ready_leaf (.inr (.inl rfl)) _))
  have hphi : lift.kind? 18 = some (.operation (.phi 17 [2, 1])) := rfl
  have hsum : lift.Ready [17, 10] 20 := .of_needs (o := .binary .add 18 1) rfl rfl
    (hneeds (.phi hphi (.head _)) (ready_leaf (.inl rfl) _))
  have hchoice (id : NodeId) : ∀ phi ∈ lift.phisOf 17,
      ∀ v, lift.phiValueAt phi id = .ok v → lift.Ready [10] v := by
    intro phi hphi v hv
    cases List.mem_singleton.1 hphi
    obtain ⟨m, vs, hphi, hv⟩ := Graph.phiValueAt_eq_ok hv
    cases hphi
    obtain rfl | hv := List.mem_cons.1 hv
    · exact ready_leaf (.inr (.inl rfl)) _
    · exact ready_leaf (.inl (List.mem_singleton.1 hv)) _
  refine ⟨0, [17, 10], rfl, .start rfl ?_⟩
  -- the first branch returns in one of its arms
  refine .branchMerge rfl hsign rfl rfl (.region rfl (.ret rfl (ready_leaf (.inr (.inr rfl)) _)))
    (.region rfl (.join rfl (List.forall_mem_nil _))) rfl (fun _ h => (Option.some.inj h).symm)
    (.merge rfl List.not_mem_nil ?_)
  exact .branchMerge rfl hless rfl rfl (.region rfl (.join rfl (hchoice 14)))
    (.region rfl (.join rfl (hchoice 16))) rfl (fun _ h => (Option.some.inj h).symm)
    (.merge rfl (by decide) (.ret rfl hsum))

theorem lowers_quietly : ∃ b, lowerLambda lift [] false = .ok b ∧ b.diagnostics = [] := by
  simp only [lowerLambda, lowerBundle, callDepth, lowerFunction, Signature.ofFunction,
    parameters_eq]
  decide +kernel

theorem call_eq : Host.call [lift] 100 "lift" [.value (.scalar (.int 3)), .value (.scalar (.int 5))]
    = .ok (.value (.scalar (.int 8))) := by
  with_unfolding_all rfl

end lift

end Lowering

end Kernelwright
