import Kernelwright.Proofs.Lowering.Correctness
import Kernelwright.Proofs.Lowering.Quiet

/-!
# Paths that return

The text of a graph without loops is laid out along the course of its walk, and the course tells
which paths return: all of them, exactly if no merge is met a second time at the end of a text. A
merge that is met again has no text there, so the paths that lead to it fall through.
-/

namespace Kernelwright

open Code

variable {c : Control} {u : Unit} {v : Option NodeId}

/-! ### How a text ends -/

/-- How a run of the text of a walk can end. -/
def Graph.Exit.ending : Graph.Exit → Ending
  | .returns => .returns
  | _ => .falls

theorem Graph.Exit.ending_ne_cut (exit : Graph.Exit) : exit.ending ≠ .cut := by
  cases exit <;> simp [ending]

namespace Lowering

open Kernelwright.Graph (Exit)

/-- A text is run from its first statement to its last. -/
structure Straight (ss : List Stmt) : Prop where
  reaches : ∃ trace, Runs ss trace .falls
  within : ∀ {trace e}, Runs ss trace e → e = .cut ∨ e = .falls
  noReturn : ∀ v, Stmt.ret v ∉ ss

/-- A text ends as the exit of its walk says. -/
structure EndsAt (exit : Exit) (ss : List Stmt) : Prop where
  reaches : ∃ trace, Runs ss trace exit.ending
  within : ∀ {trace e}, Runs ss trace e → e = .cut ∨ e = .returns ∨ e = .falls ∧ exit ≠ .returns

namespace Straight

variable {ss : List Stmt} {exit : Exit}

theorem nil : Straight [] where
  reaches := ⟨_, .nil⟩
  within hrun := by
    cases hrun with
    | cut => exact .inl rfl
    | nil => exact .inr rfl
  noReturn := nofun

theorem of_quiet {g : Graph} (h : ∀ s ∈ ss, g.Quiet s) : Straight ss where
  reaches := exists_runs_of_quiet h
  within hrun := (hrun.of_quiet h).1
  noReturn v hv := (h _ hv).ne_ret v rfl

theorem mark (kind : String) (id : NodeId) : Straight [.mark kind id] where
  reaches := ⟨_, .plain rfl .nil⟩
  within hrun := by
    cases hrun with
    | cut => exact .inl rfl
    | plain _ hrest => exact nil.within hrest
  noReturn v hv := by simp at hv

theorem endsAt (h : Straight ss) (hexit : exit ≠ .returns) : EndsAt exit ss where
  reaches := by
    cases exit with
    | returns => exact absurd rfl hexit
    | _ => exact h.reaches
  within hrun := by
    obtain he | he := h.within hrun
    · exact .inl he
    · exact .inr (.inr ⟨he, hexit⟩)

end Straight

namespace EndsAt

variable {ss ss' t f : List Stmt} {exit a b : Exit} {c : Name}

theorem ret (v : Option Name) : EndsAt .returns [.ret v] where
  reaches := ⟨_, .ret⟩
  within hrun := by
    obtain he | he := hrun.of_ret
    · exact .inl he
    · exact .inr (.inl he)

theorem after (h : EndsAt exit ss') (hss : Straight ss) : EndsAt exit (ss ++ ss') where
  reaches := by
    obtain ⟨trace, hrun⟩ := hss.reaches
    obtain ⟨trace', hrun'⟩ := h.reaches
    exact ⟨_, hrun.append hrun'⟩
  within hrun := by
    obtain ⟨_, _, _, _, hrun'⟩ | ⟨hne, hrun⟩ := hrun.of_append
    · exact h.within hrun'
    · exact .inl ((hss.within hrun).resolve_right hne)

theorem branch (ht : EndsAt a t) (hf : EndsAt b f) (ha : a.merge? = none) (hb : b.merge? = none) :
    EndsAt (a.both b) [.branch c t f] where
  reaches := by
    obtain ⟨trace, hrun⟩ := ht.reaches
    obtain ⟨trace', hrun'⟩ := hf.reaches
    -- the arm that does not return is the one that is reached
    cases a with
    | merge m => cases ha
    | stops => exact ⟨trace, .arm true hrun⟩
    | returns =>
      cases b with
      | merge m => cases hb
      | _ => exact ⟨trace', .arm false hrun'⟩
  within hrun := by
    obtain ⟨arm, hrun⟩ := hrun.of_branch
    rw [Ne, Exit.both_eq_returns]
    cases arm with
    | true =>
      have hend := ht.within hrun
      grind
    | false =>
      have hend := hf.within hrun
      grind

theorem branchMerge {m : NodeId} (ht : EndsAt a t) (hf : EndsAt b f)
    (hm : a.merge?.or b.merge? = some m) (h : EndsAt exit ss) :
    EndsAt exit (.branch c t f :: ss) where
  reaches := by
    obtain ⟨trace', hrun'⟩ := h.reaches
    have hfalls : ∃ trace, Runs [.branch c t f] trace .falls := by
      cases a with
      | merge m =>
        obtain ⟨trace, hrun⟩ := ht.reaches
        exact ⟨trace, .arm true hrun⟩
      | _ =>
        cases b with
        | merge m =>
          obtain ⟨trace, hrun⟩ := hf.reaches
          exact ⟨trace, .arm false hrun⟩
        | _ => cases hm
    obtain ⟨trace, hrun⟩ := hfalls
    exact ⟨_, hrun.append hrun'⟩
  within hrun := by
    obtain ⟨_, _, _, _, hrun'⟩ | ⟨hne, hrun⟩ := hrun.of_cons
    · exact h.within hrun'
    · obtain ⟨arm, hrun⟩ := hrun.of_branch
      cases arm with
      | true =>
        have hend := ht.within hrun
        grind
      | false =>
        have hend := hf.within hrun
        grind

end EndsAt

/-! ### Walks -/

/-- Lowering went on from `p` to `p'` along a straight text. -/
structure Leads (p p' : Progress) : Prop where
  block : ∃ ss, p'.block = ss.reverse ++ p.block ∧ Straight ss
  merges : p'.merges = p.merges
  diagnostics : p'.diagnostics = [] → p.diagnostics = []
  legal : Legal p → p'.diagnostics = [] → Legal p'

/-- Lowering the walk from a node, if nothing was reported, gave the merge at which the walk goes
on, and a text that ends as its course says. -/
structure Laid (g : Graph) (id : NodeId) (p : Progress) (x : Option NodeId) (p' : Progress) :
    Prop where
  diagnostics : p'.diagnostics = [] → p.diagnostics = []
  text : Legal p → Open p.block → p'.diagnostics = [] → Legal p' ∧
    ∃ exit ss, g.Course none none p.merges id exit p'.merges ∧ x = exit.merge? ∧
      p'.block = ss.reverse ++ p.block ∧ EndsAt exit ss

namespace Leads

variable {g : Graph} {p p' : Progress}

theorem refl (p : Progress) : Leads p p :=
  ⟨⟨[], rfl, .nil⟩, rfl, fun h => h, fun h _ => h⟩

theorem mark (p : Progress) (kind : String) (id : NodeId) :
    Leads p { p with block := .mark kind id :: p.block } :=
  ⟨⟨_, rfl, .mark kind id⟩, rfl, fun h => h, fun h _ => ⟨h.names, h.lengths⟩⟩

theorem of_advances (h : Advances g p p') : Leads p p' := by
  obtain ⟨ss, hss, hquiet⟩ := h.block
  exact ⟨⟨ss, hss, .of_quiet hquiet⟩, h.merges, h.diagnostics, h.legal⟩

end Leads

theorem Leads.open {p p' : Progress} (h : Leads p p') (hp : Open p.block) : Open p'.block := by
  obtain ⟨ss, hss, hstraight⟩ := h.block
  rw [hss]
  exact hp.append hstraight.noReturn

section Walks

variable {g : Graph} {id next : NodeId} {p p₁ p' : Progress} {x : Option NodeId}

theorem Laid.after (h : Laid g id p₁ x p') (hp : Leads p p₁) : Laid g id p x p' where
  diagnostics hnone := hp.diagnostics (h.diagnostics hnone)
  text hlegal hopen hnone := by
    obtain ⟨ss, hss, hstraight⟩ := hp.block
    obtain ⟨hlegal', exit, ss', hcourse, hx, hss', hends⟩ :=
      h.text (hp.legal hlegal (h.diagnostics hnone)) (hp.open hopen) hnone
    rw [hp.merges] at hcourse
    exact ⟨hlegal', exit, ss ++ ss', hcourse, hx, by rw [hss', hss]; simp, hends.after hstraight⟩

theorem Laid.pass {p₂ : Progress} (h : Laid g next p x p₂) (hk : g.kind? id = some (.control c))
    (hnext : c.onward? = some next) (hlegal : Legal p₂ → Legal p')
    (hp' : p' = { p₂ with symbols := p'.symbols }) : Laid g id p x p' := by
  rw [hp'] at hlegal ⊢
  refine ⟨h.diagnostics, fun hp hopen hnone => ?_⟩
  obtain ⟨hp₂, exit, ss, hcourse, hx, hss, hends⟩ := h.text hp hopen hnone
  exact ⟨hlegal hp₂, exit, ss, .pass hk hnext hcourse, hx, hss, hends⟩

theorem Laid.merge (h : Laid g next { p with merges := id :: p.merges } x p')
    (hk : g.kind? id = some (.control (.merge next))) (hunmet : id ∉ p.merges) :
    Laid g id p x p' where
  diagnostics := h.diagnostics
  text hlegal hopen hnone := by
    obtain ⟨hlegal', exit, ss, hcourse, hx, hss, hends⟩ :=
      h.text ⟨hlegal.names, hlegal.lengths⟩ hopen hnone
    exact ⟨hlegal', exit, ss, .merge hk hunmet hcourse, hx, hss, hends⟩

theorem Laid.of_leads (exit : Graph.Exit) (h : Leads p p') (hexit : exit ≠ .returns)
    (hcourse : g.Course none none p.merges id exit p.merges) : Laid g id p exit.merge? p' where
  diagnostics := h.diagnostics
  text hlegal _ hnone := by
    obtain ⟨ss, hss, hstraight⟩ := h.block
    rw [h.merges]
    exact ⟨h.legal hlegal hnone, exit, ss, hcourse, rfl, hss, hstraight.endsAt hexit⟩

/-- Where something was reported, there is no more to say. -/
theorem Laid.of_reported (h : Legal p → p'.diagnostics ≠ [])
    (hdiagnostics : p'.diagnostics = [] → p.diagnostics = []) : Laid g id p x p' where
  diagnostics := hdiagnostics
  text hlegal _ hnone := absurd hnone (h hlegal)

end Walks

/-! ### Control nodes -/

/-- Every walk is laid out along its course. -/
def Lays (g : Graph) (walk : Walk) : Prop :=
  ∀ {id p x p'}, walk id p = .ok (x, p') → Laid g id p x p'

section Control

variable {site : Site} {value : Values} {walk : Walk} {id : NodeId} {p p' : Progress}
variable {x : Option NodeId}

theorem lowerDeoptimize_reports (hmode : site.mode.isKernel = false)
    (h : lowerDeoptimize site id p = .ok (u, p')) : p'.diagnostics ≠ [] := by
  obtain ⟨_, p₁, hreport, h⟩ := Step.bind_eq_ok.1 h
  have hp₁ : p₁.diagnostics ≠ [] := by
    cases hreport
    simp
  -- what is written after the report leaves it in place
  have hret {q : Progress} {v : Option Name} (hq : q.diagnostics ≠ [])
      (h : emitReturn v q = .ok (u, p')) : p'.diagnostics ≠ [] := by
    obtain ⟨rfl, -⟩ | rfl := emitReturn_cases h <;> exact hq
  simp only [hmode, Bool.false_eq_true, if_false] at h
  cases hkind : site.graph.returnKind.scalar? with
  | none =>
    rw [hkind] at h
    split at h <;> cases h <;> exact hp₁
  | some kind =>
    rw [hkind] at h
    split at h
    · replace h := Step.after_ok rfl h
      exact hret (q := { p₁ with block := .raiseFlag :: p₁.block }) hp₁ h
    · exact hret hp₁ h

variable (hvalue : WritesValues site value) (hwalk : Lays site.graph walk)

include hvalue

omit hvalue in
theorem Laid.ret {w : Option Name} {q : Progress}
    (hk : site.graph.kind? id = some (.control (.ret v)))
    (hq : Leads p q) (h : emitReturn w q = .ok (u, p')) : Laid site.graph id p none p' where
  diagnostics hnone := by
    obtain ⟨rfl, -⟩ | rfl := emitReturn_cases h <;> exact hq.diagnostics hnone
  text hlegal hopen hnone := by
    obtain ⟨-, hreturned⟩ | rfl := emitReturn_cases h
    · exact absurd (hq.open hopen) hreturned
    obtain ⟨ss, hss, hstraight⟩ := hq.block
    have hq' := hq.legal hlegal hnone
    refine ⟨⟨hq'.names, hq'.lengths⟩, .returns, ss ++ [.ret w], ?_, rfl, by simp [hss], ?_⟩
    · exact hq.merges ▸ .ret hk
    · exact (EndsAt.ret w).after hstraight

include hwalk

theorem lowerBranch_laid {c t f : NodeId}
    (hk : site.graph.kind? id = some (.control (.branch c t f)))
    (h : lowerBranch site value walk id c t f p = .ok (x, p')) : Laid site.graph id p x p' := by
  obtain ⟨name, p₁, x₁, q₁, x₂, q₂, hname, htrue, hfalse, h⟩ := lowerBranch_cases h
  have hp₁ := Leads.of_advances (hvalue.at hname).1
  have ht := hwalk htrue
  have hf := hwalk hfalse
  refine .after ?_ hp₁
  have hnone₁ (hnone : q₂.diagnostics = []) : p₁.diagnostics = [] :=
    ht.diagnostics (hf.diagnostics hnone)
  -- the arms, each in a block of its own
  have harms (hlegal : Legal p₁) (hnone : q₂.diagnostics = []) : Legal q₂ ∧ ∃ a b,
      site.graph.Course none none p₁.merges t a q₁.merges ∧
      site.graph.Course none none q₁.merges f b q₂.merges ∧ x₁ = a.merge? ∧ x₂ = b.merge? ∧
      EndsAt a q₁.block.reverse ∧ EndsAt b q₂.block.reverse := by
    obtain ⟨hq₁, a, ss₁, hcourse₁, hx₁, hss₁, hends₁⟩ :=
      ht.text ⟨hlegal.names, hlegal.lengths⟩ nofun (hf.diagnostics hnone)
    obtain ⟨hq₂, b, ss₂, hcourse₂, hx₂, hss₂, hends₂⟩ :=
      hf.text ⟨hq₁.names, hq₁.lengths⟩ nofun hnone
    refine ⟨hq₂, a, b, hcourse₁, hcourse₂, hx₁, hx₂, ?_, ?_⟩
    · simpa [hss₁] using hends₁
    · simpa [hss₂] using hends₂
  obtain ⟨rfl, rfl, rfl, rfl⟩ | ⟨m, hm, hsame, h⟩ := h
  · refine ⟨hnone₁, fun hlegal _ hnone => ?_⟩
    obtain ⟨hq₂, a, b, hcourse₁, hcourse₂, ha, hb, hends₁, hends₂⟩ := harms hlegal hnone
    refine ⟨⟨hq₂.names, hq₂.lengths⟩, a.both b, [.branch name q₁.block.reverse q₂.block.reverse],
      .branch hk hcourse₁ hcourse₂ ha.symm hb.symm, Exit.merge?_both.symm, rfl, ?_⟩
    exact hends₁.branch hends₂ ha.symm hb.symm
  · have hrest := hwalk h
    refine ⟨fun hnone => hnone₁ (hrest.diagnostics hnone), fun hlegal _ hnone => ?_⟩
    obtain ⟨hq₂, a, b, hcourse₁, hcourse₂, rfl, rfl, hends₁, hends₂⟩ :=
      harms hlegal (hrest.diagnostics hnone)
    obtain ⟨hlegal', exit, ss, hcourse, hx, hss, hends⟩ :=
      hrest.text ⟨hq₂.names, hq₂.lengths⟩ nofun hnone
    refine ⟨hlegal', exit, .branch name q₁.block.reverse q₂.block.reverse :: ss,
      .branchMerge hk hcourse₁ hcourse₂ hm hsame hcourse, hx, by simp [hss], ?_⟩
    exact hends₁.branchMerge hends₂ hm hends

/-- A control node and all after it are laid out along the course of the walk. -/
theorem lowerControl_laid (hmode : site.mode.isKernel = false) (hloop : c.isLoop = false)
    (hk : site.graph.kind? id = some (.control c))
    (h : lowerControl site value walk id c p = .ok (x, p')) :
    Laid site.graph id p x p' := by
  cases hnext : c.onward? with
  | some next =>
    obtain ⟨p₁, p₂, hp₁, h, hlegal, hp'⟩ := lowerControl_onward hvalue hk hnext h
    exact ((hwalk h).pass hk hnext hlegal hp').after (.of_advances hp₁)
  | none =>
    cases c with
    | join m =>
      obtain ⟨rfl, hp'⟩ := lowerJoin_cases hvalue h
      exact .of_leads (.merge m) (.of_advances hp') nofun (.join hk)
    | merge next =>
      obtain ⟨hmet, rfl, rfl⟩ | ⟨hunmet, h⟩ := lowerMerge_cases h
      · exact .of_leads .stops (.refl _) nofun (.met hk hmet)
      · exact (hwalk h).merge hk hunmet
    | branch c t f => exact lowerBranch_laid hvalue hwalk hk h
    | ret v =>
      obtain ⟨_, p₁, hret, ⟨⟩⟩ := Step.bind_pure_eq_ok.1 h
      obtain ⟨q, hq, ⟨w, hemit⟩ | ⟨rfl, hreported⟩⟩ := lowerReturn_cases hvalue hmode hret
      · exact .ret hk (.of_advances hq) hemit
      · exact .of_reported hreported hq.diagnostics
    | deoptimize =>
      obtain ⟨_, p₁, hdeoptimize, ⟨⟩⟩ := Step.bind_pure_eq_ok.1 h
      have hreported := lowerDeoptimize_reports hmode hdeoptimize
      exact .of_reported (fun _ => hreported) fun hnone => absurd hnone hreported
    | loopHead | backEdge | loopExit => cases hloop
    | start | region | storeIndexed | storeField | guard => cases hnext

theorem lowerStep_lays (hmode : site.mode.isKernel = false) (hfree : site.graph.LoopFree) :
    Lays site.graph (lowerStep site value walk) := by
  intro id p x p' h
  obtain ⟨kind, hkind, h⟩ := Step.lift_bind_eq_ok.1 h
  rw [Graph.kind_eq_ok_iff] at hkind
  replace h := Step.after_ok rfl h
  have hp₁ := Leads.mark p kind.name id
  cases kind with
  | control c =>
    exact (lowerControl_laid hvalue hwalk hmode (hfree.isLoop hkind) hkind h).after hp₁
  | unsupported name inputs next =>
    obtain ⟨_, p₂, hinputs, h⟩ := Step.bind_eq_ok.1 h
    obtain ⟨_, p₃, hfail, h⟩ := Step.bind_eq_ok.1 h
    have hp₃ : p₃.diagnostics ≠ [] := by
      cases hfail
      simp
    have hreported : p'.diagnostics ≠ [] := by
      cases next with
      | some next => exact fun hnone => hp₃ ((hwalk h).diagnostics hnone)
      | none =>
        cases h
        exact hp₃
    exact .of_reported (fun _ => hreported) fun hnone => absurd hnone hreported
  | operation op => cases h

omit hwalk in
/-- The text of a graph without loops is laid out along the course of its walk. -/
theorem lowerWalk_lays (hmode : site.mode.isKernel = false) (hfree : site.graph.LoopFree)
    (length : Nat) :
    Lays site.graph (lowerWalk site value length) := by
  induction length with
  | zero =>
    intro id p x p' h
    cases h
  | succ length ih => exact lowerStep_lays hvalue ih hmode hfree

end Control

/-! ### Functions -/

/-- Every path through the function of a lambda returns, exactly if the lambda is settled: of a
graph without loops whose lowering reports nothing, the walk meets no merge again where it ends. -/
theorem paths_return_iff_settled {g : Graph} {nested : List Graph} {guards : Bool} {b : Bundle}
    (hfree : g.LoopFree) (hlower : lowerLambda g nested guards = .ok b)
    (hnone : b.diagnostics = []) :
    ∃ callees f, b.functions = callees ++ [f] ∧ f.name = functionName g.name ∧
      (∃ trace e, Runs f.body trace e ∧ e ≠ .cut) ∧
      ((∀ trace e, Runs f.body trace e → e ≠ .cut → e = .returns) ↔ g.Settled) := by
  obtain ⟨callees, f, site, value, length, start, p, x, p', hfunctions, hname, rfl, hmode, hvalue,
    hstart, hp, hwalk, hbody, hdiagnostics⟩ := lowerLambda_walks hlower
  rw [hdiagnostics] at hnone
  have hlaid := lowerWalk_lays hvalue hmode hfree length hwalk
  obtain ⟨-, exit, ss, hcourse, -, hss, hends⟩ :=
    hlaid.text (hp.legal (hlaid.diagnostics hnone)) hp.open hnone
  rw [hp.merges] at hcourse
  have hends : EndsAt exit f.body := by
    have hquiet : Straight p.block.reverse :=
      .of_quiet fun s hs => hp.block s (List.mem_reverse.1 hs)
    rw [hbody, Progress.body, hss, List.reverse_append, List.reverse_reverse]
    exact hends.after hquiet
  obtain ⟨trace, hrun⟩ := hends.reaches
  refine ⟨callees, f, hfunctions, hname, ⟨trace, _, hrun, exit.ending_ne_cut⟩, fun hall => ?_,
    fun hsettled => ?_⟩
  · -- a walk with another exit has a path that falls through
    cases exit with
    | returns => exact ⟨start, _, hstart, hcourse⟩
    | stops | merge m => cases hall _ _ hrun (Exit.ending_ne_cut _)
  · obtain ⟨start', seen, hstart', hcourse'⟩ := hsettled
    cases hstart.symm.trans hstart'
    obtain ⟨rfl, -⟩ := hcourse.unique hcourse'
    intro trace e hrun hne
    obtain he | he | ⟨-, hreturns⟩ := hends.within hrun
    · exact absurd he hne
    · exact he
    · exact absurd rfl hreturns

theorem lift_paths_return : lift.LoopFree ∧ ∃ b callees f, lowerLambda lift [] false = .ok b ∧
    b.diagnostics = [] ∧ b.functions = callees ++ [f] ∧
    ∀ trace e, Runs f.body trace e → e ≠ .cut → e = .returns := by
  have hfree : lift.LoopFree := by
    unfold Graph.LoopFree
    decide
  obtain ⟨b, hb, hnone⟩ := lift.lowers_quietly
  obtain ⟨callees, f, hf, -, -, hall⟩ := paths_return_iff_settled hfree hb hnone
  exact ⟨hfree, b, callees, f, hb, hnone, hf, hall.2 lift.structured.settled⟩

/-! ### A graph that is not settled -/

/-- The third argument, by two tests of the others. The inner branch goes on at the merge in one arm
only, and the outer branch meets this merge again. -/
def early : Graph := .ofKinds "early" [
  .start 4,
  .parameter 0 .boolean,
  .parameter 1 .boolean,
  .parameter 2 .int,
  .branch 1 5 11,
  .region 6,
  .branch 2 7 9,
  .region 8,
  .join 13,
  .region 10,
  .ret (some 3),
  .region 12,
  .join 13,
  .merge 14,
  .ret (some 3)]

namespace early

theorem parameters_eq : early.parameters =
    [⟨1, 0, .scalar .boolean⟩, ⟨2, 1, .scalar .boolean⟩, ⟨3, 2, .scalar .int⟩] :=
  Graph.parameters_of_pairwise rfl (by decide)

/-- Where the first test fails, the second arm goes on at a merge that has been laid out before. -/
theorem route : Route early 20 [false] [0, 4, 11, 12, 13] .falls := by
  simp only [Route, lowerLambda, lowerBundle, callDepth, lowerFunction, Signature.ofFunction,
    parameters_eq]
  decide +kernel

end early

/-- Where the first test fails, the function of `early` ends without a return. -/
theorem early_falls_through : early.LoopFree ∧ ∃ b f trace, lowerLambda early [] false = .ok b ∧
    b.diagnostics = [] ∧ b.functions = [f] ∧ Runs f.body trace .falls := by
  have hfree : early.LoopFree := by
    unfold Graph.LoopFree
    decide
  obtain ⟨b, f, trace, hb, hnone, hf, hrun, -⟩ := early.route.exists_run
  exact ⟨hfree, b, f, trace, hb, hnone, hf, hrun⟩

end Lowering

end Kernelwright
