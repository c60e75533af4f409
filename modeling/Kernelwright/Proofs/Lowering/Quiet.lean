import Kernelwright.Proofs.Lowering.ControlWork
import Kernelwright.Proofs.Lowering.Entry

/-!
# What the text of a value is like

The text of a value is passed from its first statement to its last, and marks no control node. Where
nothing is reported, every value has a legal name. Both hold of all work in which no control node is
walked.
-/

namespace Kernelwright.Lowering

open Code

variable {g : Graph} {α : Type}
variable {s : Signature} {guards : Bool} {lambdas : List Graph} {b : Bundle}
variable {bound : Option NodeId} {p : Progress} {function : Functions}

/-! ### Steps that write statements of values -/

/-- Lowering went on from `p` to `p'` and wrote statements of values. -/
structure Grows (g : Graph) (p p' : Progress) : Prop where
  block : ∃ ss : List Stmt, p'.block = ss.reverse ++ p.block ∧ ∀ s ∈ ss, g.Quiet s
  merges : p'.merges = p.merges
  loops : p'.loops = p.loops
  diagnostics : p'.diagnostics = [] → p.diagnostics = []

namespace Grows

variable {p p' p'' : Progress}

theorem refl (p : Progress) : Grows g p p := ⟨⟨[], rfl, nofun⟩, rfl, rfl, id⟩

theorem trans (h : Grows g p p') (h' : Grows g p' p'') : Grows g p p'' where
  block := by
    obtain ⟨ss, hss, hquiet⟩ := h.block
    obtain ⟨ss', hss', hquiet'⟩ := h'.block
    refine ⟨ss ++ ss', by rw [hss', hss]; simp, fun s hs => ?_⟩
    obtain hs | hs := List.mem_append.1 hs
    · exact hquiet s hs
    · exact hquiet' s hs
  merges := h'.merges.trans h.merges
  loops := h'.loops.trans h.loops
  diagnostics hnone := h.diagnostics (h'.diagnostics hnone)

end Grows

/-- No node has an illegal name, and no buffer an illegal length. -/
structure Legal (p : Progress) : Prop where
  names : ∀ id, ¬ p.symbols.Binds id .illegal
  lengths : ∀ e ∈ p.buffers, e.2 ≠ .illegal

/-- Lowering went on and wrote statements of values, and kept all names legal unless something was
reported. -/
structure Advances (g : Graph) (p p' : Progress) : Prop extends Grows g p p' where
  legal : Legal p → p'.diagnostics = [] → Legal p'

section Work

variable {w : Bench} {n : Option NodeId} {p p' p'' : Progress}

theorem Advances.refl (p : Progress) : Advances g p p := ⟨.refl p, fun hp _ => hp⟩

theorem Advances.trans (h : Advances g p p') (h' : Advances g p' p'') : Advances g p p'' :=
  ⟨h.toGrows.trans h'.toGrows, fun hp hnone => h'.legal (h.legal hp (h'.diagnostics hnone)) hnone⟩

theorem Advances.write {s : Stmt} (hs : g.Quiet s) :
    Advances g p { p with block := s :: p.block } :=
  ⟨⟨⟨[s], rfl, List.forall_mem_singleton.2 hs⟩, rfl, rfl, id⟩, fun hp _ => ⟨hp.names, hp.lengths⟩⟩

theorem Grows.of_eq (hblock : p'.block = p.block) (hmerges : p'.merges = p.merges)
    (hloops : p'.loops = p.loops) (hdiagnostics : p.diagnostics <+: p'.diagnostics) :
    Grows g p p' :=
  ⟨⟨[], hblock, nofun⟩, hmerges, hloops, fun hnone => List.prefix_nil.1 (hnone ▸ hdiagnostics)⟩

theorem Legal.tidy (h : Legal p) : Tidy p := ⟨fun id hid => (h.names id hid).elim, h.lengths⟩

theorem Tidy.legal (h : Tidy p) (hnone : p.diagnostics = []) : Legal p := by
  refine ⟨fun id hid => ?_, h.lengths⟩
  obtain ⟨d, hd, -⟩ := h.names id hid
  rw [hnone] at hd
  cases hd

theorem Bench.Effect.grows (h : w.Effect n p p') (hw : w.walks = false) :
    Grows w.site.graph p p' := by
  cases h with
  | note _ hdiagnostics => exact .of_eq rfl rfl rfl hdiagnostics
  | meet _ hwalks => cases hw.symm.trans hwalks
  | @write _ _ s _ hcause =>
    suffices hs : w.site.graph.Quiet
      s from ⟨⟨[s], rfl, List.forall_mem_singleton.2 hs⟩, rfl, rfl, id⟩
    cases hcause with
    | bare hs hplain =>
      refine .plain (hplain.resolve_left (by simp [hw])) ?_
      cases s with
      | mark => cases hs.marked
      | _ => rfl
    | read | call => exact .plain rfl rfl
    | fused => exact .loop (List.forall_mem_singleton.2 (.plain rfl rfl))
  | name | share | buffer | element => exact .of_eq rfl rfl rfl (List.prefix_refl _)
  | absorb => exact .of_eq rfl rfl rfl (List.prefix_append ..)

theorem Bench.Work.grows (h : w.Work n p p') (hw : w.walks = false) : Grows w.site.graph p p' := by
  induction h with
  | done => exact .refl _
  | effect heffect _ ih => exact (heffect.grows hw).trans ih
  | @visit _ id kind _ _ _ hkind _ hdone _ ihvisit ih =>
    obtain ⟨hvalue, -⟩ := hdone.value.resolve_left (by simp [hw])
    have hmark : w.site.graph.marked? (.mark kind.name id) = none := by
      cases kind with
      | control c => exact absurd rfl (hvalue c)
      | _ => simp [Graph.marked?, hkind]
    exact ((Advances.write (.plain rfl hmark)).toGrows.trans ihvisit).trans ih
  | branch _ hwalks | loop _ _ hwalks | scope hwalks => cases hw.symm.trans hwalks

theorem Bench.Work.advances (h : w.Work n p p') (hw : w.walks = false) :
    Advances w.site.graph p p' :=
  ⟨h.grows hw, fun hp hnone => (h.tidy hp.tidy).legal hnone⟩

end Work

/-! ### Values -/

section Values

variable {site : Site} {value : Values} {id : NodeId} {p p' : Progress} {a : α}
variable {m : Lower α}

/-- Operands are lowered by work in which no control node is walked. -/
def WritesValues (site : Site) (value : Values) : Prop :=
  ∃ (w : Bench) (watched : Values), w.site = site ∧ w.walks = false ∧ WorksValues w [] value watched

variable (hvalue : WritesValues site value)
include hvalue

theorem WritesValues.advances
    (h : ∀ (w : Bench) (watched : Values), w.site = site → WorksValues w [] value watched →
      ∃ n m' Q, Works w [] n anyhow m m' Q)
    (hrun : m p = .ok (a, p')) : Advances site.graph p p' := by
  obtain ⟨w, watched, rfl, hw, hvalue⟩ := hvalue
  obtain ⟨n, m', Q, hworks⟩ := h w watched rfl hvalue
  exact (hworks trivial hrun).1.advances hw

theorem WritesValues.at {x : Name} (h : value id p = .ok (x, p')) :
    Advances site.graph p p' ∧ (Legal p → p'.diagnostics = [] → x ≠ .illegal) := by
  have hadvances := hvalue.advances (fun _ _ _ hv => ⟨none, _, _, hv none id⟩) h
  obtain ⟨w, watched, -, -, hvalue⟩ := hvalue
  refine ⟨hadvances, fun hp hnone hx => ?_⟩
  subst hx
  exact (hadvances.legal hp hnone).names id
    (SymbolTable.binds_of_nameOf? (hvalue none id trivial h).2.1)

/-! ### Control nodes -/

section Control

variable {walk : Walk} {next : NodeId} {p p' : Progress} {x : Option NodeId}

omit hvalue in
theorem lowerMerge_cases (h : lowerControl site value walk id (.merge next) p = .ok (x, p')) :
    (id ∈ p.merges ∧ x = none ∧ p' = p) ∨
      (id ∉ p.merges ∧ walk next { p with merges := id :: p.merges } = .ok (x, p')) := by
  replace h := Step.after_ok rfl h
  split at h
  · next hmet =>
    cases h
    exact .inl ⟨hmet, rfl, rfl⟩
  · next hunmet =>
    replace h := Step.after_ok rfl h
    exact .inr ⟨hunmet, h⟩

theorem lowerJoin_cases {m : NodeId}
    (h : lowerControl site value walk id (.join m) p = .ok (x, p')) :
    x = some m ∧ Advances site.graph p p' := by
  obtain ⟨pairs, p₁, hpairs, h⟩ := Step.bind_eq_ok.1 h
  obtain ⟨_, p₂, hassign, ⟨⟩⟩ := Step.bind_pure_eq_ok.1 h
  refine ⟨rfl, hvalue.advances (fun w _ hw hv => ?_)
    (Step.bind_eq_ok.2 ⟨pairs, p₁, hpairs, hassign⟩)⟩
  exact ⟨none, _, _, hw ▸ (phiValues_works hv).andThen fun _ => assignPhis_works⟩

/-- A return is lowered to its value and a statement; where the value has no legal name, which is
reported, to none. -/
theorem lowerReturn_cases {v : Option NodeId} {u : Unit} (hmode : site.mode.isKernel = false)
    (h : lowerReturn site value v p = .ok (u, p')) :
    ∃ q, Advances site.graph p q ∧ ((∃ w, emitReturn w q = .ok (u, p')) ∨
      (p' = q ∧ (Legal p → q.diagnostics ≠ []))) := by
  simp only [lowerReturn, hmode, Bool.false_eq_true, if_false] at h
  cases v with
  | none => exact ⟨p, .refl p, .inl ⟨none, h⟩⟩
  | some v =>
    obtain ⟨name, q, hname, h⟩ := Step.bind_eq_ok.1 h
    obtain ⟨hq, hlegal⟩ := hvalue.at hname
    refine ⟨q, hq, ?_⟩
    split at h
    · exact .inl ⟨some name, h⟩
    · next hillegal =>
      cases h
      exact .inr ⟨rfl, fun hp hnone => hillegal (hlegal hp hnone)⟩

/-- Of a node that the walk passes, something may be written first. A region takes back its names
afterwards. -/
theorem lowerControl_onward {c : Control} (hk : site.graph.kind? id = some (.control c))
    (hnext : c.onward? = some next)
    (h : lowerControl site value walk id c p = .ok (x, p')) :
    ∃ p₁ p₂, Advances site.graph p p₁ ∧ walk next p₁ = .ok (x, p₂) ∧ (Legal p₂ → Legal p') ∧
      p' = { p₂ with symbols := p'.symbols } := by
  have hpass (hregion : Graph.isRegion (.control c) = false) :
      ∃ p₁, Advances site.graph p p₁ ∧ walk next p₁ = .ok (x, p') := by
    rw [lowerControl_eq_passing hregion hnext] at h
    obtain ⟨_, p₁, hpassing, h⟩ := Step.bind_eq_ok.1 h
    exact ⟨p₁, hvalue.advances (fun w _ hw hv => ⟨none, _, _, hw ▸ passing_works hv (hw ▸ hk)⟩)
      hpassing, h⟩
  cases c with
  | region =>
    cases hnext
    obtain ⟨p₁, hbody, rfl⟩ := inScope_eq_ok h
    refine ⟨{ p with symbols := p.symbols.enter }, p₁,
      ⟨.of_eq rfl rfl rfl (List.prefix_refl _), fun hp _ => ⟨fun id hid => ?_, hp.lengths⟩⟩, hbody,
      fun hp => ⟨fun id hid => ?_, hp.lengths⟩, rfl⟩
    · exact hp.names id (SymbolTable.binds_enter.1 hid)
    · exact hp.names id (SymbolTable.binds_of_exit hid)
  | _ =>
    obtain ⟨p₁, hp₁, h⟩ := hpass rfl
    exact ⟨p₁, p', hp₁, h, fun hp => hp, rfl⟩

theorem lowerLoopPhis_advances {init : Option Name} {first : Bool}
    (hk : site.graph.kind? id = some (.control (.loopHead next bound)))
    (h : lowerLoopPhis site value .explicit first (site.graph.phisOf id) p = .ok (init, p')) :
    Advances site.graph p p' := by
  have hhead : site.graph.isLoopHead id = true := by simp [Graph.isLoopHead, hk]
  refine hvalue.advances (fun w _ hw hv => ?_) h
  subst hw
  exact ⟨_, _, _, lowerLoopPhis_works hv (fun _ => rfl) hhead (List.Subset.refl _)⟩

omit hvalue in
/-- In a function, a loop is lowered to its variables and a text that goes round its body. -/
theorem lowerLoop_cases (hmode : site.mode.isKernel = false)
    (h : lowerLoop site value walk id next bound p = .ok (x, p')) :
    ∃ init p₁ x₁ q,
      lowerLoopPhis site value .explicit true (site.graph.phisOf id) p = .ok (init, p₁) ∧
      walk next { p₁ with
        loops := ⟨true, false⟩ :: p.loops
        block := []
        symbols := p₁.symbols.enter } = .ok (x₁, q) ∧
      x = none ∧ p' = { q with
        loops := p.loops
        block := .loop .forever q.block.reverse :: p₁.block
        symbols := q.symbols.exit } := by
  have hsort : loopSort site p.loops = .explicit := by
    have hnone : site.mode.computation? = none := by
      cases hm : site.mode with
      | kernel => simp [hm, Mode.isKernel] at hmode
      | function => rfl
    unfold loopSort
    rw [hnone]
    cases p.loops <;> rfl
  replace h := Step.after_ok rfl h
  dsimp only at h
  rw [hsort] at h
  obtain ⟨init, p₁, hphis, h⟩ := Step.bind_eq_ok.1 h
  replace h := Step.after_ok rfl h
  replace h := Step.after_ok rfl h
  obtain ⟨⟨x₁, body⟩, p₄, hbody, h⟩ := Step.bind_eq_ok.1 h
  obtain ⟨q₁, hscope, rfl, rfl⟩ := inBlock_eq_ok hbody
  obtain ⟨q, hwalk, rfl⟩ := inScope_eq_ok hscope
  replace h := Step.after_ok rfl h
  replace h := Step.after_ok rfl h
  cases Step.pure_eq_ok.1 h
  exact ⟨init, p₁, x₁, q, hphis, hwalk, rfl, rfl⟩

omit hvalue in
/-- The walk goes on behind the exit of a loop, and then leaves the loop where that has a text. -/
theorem lowerExit_cases {head : NodeId}
    (h : lowerControl site value walk id (.loopExit head next) p = .ok (x, p')) :
    ∃ p₁, walk next p = .ok (x, p₁) ∧ ((p₁.loops = [] ∧ p' = p₁) ∨
      ((∃ frame ∈ p₁.loops, frame.explicit = false) ∧ p' = p₁) ∨
      ∃ u, emitLeave p₁ = .ok (u, p')) := by
  obtain ⟨flow, p₁, hwalk, h⟩ := Step.bind_eq_ok.1 h
  replace h := Step.after_ok rfl h
  cases hloops : p₁.loops with
  | nil =>
    rw [hloops] at h
    cases h
    exact ⟨_, hwalk, .inl ⟨hloops, rfl⟩⟩
  | cons frame frames =>
    rw [hloops] at h
    dsimp only at h
    split at h
    · obtain ⟨u, p₂, hleave, ⟨⟩⟩ := Step.bind_pure_eq_ok.1 h
      exact ⟨p₁, hwalk, .inr (.inr ⟨u, hleave⟩)⟩
    · rename_i hframe
      cases h
      exact ⟨_, hwalk, .inr (.inl ⟨⟨frame, by simp [hloops], by simpa using hframe⟩, rfl⟩)⟩

end Control

end Values

/-! ### Whole lambdas -/

/-- The state in which the walk of a lambda starts. -/
structure Begins (g : Graph) (p : Progress) : Prop where
  block : ∀ s ∈ p.block, g.Quiet s
  merges : p.merges = []
  loops : p.loops = []
  legal : p.diagnostics = [] → Legal p

theorem Begins.open (h : Begins g p) : Open p.block :=
  fun v hlast => (h.block _ (List.mem_of_find?_eq_some hlast)).ne_ret v rfl

theorem lowerBody_walks {site : Site} {dimensions : List Name} {p' : Progress}
    (h : lowerBody site lambdas function dimensions [] p = .ok ((), p')) :
    ∃ p₁ start x, Advances site.graph p p₁ ∧ site.graph.start = .ok start ∧
      lowerWalk site (lowerValue site lambdas function (valueDepth site.graph))
        (walkLength site.graph) start p₁ = .ok (x, p') := by
  obtain ⟨p₁, start, x, hphis, hstart, hwalk⟩ := lowerBody_eq_ok h
  have hp : Advances site.graph p
      { p with block := (dimensions.map Stmt.dimension).reverse ++ p.block } := by
    refine ⟨⟨⟨_, rfl, fun s hs => ?_⟩, rfl, rfl, id⟩, fun hp _ => ⟨hp.names, hp.lengths⟩⟩
    obtain ⟨array, -, rfl⟩ := List.mem_map.1 hs
    exact .plain rfl rfl
  -- no lambda is needed for what comes before the walk
  let w : Bench := ⟨site, [], [], lowerBundle [] false 0, false⟩
  have hwork := (declareMergePhis_works (w := w) (r := []) trivial hphis).1
  exact ⟨p₁, start, x, hp.trans (hwork.advances rfl), hstart, hwalk⟩

theorem Bench.supplied_of_lower {w : Bench} {depth : Nat}
    (hlower : w.lower = lowerBundle lambdas guards depth) : w.Supplied := by
  intro g callers b h
  rw [hlower] at h
  cases depth with
  | zero => cases h
  | succ depth =>
    obtain ⟨result, structs, s, p, -, -, -, rfl⟩ := lowerFunction_eq_ok h
    exact ⟨_, List.mem_append_right _ (.head _), rfl⟩

/-- The last function of a bundle is that of the lambda, and its body ends with the text of a
walk. -/
theorem lowerLambda_walks {nested : List Graph} (h : lowerLambda g nested guards = .ok b) :
    ∃ callees f site value length start p x p', b.functions = callees ++ [f] ∧
      f.name = functionName g.name ∧ site.graph = g ∧ site.mode.isKernel = false ∧
      WritesValues site value ∧ g.start = .ok start ∧ Begins g p ∧
      lowerWalk site value length start p = .ok (x, p') ∧ f.body = p'.body ∧
      b.diagnostics = p'.diagnostics := by
  obtain ⟨_, -, h⟩ := bind_eq_ok.1 h
  let w (s : Signature) : Bench :=
    ⟨s.site g .function guards, g :: nested, [g.name], lowerBundle (g :: nested) guards
      (nested.length + 1), false⟩
  obtain ⟨result, structs, s, p', -, hs, hbody, rfl⟩ := lowerFunction_eq_ok h
  obtain ⟨p, start, x, hp, hstart, hwalk⟩ := lowerBody_walks hbody
  obtain ⟨ss, hss, hquiet⟩ := hp.block
  refine ⟨_, _, _, _, _, start, p, x, p', rfl, rfl, rfl, rfl,
    ⟨w s, _, rfl, rfl, lowerValue_works (Bench.supplied_of_lower rfl) [] _⟩, hstart,
    ⟨?_, hp.merges, hp.loops, hp.legal ⟨fun id hid => ?_, nofun⟩⟩, hwalk, rfl, rfl⟩
  · intro t ht
    rw [hss] at ht
    exact hquiet t (by simpa [Progress.start] using ht)
  · obtain ⟨_, -, -, hillegal⟩ := ofFunction_binds hs hid
    cases hillegal

/-- Nothing is reported for the graph, and the run of its function along the given choices passes
the control nodes of `path` and ends with `e`. -/
def Route (g : Graph) (n : Nat) (cs : List Bool) (path : List NodeId) (e : Ending) : Prop :=
  ∃ b, lowerLambda g [] false = .ok b ∧ ∃ f, b.functions = [f] ∧ b.diagnostics = [] ∧
    g.passed (follow n f.body cs).trace = path ∧ (follow n f.body cs).ending = e

theorem Route.exists_run {n : Nat} {cs : List Bool} {path : List NodeId} {e : Ending}
    (h : Route g n cs path e) :
    ∃ b f trace, lowerLambda g [] false = .ok b ∧ b.diagnostics = [] ∧ b.functions = [f] ∧
      Runs f.body trace e ∧ g.passed trace = path := by
  obtain ⟨b, hb, f, hf, hnone, rfl, rfl⟩ := h
  exact ⟨b, f, _, hb, hnone, hf, runs_follow n f.body cs, rfl⟩

end Kernelwright.Lowering
