import Kernelwright.Proofs.Lowering.Quiet

/-!
# Calls and callees

Every call in the text of a function comes from a node that is marked in it, and the lambda of a
marked node has a function by then. So each function of a bundle stands behind those that it calls.
The functions in front of the last one are those of lambdas that were not being lowered, with every
name once.
-/

namespace Kernelwright

open Code

/-- The name may stand for the node. That of a parameter is given by its index, as the graph is
valid. -/
def Graph.Stands (g : Graph) (id : NodeId) (x : Name) : Prop :=
  g.Valid → ∀ index type, g.kind? id = some (.operation (.parameter index type)) →
    x = .parameter index.toNat

/-- A call that the text of a graph makes for a node: with a name for each operand of an invocation,
or with an element of the array of a fused map. -/
inductive Graph.CallsAt (g : Graph) (lambdas : List Graph) (scope flag : List Argument)
    (id : NodeId) :
    String × List Argument → Prop
  | invoke {lambda args result} (names : List Name) :
      g.kind? id = some (.operation (.invoke (.lambda lambda) args result)) →
      List.Forall₂ g.Stands args names →
      CallsAt g lambdas scope flag id (functionName lambda, scope ++ names.map .name ++ flag)
  | fused {lambda array capacity element inner} (place : Place) :
      g.kind? id = some (.operation (.mapChain lambda array capacity element)) →
      lambdas.find? (·.name == lambda) = some inner → inner.parameters.length = 1 →
      CallsAt g lambdas scope flag id (functionName lambda, .place place :: flag)

theorem Graph.CallsAt.lambdaAt? {g : Graph} {lambdas : List Graph} {scope flag : List Argument}
    {id : NodeId} {c : String × List Argument} (h : g.CallsAt lambdas scope flag id c) :
    ∃ lambda, g.lambdaAt? id = some lambda ∧ c.1 = functionName lambda := by
  cases h with
  | invoke _ hk | fused _ hk => exact ⟨_, by simp [Graph.lambdaAt?, hk, NodeKind.lambda?], rfl⟩

namespace Lowering

/-! ### The names of parameters -/

/-- Every name stands for its node. -/
def Bench.Fits (w : Bench) (p : Progress) : Prop :=
  ∀ id x, p.symbols.Binds id x → w.site.graph.Stands id x

/-- The node that lowering is at, if there is one, is no parameter. -/
def Bench.IsAt (w : Bench) (n : Option NodeId) : Prop :=
  ∀ id, n = some id → ∀ index type, w.kind? id ≠ some (.operation (.parameter index type))

section

variable {w : Bench} {n : Option NodeId} {id : NodeId} {p p' : Progress}

theorem Bench.Names.stands (h : w.Names n id) (hn : w.IsAt n) (x : Name) :
    w.site.graph.Stands id x := by
  intro hvalid index type hkind
  cases h with
  | here => exact (hn id rfl index type hkind).elim
  | loop _ hphi => cases hphi.symm.trans hkind
  | merge hphi =>
    obtain ⟨m, vs, hphi⟩ := hvalid.phi_of_mem_mergePhis hphi
    cases hphi.symm.trans hkind

theorem Bench.Fits.bind {x : Name} {k : ValueKind} (hp : w.Fits p) (hid : w.Names n id)
    (hn : w.IsAt n) :
    w.Fits { p with symbols := p.symbols.bind x id k } := by
  intro other y hy
  obtain ⟨rfl, rfl⟩ | hy := SymbolTable.binds_bind.1 hy
  · exact hid.stands hn y
  · exact hp other y hy

theorem Bench.Fits.enter (hp : w.Fits p) : w.Fits { p with symbols := p.symbols.enter } :=
  fun id x hx => hp id x (SymbolTable.binds_enter.1 hx)

theorem Bench.Fits.exit (hp : w.Fits p) : w.Fits { p with symbols := p.symbols.exit } :=
  fun id x hx => hp id x (SymbolTable.binds_of_exit hx)

theorem Bench.Effect.fits (h : w.Effect n p p') (hn : w.IsAt n) (hp : w.Fits p) : w.Fits p' := by
  cases h with
  | name k hid => exact hp.bind hid hn
  | share => exact hp.bind .here hn
  | _ => exact hp

theorem Bench.fits_invariant : w.Invariant fun n p => w.IsAt n ∧ w.Fits p where
  effect h heffect := ⟨h.1, heffect.fits h.1 h.2⟩
  block _ _ h := h
  enter h := ⟨h.1, h.2.enter⟩
  exit _ h' _ := ⟨h'.1, h'.2.exit⟩
  visit h hkind hdone := by
    refine ⟨?_, h.2⟩
    rintro _ ⟨⟩ index type hparameter
    exact hdone.work index type (Option.some.inj (hkind.symm.trans hparameter))
  leave h h' := ⟨h.1, h'.2⟩

end

/-! ### Calls in the text -/

namespace Bench

section

variable {w : Bench} {n : Option NodeId} {p p' : Progress} {s t : Stmt} {c : String × List Argument}

/-- A statement that is written has its cause. -/
theorem Effect.cause (h : w.Effect n p p') (ht : p'.block = t :: p.block) : w.Cause p n t := by
  cases h with
  | write hcause =>
    cases ht
    exact hcause
  | _ => exact (List.ne_cons_self ht).elim

theorem Effect.callsAt (h : w.Effect n p p') (hp : w.Fits p) (ht : p'.block = t :: p.block)
    (hs : s ∈ t.parts) (hc : s.call? = some c) :
    ∃ id, n = some id ∧ w.site.graph.CallsAt w.lambdas w.scope (flagArguments w.site.guards) id
      c := by
  cases h.cause ht with
  | bare hbare =>
    rw [hbare.parts] at hs
    cases List.mem_singleton.1 hs
    cases hbare.call.symm.trans hc
  | read =>
    cases List.mem_singleton.1 hs
    cases hc
  | call type x hk hnames =>
    cases List.mem_singleton.1 hs
    cases hc
    exact ⟨_, rfl, .invoke _ hk (hnames.imp hp)⟩
  | fused buffer i length hk hinner hone =>
    obtain rfl | hs := List.mem_cons.1 hs
    · cases hc
    · cases List.mem_singleton.1 hs
      cases hc
      exact ⟨_, rfl, .fused _ hk hinner hone⟩

theorem Shows.callsAt {ss : List Stmt} (h : w.Shows (fun n p => w.IsAt n ∧ w.Fits p) n p ss) :
    ∀ c ∈ Stmt.calls ss, ∃ id, (n = some id ∨ id ∈ Stmt.visited ss) ∧
      w.site.graph.CallsAt w.lambdas w.scope (flagArguments w.site.guards) id c := by
  intro c hc
  obtain ⟨s, hs, hc⟩ := List.mem_filterMap.1 hc
  obtain ⟨hnone, -⟩ | ⟨m, q, q', t, hm, ⟨-, hfits⟩, heffect, ht, hs⟩ := h.written s hs
  · cases hnone.symm.trans hc
  · obtain ⟨id, rfl, hcall⟩ := heffect.callsAt hfits ht hs hc
    refine ⟨id, hm.imp Eq.symm ?_, hcall⟩
    rintro ⟨other, hother, ⟨⟩⟩
    exact hother

end

/-! ### The functions that are gathered -/

section

variable {w : Bench} {n : Option NodeId} {p p' : Progress}

/-- The functions that come from the bundles of lambdas which were not being lowered. -/
inductive Gathers (w : Bench) : List Code.Function → Prop
  | nil : Gathers w []
  | absorb {fs lambda g b} : Gathers w fs → lambda ∉ w.callers →
      w.lambdas.find? (·.name == lambda) = some g → w.lower g (w.callers ++ [lambda]) = .ok b →
      Gathers w (addFunctions fs b.functions)

theorem Work.gathers (h : w.Work n p p') (hp : w.Gathers p.functions) : w.Gathers p'.functions := by
  induction h with
  | done => exact hp
  | effect heffect _ ih =>
    cases heffect with
    | absorb _ _ hcallers hg hb => exact ih (.absorb hp hcallers hg hb)
    | _ => exact ih hp
  | visit _ _ _ _ ihvisit ih => exact ih (ihvisit hp)
  | branch _ _ _ _ _ _ iht ihf ih => exact ih (ihf (iht hp))
  | loop _ _ _ _ _ _ ihbody ih => exact ih (ihbody hp)
  | scope _ _ _ ihbody ih => exact ih (ihbody hp)

end

end Bench

/-! ### Functions -/

section

variable {lambdas : List Graph} {guards : Bool} {g l : Graph} {callers : List String} {depth : Nat}
variable {b : Bundle} {f : Code.Function}
variable {structs : Structs} {s : Signature}

def functionBench (lambdas : List Graph) (guards : Bool) (depth : Nat)
    (callers : List String) (g : Graph) (s : Signature) : Bench :=
  ⟨s.site g .function guards, lambdas, callers, lowerBundle lambdas guards depth, true⟩

section

variable (h : Signature.ofFunction g structs guards = .ok s)
include h

theorem functionBench_isFunction (lambdas : List Graph) (depth : Nat) (callers : List String) :
    (functionBench lambdas guards depth callers g s).site.IsFunction :=
  ⟨rfl, (ofFunction_isFunction h).1, (ofFunction_isFunction h).2.1⟩

theorem functionBench_works (lambdas : List Graph)
    (depth : Nat) (callers : List String) (ds : List Diagnostic) :
    let w := functionBench lambdas guards depth callers g s
    Works w ds none anyhow (lowerBody w.site lambdas w.function s.dimensions [])
      (watchedBody ds w.site lambdas w.function s.dimensions) fun _ => anyhow :=
  lowerBody_works (Bench.supplied_of_lower rfl) rfl (fun _ => (ofFunction_isFunction h).2.2)
    (List.forall_mem_nil _) ds

theorem ofFunction_stands (id : NodeId) (x : Name) (hx : s.symbols.Binds id x) : g.Stands id x := by
  obtain ⟨p, hp, rfl, rfl⟩ := ofFunction_binds h hx
  intro hvalid index type hkind
  cases (hvalid.mem_parameters.1 hp).symm.trans hkind
  rfl

end

/-- The lowering of a graph ends with the function. -/
def LoweredFrom (lambdas : List Graph) (guards : Bool) (l : Graph) (f : Code.Function) : Prop :=
  ∃ depth callers b, lowerBundle lambdas guards depth l callers = .ok b ∧
    b.functions.getLast? = some f

/-- The function is that of the graph, and completes the functions that were gathered. -/
structure Completes (lambdas : List Graph) (guards : Bool) (l : Graph)
    (callees : List Code.Function) (f : Code.Function) : Prop where
  name : f.name = functionName l.name
  parameters : ∃ structs s, Signature.ofFunction l structs guards = .ok s ∧
    f.parameters = s.parameters
  known : ∀ id ∈ f.visited, ∃ kind, l.kind? id = some kind
  calls : ∀ c ∈ f.calls, ∃ id ∈ f.visited, l.CallsAt lambdas [] (flagArguments guards) id c
  listed : ∀ id ∈ f.visited, ∀ lambda, l.lambdaAt? id = some lambda →
    functionName lambda ∈ callees.map Code.Function.name

theorem lowerBundle_completes (h : lowerBundle lambdas guards depth g callers = .ok b) :
    ∃ n s callees f, depth = n + 1 ∧ b.functions = callees ++ [f] ∧
      (functionBench lambdas guards n callers g s).Gathers callees ∧
      Completes lambdas guards g callees f := by
  obtain _ | n := depth
  · cases h
  obtain ⟨result, structs, s, p, -, hs, hbody, rfl⟩ := lowerFunction_eq_ok h
  obtain ⟨hwork, -⟩ := functionBench_works hs lambdas n callers [] trivial hbody
  have houtside : (functionBench lambdas guards n callers g s).IsAt none :=
    fun _ h => absurd h (Option.some_ne_none _).symm
  obtain ⟨ss, hblock, hshows⟩ := hwork.shows Bench.fits_invariant ⟨houtside, ofFunction_stands hs⟩
  obtain rfl : p.body = ss := by simp [Progress.body, hblock, Progress.start]
  refine ⟨n, s, p.functions, _, rfl, rfl, hwork.gathers .nil, rfl, ⟨structs, s, hs, rfl⟩,
    hshows.known, fun c hc => ?_, fun id hid lambda hlambda => ?_⟩
  · obtain ⟨id, hid, hcalls⟩ := hshows.callsAt c hc
    exact ⟨id, hid.resolve_left (Option.some_ne_none id).symm, hcalls⟩
  · obtain ⟨f, hf, hname⟩ := hshows.listed id hid lambda hlambda
    exact List.mem_map.2 ⟨f, hf, hname⟩

theorem LoweredFrom.completes (h : LoweredFrom lambdas guards l f) :
    ∃ callees, Completes lambdas guards l callees f := by
  obtain ⟨depth, callers, b, hb, hlast⟩ := h
  obtain ⟨n, s, callees, f', -, hfunctions, -, hf'⟩ := lowerBundle_completes hb
  rw [hfunctions, List.getLast?_concat] at hlast
  cases hlast
  exact ⟨callees, hf'⟩

end

end Lowering

end Kernelwright
