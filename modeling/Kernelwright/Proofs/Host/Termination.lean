import Mathlib.Data.Fintype.Order
import Mathlib.Data.Set.Finite.Basic
import Kernelwright.Proofs.Host.Recomputation
import Kernelwright.Proofs.Host.Relocation
import Kernelwright.Proofs.Host.Safety

/-!
# Calls without loops end

Where no walk comes back to a node and no node is evaluated from itself, some fuel is enough for
every call, although the lambdas may call one another. Calls nest to a limited depth, so the deepest
ones end; within a call, operands end before the node they are evaluated for, and the walk ends at a
node after it has from all that may follow. A call that gives a value has not come near the limit on
the depth.
-/

namespace Kernelwright

open Relation

instance : Finite NodeId :=
  .of_injective (fun id => id.index.toFin) fun _ _ h => congrArg NodeId.mk (UInt32.toFin_inj.1 h)

/-- What a call may stop for, other than a lack of fuel: a fault of a graph, a cause that the
evaluation knows, or a new array of one of the lambdas that there is no room for. -/
def HostError.Ends (lambdas : List Graph) (e : HostError) : Prop :=
  e ≠ outOfFuel ∧ ((∃ fault, e = graph fault) ∨ e.Admitted lambdas)

namespace Graph

variable {g : Graph}

/-- The second node is evaluated for the first. The values of a phi are not. -/
def Takes (g : Graph) (id x : NodeId) : Prop :=
  ∃ o, g.kind? id = some (.operation o) ∧ x ∈ o.needs

/-- No walk comes back to a node, be it by a back edge, and no node is evaluated from itself. -/
structure Loopless (g : Graph) : Prop where
  control : ∀ id, ¬ TransGen g.LeadsTo id id
  operands : ∀ id, ¬ TransGen g.Takes id id

/-- Induction towards what a node leads to. -/
theorem wellFounded_of_acyclic {r : NodeId → NodeId → Prop} (h : ∀ id, ¬ TransGen r id id) :
    WellFounded fun x id => r id x := by
  have : IsTrans NodeId fun x id => TransGen r id x := ⟨fun _ _ _ hxy hyz => hyz.trans hxy⟩
  have : Std.Irrefl fun x id : NodeId => TransGen r id x := ⟨h⟩
  have hwf : WellFounded fun x id => TransGen r id x := Finite.wellFounded_of_trans_of_irrefl _
  exact Subrelation.wf (fun h => .single h) hwf

end Graph

namespace Host

variable {g : Graph} {lambdas : List Graph} {fuel depth : Nat} {id : NodeId} {m : Machine}

/-! ### Enough fuel -/

/-- Arrays are known as in every evaluation, and all but a lack of fuel may stop it. -/
def ending (lambdas : List Graph) : Pairing :=
  kept (HostError.Ends lambdas) fun {e} he =>
    ⟨fun hfuel => (by cases hfuel ▸ he), .inr ((known lambdas).stops he)⟩

/-- The evaluation ends, wherever it begins in the graph. -/
abbrev Ends (lambdas : List Graph) (g : Graph) (act : Run Slot) : Prop :=
  ∀ w, ((ending lambdas).within g).Relates w act act ((ending lambdas).within g).Slots

/-- Calls at a depth end, from whatever graph they are made. -/
def CallsEnd (lambdas : List Graph) (fuel depth : Nat) : Prop :=
  ∀ g, ∀ callee ∈ lambdas, ∀ w args args', List.Forall₂ (((ending lambdas).within g).Slots w) args
    args' →
    ((ending lambdas).within g).Relates w (run lambdas fuel depth callee args)
      (run lambdas fuel depth callee args') ((ending lambdas).within g).Slots

theorem lax_ending (g : Graph) : ((ending lambdas).within g).Lax :=
  fun fault => ⟨HostError.noConfusion, .inl ⟨fault, rfl⟩⟩

theorem CallsEnd.calls (h : CallsEnd lambdas fuel (depth + 1)) (hg : g ∈ lambdas) :
    ((ending lambdas).within g).Calls g (.withFuel lambdas fuel depth)
    (.withFuel lambdas fuel depth) :=
  ⟨⟨.inr (lax_ending g), fun hk hroom => ⟨HostError.noConfusion, .inr ⟨g, hg, _, hk, hroom⟩⟩⟩, rfl,
    fun hcallee hargs => h g _ (mem_of_lambda? hcallee) _ _ _ hargs⟩

/-- What is enough for each of finitely many is enough for all. -/
theorem exists_enough {ι : Type} [Finite ι] {P : ι → Nat → Prop}
    (h : ∀ i, ∃ n, ∀ fuel ≥ n, P i fuel) :
    ∃ n, ∀ fuel ≥ n, ∀ i, P i fuel := by
  choose f hf using h
  obtain ⟨n, hn⟩ := Finite.exists_le f
  exact ⟨n, fun fuel hfuel i => hf i fuel (Nat.le_trans (hn i) hfuel)⟩

theorem eval_ends (hg : g ∈ lambdas) (hloopless : g.Loopless)
    (hcalls : ∃ n, ∀ fuel ≥ n, CallsEnd lambdas fuel (depth + 1)) (id : NodeId) :
    ∃ n, ∀ fuel ≥ n, Ends lambdas g (eval lambdas fuel depth id) := by
  obtain ⟨n, hn⟩ := hcalls
  induction id using (Graph.wellFounded_of_acyclic hloopless.operands).induction with
  | _ id ih =>
    obtain ⟨k, hk⟩ : ∃ k, ∀ fuel ≥ k, ∀ x : { x // g.Takes id x },
        Ends lambdas g (eval lambdas fuel depth x) := exists_enough fun x => ih x x.2
    refine ⟨max n k + 1, fun fuel hfuel w => ?_⟩
    obtain ⟨fuel, rfl⟩ := Nat.exists_eq_add_of_lt hfuel
    rw [eval]
    refine ((hn _ (by omega)).calls hg).node ((ending lambdas).lawful g) (fun hm => hm.1)
      (.inr (lax_ending g)) fun o ho x hx => ?_
    exact hk _ (by omega) ⟨x, o, ho, hx⟩

theorem walk_ends (hloopless : g.Loopless) (id : NodeId) :
    ∃ n, ∀ fuel ≥ n, ∀ sem back, ((ending lambdas).within g).Agrees g sem sem →
      Ends lambdas g (sem.walk g fuel id back) := by
  induction id using (Graph.wellFounded_of_acyclic hloopless.control).induction with
  | _ id ih =>
    obtain ⟨n, hn⟩ : ∃ n, ∀ fuel ≥ n, ∀ x : { x // g.LeadsTo id x }, ∀ sem back,
        ((ending lambdas).within g).Agrees g sem sem → Ends lambdas g (sem.walk g fuel x back) :=
      exists_enough fun x => ih x x.2
    refine ⟨n + 1, fun fuel hfuel sem back hsem w => ?_⟩
    obtain ⟨fuel, rfl⟩ := Nat.exists_eq_add_of_lt hfuel
    refine (hsem.step ((ending lambdas).lawful g) (.inr (lax_ending g)) back).bind
      fun w next _ _ hnext => ?_
    cases hnext with
    | goto back hlead _ => exact hn _ (by omega) ⟨_, hlead⟩ sem back hsem w
    | done hs => exact .pure hs

/-- Calls end at every depth: from the limit upwards, those at a depth end as those below it do. -/
theorem calls_end (hlambdas : ∀ g ∈ lambdas, g.Loopless) (k depth : Nat)
    (hdepth : maxCallDepth < depth + k) :
    ∃ n, ∀ fuel ≥ n, CallsEnd lambdas fuel depth := by
  have : Finite { g // g ∈ lambdas } := lambdas.finite_toSet
  induction k generalizing depth with
  | zero =>
    refine ⟨1, fun fuel hfuel g callee _ w args args' _ => ?_⟩
    obtain ⟨fuel, rfl⟩ := Nat.exists_eq_add_of_lt hfuel
    rw [run, if_pos (show depth > maxCallDepth from hdepth)]
    exact .fail ((ending lambdas).stops rfl)
  | succ k ih =>
    have hcalls := ih (depth + 1) (by omega)
    obtain ⟨n, hn⟩ : ∃ n, ∀ fuel ≥ n, ∀ (g : { g // g ∈ lambdas }) (id : NodeId),
        Ends lambdas g (eval lambdas fuel depth id) :=
      exists_enough fun g => exists_enough (eval_ends g.2 (hlambdas g g.2) hcalls)
    obtain ⟨l, hl⟩ : ∃ l, ∀ fuel ≥ l,
      ∀ (g : { g // g ∈ lambdas }) (id : NodeId) (sem : Semantics) back,
        ((ending lambdas).within g).Agrees g sem sem → Ends lambdas g (sem.walk g fuel id back) :=
      exists_enough fun g => exists_enough (walk_ends (hlambdas g g.2))
    obtain ⟨r, hr⟩ := hcalls
    refine ⟨max r (max n l) + 1, fun fuel hfuel g callee hcallee w args args' hargs => ?_⟩
    obtain ⟨fuel, rfl⟩ := Nat.exists_eq_add_of_lt hfuel
    rw [run, run]
    split
    · exact .fail ((ending lambdas).stops rfl)
    · refine Pairing.call rfl (.enter callee hargs)
        (.ofGraph_bind (P := fun _ => True) (.inr (lax_ending callee))
        fun start _ _ => ?_)
      exact hl _ (by omega) ⟨callee, hcallee⟩ start _ false
        ⟨(hr _ (by omega)).calls hcallee, fun {id} _ => hn _ (by omega) ⟨callee, hcallee⟩ id⟩ w

/-! ### The limit on calls -/

/-- What is called beyond the limit makes no difference to a call that gives a result. -/
theorem runBeyond_of_ok (deep : Graph → List Slot → Run Slot) {args : List Slot} {s : Slot}
    {m' : Machine} (h : run lambdas fuel depth g args m = .ok (s, m')) :
    ∃ n, runBeyond deep lambdas fuel depth g args m = .ok (s, n) ∧ n.arena = m'.arena := by
  -- behind no arrays at all, every handle is itself
  have hlike {s s' : Slot} : s.Like (fun i j => j = 0 + i) s' ↔
    s' = s := by simp only [Nat.zero_add, Slot.like_eq]
  have hfound (o : Option Slot) : Slot.Found (fun i j => j = 0 + i) o o := by
    cases o with
    | none => exact .none
    | some s => exact .some (hlike.2 rfl)
  have hframe : m.frame.Like (fun i j => j = 0 + i) m.frame :=
    ⟨rfl, fun _ => hfound _, fun _ => hfound _, fun _ => hfound _, fun _ => hfound _⟩
  have hrelated := Pairing.related_beyond (H := behind #[] 0) (G := fun _ => True) lambdas 0
    (fun g _ => Comparison.Lax.admits (fun _ => trivial) (fun _ _ => trivial) g)
    (fun _ _ _ => trivial) (Nat.le_refl fuel) trivial deep (fun h => absurd h (Nat.lt_irrefl 0))
    depth
  rcases hrelated.run m.frame.graph g trivial () args args
    (List.forall₂_same.2 fun _ _ => hlike.2 rfl) m m ⟨rfl, hframe, Array.empty_append.symm⟩ with
    ⟨_, s', _, n, _, hrun, hrun', -, hn, hs⟩ | ⟨e, hrun, -⟩ | ⟨e, -, hpos, -⟩
  · cases h.symm.trans hrun
    cases hlike.1 hs
    exact ⟨n, hrun', hn.2.2.trans Array.empty_append⟩
  · cases h.symm.trans hrun
  · exact absurd hpos (Nat.lt_irrefl 0)

/-- Among lambdas without loops some fuel is enough for all calls, and then each gives a value or
stops for a cause other than a lack of fuel. A call that is nested deeper than 64 stops, and none is
made on the way to a value: the value is there whatever such calls would do. -/
theorem loopless_calls_end (hlambdas : ∀ g ∈ lambdas, g.Loopless) :
    (∃ enough, ∀ fuel ≥ enough, ∀ name args, (∃ v, call lambdas fuel name args = .ok v) ∨
      ∃ e, call lambdas fuel name args = .error e ∧ e.Ends lambdas) ∧
    (∀ fuel depth g args m, 64 < depth → ∃ e, run lambdas fuel depth g args m = .error e) ∧
    ∀ deep fuel depth g args m s m', run lambdas fuel depth g args m = .ok (s, m') →
      ∃ n, runBeyond deep lambdas fuel depth g args m = .ok (s, n) ∧ n.arena = m'.arena := by
  refine ⟨?_, fun fuel depth g args m hdepth => ?_, fun deep _ _ _ _ _ _ _ => runBeyond_of_ok deep⟩
  · obtain ⟨n, hn⟩ := calls_end hlambdas 65 0 (by decide)
    exact ⟨n, fun fuel hfuel => call_ends (ending lambdas).stops (hn fuel hfuel)⟩
  · cases fuel with
    | zero => exact ⟨_, rfl⟩
    | succ fuel =>
      rw [run, if_pos (show depth > maxCallDepth from hdepth)]
      exact ⟨_, rfl⟩

/-- Where a walk or an evaluation goes from a node. -/
def onward : NodeKind → List NodeId
  | .control (.backEdge head) => [head]
  | .control c => c.successors
  | .operation o => o.needs
  | .unsupported .. => []

theorem acyclic_of_position {r : NodeId → NodeId → Prop}
    (hr : ∀ a b, r a b → a.position < b.position) (id : NodeId) : ¬ TransGen r id id := by
  suffices h : ∀ x, TransGen r id x → id.position < x.position from fun hid =>
    Nat.lt_irrefl _ (h id hid)
  intro x hx
  induction hx with
  | single h => exact hr _ _ h
  | tail _ h ih => exact Nat.lt_trans ih (hr _ _ h)

/-- If all edges go up the node table, there is no loop. -/
theorem loopless_of_ordered
    (horder : ∀ n ∈ g.nodes.toList, ∀ x ∈ onward n.kind, n.id.position < x.position) :
    g.Loopless := by
  refine ⟨acyclic_of_position ?_, acyclic_of_position ?_⟩
  · rintro a b ⟨c, hk, hb⟩
    refine horder _ (Graph.mem_of_kind? hk) b ?_
    rcases hb with hb | rfl
    · cases c with
      | backEdge => cases hb
      | _ => exact hb
    · exact .head _
  · rintro a b ⟨o, hk, hb⟩
    exact horder _ (Graph.mem_of_kind? hk) b hb

/-- Calls itself for ever. -/
def echo : Graph := .ofKinds "echo" [
  .start 1,
  .ret (some 2),
  .operation (.invoke (.lambda "echo") [3] (.scalar .int)),
  .parameter 0 .int]

theorem echo_ends :
    (∀ g ∈ [echo], g.Loopless) ∧
    call [echo] 300 "echo" [.value (.scalar (.int 1))] = .error (.callDepth "echo") ∧
    ∃ enough, ∀ fuel ≥ enough, ∀ name args, (∃ v, call [echo] fuel name args = .ok v) ∨
      ∃ e, call [echo] fuel name args = .error e ∧ e.Ends [echo] := by
  have hloopless : ∀ g ∈ [echo], g.Loopless :=
    List.forall_mem_singleton.2 (loopless_of_ordered (by decide +kernel))
  exact ⟨hloopless, by decide +kernel, (loopless_calls_end hloopless).1⟩

/-- A new array for which there is no room ends a call without a loop, but not with an answer. -/
theorem vast_has_no_answer : vast.validate = .ok () ∧ vast.Loopless ∧
    ¬ ((∃ v, call [vast] 3 "vast" [] = .ok v) ∨
      ∃ e, call [vast] 3 "vast" [] = .error e ∧
        (e.isEvaluation = true ∨ ∃ fault, e = .graph fault)) := by
  have hcall : call [vast] 3 "vast" [] = .error (.noRoom 18446744073709551615 1) := by
    decide +kernel
  refine ⟨by decide +kernel, loopless_of_ordered (by decide +kernel), ?_⟩
  rw [hcall]
  rintro (⟨v, hv⟩ | ⟨e, he, hcause | ⟨fault, hcause⟩⟩)
  · cases hv
  · cases he
    cases hcause
  · cases he
    cases hcause

end Host

end Kernelwright
