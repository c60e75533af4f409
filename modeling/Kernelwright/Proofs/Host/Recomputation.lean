import Kernelwright.Proofs.Host.Comparison

/-!
# Evaluation without memory

The host remembers what it has evaluated. `recompute` is the same evaluation without that memory. Of
pure operations the result depends on the graph, the arguments and the phis alone. What a node is
evaluated to is what it is recomputed to, as long as that holds of all that is remembered.
-/

namespace Kernelwright

variable {o : Operation}

theorem Operation.allocates_of_isPure (ho : o.isPure = true) :
    Host.Semantics.allocates o = false := by
  cases o with
  | newArray | mapChain => cases ho
  | _ => rfl

theorem ValueKind.eq_scalar {κ : ValueKind} {k : ScalarKind} (h : κ.scalar? = some k) :
    κ = .scalar k := by
  cases κ <;> cases h
  rfl

namespace Graph

/-- The nodes `T` are pure operations, and so are the operands that are evaluated with them. -/
def PureOn (g : Graph) (T : NodeId → Prop) : Prop :=
  ∀ id o, T id → g.kind? id = some (.operation o) → o.isPure = true ∧ ∀ x ∈ o.needs, T x

/-- A node is evaluated from another one: it is that node, or one of its operands is evaluated from
it. The values of a phi do not count, as it has been assigned before. -/
inductive Needs (g : Graph) : NodeId → NodeId → Prop
  | refl (id : NodeId) : Needs g id id
  | operand {id x y o} : g.kind? id = some (.operation o) → x ∈ o.needs → Needs g x y → Needs g id y

theorem Needs.trans {g : Graph} {x y z : NodeId} (h : g.Needs x y) (h' : g.Needs y z) :
    g.Needs x z := by
  induction h with
  | refl => exact h'
  | operand hk hx _ ih => exact .operand hk hx (ih h')

end Graph

namespace Host

variable {m' : Machine}

section Steps

variable {α β : Type} {m : Machine} {r : β × Machine}
variable {e : HostError} {f : α → Run β}

theorem Run.frame_bind (f : Frame → Run β) : (Run.frame >>= f) m = f m.frame m := rfl

theorem Run.ofOption_eq_ok {o : Option β} :
    Run.ofOption o e m = .ok r ↔ o = some r.1 ∧ r.2 = m := by
  obtain ⟨b, m'⟩ := r
  cases o <;> simp [Run.ofOption, eq_comm]

theorem Run.ofOption_bind_eq_ok {o : Option α} :
    (Run.ofOption o e >>= f) m = .ok r ↔ ∃ a, o = some a ∧ f a m = .ok r := by
  rw [Step.bind_eq_ok]
  cases o with
  | none => simp [Run.ofOption]
  | some a => exact ⟨fun ⟨_, _, h, hf⟩ => by cases h; exact ⟨a, rfl, hf⟩, fun ⟨_, h, hf⟩ => by
      cases h; exact ⟨a, m, rfl, hf⟩⟩

theorem Run.ofGraph_bind_eq_ok {x : Except KernelError α} :
    (Run.ofGraph x >>= f) m = .ok r ↔ ∃ a, x = .ok a ∧ f a m = .ok r := by
  rw [Step.bind_eq_ok]
  cases x with
  | error e => simp [Run.ofGraph]
  | ok a => exact ⟨fun ⟨_, _, h, hf⟩ => by cases h; exact ⟨a, rfl, hf⟩, fun ⟨_, h, hf⟩ => by
      cases h; exact ⟨a, m, rfl, hf⟩⟩

theorem Run.within_eq_ok {f : Frame} {act : Run α} {m' : Machine} {a : α}
    (h : Run.within f act m = .ok (a, m')) :
    ∃ m₁, act ⟨f, m.arena⟩ = .ok (a, m₁) ∧ m' = ⟨m.frame, m₁.arena⟩ := by
  unfold Run.within at h
  split at h
  · rename_i m₁ hact
    cases h
    exact ⟨m₁, hact, rfl⟩
  · cases h

theorem Semantics.control_of_step {sem : Semantics} {g : Graph} {id : NodeId} {back : Bool}
    {r : Next × Machine} (h : sem.step g id back m = .ok r) :
    ∃ c, g.kind? id = some (.control c) ∧ sem.control g id back c m = .ok r := by
  obtain ⟨k, hk, h⟩ := Run.ofGraph_bind_eq_ok.1 h
  cases k with
  | operation | unsupported => cases h
  | control c => exact ⟨c, Graph.kind_eq_ok_iff.1 hk, h⟩

end Steps

/-- The value of a node in the frame at work, evaluated without any memory. -/
def recompute (lambdas : List Graph) : Nat → Nat → NodeId → Run Slot
  | 0, _, _ => .fail .outOfFuel
  | fuel + 1, depth, id => do
    let f ← Run.frame
    match ← Run.ofGraph (f.graph.kind id) with
    | .operation o =>
      Semantics.operation ⟨lambdas, recompute lambdas fuel depth, run lambdas fuel (depth + 1)⟩ id o
    | .unsupported name _ _ => .fail (.noSemantics name id)
    | .control _ => .fail (.graph (f.graph.misplaced id))

/-! ### Machines that keep something -/

variable {α : Type}

/-- The comparison of evaluations with themselves, where `P` holds of the machine all along. -/
def keeping (P : Machine → Prop) : Comparison where
  World := Unit
  Later _ _ := True
  Handles _ i j := j = i
  Stops _ := True
  Stops' _ := False
  refl _ := trivial
  trans _ _ := trivial
  handles _ h := h
  stops _ := trivial
  Machines _ m n := n = m ∧ P m
  serves := by
    rintro _ m _ ⟨rfl, -⟩
    exact ⟨rfl, fun _ s hs => ⟨s, hs, Slot.like_eq.2 rfl⟩⟩

theorem run_frame {lambdas : List Graph} {fuel depth : Nat} {callee : Graph}
    {args : List Slot} {m : Machine}
    {s : Slot} (h : run lambdas fuel depth callee args m = .ok (s, m')) : m'.frame = m.frame := by
  cases fuel with
  | zero => cases h
  | succ fuel =>
    rw [run] at h
    split at h
    · cases h
    · obtain ⟨_, -, rfl⟩ := Run.within_eq_ok h
      rfl

section Keeping

variable {P : Machine → Prop} {m : Machine}

theorem keeping_relates {act : Run α} {Q : Unit → α → α → Prop} (hQ : ∀ a, Q () a a)
    (h : ∀ m a m', P m → act m = .ok (a, m') → P m') : (keeping P).Relates () act act Q := by
  rintro _ m ⟨rfl, hm⟩
  cases ha : act m with
  | error e => exact .inr (.inl ⟨e, rfl, trivial⟩)
  | ok r => exact .inl ⟨r.1, r.1, r.2, r.2, (), rfl, rfl, trivial, ⟨rfl, h m _ _ hm ha⟩, hQ _⟩

theorem keeps_of_relates {act : Run α} {Q : Unit → α → α → Prop}
    (h : (keeping P).Relates () act act Q)
    {a : α} (hm : P m) (ha : act m = .ok (a, m')) : P m' ∧ Q () a a := by
  rcases h m m ⟨rfl, hm⟩ with ⟨_, _, _, _, _, ha', ha'', -, hm', hQ⟩ | ⟨e, he, -⟩ | ⟨e, -, he⟩
  · cases ha.symm.trans ha'
    cases ha.symm.trans ha''
    exact ⟨hm'.2, hQ⟩
  · cases ha.symm.trans he
  · exact he.elim

theorem keeping_like (s : Slot) : (keeping P).Slots () s s := Slot.like_eq.2 rfl

variable (hP : ∀ m m', P m → m'.frame = m.frame → P m')
include hP

theorem sharing_keeping : (keeping P).Sharing := by
  have items (i : Nat) (m : Machine) (vs : Array Value) (m' : Machine) (hm : P m)
      (h : Run.items i m = .ok (vs, m')) : P m' := by
    unfold Run.items at h
    split at h <;> cases h
    exact hm
  refine ⟨fun {w i j} hij => ?_, fun {w i j} k v hij => ?_⟩
  · cases hij
    refine keeping_relates (fun vs => ⟨rfl, fun _ k _ _ => ?_⟩) (items i)
    exact (keeping_relates (fun _ => rfl) (items i)).bind_equal fun _ vs _ => .option _ trivial
  · cases hij
    refine keeping_relates (fun _ => trivial) fun m _ m' hm h => ?_
    cases h
    exact hP m _ hm rfl

/-- A call has a frame of its own. -/
theorem calls_keeping (lambdas : List Graph) (fuel depth : Nat) (g : Graph) :
    (keeping P).Calls g (.withFuel lambdas fuel depth) (.withFuel lambdas fuel depth) := by
  refine ⟨Comparison.Lax.admits (fun _ => trivial) (fun _ _ => trivial) g, rfl,
    fun {_ _ callee args args'} _ hargs => ?_⟩
  have hsame : List.Forall₂ (· = ·) args args' := hargs.imp fun _ _ hs => (Slot.like_eq.1 hs).symm
  rw [List.forall₂_eq_eq_eq] at hsame
  subst hsame
  refine keeping_relates keeping_like fun m s m' hm h => hP m m' hm (run_frame h)

end Keeping

/-! ### Recomputing -/

/-- The interpreter without memory, with some fuel at some depth of calls. -/
abbrev Semantics.unremembering (lambdas : List Graph) (fuel depth : Nat) : Semantics :=
  ⟨lambdas, recompute lambdas fuel depth, run lambdas fuel (depth + 1)⟩

variable {g : Graph} {T : NodeId → Prop} {lambdas : List Graph} {depth fuel fuel' : Nat}
variable {lambdas' : List Graph} {depth' : Nat} {sem : Semantics}
  {id : NodeId} {m n : Machine} {s : Slot}

theorem recompute_of_operation (hk : m.frame.graph.kind? id = some (.operation o)) :
    recompute lambdas (fuel + 1) depth id m =
      (Semantics.unremembering lambdas fuel depth).operation id o m := by
  rw [recompute, Run.frame_bind, Graph.kind_eq_ok_iff.2 hk]
  rfl

theorem operation_of_recompute {r : Slot × Machine}
    (h : recompute lambdas fuel depth id m = .ok r) :
    ∃ fuel' o, fuel = fuel' + 1 ∧ m.frame.graph.kind? id = some (.operation o) ∧
      (Semantics.unremembering lambdas fuel' depth).operation id o m = .ok r := by
  cases fuel with
  | zero => cases h
  | succ fuel =>
    obtain ⟨k, hk, h'⟩ := Run.ofGraph_bind_eq_ok.1 ((Run.frame_bind _).symm.trans h)
    have hk := Graph.kind_eq_ok_iff.1 hk
    cases k with
    | operation o => exact ⟨fuel, o, rfl, hk, h'⟩
    | unsupported | control => cases h'

/-! ### What operations give -/

theorem binary_scalar {op : BinaryOp} {k : ScalarKind} {a b v : Value}
    (h : binary op k a b = .ok v) :
    ∃ s : Scalar, v = .scalar s ∧ s.kind = k := by
  unfold binary at h
  split at h
  · rename_i hk
    obtain ⟨r, -, rfl⟩ := map_eq_ok.1 h
    exact ⟨_, rfl, hk.symm⟩
  · split at h <;>
    · obtain ⟨r, -, rfl⟩ := map_eq_ok.1 h
      exact ⟨_, rfl, Scalar.kind_cast _ _⟩

/-- What a pure operation gives in a frame, if `P` says what its operands give. -/
def Gives (P : NodeId → Slot → Prop) (f : Frame) (id : NodeId) (s : Slot) : Operation → Prop
  | .parameter index _ => f.args[index.toNat]? = some s
  | .phi _ _ => f.phis.get? id = some s
  | .constant v => s = .value v
  | .unary op x => ∃ a, P x (.value a) ∧ s = .value (unary op a)
  | .binary op x y => ∃ k a b v, f.graph.valueKind id = .scalar k ∧ P x (.value a) ∧
      P y (.value b) ∧ binary op k a b = .ok v ∧ s = .value v
  | .compare op x y => ∃ a b, P x (.value a) ∧ P y (.value b) ∧
      s = .value (.scalar (.boolean (satisfies op a b)))
  | .normalizeCompare x y => ∃ a b, P x (.value a) ∧ P y (.value b) ∧
      s = .value (.scalar (.int (sign a b)))
  | .conditional c t e => ∃ a, P c (.value a) ∧ P (if a.asBool then t else e) s
  | .convert k x => ∃ a, P x (.value a) ∧ s = .value (a.cast k)
  | .relabel _ x => P x s
  | .math op xs => ∃ vs, List.Forall₂ (fun x v => P x (.value v)) xs vs ∧
      s = .value (.scalar ((Scalar.double (math op (vs.map Value.asFloat))).cast
        ((f.graph.valueKind id).scalar?.getD .double)))
  | _ => True

theorem Gives.transfer {P Q : NodeId → Slot → Prop} {f f' : Frame} (h : Gives P f id s o)
    (hPQ : ∀ x ∈ o.needs, ∀ s, P x s → Q x s) (hgraph : f'.graph = f.graph)
    (hargs : f'.args = f.args)
    (hphi : o.isPhi = true → f.phis.get? id = some s → f'.phis.get? id = some s) :
    Gives Q f' id s o := by
  cases o with
  | parameter index type => exact (congrArg (·[index.toNat]?) hargs).trans h
  | phi merge values => exact hphi rfl h
  | unary op x | convert op x =>
    obtain ⟨a, ha, hs⟩ := h
    exact ⟨a, hPQ x (.head _) _ ha, hs⟩
  | binary op x y =>
    obtain ⟨k, a, b, v, hk, ha, hb, hv⟩ := h
    exact ⟨k, a, b, v, hgraph ▸ hk, hPQ x (.head _) _ ha, hPQ y (.tail _ (.head _)) _ hb, hv⟩
  | compare op x y | normalizeCompare x y =>
    obtain ⟨a, b, ha, hb, hs⟩ := h
    exact ⟨a, b, hPQ x (.head _) _ ha, hPQ y (.tail _ (.head _)) _ hb, hs⟩
  | conditional c t e =>
    obtain ⟨a, ha, hs⟩ := h
    refine ⟨a, hPQ c (.head _) _ ha, hPQ _ ?_ _ hs⟩
    split <;> simp [Operation.needs, Operation.inputs]
  | relabel op x => exact hPQ x (.head _) _ h
  | math op xs =>
    obtain ⟨vs, hvs, hs⟩ := h
    refine ⟨vs, (List.forall₂_and_left _ _ |>.2 ⟨fun _ hx => hx, hvs⟩).imp fun x v hx => ?_,
      hgraph ▸ hs⟩
    exact hPQ x hx.1 _ hx.2
  | _ => exact h

theorem Gives.mono {P Q : NodeId → Slot → Prop} {f : Frame} (h : Gives P f id s o)
    (hPQ : ∀ x ∈ o.needs, ∀ s, P x s → Q x s) : Gives Q f id s o :=
  h.transfer hPQ rfl rfl fun _ hs => hs

/-- An operation gives what its operands are evaluated to, one after the other, where `I` holds of
the machine all along and `K` says what is known of the operands by then. -/
theorem gives_of_operation {I : Machine → Prop} {K : Machine → NodeId → Slot → Prop}
    (ho : o.isPure = true) (heval : ∀ x ∈ o.needs, ∀ a s a', I a → sem.eval x a = .ok (s, a') →
      I a' ∧ K a' x s ∧ ∀ y ∈ o.needs, ∀ r, K a y r → K a' y r)
    (hm : I m) (h : sem.operation id o m = .ok (s, m')) : I m' ∧ Gives (K m') m.frame id s o := by
  have value {x : NodeId} {v : Value} {a a' : Machine} (hx : x ∈ o.needs) (ha : I a)
      (h : sem.value x a = .ok (v, a')) :
      I a' ∧ K a' x (.value v) ∧ ∀ y ∈ o.needs, ∀ r, K a y r → K a' y r := by
    obtain ⟨slot, a₁, hslot, h⟩ := Step.bind_eq_ok.1 h
    cases slot with
    | value w =>
      cases Step.pure_eq_ok.1 h
      exact heval x hx a _ _ ha hslot
    | array | void => cases h
  have values {xs : List NodeId} {vs : List Value} {a a' : Machine} (hxs : ∀ x ∈ xs, x ∈ o.needs)
      (ha : I a) (h : sem.values xs a = .ok (vs, a')) :
      I a' ∧ List.Forall₂ (fun x v => K a' x (.value v)) xs vs ∧
        ∀ y ∈ o.needs, ∀ r, K a y r → K a' y r := by
    induction xs generalizing vs a with
    | nil =>
      cases Step.pure_eq_ok.1 h
      exact ⟨ha, .nil, fun _ _ _ hr => hr⟩
    | cons x xs ih =>
      rw [List.forall_mem_cons] at hxs
      obtain ⟨v, a₁, hv, h⟩ := Step.bind_eq_ok.1 h
      obtain ⟨vs, a₂, hvs, ⟨⟩⟩ := Step.bind_pure_eq_ok.1 h
      obtain ⟨ha₁, hx, hlater⟩ := value hxs.1 ha hv
      obtain ⟨ha₂, hrest, hlater'⟩ := ih hxs.2 ha₁ hvs
      exact ⟨ha₂, .cons (hlater' x hxs.1 _ hx) hrest,
        fun y hy r hr => hlater' y hy r (hlater y hy r hr)⟩
  have pair {x y : NodeId} {v w : Value} {a₁ a₂ : Machine} (hx : x ∈ o.needs) (hy : y ∈ o.needs)
      (hv : sem.value x m = .ok (v, a₁)) (hw : sem.value y a₁ = .ok (w, a₂)) :
      I a₂ ∧ K a₂ x (.value v) ∧ K a₂ y (.value w) := by
    obtain ⟨ha₁, hv, -⟩ := value hx hm hv
    obtain ⟨ha₂, hw, hlater⟩ := value hy ha₁ hw
    exact ⟨ha₂, hlater x hx _ hv, hw⟩
  cases o with
  | parameter | phi =>
    obtain ⟨hs, rfl⟩ := Run.ofOption_eq_ok.1 h
    exact ⟨hm, hs⟩
  | constant v =>
    cases Step.pure_eq_ok.1 h
    exact ⟨hm, rfl⟩
  | unary op x | convert k x =>
    obtain ⟨a, m₁, ha, ⟨⟩⟩ := Step.bind_pure_eq_ok.1 h
    obtain ⟨hm₁, ha, -⟩ := value (.head _) hm ha
    exact ⟨hm₁, a, ha, rfl⟩
  | binary op x y =>
    obtain ⟨k, hkind, h⟩ := Run.ofOption_bind_eq_ok.1 ((Run.frame_bind _).symm.trans h)
    obtain ⟨a, m₁, ha, h⟩ := Step.bind_eq_ok.1 h
    obtain ⟨b, m₂, hb, h⟩ := Step.bind_eq_ok.1 h
    obtain ⟨hm₂, ha, hb⟩ := pair (.head _) (.tail _ (.head _)) ha hb
    cases hv : binary op k a b with
    | error e =>
      rw [hv] at h
      cases h
    | ok v =>
      rw [hv] at h
      cases Step.pure_eq_ok.1 h
      exact ⟨hm₂, k, a, b, v, ValueKind.eq_scalar hkind, ha, hb, hv, rfl⟩
  | compare op x y | normalizeCompare x y =>
    obtain ⟨a, m₁, ha, h⟩ := Step.bind_eq_ok.1 h
    obtain ⟨b, m₂, hb, ⟨⟩⟩ := Step.bind_pure_eq_ok.1 h
    obtain ⟨hm₂, ha, hb⟩ := pair (.head _) (.tail _ (.head _)) ha hb
    exact ⟨hm₂, a, b, ha, hb, rfl⟩
  | conditional c t e =>
    obtain ⟨a, m₁, ha, h⟩ := Step.bind_eq_ok.1 h
    obtain ⟨hm₁, ha, -⟩ := value (.head _) hm ha
    have hside : (if a.asBool then t else e) ∈ (Operation.conditional c t e).needs := by
      split <;> simp [Operation.needs, Operation.inputs]
    rw [← apply_ite sem.eval] at h
    obtain ⟨hm', hs, hlater⟩ := heval _ hside m₁ s m' hm₁ h
    exact ⟨hm', a, hlater c (.head _) _ ha, hs⟩
  | relabel op x =>
    obtain ⟨hm', hs, -⟩ := heval x (.head _) m s m' hm h
    exact ⟨hm', hs⟩
  | math op xs =>
    obtain ⟨vs, m₁, hvs, ⟨⟩⟩ := Step.bind_pure_eq_ok.1 ((Run.frame_bind _).symm.trans h)
    obtain ⟨hm₁, hvs, -⟩ := values (fun _ hx => hx) hm hvs
    exact ⟨hm₁, vs, hvs, rfl⟩
  | _ => cases ho

/-- An operation that is given its operands ends, if evaluating them changes nothing. -/
theorem operation_of_gives {P : NodeId → Slot → Prop} (ho : o.isPure = true)
    (hP : ∀ x ∈ o.needs, ∀ s, P x s → sem.eval x n = .ok (s, n)) (h : Gives P n.frame id s o) :
    sem.operation id o n = .ok (s, n) := by
  have value {x : NodeId} {v : Value} (hx : x ∈ o.needs) (h : P x (.value v)) : sem.value x
      n = .ok (v, n) :=
    Step.bind_eq_ok.2 ⟨_, n, hP x hx _ h, rfl⟩
  cases o with
  | parameter | phi => exact Run.ofOption_eq_ok.2 ⟨h, rfl⟩
  | constant v =>
    cases h
    rfl
  | unary op x | convert k x =>
    obtain ⟨a, ha, rfl⟩ := h
    exact Step.bind_pure_eq_ok.2 ⟨a, n, value (.head _) ha, rfl⟩
  | binary op x y =>
    obtain ⟨k, a, b, v, hk, ha, hb, hv, rfl⟩ := h
    refine (Run.frame_bind _).trans (Run.ofOption_bind_eq_ok.2 ⟨k, by rw [hk]; rfl, ?_⟩)
    refine Step.bind_eq_ok.2
      ⟨a, n, value (.head _) ha, Step.bind_eq_ok.2 ⟨b, n, value (.tail _ (.head _)) hb, ?_⟩⟩
    rw [hv]
    rfl
  | compare op x y | normalizeCompare x y =>
    obtain ⟨a, b, ha, hb, rfl⟩ := h
    exact Step.bind_eq_ok.2 ⟨a, n, value (.head _) ha,
      Step.bind_pure_eq_ok.2 ⟨b, n, value (.tail _ (.head _)) hb, rfl⟩⟩
  | conditional c t e =>
    obtain ⟨a, ha, hs⟩ := h
    refine Step.bind_eq_ok.2 ⟨a, n, value (.head _) ha, ?_⟩
    rw [← apply_ite sem.eval]
    refine hP _ ?_ s hs
    split <;> simp [Operation.needs, Operation.inputs]
  | relabel op x => exact hP x (.head _) s h
  | math op xs =>
    obtain ⟨vs, hvs, rfl⟩ := h
    have hvalues : sem.values xs n = .ok (vs, n) := by
      replace value : ∀ x ∈ xs, ∀ v, P x (.value v) → sem.value x n = .ok (v, n) :=
        fun _ hx _ => value hx
      clear hP ho
      induction hvs with
      | nil => rfl
      | cons hv _ ih =>
        rw [List.forall_mem_cons] at value
        exact Step.bind_eq_ok.2 ⟨_, n, value.1 _ hv, Step.bind_pure_eq_ok.2 ⟨_, n, ih value.2, rfl⟩⟩
    exact (Run.frame_bind _).trans (Step.bind_pure_eq_ok.2 ⟨vs, n, hvalues, rfl⟩)
  | _ => cases ho

/-- Recomputing changes nothing and calls nothing. It gives the same where the phis that are used
have been assigned the same. -/
theorem recompute_again (hpure : g.PureOn T) (hm : m.frame.graph = g) (hn : n.frame.graph = g)
    (hargs : n.frame.args = m.frame.args)
    (hphis : ∀ phi, g.Uses phi id → ∀ s, m.frame.phis.get? phi = some s →
      n.frame.phis.get? phi = some s) (hfuel : fuel ≤ fuel') (hid : T id)
    (h : recompute lambdas fuel depth id m = .ok (s, m')) :
    m' = m ∧ recompute lambdas' fuel' depth' id n = .ok (s, n) := by
  induction fuel generalizing fuel' id s m' with
  | zero => cases h
  | succ fuel ih =>
    obtain ⟨_, o, hsucc, hk, h⟩ := operation_of_recompute h
    cases hsucc
    obtain ⟨fuel', rfl⟩ : ∃ l, fuel' = l + 1 := ⟨fuel' - 1, by omega⟩
    rw [hm] at hk
    obtain ⟨ho, hneeds⟩ := hpure id o hid hk
    obtain ⟨rfl, hgives⟩ := gives_of_operation (I := (· = m))
      (K := fun _ x s => recompute lambdas' fuel' depth' x n = .ok (s, n)) ho
        (fun x hx a r a' ha hr => by
        subst ha
        obtain ⟨rfl, hr'⟩ := ih (fun phi huses => hphis phi (.operand hk hx huses))
          (Nat.le_of_succ_le_succ hfuel) (hneeds x hx) hr
        exact ⟨rfl, hr', fun _ _ _ h => h⟩) rfl h
    rw [recompute_of_operation (by rw [hn, hk])]
    refine ⟨rfl, operation_of_gives ho (fun _ _ _ h => h) (hgives.transfer (fun _ _ _ h => h)
      (hn.trans hm.symm) hargs fun hphi hs => ?_)⟩
    cases o with
    | phi merge values => exact hphis id (.self ⟨_, _, hk⟩) s hs
    | _ => cases hphi

theorem recompute_state (hpure : g.PureOn T) (hg : m.frame.graph = g) (hid : T id)
    (h : recompute lambdas fuel depth id m = .ok (s, n)) : n = m :=
  have hagain : n = m ∧ recompute lambdas fuel depth id m = .ok (s, m) :=
    recompute_again hpure hg hg rfl (fun _ _ _ hs => hs) (Nat.le_refl fuel) hid h
  hagain.1

theorem gives_of_recompute (hpure : g.PureOn T) (hg : m.frame.graph = g) (hid : T id)
    (hk : g.kind? id = some (.operation o))
    (h : recompute lambdas (fuel + 1) depth id m = .ok (s, m')) :
    Gives (fun x s => recompute lambdas fuel depth x m = .ok (s, m)) m.frame id s o := by
  rw [recompute_of_operation (by rw [hg, hk])] at h
  obtain ⟨ho, hneeds⟩ := hpure id o hid hk
  refine (gives_of_operation (I := (· = m))
    (K := fun _ x s => recompute lambdas fuel depth x m = .ok (s, m))
    ho (fun x hx a r a' ha hr => ?_) rfl h).2
  subst ha
  obtain rfl := recompute_state hpure hg (hneeds x hx) hr
  exact ⟨rfl, hr, fun _ _ _ h => h⟩

/-- With enough fuel, the node is recomputed to the slot. -/
def Settles (lambdas : List Graph) (depth : Nat) (m : Machine) (id : NodeId) (s : Slot) : Prop :=
  ∃ fuel, recompute lambdas fuel depth id m = .ok (s, m)

theorem Settles.mono (h : Settles lambdas depth m id s) (hpure : g.PureOn T) (hid : T id)
    (hm : m.frame.graph = g) (hn : n.frame.graph = g) (hargs : n.frame.args = m.frame.args)
    (hphis : ∀ phi, g.Uses phi id → ∀ s, m.frame.phis.get? phi = some s →
      n.frame.phis.get? phi = some s) :
    Settles lambdas' depth' n id s := by
  obtain ⟨fuel, h⟩ := h
  exact ⟨fuel, (recompute_again hpure hm hn hargs hphis (Nat.le_refl fuel) hid h).2⟩

theorem exists_fuel (lambdas : List Graph) (depth : Nat) (hpure : g.PureOn T)
    (hg : n.frame.graph = g) (xs : List NodeId) (hxs : ∀ x ∈ xs, T x) :
    ∃ fuel, ∀ x ∈ xs, ∀ s, Settles lambdas depth n x s →
      recompute lambdas fuel depth x n = .ok (s, n) := by
  have hmore {l l' : Nat} (hl : l ≤ l') {x : NodeId} (hx : T x) {s : Slot}
      (h : recompute lambdas l depth x n = .ok (s, n)) :
      recompute lambdas l' depth x n = .ok (s, n) :=
    (recompute_again hpure hg hg rfl (fun _ _ _ hs => hs) hl hx h).2
  induction xs with
  | nil => exact ⟨0, List.forall_mem_nil _⟩
  | cons x xs ih =>
    rw [List.forall_mem_cons] at hxs
    obtain ⟨rest, hrest⟩ := ih hxs.2
    -- a node is recomputed to one slot at most, so the fuel for it does not depend on the slot
    obtain ⟨first, hfirst⟩ : ∃ first, ∀ s, Settles lambdas depth n x s →
        recompute lambdas first depth x n = .ok (s, n) := by
      by_cases hx : ∃ s, Settles lambdas depth n x s
      · obtain ⟨s, first, hs⟩ := hx
        refine ⟨first, fun s' hs' => ?_⟩
        obtain ⟨other, hs'⟩ := hs'
        have hsame := (hmore (Nat.le_max_left first other) hxs.1 hs).symm.trans
          (hmore (Nat.le_max_right first other) hxs.1 hs')
        cases hsame
        exact hs
      · exact ⟨0, fun s hs => absurd ⟨s, hs⟩ hx⟩
    refine ⟨max first rest, List.forall_mem_cons.2 ⟨fun s hs => ?_, fun y hy s hs => ?_⟩⟩
    · exact hmore (Nat.le_max_left _ _) hxs.1 (hfirst s hs)
    · exact hmore (Nat.le_max_right _ _) (hxs.2 y hy) (hrest y hy s hs)

theorem settles_of_gives (hpure : g.PureOn T) (hn : n.frame.graph = g) (hid : T id)
    (hk : g.kind? id = some (.operation o)) (h : Gives (Settles lambdas depth n) n.frame id s o) :
    Settles lambdas depth n id s := by
  obtain ⟨ho, hT⟩ := hpure id o hid hk
  obtain ⟨fuel, hfuel⟩ := exists_fuel lambdas depth hpure hn o.needs hT
  refine ⟨fuel + 1, ?_⟩
  rw [recompute_of_operation (by rw [hn, hk])]
  exact operation_of_gives ho hfuel h

/-! ### What is remembered -/

/-- A machine in a call that remembers nothing. -/
abbrev Machine.bare (g : Graph) (args : List Slot) (phis : Table) : Machine :=
  ⟨⟨g, args, phis, [], []⟩, #[]⟩

/-- How phis may be looked up from what is remembered: whatever is remembered in addition, a phi
keeps its value, and a phi that is remembered with its value has it. -/
structure Views (phis : Table) (view : Table → Table) : Prop where
  mono : ∀ {t t' : Table} {phi s}, (∀ s, t.get? phi = some s → t'.get? phi = some s) →
    (view t).get? phi = some s → (view t').get? phi = some s
  phi : ∀ {phi s} (t : Table), phis.get? phi = some s → (view (t.insert phi s)).get? phi = some s

theorem views_const (phis : Table) : Views phis fun _ => phis := ⟨fun _ hs => hs, fun _ hs => hs⟩

/-- The node is recomputed to the slot in a frame that remembers nothing, with phis looked up by
`view`. -/
abbrev Frame.Yields (lambdas : List Graph) (depth : Nat) (view : Table → Table) (f : Frame) :
    NodeId → Slot → Prop :=
  Settles lambdas depth (.bare f.graph f.args (view f.memo))

/-- What is known of the nodes `T` is what they are recomputed to. -/
def Frame.Recalls (lambdas : List Graph) (depth : Nat) (T : NodeId → Prop) (view : Table → Table)
    (f : Frame) : Prop :=
  ∀ id s, T id → f.known? id = some s → f.Yields lambdas depth view id s

/-- The second frame remembers more. What the first remembers of phis stays, and other phis are
remembered with their values. -/
def Frame.Grows (f f' : Frame) : Prop :=
  ∃ memo, f' = { f with memo := memo } ∧ ∀ phi s, f.graph.IsPhi phi →
    (f.memo.get? phi = some s → memo.get? phi = some s) ∧
      (memo.get? phi = some s → f.memo.get? phi = some s ∨ f.phis.get? phi = some s)

section Recalls

variable {f f' : Frame} {view : Table → Table} (hpure : g.PureOn T)

theorem Frame.Grows.refl (f : Frame) : f.Grows f := ⟨f.memo, rfl, fun _ _ _ => ⟨id, .inl⟩⟩

theorem Frame.Grows.trans {f'' : Frame} (h : f.Grows f') (h' : f'.Grows f'') : f.Grows f'' := by
  obtain ⟨memo, rfl, hmemo⟩ := h
  obtain ⟨memo', rfl, hmemo'⟩ := h'
  refine ⟨memo', rfl, fun phi s hphi => ⟨(hmemo' phi s hphi).1 ∘ (hmemo phi s hphi).1,
    fun hs => ?_⟩⟩
  exact ((hmemo' phi s hphi).2 hs).elim (hmemo phi s hphi).2 .inr

theorem Frame.Grows.same (h : f.Grows f') : f'.phis = f.phis ∧ f'.graph = f.graph := by
  obtain ⟨memo, rfl, -⟩ := h
  exact ⟨rfl, rfl⟩

include hpure

theorem Frame.Grows.settles (h : f.Grows f') (hview : Views f.phis view)
    (hg : f.graph = g) (hid : T id)
    (hs : f.Yields lambdas depth view id s) : f'.Yields lambdas depth view id s := by
  obtain ⟨memo, rfl, hmemo⟩ := h
  subst hg
  have hphis (phi : NodeId) (huses : f.graph.Uses phi id) (s : Slot) :
      (view f.memo).get? phi = some s → (view memo).get? phi = some s :=
    hview.mono fun s => (hmemo phi s huses.isPhi).1
  exact hs.mono hpure hid rfl rfl rfl hphis

/-- An evaluation gives what its node is recomputed to, as long as what is remembered does. -/
theorem eval_recalling (hview : Views m.frame.phis view) (hg : m.frame.graph = g) (hid : T id)
    (hm : m.frame.Recalls lambdas depth T view) (h : eval lambdas' fuel depth' id m = .ok (s, m')) :
    m.frame.Grows m'.frame ∧ m'.frame.Recalls lambdas depth T view ∧
      m'.frame.Yields lambdas depth view id s := by
  induction fuel generalizing id s m m' with
  | zero =>
    rw [eval] at h
    cases h
  | succ fuel ih =>
    rw [eval] at h
    replace h := (Run.frame_bind _).symm.trans h
    cases hknown : m.frame.known? id with
    | some known =>
      rw [hknown] at h
      cases Step.pure_eq_ok.1 h
      exact ⟨.refl _, hm, hm id s hid hknown⟩
    | none =>
      rw [hknown] at h
      obtain ⟨k, hk, h⟩ := Run.ofGraph_bind_eq_ok.1 h
      rw [hg] at hk
      have hk := Graph.kind_eq_ok_iff.1 hk
      cases k with
      | control | unsupported => cases h
      | operation o =>
        obtain ⟨s, m₁, hs, h⟩ := Step.bind_eq_ok.1 h
        obtain ⟨ho, hT⟩ := hpure id o hid hk
        rw [Operation.allocates_of_isPure ho] at h
        replace h := Step.after_ok rfl h
        cases Step.pure_eq_ok.1 h
        obtain ⟨⟨hgrows, hm₁⟩, hgives⟩ := gives_of_operation
          (I := fun a => m.frame.Grows a.frame ∧ a.frame.Recalls lambdas depth T view)
          (K := fun a => a.frame.Yields lambdas depth view) ho (fun x hx a r a' ha hr => by
            obtain ⟨hgrows, ha⟩ := ha
            obtain ⟨hphis, hgraph⟩ := hgrows.same
            obtain ⟨hgrows', ha', hsettles⟩ := ih (hphis ▸ hview) (hgraph.trans hg) (hT x hx) ha hr
            exact ⟨⟨hgrows.trans hgrows', ha'⟩, hsettles, fun y hy r =>
              hgrows'.settles hpure (hphis ▸ hview) (hgraph.trans hg) (hT y hy)⟩) ⟨.refl _, hm⟩ hs
        -- a phi has no operands, so nothing was remembered of it before its value
        have hlast : m₁.frame.Grows { m₁.frame with memo := m₁.frame.memo.insert id s } := by
          refine ⟨_, rfl, fun phi s' hphi => ?_⟩
          by_cases he : phi = id
          · subst he
            obtain ⟨merge, values, hphi⟩ := hphi
            rw [hgrows.same.2, hg] at hphi
            cases hk.symm.trans hphi
            obtain ⟨hs, rfl⟩ := Run.ofOption_eq_ok.1 hs
            rw [Frame.known?, Option.or_eq_none_iff] at hknown
            rw [Table.get?_insert_self, hknown.1]
            exact ⟨fun hs' => (by cases hs'), fun hs' => .inr (hs.trans hs')⟩
          · rw [Table.get?_insert_of_ne he]
            exact ⟨fun hs => hs, .inl⟩
        obtain ⟨hphis, hgraph⟩ := hgrows.same
        have hkept {x r} (hx : T x) (h : m₁.frame.Yields lambdas depth view x r) :=
          hlast.settles hpure (hphis ▸ hview) (hgraph.trans hg) hx h
        have hsettles : Frame.Yields lambdas depth view
            { m₁.frame with memo := m₁.frame.memo.insert id s } id s := by
          refine settles_of_gives hpure (hgraph.trans hg) hid hk
            (hgives.transfer (fun x hx _ => hkept (hT x hx)) hgraph ?_ fun _ hs => hview.phi _ hs)
          obtain ⟨_, hframe, -⟩ := hgrows
          rw [hframe]
        refine ⟨hgrows.trans hlast, fun other s' hother hs' => ?_, hsettles⟩
        by_cases ho : other = id
        · subst ho
          rw [Frame.known?, Table.get?_insert_self] at hs'
          cases hs'
          exact hsettles
        · rw [Frame.known?, Table.get?_insert_of_ne ho] at hs'
          exact hkept hother (hm₁ other s' hother hs')

end Recalls

end Host

end Kernelwright
