import Kernelwright.Proofs.Host.Recomputation

/-!
# The kinds of results

The host computes an operation of two operands in the kind that was inferred. But an operation of
one operand keeps the kind that its operand came with, and a conditional hands on the chosen side as
it is, where inference promotes: a negated byte is a byte here and an `int` there. So a result may
fall short of the kind that was inferred.
-/

namespace Kernelwright

/-! ### Promotion -/

/-- Values of the first kind can stand for values of the second: it is the same kind, or arithmetic
brings it there. -/
def ScalarKind.Widens (j k : ScalarKind) : Prop := j = k ∨ j.promote k = k

instance (j k : ScalarKind) : Decidable (j.Widens k) := inferInstanceAs (Decidable (_ ∨ _))

theorem ScalarKind.Widens.unary {j a k : ScalarKind} {op : UnaryOp} (h : j.Widens a)
    (hk : op.valueKind a = .scalar k) : j.Widens k := by
  cases op <;> cases a <;> cases hk <;> revert h <;> cases j <;> decide

theorem ScalarKind.Widens.choice {j a b k : ScalarKind} (h : j.Widens a ∨ j.Widens b)
    (hk : ValueKind.choice (.scalar a) (.scalar b) = .scalar k) : j.Widens k := by
  cases a <;> cases b <;> cases hk <;> revert h <;> cases j <;> decide

theorem ValueKind.scalar_of_choice {t f : ValueKind} {k : ScalarKind} (h : choice t f = .scalar k) :
    ∃ a b, t = .scalar a ∧ f = .scalar b := by
  unfold choice at h
  split at h
  · exact ⟨_, _, rfl, rfl⟩
  · rename_i hnone
    split at h
    · subst_vars
      exact absurd rfl (hnone _ _ rfl)
    · cases h

/-! ### Arithmetic nodes -/

def Operation.isArithmetic : Operation → Bool
  | .parameter _ (.scalar _) | .constant (.scalar _) | .unary .. | .binary .. | .compare .. => true
  | .normalizeCompare .. | .conditional .. | .convert .. => true
  | _ => false

theorem Operation.isPure_of_isArithmetic {o : Operation} (h : o.isArithmetic = true) :
    o.isPure = true := by
  cases o with
  | parameter | constant | unary | binary | compare | normalizeCompare | conditional | convert =>
    rfl
  | _ => cases h

/-- Whether the result of an operation has the kind of the operand it was made from or chosen
from. -/
def Operation.handsOn : Operation → Bool
  | .unary .. | .conditional .. => true
  | _ => false

namespace Graph

/-- The node is evaluated from arithmetic operations alone. -/
def IsArithmetic (g : Graph) (id : NodeId) : Prop :=
  ∀ x, g.Needs id x → ∃ o, g.kind? x = some (.operation o) ∧ o.isArithmetic = true

/-- Nodes from which the kind of a result may come: a node that computes in a kind of its own,
reached through operands of operations of one operand and sides of conditionals. -/
inductive TakenFrom (g : Graph) : NodeId → NodeId → Prop
  | self {id o} : g.kind? id = some (.operation o) → o.handsOn = false → TakenFrom g id id
  | unary {id op x source} : g.kind? id = some (.operation (.unary op x)) → TakenFrom g x source →
      TakenFrom g id source
  | onTrue {id c t f source} : g.kind? id = some (.operation (.conditional c t f)) →
      TakenFrom g t source → TakenFrom g id source
  | onFalse {id c t f source} : g.kind? id = some (.operation (.conditional c t f)) →
      TakenFrom g f source → TakenFrom g id source

theorem IsArithmetic.operand {g : Graph} {id x : NodeId} {o : Operation} (h : g.IsArithmetic id)
    (hk : g.kind? id = some (.operation o)) (hx : x ∈ o.needs) : g.IsArithmetic x :=
  fun y hy => h y (.operand hk hx hy)

theorem IsArithmetic.operation {g : Graph} {id : NodeId} (h : g.IsArithmetic id) :
    ∃ o, g.kind? id = some (.operation o) ∧ o.isArithmetic = true := h id (.refl id)

theorem IsArithmetic.pureOn {g : Graph} {id : NodeId} (h : g.IsArithmetic id) :
    g.PureOn (g.Needs id) := by
  intro x o hx hk
  obtain ⟨o', hk', ho⟩ := h x hx
  cases hk.symm.trans hk'
  exact ⟨Operation.isPure_of_isArithmetic ho, fun y hy => hx.trans (.operand hk hy (.refl y))⟩

/-- Whether a node is no operation, or an arithmetic one. -/
def isArithmeticSort : NodeKind → Bool
  | .control _ => true
  | .operation o => o.isArithmetic
  | .unsupported .. => false

/-- In a valid graph of control nodes and arithmetic operations, every operation is evaluated from
arithmetic operations alone. -/
theorem isArithmetic_of_nodes {g : Graph} {id : NodeId} {o : Operation} (hg : g.Valid)
    (hnodes : ∀ n ∈ g.nodes.toList, isArithmeticSort n.kind = true)
    (hk : g.kind? id = some (.operation o)) : g.IsArithmetic id := by
  intro y hy
  induction hy generalizing o with
  | refl => exact ⟨o, hk, hnodes _ (mem_of_kind? hk)⟩
  | operand hk' hx _ ih =>
    obtain ⟨k, hk, hvalue⟩ := hg.input hk' (Operation.mem_inputs_of_mem_needs hx)
    cases k with
    | operation o => exact ih hk
    | control c => cases hvalue
    | unsupported name ins next => cases hnodes _ (mem_of_kind? hk)

end Graph

namespace Host

theorem unary_kind (op : UnaryOp) (a : Scalar) :
    ∃ s, unary op (.scalar a) = .scalar s ∧ s.kind = a.kind := by
  cases op <;> cases a <;> exact ⟨_, rfl, rfl⟩

/-- The result of a node is a scalar of the kind of a node from which it may have been taken. That
kind can stand for the kind `k`. -/
def FromSource (g : Graph) (id : NodeId) (k : ScalarKind) (slot : Slot) : Prop :=
  ∃ s source, slot = .value (.scalar s) ∧ g.TakenFrom id source ∧
    g.valueKind source = .scalar s.kind ∧ s.kind.Widens k

/-- The arguments for the parameters that a node needs are scalars of the kinds that are
declared. -/
def ArgumentsFit (g : Graph) (args : List Slot) (id : NodeId) : Prop :=
  ∀ x index k slot, g.Needs id x → g.kind? x = some (.operation (.parameter index (.scalar k))) →
    args[index.toNat]? = some slot → ∃ s : Scalar, slot = .value (.scalar s) ∧ s.kind = k

variable {g : Graph} {lambdas : List Graph} {fuel depth : Nat} {id : NodeId} {k : ScalarKind}
  {slot : Slot} {m m' : Machine}

theorem fromSource_self {o : Operation} {s : Scalar} (hk : g.kind? id = some (.operation o))
    (ho : o.handsOn = false) (hkind : g.valueKind id = .scalar k) (hs : s.kind = k) :
    FromSource g id k (.value (.scalar s)) :=
  ⟨s, id, rfl, .self hk ho, by rw [hkind, hs], .inl hs⟩

theorem recompute_fromSource (hg : m.frame.graph = g) (hid : g.IsArithmetic id)
    (hargs : ArgumentsFit g m.frame.args id) (hkind : g.valueKind id = .scalar k)
    (h : recompute lambdas fuel depth id m = .ok (slot, m')) : FromSource g id k slot := by
  induction fuel generalizing id k slot m' with
  | zero => cases h
  | succ fuel ih =>
    obtain ⟨o, hk, ho⟩ := hid.operation
    have hrule : o.valueKind g.valueKind = .scalar k := by
      rw [← hkind]
      exact (Graph.valueKind_eq hk (by rw [hkind]; simp)).symm
    -- an operand that has the kind of a scalar comes from a source
    have hgives := (gives_of_recompute hid.pureOn hg (.refl id) hk h).mono
      (Q := fun x s => ∀ a, g.valueKind x = .scalar a → FromSource g x a s) fun x hx s hs a ha =>
        ih (hid.operand hk hx) (fun y index j slot hy => hargs y index j slot (.operand hk hx hy))
          ha hs
    cases o with
    | parameter index type =>
      cases type with
      | scalar j =>
        obtain ⟨s, rfl, hs⟩ := hargs id index j slot (.refl id) hk hgives
        cases hrule
        exact fromSource_self hk rfl hkind hs
      | tuple | array => cases ho
    | constant v =>
      cases v with
      | scalar s =>
        cases hgives
        cases hrule
        exact fromSource_self hk rfl hkind rfl
      | tuple vs => cases ho
    | unary op x =>
      obtain ⟨v, hv, rfl⟩ := hgives
      cases ha : g.valueKind x with
      | scalar a =>
        obtain ⟨r, source, ⟨⟩, htaken, hsource, hwide⟩ := hv a ha
        obtain ⟨s, hs, hsame⟩ := unary_kind op r
        simp only [Operation.valueKind, ha] at hrule
        rw [hs]
        exact ⟨s, source, rfl, .unary hk htaken, by rw [hsource, hsame],
          hsame ▸ hwide.unary hrule⟩
      | _ => simp [Operation.valueKind, ha] at hrule
    | binary op x y =>
      obtain ⟨j, a, b, v, hj, -, -, hv, rfl⟩ := hgives
      rw [hg, hkind] at hj
      cases hj
      obtain ⟨s, rfl, hs⟩ := binary_scalar hv
      exact fromSource_self hk rfl hkind hs
    | compare op x y | normalizeCompare x y =>
      obtain ⟨a, b, -, -, rfl⟩ := hgives
      refine fromSource_self hk rfl hkind ?_
      simp only [Operation.valueKind] at hrule
      split at hrule <;> cases hrule
      rfl
    | conditional c t f =>
      obtain ⟨v, -, hside⟩ := hgives
      obtain ⟨a, b, ha, hb⟩ := ValueKind.scalar_of_choice hrule
      rw [Operation.valueKind, ha, hb] at hrule
      split at hside
      · obtain ⟨s, source, rfl, htaken, hsource, hwide⟩ := hside a ha
        exact ⟨s, source, rfl, .onTrue hk htaken, hsource, .choice (.inl hwide) hrule⟩
      · obtain ⟨s, source, rfl, htaken, hsource, hwide⟩ := hside b hb
        exact ⟨s, source, rfl, .onFalse hk htaken, hsource, .choice (.inr hwide) hrule⟩
    | convert target x =>
      obtain ⟨v, hv, rfl⟩ := hgives
      cases ha : g.valueKind x with
      | scalar a =>
        obtain ⟨r, source, ⟨⟩, -⟩ := hv a ha
        simp only [Operation.valueKind, ha, ValueKind.scalar.injEq] at hrule
        exact fromSource_self hk rfl hkind (by rw [Scalar.kind_cast, hrule])
      | _ => simp [Operation.valueKind, ha] at hrule
    | _ => cases ho

/-- The kind of what the host evaluates. Take a node that is evaluated from scalar arithmetic alone,
and a frame that knows nothing wrong of it. A result is a scalar of the inferred kind of its source:
the node itself, or for an operation of one operand or a conditional a node that its value is taken
from. So it has the inferred kind `k` if its source does, and otherwise a kind that arithmetic would
promote to `k`. -/
theorem eval_kind_of_source (lambdas : List Graph) (fuel depth : Nat) (g : Graph) (id : NodeId)
    (hid : g.IsArithmetic id) (m : Machine) (hg : m.frame.graph = g)
    (hknown : ∀ x s, g.Needs id x → m.frame.known? x = some s → Settles lambdas depth m x s)
    (hargs : ArgumentsFit g m.frame.args id) (k : ScalarKind) (hkind : g.valueKind id = .scalar k)
    (slot : Slot) (m' : Machine) (h : eval lambdas fuel depth id m = .ok (slot, m')) :
    ∃ s source, slot = .value (.scalar s) ∧ g.TakenFrom id source ∧
      g.valueKind source = .scalar s.kind ∧ (s.kind = k ∨ s.kind.promote k = k) := by
  have hrecalls : m.frame.Recalls lambdas depth (g.Needs id) fun _ => m.frame.phis :=
    fun x s hx hs =>
    (hknown x s hx hs).mono hid.pureOn hx hg hg rfl fun _ _ _ hs => hs
  obtain ⟨⟨memo, hframe, -⟩, -, fuel', hagain⟩ :=
    eval_recalling hid.pureOn (views_const _) hg (.refl id) hrecalls h
  rw [hframe] at hagain
  exact recompute_fromSource (m := .bare _ _ _) hg hid hargs hkind hagain

/-- The negation of a byte if the byte is below zero, and otherwise a number in double precision. -/
def mixture : Graph := .ofKinds "mixture" [
  .start 6,
  .parameter 0 .byte,
  .parameter 1 .double,
  .int 0,
  .compare .lt 1 3,
  .operation (.unary .neg 1),
  .ret (some 7),
  .operation (.conditional 4 5 2)]

def mixtureArgs : List Slot := [.value (.scalar (.byte (-128))), .value (.scalar (.double .zero))]

/-- The conditional was inferred to be in double precision, but the result is taken from the
byte. -/
theorem eval_kind_of_source_mixture :
    mixture.IsArithmetic 7 ∧ ArgumentsFit mixture mixtureArgs 7 ∧
    mixture.valueKind 7 = .scalar .double ∧
    ∃ m', eval [] 5 0 7 ⟨.enter mixture mixtureArgs, #[]⟩ =
        .ok (.value (.scalar (.byte (-128))), m') ∧
      ∃ source, mixture.TakenFrom 7 source ∧ mixture.valueKind source = .scalar .byte ∧
        ScalarKind.promote .byte .double = .double := by
  have hvalid : mixture.Valid := Graph.valid_of_validate (by rfl)
  have hid : mixture.IsArithmetic 7 :=
    Graph.isArithmetic_of_nodes hvalid (by decide +kernel) (o := .conditional 4 5 2) rfl
  have hargs : ArgumentsFit mixture mixtureArgs 7 := by
    intro x index k slot _ hk harg
    have hmem := Graph.mem_of_kind? hk
    simp only [mixture, Graph.ofKinds, List.zipIdx_cons, List.zipIdx_nil, List.map_cons,
      List.map_nil, List.mem_cons, Node.mk.injEq, NodeKind.operation.injEq,
      Operation.parameter.injEq, ParameterType.scalar.injEq, reduceCtorEq, and_false, false_or,
      or_false, List.not_mem_nil]
      at hmem
    obtain ⟨-, rfl, rfl⟩ | ⟨-, rfl, rfl⟩ := hmem
    · cases harg
      exact ⟨_, rfl, rfl⟩
    · cases harg
      exact ⟨_, rfl, rfl⟩
  have hkind : mixture.valueKind 7 = .scalar .double := by decide +kernel
  have hrun : ∃ r, eval [] 5 0 7 ⟨.enter mixture mixtureArgs, #[]⟩ = .ok r ∧
      r.1 = .value (.scalar (.byte (-128))) := by decide +kernel
  obtain ⟨⟨slot, m'⟩, heval, hslot⟩ := hrun
  obtain ⟨s, source, hs, htaken, hsource, -⟩ :=
    eval_kind_of_source [] 5 0 mixture 7 hid ⟨.enter mixture mixtureArgs, #[]⟩ rfl
      (fun _ _ _ hknown => by cases hknown) hargs .double hkind slot m' heval
  cases hslot
  cases hs
  exact ⟨hid, hargs, hkind, m', heval, source, htaken, hsource, rfl⟩

/-- The negation of a byte. -/
def negatedByte : Graph := .ofOperations "negatedByte" [.parameter 0 (.scalar .byte), .unary .neg 1]

/-- A negated byte was inferred to be an `int`. The host gives a byte, and not even that number. -/
theorem negatedByte_is_no_int :
    negatedByte.valueKind 2 = .scalar .int ∧
    call [negatedByte] 5 "negatedByte" [.value (.scalar (.byte (-128)))] =
      .ok (.value (.scalar (.byte (-128)))) ∧
    (Scalar.byte (-128)).kind ≠ .int ∧
    unary .neg ((Value.scalar (.byte (-128))).cast .int) = .scalar (.int 128) := by
  refine ⟨by decide +kernel, by decide +kernel, by decide, by decide +kernel⟩

end Host

end Kernelwright
