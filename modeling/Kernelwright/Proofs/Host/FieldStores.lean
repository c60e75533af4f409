import Kernelwright.Proofs.Host.Handles
import Kernelwright.Proofs.Host.Recomputation

/-!
# How long a field store lasts

A store in a field changes only what is remembered of the tuple's node. So it is seen by whatever is
evaluated from that node afterwards, as long as the memory lasts, which is until the next back edge:
then the tuple is made anew, without the store.
-/

namespace Kernelwright.Host

open Relation

variable {lambdas : List Graph} {fuel depth : Nat} {g : Graph} {id object value : NodeId}
    {field : UInt64} {m m' : Machine} {v : Value} {s : Slot}

/-- The field of the tuple is remembered to be the value. -/
def FieldIs (object : NodeId) (field : UInt64) (v : Value) (m : Machine) : Prop :=
  ∃ vs, m.frame.memo.get? object = some (.value (.tuple vs)) ∧ vs[field.toNat]? = some v

/-- What may be passed without changing the field: neither a back edge nor another store in it. -/
def Spares (object : NodeId) (field : UInt64) (c : Control) : Prop :=
  (∀ head, c ≠ .backEdge head) ∧ ∀ value next, c ≠ .storeField object field value next

theorem FieldIs.remember (h : FieldIs object field v m) (hne : id ≠ object) :
    FieldIs object field v
      { m with frame := { m.frame with memo := m.frame.memo.insert id s } } := by
  obtain ⟨vs, hvs, hv⟩ := h
  exact ⟨vs, (Table.get?_insert_of_ne hne.symm).trans hvs, hv⟩

theorem FieldIs.of_frame (hm : FieldIs object field v m) (h : m'.frame = m.frame) :
    FieldIs object field v m' := by
  rw [FieldIs, h]
  exact hm

theorem flowing_fieldIs : (keeping (FieldIs object field v)).Flowing where
  toSharing := sharing_keeping fun _ _ hm => hm.of_frame
  phis id _ := by
    rintro _ m ⟨rfl, -⟩ s hs
    exact ⟨s, hs, keeping_like s⟩
  assign id _ _ _ hs := by
    cases Slot.like_eq.1 hs
    refine keeping_relates (fun _ => trivial) fun m _ m' hm h => ?_
    cases h
    exact hm
  allocate vs := by
    refine keeping_relates keeping_like fun m _ m' hm h => ?_
    cases h
    exact hm

theorem calls_fieldIs (lambdas : List Graph) (fuel depth : Nat) (g : Graph) :
    (keeping (FieldIs object field v)).Calls g (.withFuel lambdas fuel depth)
    (.withFuel lambdas fuel depth) :=
  calls_keeping (fun _ _ hm => hm.of_frame) lambdas fuel depth g

/-- An evaluation leaves alone what is remembered. -/
theorem eval_fieldIs (h : eval lambdas fuel depth id m = .ok (s, m'))
    (hm : FieldIs object field v m) :
    FieldIs object field v m' := by
  induction fuel generalizing id s m m' with
  | zero => cases h
  | succ fuel ih =>
    rw [eval] at h
    replace h := (Run.frame_bind _).symm.trans h
    cases hknown : m.frame.known? id with
    | some known =>
      rw [hknown] at h
      cases Step.pure_eq_ok.1 h
      exact hm
    | none =>
      rw [hknown] at h
      obtain ⟨k, hk, h⟩ := Run.ofGraph_bind_eq_ok.1 h
      cases k with
      | control | unsupported => cases h
      | operation o =>
        obtain ⟨s, m₁, hs, h⟩ := Step.bind_eq_ok.1 h
        have hm₁ : FieldIs object field v m₁ := by
          refine (keeps_of_relates
            ((calls_fieldIs lambdas fuel depth _).operation (w := ()) flowing_fieldIs
            (Graph.kind_eq_ok_iff.1 hk) fun x _ _ => ?_) hm hs).1
          exact keeping_relates keeping_like fun _ _ _ hm h => ih h hm
        have hne : id ≠ object := by
          rintro rfl
          obtain ⟨vs, hvs, -⟩ := hm
          rw [Frame.known?, hvs] at hknown
          cases hknown
        split at h
        · cases h
          exact hm₁
        · cases h
          exact hm₁.remember hne

theorem eval_object (h : eval lambdas fuel depth object m = .ok (s, m'))
    (hm : FieldIs object field v m) :
    m' = m ∧ ∃ vs, s = .value (.tuple vs) ∧ vs[field.toNat]? = some v := by
  obtain ⟨vs, hvs, hv⟩ := hm
  cases fuel with
  | zero => cases h
  | succ fuel =>
    rw [eval] at h
    replace h := (Run.frame_bind _).symm.trans h
    rw [Frame.known?, hvs] at h
    cases Step.pure_eq_ok.1 h
    exact ⟨rfl, vs, rfl, hv⟩

theorem value_eq_ok {sem : Semantics} (h : sem.value id m = .ok (v, m')) :
    sem.eval id m = .ok (.value v, m') := by
  obtain ⟨s, m₁, hs, h⟩ := Step.bind_eq_ok.1 h
  cases s with
  | value w =>
    cases Step.pure_eq_ok.1 h
    exact hs
  | array | void => cases h

theorem storeField_eq_ok {sem : Semantics} {u : PUnit}
    (h : sem.storeField id object field value m = .ok (u, m')) :
    ∃ v m₁ vs m₂, sem.eval value m = .ok (.value v, m₁) ∧
      sem.eval object m₁ = .ok (.value (.tuple vs), m₂) ∧
      field.toNat < vs.length ∧ m' = { m₂ with frame := { m₂.frame with
        memo := m₂.frame.memo.insert object (.value (.tuple (vs.set field.toNat v))) } } := by
  obtain ⟨v, m₁, hv, h⟩ := Step.bind_eq_ok.1 h
  obtain ⟨tuple, m₂, htuple, h⟩ := Step.bind_eq_ok.1 h
  cases tuple with
  | scalar => cases h
  | tuple vs =>
    simp only at h
    split at h <;> cases h
    exact ⟨v, m₁, vs, m₂, value_eq_ok hv, value_eq_ok htuple, ‹_›, rfl⟩

/-- Nor does a step, except where the walk goes back or stores in the same field. -/
theorem step_fieldIs {back : Bool} {next : Next} (hm : FieldIs object field v m)
    (hspares : ∀ c, g.kind? id = some (.control c) → Spares object field c)
    (h : (Semantics.withFuel lambdas fuel depth).step g id back m = .ok (next, m')) :
    FieldIs object field v m' := by
  obtain ⟨c, hk, h⟩ := Semantics.control_of_step h
  have hagrees : (keeping (FieldIs object field v)).Agrees g (.withFuel lambdas fuel depth)
      (.withFuel lambdas fuel depth) :=
    ⟨calls_fieldIs lambdas fuel depth g, fun _ _ => keeping_relates keeping_like
      fun _ _ _ hm h => eval_fieldIs h hm⟩
  obtain ⟨hback, hstore⟩ := hspares c hk
  refine (keeps_of_relates (hagrees.control_of (w := ()) flowing_fieldIs.toSharing hk back
    (hagrees.join_of_control hk fun phi _ => flowing_fieldIs.assign phi) ?_
      (fun hc => absurd hc (hback _)) ?_) hm h).1
  · rintro w next bound rfl
    exact hagrees.enterLoop_of_control hk fun phi _ => flowing_fieldIs.assign phi
  · rintro w other field' value next rfl
    refine keeping_relates (fun _ => trivial) fun m u m' hm h => ?_
    obtain ⟨v', m₁, vs, m₂, hv, htuple, -, rfl⟩ := storeField_eq_ok h
    have hm₁ := eval_fieldIs hv hm
    by_cases hother : other = object
    · subst hother
      obtain ⟨rfl, vs', hvs', hfield⟩ := eval_object htuple hm₁
      cases hvs'
      have hne : field'.toNat ≠ field.toNat := by
        intro heq
        exact hstore value next (by rw [UInt64.toNat_inj.1 heq])
      exact ⟨_, Table.get?_insert_self .., by rw [List.getElem?_set_ne hne, hfield]⟩
    · exact (eval_fieldIs htuple hm₁).remember hother

theorem Moves.fieldIs (h : Moves lambdas (Spares object field) m m')
    (hm : FieldIs object field v m) :
    FieldIs object field v m' := by
  cases h with
  | eval fuel depth id h => exact eval_fieldIs h hm
  | assign fuel depth id phi h hassign =>
    have hm₁ := eval_fieldIs h hm
    cases hassign
    exact hm₁
  | step fuel depth id back hspares h => exact step_fieldIs hm hspares h

theorem eval_load {load : NodeId} (hm : FieldIs object field v m)
    (hload : m.frame.graph.kind? load = some (.operation (.loadField object field)))
    (hfirst : m.frame.known? load = none) :
    ∃ m', eval lambdas (fuel + 2) depth load m = .ok (.value v, m') := by
  obtain ⟨vs, hvs, hv⟩ := hm
  have hobject : (Semantics.withFuel lambdas (fuel + 1) depth).value object m = .ok
      (.tuple vs, m) := by
    refine Step.bind_eq_ok.2 ⟨.value (.tuple vs), m, ?_, rfl⟩
    simp only [eval, Semantics.node, Run.frame_bind, Frame.known?, hvs]
    rfl
  have hfield : (Semantics.withFuel lambdas (fuel + 1) depth).operation load
    (.loadField object field) m =
      .ok (.value v, m) :=
    Step.bind_eq_ok.2 ⟨_, _, hobject, Step.bind_eq_ok.2 ⟨v, m, Run.ofOption_eq_ok.2 ⟨hv, rfl⟩, rfl⟩⟩
  rw [eval, Semantics.node, Run.frame_bind, hfirst]
  exact ⟨_, Run.ofGraph_bind_eq_ok.2
    ⟨_, Graph.kind_eq_ok_iff.2 hload, Step.bind_eq_ok.2 ⟨_, _, hfield, rfl⟩⟩⟩

/-- A field store is seen until the next back edge: a load of the field that has not been evaluated
yet gives the value that was stored, whatever nodes have been evaluated and whatever control nodes
have been passed since, other than back edges and stores in that field. -/
theorem field_store_seen_until_back_edge {m₁ m₂ : Machine} {back : Bool} {next : NodeId}
    {next' : Next}
    {load : NodeId}
    (hstore : m.frame.graph.kind? id = some (.control (.storeField object field value next)))
    (hstep : (Semantics.withFuel lambdas fuel depth).step m.frame.graph id back m = .ok (next', m₁))
    (hlater : ReflTransGen (Moves lambdas (Spares object field)) m₁ m₂)
    (hload : m₂.frame.graph.kind? load = some (.operation (.loadField object field)))
    (hfirst : m₂.frame.known? load = none) :
    ∃ v m', eval lambdas fuel depth value m = .ok (.value v, m') ∧
      ∀ fuel' ≥ 2, ∀ depth', ∃ m₃, eval lambdas fuel' depth' load m₂ = .ok (.value v, m₃) := by
  obtain ⟨c, hk, hcontrol⟩ := Semantics.control_of_step hstep
  cases hstore.symm.trans hk
  obtain ⟨_, _, hrun, hdone⟩ := Step.bind_pure_eq_ok.1 hcontrol
  cases hdone
  obtain ⟨v, _, vs, _, hv, -, hlt, rfl⟩ := storeField_eq_ok hrun
  have hm₂ : FieldIs object field v m₂ := by
    clear hload hfirst
    induction hlater with
    | refl => exact ⟨_, Table.get?_insert_self .., List.getElem?_set_self hlt⟩
    | tail _ hmove ih => exact hmove.fieldIs ih
  refine ⟨v, _, hv, fun fuel' hfuel depth' => ?_⟩
  obtain ⟨k, rfl⟩ := Nat.exists_eq_add_of_le' hfuel
  exact eval_load hm₂ hload hfirst

/-- Overwrites the first of a pair of ones and reads it. -/
def rewritten : Graph := .ofKinds "rewritten" [
  .start 1,
  .control (.storeField 4 0 5 2),
  .region 3,
  .ret (some 6),
  .operation (.newInstance (.record [.scalar .int, .scalar .int]) [7, 7]),
  .int 9,
  .operation (.loadField 4 0),
  .int 1]

theorem rewritten_store_seen :
    ∃ m₁, (Semantics.withFuel [] 4 0).step rewritten 1 false ⟨.enter rewritten [], #[]⟩ =
        .ok (.goto 2 false, m₁) ∧
      Moves [] (Spares 4 0) m₁ m₁ ∧ m₁.frame.known? 6 = none ∧
      ∃ m₃, eval [] 2 0 6 m₁ = .ok (.value (.scalar (.int 9)), m₃) := by
  obtain ⟨m₁, hstep⟩ : ∃ m₁, (Semantics.withFuel [] 4 0).step rewritten 1 false
      ⟨.enter rewritten [], #[]⟩ = .ok (.goto 2 false, m₁) := ⟨_, rfl⟩
  have hregion : Moves [] (Spares 4 0) m₁ m₁ := by
    cases hstep
    refine .step 4 0 2 false (fun c hc => ?_) rfl
    cases hc
    exact ⟨by simp, by simp⟩
  have hfirst : m₁.frame.known? 6 = none := by
    cases hstep
    rfl
  have hload : m₁.frame.graph.kind? 6 = some (.operation (.loadField 4 0)) := by
    cases hstep
    rfl
  obtain ⟨v, m', hv, hseen⟩ :=
    field_store_seen_until_back_edge (m := ⟨.enter rewritten [], #[]⟩) rfl hstep
      (.single hregion) hload hfirst
  cases hv
  exact ⟨m₁, hstep, hregion, hfirst, hseen 2 (Nat.le_refl 2) 0⟩

/-- Stores in a pair of zeros in the only iteration of a loop, and reads the pair behind the
loop. -/
def storeLost : Graph := .ofKinds "storeLost" [
  .start 1,
  .loopHead 2 none,
  .branch 8 3 5,
  .control (.storeField 11 0 12 4),
  .backEdge 1,
  .loopExit 1 6,
  .ret (some 13),
  .phi 1 [9, 10],
  .compare .lt 7 10,
  .int 0,
  .int 1,
  .operation (.newInstance (.record [.scalar .int, .scalar .int]) [9, 9]),
  .int 5,
  .operation (.loadField 11 0)]

/-- The back edge forgets the store, so the load gives the zero that the pair was made with. -/
theorem storeLost_gives_zero : storeLost.validate = .ok () ∧
    call [storeLost] 20 "storeLost" [] = .ok (.value (.scalar (.int 0))) :=
  ⟨by rfl, by decide +kernel⟩

end Kernelwright.Host
