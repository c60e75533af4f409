import Kernelwright.Proofs.Host.Recomputation

/-!
# What callers see of results

A caller's graph takes a record of one field for that field, so it infers a scalar where such a
record is the result of a call. The conversion of the result puts the scalar in one tuple for each
record, and as an operand a tuple counts as zero.
-/

namespace Kernelwright

/-- A value as the innermost field of a type whose records have one field each. -/
def Value.nestIn (v : Value) : ElementType → Value
  | .record [t] => .tuple [v.nestIn t]
  | _ => v

/-- A scalar is converted to the kind that is inferred of a type, but nested as the type is. -/
theorem Value.castTo_scalar (c : Scalar) {k : ScalarKind} : {t : ElementType} →
    ValueKind.ofType t = .scalar k → (Value.scalar c).castTo t = (Value.scalar (c.cast k)).nestIn t
  | .scalar _, h => by
    cases h
    rfl
  | .record [], h => by cases h
  | .record [t], h => by
    rw [ValueKind.ofType] at h
    rw [castTo, nestIn, castTo_scalar c h]
  | .record (_ :: _ :: _), h => by cases h

theorem Value.nestIn_cases {k : ScalarKind} {t : ElementType} (h : ValueKind.ofType t = .scalar k)
    (v : Value) : t = .scalar k ∧ v.nestIn t = v ∨ t ≠ .scalar k ∧
    ∃ w, v.nestIn t = .tuple [w] := by
  unfold ValueKind.ofType at h
  split at h
  · cases h
    exact .inl ⟨rfl, rfl⟩
  · cases h
  · exact .inr ⟨ElementType.noConfusion, _, rfl⟩
  · cases h

namespace Host

variable {lambdas : List Graph} {fuel depth : Nat} {id : NodeId} {m m₁ m₂ : Machine}

/-- A lambda that returns a scalar, called where a scalar is inferred. The caller has it converted
to that kind, in as many tuples as the declared type has records; operators see its number only if
there are none. -/
theorem eval_invoke_scalar {name : String} {callee : Graph} {args : List NodeId} {slots : List Slot}
    {result : ElementType} {k : ScalarKind} {c : Scalar}
    (hid : m.frame.graph.kind? id = some (.operation (.invoke (.lambda name) args result)))
    (hkind : m.frame.graph.valueKind id = .scalar k) (hnew : m.frame.known? id = none)
    (hcallee : lambda? lambdas name = some callee)
    (hargs : (Semantics.withFuel lambdas fuel depth).slots args m = .ok (slots, m₁))
    (hcall : run lambdas fuel (depth + 1) callee slots m₁ = .ok (.value (.scalar c), m₂)) :
    ∃ v m', eval lambdas (fuel + 1) depth id m = .ok (.value v, m') ∧
      m'.frame.known? id = some (.value v) ∧ v = (Value.scalar (c.cast k)).nestIn result ∧
      ((∃ s : Scalar, v = .scalar s ∧ s.kind = k) ↔ result = .scalar k) ∧
      (result ≠ .scalar k → v.asInt64 = 0 ∧ v.asFloat = .zero ∧ v.asBool = false) := by
  rw [Graph.valueKind_eq hid (by rw [hkind]; exact ValueKind.noConfusion)] at hkind
  refine ⟨(Value.scalar (c.cast k)).nestIn result, ⟨{ m₂.frame with
    memo := m₂.frame.memo.insert id (.value ((Value.scalar (c.cast k)).nestIn result)) }, m₂.arena⟩,
    ?_, ?_, rfl, ?_, ?_⟩
  · rw [← Value.castTo_scalar c hkind]
    refine (Step.bind_of_ok (s := m) rfl).trans ?_
    rw [hnew]
    refine Run.ofGraph_bind_eq_ok.2
      ⟨_, Graph.kind_eq_ok_iff.2 hid, Step.bind_eq_ok.2 ⟨_, m₂, ?_, rfl⟩⟩
    refine Run.ofOption_bind_eq_ok.2 ⟨callee, hcallee, Step.bind_eq_ok.2 ⟨slots, m₁, hargs, ?_⟩⟩
    exact Step.bind_eq_ok.2 ⟨_, m₂, hcall, rfl⟩
  · simp [Frame.known?]
  · rcases Value.nestIn_cases hkind (.scalar (c.cast k)) with ⟨rfl, hv⟩ | ⟨hne, w, hv⟩
    · exact ⟨fun _ => rfl, fun _ => ⟨c.cast k, hv, Scalar.kind_cast _ _⟩⟩
    · rw [hv]
      refine ⟨?_, fun h => absurd h hne⟩
      rintro ⟨s, hs, -⟩
      cases hs
  · intro hne
    obtain ⟨w, hv⟩ :=
      ((Value.nestIn_cases hkind (.scalar (c.cast k))).resolve_left fun h => hne h.1).2
    rw [hv]
    exact ⟨rfl, rfl, rfl⟩

/-- Five. -/
def five : Graph := .ofOperations "five" [.constant (.scalar (.int 5))]

/-- One more than five, which is declared as a result of the given type. -/
def successor (result : ElementType) : Graph := .ofOperations "successor" [
  .invoke (.lambda "five") [] result, .constant (.scalar (.int 1)), .binary .add 1 2]

theorem eval_invoke_five :
    let g := successor (.record [.scalar .int])
    g.valueKind 1 = .scalar .int ∧
    run [five, g] 3 1 five [] ⟨.enter g [], #[]⟩
      = .ok (.value (.scalar (.int 5)), ⟨.enter g [], #[]⟩) ∧
    ∃ m', eval [five, g] 4 0 1 ⟨.enter g [], #[]⟩
      = .ok (.value (.tuple [.scalar (.int 5)]), m') := by
  intro g
  have hkind : g.valueKind 1 = .scalar .int := by decide +kernel
  have hrun : run [five, g] 3 1 five [] ⟨.enter g [], #[]⟩
      = .ok (.value (.scalar (.int 5)), ⟨.enter g [], #[]⟩) := rfl
  obtain ⟨v, m', heval, -, rfl, -⟩ :=
    @eval_invoke_scalar [five, g] 3 0 1 ⟨.enter g [], #[]⟩ _ _ _ _ []
    _ _ _ _ rfl hkind rfl rfl rfl hrun
  exact ⟨hkind, hrun, m', heval⟩

/-- An operand that is declared as a record of one field is zero. -/
theorem successor_of_record :
    (successor (.record [.scalar .int])).validate = .ok () ∧
    (successor (.record [.scalar .int])).valueKind 1 = .scalar .int ∧
    call [five] 9 "five" [] = .ok (.value (.scalar (.int 5))) ∧
    call [five, successor (.scalar .int)] 9 "successor" [] = .ok (.value (.scalar (.int 6))) ∧
    call [five, successor (.record [.scalar .int])] 9 "successor" []
      = .ok (.value (.scalar (.int 1))) := by
  decide +kernel

end Host

end Kernelwright
