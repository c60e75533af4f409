import Kernelwright.Proofs.PortableArray.PutGet
import Kernelwright.Proofs.Steps

/-!
# Arrays of results

Results of lambdas are converted to the element type before they are collected in an array. A result
that is then taken at all is a value of that type, so it is read back as it was stored.
-/

namespace Kernelwright

variable {vs : List Value} {b : PortableArray}

/-! ### Conversion to a type -/

namespace Value

theorem length_castAll : (vs : List Value) → (ts : List ElementType) → vs.length = ts.length →
    (castAll vs ts).length = ts.length
  | [], [], _ => rfl
  | v :: vs, t :: ts, h => by
    simp only [castAll, List.length_cons, Nat.add_right_cancel_iff]
    exact length_castAll vs ts (Nat.succ.inj h)

theorem castTo_of_length {ts : List ElementType} (h : ts.length = vs.length) :
    (Value.tuple vs).castTo (.record ts) = .tuple (castAll vs ts) := by
  by_cases hone : ∃ t, ts = [t]
  · obtain ⟨t, rfl⟩ := hone
    rw [castTo, if_pos h]
  · rw [castTo.eq_3 ts vs fun t ht => hone ⟨t, ht⟩, if_pos h]

/-- A tuple is converted to a record type component by component, another value as the only field,
if there is one; and otherwise not at all. -/
theorem castTo_record (ts : List ElementType) (v : Value) :
    (∃ vs, v = .tuple vs ∧ ts.length = vs.length ∧ v.castTo (.record ts) = .tuple (castAll vs ts)) ∨
    (∃ t, ts = [t] ∧ v.castTo (.record ts) = .tuple [v.castTo t]) ∨
    (v.castTo (.record ts) = v ∧ ∀ vs, v = .tuple vs → ts.length ≠ vs.length) := by
  by_cases hfits : ∃ vs, v = .tuple vs ∧ ts.length = vs.length
  · obtain ⟨vs, rfl, hlen⟩ := hfits
    exact .inl ⟨vs, rfl, hlen, castTo_of_length hlen⟩
  · right
    have hlen : ∀ vs, v = .tuple vs → ts.length ≠ vs.length := fun vs hv h => hfits ⟨vs, hv, h⟩
    by_cases hone : ∃ t, ts = [t]
    · obtain ⟨t, rfl⟩ := hone
      refine .inl ⟨t, rfl, ?_⟩
      cases v with
      | scalar s => rw [castTo]
      | tuple vs => rw [castTo, if_neg (hlen vs rfl)]
    · refine .inr ⟨?_, hlen⟩
      cases v with
      | scalar s => rw [castTo.eq_5 ts s fun t ht => hone ⟨t, ht⟩]
      | tuple vs => rw [castTo.eq_3 ts vs fun t ht => hone ⟨t, ht⟩, if_neg (hlen vs rfl)]

mutual

theorem isOf_castTo : (t : ElementType) → (v : Value) → HasShape t (v.castTo t) →
    IsOf t (v.castTo t)
  | .scalar k, .scalar s, _ => by simp [castTo, cast, IsOf]
  | .scalar k, .tuple vs, h => by simp [castTo, cast, HasShape] at h
  | .record ts, v, h => by
    rcases castTo_record ts v with ⟨vs, rfl, hlen, hcast⟩ | ⟨t, rfl, hcast⟩ | ⟨hcast, hne⟩
    · rw [hcast] at h ⊢
      exact areOf_castAll ts vs h
    · rw [hcast] at h ⊢
      exact ⟨isOf_castTo t v h.1, trivial⟩
    · -- a value that is left as it is has not the shape of the type
      rw [hcast] at h
      cases v with
      | scalar s => exact h.elim
      | tuple vs => exact absurd (HaveShapes.length_eq h).symm (hne vs rfl)

theorem areOf_castAll :
    (ts : List ElementType) → (vs : List Value) → HaveShapes ts (castAll vs ts) →
    AreOf ts (castAll vs ts)
  | [], [], _ => trivial
  | [], _ :: _, _ => trivial
  | _ :: _, [], h => h.elim
  | t :: ts, v :: vs, h => ⟨isOf_castTo t v h.1, areOf_castAll ts vs h.2⟩

end

mutual

theorem castTo_castTo : (t : ElementType) → (v : Value) → (v.castTo t).castTo t = v.castTo t
  | .scalar k, .scalar s => by
    have := (s.cast k).cast_kind
    rw [Scalar.kind_cast] at this
    simp only [castTo, cast, this]
  | .scalar k, .tuple vs => by simp only [castTo, cast]
  | .record ts, v => by
    rcases castTo_record ts v with ⟨vs, rfl, hlen, hcast⟩ | ⟨t, rfl, hcast⟩ | ⟨hcast, hne⟩
    · rw [hcast, castTo_of_length (length_castAll vs ts hlen.symm).symm, castAll_castAll ts vs]
    · rw [hcast, castTo_of_length rfl]
      simp only [castAll, castTo_castTo t v]
    · rw [hcast, hcast]

theorem castAll_castAll : (ts : List ElementType) → (vs : List Value) →
    castAll (castAll vs ts) ts = castAll vs ts
  | [], _ => by simp [castAll]
  | _ :: _, [] => by simp [castAll]
  | t :: ts, v :: vs => by simp only [castAll, castTo_castTo t v, castAll_castAll ts vs]

end

end Value

/-! ### Collecting results -/

namespace PortableArray

open Value

variable {mode : StorageMode} {size : Nat} {t : ElementType}

/-- Values that are stored one after the other are read back with their leaves converted, and the
other elements are as they were. -/
theorem putFrom_eq_ok {i : Nat} {a : PortableArray} (ha : Allocated mode size t a)
    (hroom : i + vs.length ≤ size) (h : putFrom i a vs = .ok b) :
    Allocated mode size t b ∧ (∀ v ∈ vs, HasShape t v) ∧ (∀ j < i, get? j b = get? j a) ∧
      ∀ j, (hj : j < vs.length) → get? (i + j) b = some (castLeaves t vs[j]) := by
  induction vs generalizing i a with
  | nil =>
    cases h
    exact ⟨ha, nofun, fun _ _ => rfl, nofun⟩
  | cons v vs ih =>
    rw [List.length_cons] at hroom
    have hi : i < size := by omega
    simp only [putFrom] at h
    split at h
    · rename_i c hput
      have hshape : HasShape t v := by
        rw [← put_eq_none_iff ha hi v, hput]
      obtain ⟨c', hput', hstored⟩ := put_of_hasShape hi t v a ha hshape
      obtain rfl : c = c' := by
        rw [hput] at hput'
        exact (Prod.mk.inj hput').1
      obtain ⟨hb, hshapes, hbefore, hread⟩ := ih hstored.allocated (by omega) h
      refine ⟨hb, List.forall_mem_cons.2 ⟨hshape, hshapes⟩, ?_, ?_⟩
      · intro j hj
        rw [hbefore j (by omega), hstored.get?_other j (by omega)]
      · intro j hj
        cases j with
        | zero =>
          rw [Nat.add_zero, hbefore i (by omega), hstored.get?_self]
          rfl
        | succ j =>
          have := hread j (by simpa using hj)
          rw [show i + (j + 1) = i + 1 + j by omega, this]
          rfl
    · cases h

end PortableArray

namespace Host

open PortableArray Value

variable {t : ElementType}

variable (h : ofResults t vs = .ok b)
include h

theorem putFrom_of_ofResults : t.validate = .ok () ∧
      ∃ a, Allocated .nativeBuffers vs.length t a ∧ putFrom 0 a vs = .ok b := by
  cases hb : ofValues t .nativeBuffers vs with
  | error e =>
    rw [ofResults, hb] at h
    cases h
  | ok b' =>
    rw [ofResults, hb] at h
    cases h
    obtain ⟨a, hnew, hput⟩ := bind_eq_ok.1 hb
    rw [construct] at hnew
    cases hvalid : t.validate with
    | error e =>
      rw [hvalid] at hnew
      cases hnew
    | ok u =>
      obtain ⟨a', hnew', ha, -⟩ := @build_eq_ok .nativeBuffers vs.length (by decide) t
        fun k _ => ⟨.native, rfl⟩
      simp only [hvalid, if_true, hnew', Except.ok.injEq] at hnew
      subst hnew
      exact ⟨rfl, a', ha, hput⟩

theorem isOf_of_ofResults (hvs : ∀ v ∈ vs, ∃ r : Value, v = r.castTo t) : ∀ v ∈ vs, IsOf t v := by
  obtain ⟨-, a, ha, hput⟩ := putFrom_of_ofResults h
  obtain ⟨-, hshapes, -⟩ := putFrom_eq_ok ha (by omega) hput
  intro v hv
  obtain ⟨r, rfl⟩ := hvs v hv
  exact isOf_castTo t r (hshapes _ hv)

theorem ofResults_eq_ok (hvs : ∀ v ∈ vs, ∃ r : Value, v = r.castTo t) :
    b.size = vs.length ∧ ∀ i, (hi : i < vs.length) → get? i b = some vs[i] := by
  obtain ⟨-, a, ha, hput⟩ := putFrom_of_ofResults h
  obtain ⟨hb, -, -, hread⟩ := putFrom_eq_ok ha (by omega) hput
  refine ⟨hb.size_eq, fun i hi => ?_⟩
  have hof : IsOf t vs[i] := isOf_of_ofResults h hvs _ (List.getElem_mem hi)
  have := hread i hi
  rwa [Nat.zero_add, (isOf_iff.1 hof).2] at this

theorem ofResults_toList? (hvs : ∀ v ∈ vs, ∃ r : Value, v = r.castTo t) : b.toList? = some vs := by
  obtain ⟨hsize, hread⟩ := ofResults_eq_ok h hvs
  rw [toList?_of_get? (f := fun i => vs[i]?.getD default) fun i hi => ?_]
  · rw [hsize]
    congr 1
    apply List.ext_getElem
    · simp
    · intro i h₁ h₂
      simp [h₂]
  · rw [hsize] at hi
    rw [hread i hi, List.getElem?_eq_getElem hi]
    rfl

end Host

end Kernelwright
