import Kernelwright.Proofs.Element.Json
import Kernelwright.Proofs.Json.Reals

/-!
# What JSON keeps of a value

A floating-point number that is not finite is `null` in JSON, whichever it is; all else is kept. A
value is *settled* when positive infinity stands for every such number: two values have one JSON
form exactly if they are equal once settled.
-/

namespace Kernelwright

open Ieee

/-- Whether the datum is a number between the infinities. -/
def Ieee.Datum.isFinite : Datum → Bool
  | .finite .. => true
  | _ => false

theorem Ieee.Datum.eq_of_isFinite {x : Datum} (h : x.isFinite = true) :
    ∃ s m e, x = .finite s m e := by
  cases x with
  | finite s m e => exact ⟨s, m, e, rfl⟩
  | nan => cases h
  | infinite => cases h

/-- Finite numbers are equal only if their words are. -/
theorem Ieee.Format.decode_inj {f : Format} {m n : Nat} (hm : m < 2 * f.signWeight)
    (hn : n < 2 * f.signWeight) (hfinite : (f.decode m).isFinite = true)
    (h : f.decode m = f.decode n) : m = n := by
  obtain ⟨s, k, e, hdatum⟩ := Datum.eq_of_isFinite hfinite
  exact (Decimal.eq_of_decode hm hdatum).trans (Decimal.eq_of_decode hn (h ▸ hdatum)).symm

namespace Scalar

section Numbers

variable {l : Decimal.Layout} {f : Format} {bits bits' : Nat}

theorem legible_number (hf : 2 ^ (f.fraction + 1) < 10 ^ 16) :
    (number l f (f.decode bits)).Legible := by
  cases h : f.decode bits with
  | nan => exact .null
  | infinite => exact .null
  | finite s m e =>
    obtain ⟨n, hscan, -⟩ := Json.scanNumeral?_text l (Decimal.regular_of_decode h) hf
    exact .number hscan

theorem number_eq_iff (hf : 2 ^ (f.fraction + 1) < 10 ^ 16) :
    number l f (f.decode bits) = number l f (f.decode bits') ↔
      f.decode bits = f.decode bits' ∨
        ((f.decode bits).isFinite = false ∧ (f.decode bits').isFinite = false) := by
  cases h : f.decode bits <;> cases h' : f.decode bits'
  case finite.finite s m e t n d =>
    simp only [number, Json.number.injEq, Datum.finite.injEq, Datum.isFinite, Bool.true_eq_false,
      and_self, or_false]
    constructor
    · exact Json.text_inj l (Decimal.regular_of_decode h) (Decimal.regular_of_decode h') hf
    · rintro ⟨rfl, rfl, rfl⟩
      rfl
  all_goals simp [number, Datum.isFinite]

end Numbers

/-- Whether the scalar is an integer, a truth value or a finite floating-point number. -/
def isFinite : Scalar → Bool
  | float v => v.datum.isFinite
  | double v => v.datum.isFinite
  | _ => true

/-- The scalar, or positive infinity where it is not finite. -/
def settle : Scalar → Scalar
  | float v => float (if v.datum.isFinite then v else .ofPattern Format.single.infinity)
  | double v => double (if v.datum.isFinite then v else .ofPattern Format.double.infinity)
  | s => s

@[simp] theorem kind_settle (s : Scalar) : s.settle.kind = s.kind := by cases s <;> rfl

theorem settle_of_isFinite {s : Scalar} (h : s.isFinite = true) : s.settle = s := by
  cases s with
  | float v => exact congrArg float (if_pos h)
  | double v => exact congrArg double (if_pos h)
  | _ => rfl

theorem legible_payload (s : Scalar) : s.payload.Legible := by
  cases s with
  | float | double => exact legible_number (by decide)
  | _ => exact legible_payload_of_not_floating rfl

/-- Words with one number are equal once a single word stands for all that are not finite. -/
theorem settled_eq_iff {β : Type} {datum : β → Datum} {top : β}
    (htop : (datum top).isFinite = false)
    (hinj : ∀ x y, (datum x).isFinite = true → datum x = datum y → x = y) (x y : β) :
    (datum x = datum y ∨ ((datum x).isFinite = false ∧ (datum y).isFinite = false)) ↔
      (if (datum x).isFinite then x else top) = if (datum y).isFinite then y else top := by
  cases hx : (datum x).isFinite <;> cases hy : (datum y).isFinite
  · simp
  · have hne : datum x ≠ datum y := fun h => by simp [h, hy] at hx
    have hne' : top ≠ y := fun h => by simp [h, hy] at htop
    simp [hne, hne']
  · have hne : datum x ≠ datum y := fun h => by simp [h, hy] at hx
    have hne' : x ≠ top := fun h => by simp [← h, hx] at htop
    simp [hne, hne']
  · simp only [if_true, Bool.true_eq_false, and_self, or_false]
    exact ⟨hinj x y hx, congrArg datum⟩

theorem payload_inj {s t : Scalar} (hs : s.isFloating = false) (h : s.kind = t.kind)
    (hpayload : s.payload = t.payload) : s = t := by
  have ht : t.isFloating = false := by rwa [isFloating, ← h]
  have hreads := reads_payload hs .named (Nat.le_refl _)
  have hreads' := reads_payload ht .named (Nat.le_refl _)
  rw [hpayload, h, hreads'] at hreads
  exact (Option.some.inj hreads).symm

theorem payload_eq_iff {s t : Scalar} (h : s.kind = t.kind) :
    s.payload = t.payload ↔ s.settle = t.settle := by
  cases s with
  | float v =>
    cases t with
    | float w =>
      simp only [payload, settle, float.injEq]
      have hinj (x y : Binary32) (hx : x.datum.isFinite = true) (h : x.datum = y.datum) : x = y :=
        congrArg Binary32.mk (UInt32.toNat_inj.1
          (Format.decode_inj (f := .single) x.bits.toNat_lt y.bits.toNat_lt hx h))
      rw [← settled_eq_iff (by decide) hinj]
      exact number_eq_iff (by decide)
    | _ => cases h
  | double v =>
    cases t with
    | double w =>
      simp only [payload, settle, double.injEq]
      have hinj (x y : Binary64) (hx : x.datum.isFinite = true) (h : x.datum = y.datum) : x = y :=
        congrArg Binary64.mk (UInt64.toNat_inj.1
          (Format.decode_inj (f := .double) x.bits.toNat_lt y.bits.toNat_lt hx h))
      rw [← settled_eq_iff (by decide) hinj]
      exact number_eq_iff (by decide)
    | _ => cases h
  | _ =>
    cases t <;> cases h
    exact ⟨fun hpayload => congrArg settle (payload_inj rfl rfl hpayload), congrArg payload⟩

end Scalar

namespace Value

mutual

def settle : Value → Value
  | .scalar s => .scalar s.settle
  | .tuple vs => .tuple (settleAll vs)

def settleAll : List Value → List Value
  | [] => []
  | v :: vs => v.settle :: settleAll vs

end

mutual

theorem settle_of_isFinite : (v : Value) → (∀ s ∈ v.leaves, s.isFinite = true) → v.settle = v
  | .scalar s, h => congrArg Value.scalar (Scalar.settle_of_isFinite (h s (by simp [leaves])))
  | .tuple vs, h => congrArg Value.tuple (settleAll_of_isFinite vs h)

theorem settleAll_of_isFinite : (vs : List Value) → (∀ s ∈ leavesAll vs, s.isFinite = true) →
    settleAll vs = vs
  | [], _ => rfl
  | v :: vs, h => by
    rw [settleAll, v.settle_of_isFinite fun s hs => h s (List.mem_append_left _ hs),
      settleAll_of_isFinite vs fun s hs => h s (List.mem_append_right _ hs)]

end

mutual

/-- Two values have one JSON form exactly if they are equal once settled. -/
theorem toJson_eq_iff : (v w : Value) → (v.toJson = w.toJson ↔ v.settle = w.settle)
  | .scalar s, .scalar t => by
    simp only [toJson, settle, Json.tagged, Json.object.injEq, List.cons.injEq, Prod.mk.injEq,
      Option.some.injEq, and_true, scalar.injEq]
    constructor
    · rintro ⟨htag, hpayload⟩
      have hkind : s.kind = t.kind := by
        have := congrArg ScalarKind.ofTag? htag
        rwa [s.kind.ofTag?_tag, t.kind.ofTag?_tag, Option.some.injEq] at this
      exact (Scalar.payload_eq_iff hkind).1 hpayload
    · intro h
      have hkind : s.kind = t.kind := by rw [← s.kind_settle, h, t.kind_settle]
      exact ⟨congrArg _ hkind, (Scalar.payload_eq_iff hkind).2 h⟩
  | .scalar s, .tuple ws => by
    simp [toJson, settle, Json.tagged, tag_ne_tuple]
  | .tuple vs, .scalar t => by
    simp [toJson, settle, Json.tagged, (tag_ne_tuple _).symm]
  | .tuple vs, .tuple ws => by
    simp only [toJson, settle, Json.tagged, Json.object.injEq, List.cons.injEq, Prod.mk.injEq,
      true_and, and_true, Json.array.injEq, tuple.injEq]
    exact toJsonAll_eq_iff vs ws

theorem toJsonAll_eq_iff : (vs ws : List Value) →
    (toJsonAll vs = toJsonAll ws ↔ settleAll vs = settleAll ws)
  | [], [] => by simp
  | [], w :: ws => by simp [toJsonAll, settleAll]
  | v :: vs, [] => by simp [toJsonAll, settleAll]
  | v :: vs, w :: ws => by
    simp only [toJsonAll, settleAll, List.cons.injEq, toJson_eq_iff v w, toJsonAll_eq_iff vs ws]

end

end Value

end Kernelwright
