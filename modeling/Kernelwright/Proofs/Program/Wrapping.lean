import Kernelwright.Proofs.Program.Meaning
import Mathlib.Data.Int.ModEq

/-!
# Wrapping

A value of a type of integers is a number up to multiples of a power of two. A conversion keeps the
low bits of a number, and sums and products keep the bits that both operands have; so a result is
known in a type as soon as the exact one is, however often it wrapped on the way.
-/

namespace Kernelwright.Program

/-! ### Bits of types -/

/-- The number of bits that a conversion to a type keeps; a truth value keeps none. -/
def Ty.bits : Ty → Nat
  | bool => 0
  | char | uchar => 8
  | short => 16
  | int | uint => 32
  | long | ulong => 64

namespace Ty

theorem bits_le_common_left (a b : Ty) : a.bits ≤ (a.common b).bits := by
  cases a <;> cases b <;> decide

theorem word_le_common (a b : Ty) : 32 ≤ (a.common b).bits := by
  cases a <;> cases b <;> decide

end Ty

/-! ### Values up to their bits -/

namespace Val

variable {m n : Int} {t : Ty} {v : Val}

theorem bmod_modEq (n : Int) (m : Nat) : n.bmod m ≡ n [ZMOD m] := Int.bmod_emod

theorem toInt_ofInt_modEq (t : Ty) (n : Int) : (ofInt t n).toInt ≡ n [ZMOD 2 ^ t.bits] := by
  have hunsigned : ∀ k : Nat, ((n % 2 ^ k).toNat : Int) ≡ n [ZMOD 2 ^ k] := by
    intro k
    rw [Int.toNat_of_nonneg (Int.emod_nonneg n (pow_ne_zero k two_ne_zero))]
    exact Int.mod_modEq n _
  cases t with
  | bool => exact Int.modEq_one
  | char =>
    show (Int8.ofInt n).toInt ≡ n [ZMOD 2 ^ 8]
    rw [Int8.toInt_ofInt]
    exact bmod_modEq n _
  | uchar =>
    show ((UInt8.ofInt n).toNat : Int) ≡ n [ZMOD 2 ^ 8]
    rw [UInt8.ofInt, UInt8.toNat_ofNat', Nat.mod_eq_of_lt (by omega)]
    exact hunsigned 8
  | short =>
    show (Int16.ofInt n).toInt ≡ n [ZMOD 2 ^ 16]
    rw [Int16.toInt_ofInt]
    exact bmod_modEq n _
  | int =>
    show (Int32.ofInt n).toInt ≡ n [ZMOD 2 ^ 32]
    rw [Int32.toInt_ofInt]
    exact bmod_modEq n _
  | uint =>
    show ((UInt32.ofInt n).toNat : Int) ≡ n [ZMOD 2 ^ 32]
    rw [UInt32.ofInt, UInt32.toNat_ofNat', Nat.mod_eq_of_lt (by omega)]
    exact hunsigned 32
  | long =>
    show (Int64.ofInt n).toInt ≡ n [ZMOD 2 ^ 64]
    rw [Int64.toInt_ofInt]
    exact bmod_modEq n _
  | ulong =>
    show ((UInt64.ofInt n).toNat : Int) ≡ n [ZMOD 2 ^ 64]
    rw [UInt64.ofInt, UInt64.toNat_ofNat', Nat.mod_eq_of_lt (by omega)]
    exact hunsigned 64

theorem ofInt_eq_ofInt (ht : t ≠ .bool) (h : m ≡ n [ZMOD 2 ^ t.bits]) : ofInt t m = ofInt t n := by
  have hsigned : ∀ k : Nat, m ≡ n [ZMOD 2 ^ k] → m.bmod (2 ^ k) = n.bmod (2 ^ k) := by
    intro k hk
    have hk : m % (2 ^ k : Nat) = n % (2 ^ k : Nat) := by
      rw [Int.natCast_pow]
      exact hk
    rw [Int.bmod_def, Int.bmod_def, hk]
  cases t with
  | bool => exact absurd rfl ht
  | char =>
    refine congrArg char (Int8.toInt.inj ?_)
    rw [Int8.toInt_ofInt, Int8.toInt_ofInt]
    exact hsigned 8 h
  | uchar => exact congrArg uchar (congrArg (fun r : Int => UInt8.ofNat r.toNat) h)
  | short =>
    refine congrArg short (Int16.toInt.inj ?_)
    rw [Int16.toInt_ofInt, Int16.toInt_ofInt]
    exact hsigned 16 h
  | int =>
    refine congrArg int (Int32.toInt.inj ?_)
    rw [Int32.toInt_ofInt, Int32.toInt_ofInt]
    exact hsigned 32 h
  | uint => exact congrArg uint (congrArg (fun r : Int => UInt32.ofNat r.toNat) h)
  | long =>
    refine congrArg long (Int64.toInt.inj ?_)
    rw [Int64.toInt_ofInt, Int64.toInt_ofInt]
    exact hsigned 64 h
  | ulong => exact congrArg ulong (congrArg (fun r : Int => UInt64.ofNat r.toNat) h)

theorem toInt_convert_modEq {w : Nat} (hw : w ≤ t.bits) (h : v.toInt ≡ n [ZMOD 2 ^ w]) :
    (v.convert t).toInt ≡ n [ZMOD 2 ^ w] :=
  ((toInt_ofInt_modEq t v.toInt).of_dvd (pow_dvd_pow 2 hw)).trans h

theorem convert_eq_ofInt (ht : t ≠ .bool) (h : v.toInt ≡ n [ZMOD 2 ^ t.bits]) :
    v.convert t = ofInt t n :=
  ofInt_eq_ofInt ht h

end Val

/-! ### Operators up to the bits of their operands -/

namespace Operator

/-- Operators that compute on numbers up to multiples of any power of two. -/
def IsModular (op : Operator) (f : Int → Int → Int) : Prop :=
  (∀ a b, op.operandType a b = a.common b) ∧ (∀ a b, op.resultType a b = a.common b) ∧
    op.isShift = false ∧ (∀ width x y, op.onInts? width x y = some (f x y)) ∧
    ∀ m x x' y y', x ≡ x' [ZMOD m] → y ≡ y' [ZMOD m] → f x y ≡ f x' y' [ZMOD m]

theorem isModular_add : add.IsModular (· + ·) :=
  ⟨fun _ _ => rfl, fun _ _ => rfl, rfl, fun _ _ _ => rfl, fun _ _ _ _ _ hx hy => hx.add hy⟩

theorem isModular_mul : mul.IsModular (· * ·) :=
  ⟨fun _ _ => rfl, fun _ _ => rfl, rfl, fun _ _ _ => rfl, fun _ _ _ _ _ hx hy => hx.mul hy⟩

theorem IsModular.apply {op : Operator} {f : Int → Int → Int} (hop : op.IsModular f) {a b : Val}
    {x y : Int} {w : Nat} (hw : w ≤ (a.ty.common b.ty).bits) (ha : a.toInt ≡ x [ZMOD 2 ^ w])
    (hb : b.toInt ≡ y [ZMOD 2 ^ w]) :
    ∃ v, (∀ u, op.apply a b u = some (v, u)) ∧ v.ty = a.ty.common b.ty ∧
      v.toInt ≡ f x y [ZMOD 2 ^ w] := by
  obtain ⟨hoperand, hresult, hshift, hints, hcongr⟩ := hop
  refine ⟨.ofInt (a.ty.common b.ty) (f (a.convert (a.ty.common b.ty)).toInt
    (b.convert (a.ty.common b.ty)).toInt), fun u => ?_, Val.ty_ofInt _ _, ?_⟩
  · simp only [Operator.apply, hoperand, hresult, hshift, hints]
    rfl
  · have hexact := hcongr _ _ _ _ _ (Val.toInt_convert_modEq hw ha) (Val.toInt_convert_modEq hw hb)
    exact ((Val.toInt_ofInt_modEq _ _).of_dvd (pow_dvd_pow 2 hw)).trans hexact

end Operator

end Kernelwright.Program
