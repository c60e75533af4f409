import Kernelwright.Element.Scalar

/-!
# Scalars as bytes

The bit pattern of a scalar, and patterns as bytes with the lowest byte first. A scalar takes as
many bytes as its kind says.
-/

namespace Kernelwright

/-- The bytes of a number, the lowest first. -/
def littleEndian : Nat → Nat → List UInt8
  | 0, _ => []
  | width + 1, n => UInt8.ofNat n :: littleEndian width (n / 256)

/-- The number of a list of bytes, the lowest first. -/
def ofLittleEndian : List UInt8 → Nat
  | [] => 0
  | b :: bs => b.toNat + 256 * ofLittleEndian bs

@[simp] theorem length_littleEndian (width n : Nat) : (littleEndian width n).length = width := by
  induction width generalizing n with
  | zero => rfl
  | succ width ih => simp [littleEndian, ih]

theorem ofLittleEndian_littleEndian (width n : Nat) :
    ofLittleEndian (littleEndian width n) = n % Nat.pow 256 width := by
  induction width generalizing n with
  | zero => simp [littleEndian, ofLittleEndian, Nat.mod_one]
  | succ width ih =>
    have wider : Nat.pow 256 (width + 1) = 256 * Nat.pow 256 width := Nat.mul_comm _ _
    rw [littleEndian, ofLittleEndian, ih, wider, Nat.mod_mul]
    simp

namespace Scalar

def pattern : Scalar → Nat
  | byte v => v.toUInt8.toNat
  | char v => v.toNat
  | short v => v.toUInt16.toNat
  | int v => v.toUInt32.toNat
  | long v => v.toUInt64.toNat
  | float v => v.bits.toNat
  | double v => v.bits.toNat
  | boolean v => v.toNat

/-- The scalar of a kind with a bit pattern; any pattern but zero is `true`. -/
def ofPattern (k : ScalarKind) (n : Nat) : Scalar :=
  match k with
  | .byte => byte (UInt8.ofNat n).toInt8
  | .char => char (UInt8.ofNat n)
  | .short => short (UInt16.ofNat n).toInt16
  | .int => int (UInt32.ofNat n).toInt32
  | .long => long (UInt64.ofNat n).toInt64
  | .float => float ⟨UInt32.ofNat n⟩
  | .double => double ⟨UInt64.ofNat n⟩
  | .boolean => boolean (n != 0)

@[simp] theorem kind_ofPattern (k : ScalarKind) (n : Nat) : (ofPattern k n).kind = k := by
  cases k <;> rfl

theorem ofPattern_pattern (s : Scalar) : ofPattern s.kind s.pattern = s := by
  cases s with
  | boolean v => cases v <;> rfl
  | _ => simp [kind, pattern, ofPattern]

def toBytes (s : Scalar) : List UInt8 := littleEndian s.kind.byteSize s.pattern

def ofBytes (k : ScalarKind) (bytes : List UInt8) : Scalar := ofPattern k (ofLittleEndian bytes)

@[simp] theorem length_toBytes (s : Scalar) : s.toBytes.length = s.kind.byteSize :=
  length_littleEndian _ _

end Scalar

end Kernelwright
