import Kernelwright.Ieee.Format

/-!
# Floating-point words

A floating-point value is held as its bit pattern: two words are equal exactly when their patterns
are, and a not-a-number keeps its payload when it is stored and loaded. Comparison as numbers is
`order?`, which equates the two zeros and leaves a not-a-number unordered.

All arithmetic is done in sixty-four bits and rounded once; thirty-two bit words enter and leave
through `Binary32.widen` and `Binary64.narrow`.
-/

namespace Kernelwright.Ieee

/-- A thirty-two bit floating-point word. -/
structure Binary32 where
  bits : UInt32
deriving DecidableEq, Repr, Inhabited

/-- A sixty-four bit floating-point word. -/
structure Binary64 where
  bits : UInt64
deriving DecidableEq, Repr, Inhabited

namespace Binary32

def datum (x : Binary32) : Datum := Format.single.decode x.bits.toNat

def ofPattern (n : Nat) : Binary32 := ⟨UInt32.ofNat n⟩

/-- The nearest word to an integer. -/
def ofInt (n : Int) : Binary32 := ofPattern (Format.single.ofInt n)

/-- The same number in sixty-four bits; nothing is lost. -/
def widen (x : Binary32) : Binary64 := ⟨UInt64.ofNat (Format.single.convert .double x.bits.toNat)⟩

/-- The word with its sign bit turned. -/
def neg (x : Binary32) : Binary32 := ⟨x.bits ^^^ 0x80000000⟩

/-- Equality of numbers: the two zeros are equal, and a not-a-number equals nothing. -/
def sameNumber (x y : Binary32) : Bool := x.datum.order? y.datum == some .eq

end Binary32

namespace Binary64

def datum (x : Binary64) : Datum := Format.double.decode x.bits.toNat

def ofPattern (n : Nat) : Binary64 := ⟨UInt64.ofNat n⟩

/-- The nearest word to an integer. -/
def ofInt (n : Int) : Binary64 := ofPattern (Format.double.ofInt n)

/-- The nearest word in thirty-two bits. -/
def narrow (x : Binary64) : Binary32 := ⟨UInt32.ofNat (Format.double.convert .single x.bits.toNat)⟩

/-- The integer part, toward zero. Numbers outside the range of the word go to its nearer end and
not-a-number to zero. -/
def truncate (x : Binary64) : Int64 :=
  Int64.ofInt (x.datum.truncateWithin Int64.minValue.toInt Int64.maxValue.toInt)

/-- The order of two numbers, `none` when one of them is not a number. -/
def order? (x y : Binary64) : Option Ordering := x.datum.order? y.datum

/-- Equality of numbers: the two zeros are equal, and a not-a-number equals nothing. -/
def sameNumber (x y : Binary64) : Bool := x.order? y == some .eq

def zero : Binary64 := ⟨0⟩

/-- Whether the word differs from zero as a number; a not-a-number does. -/
def isNonzero (x : Binary64) : Bool := !x.sameNumber zero

/-- Whether the word is not a number. -/
def isNan (x : Binary64) : Bool := x.datum.isNan

/-! ### Arithmetic -/

private def lift₁ (f : Float → Float) (x : Binary64) : Binary64 :=
  ⟨(f (Float.ofBits x.bits)).toBits⟩

private def lift₂ (f : Float → Float → Float) (x y : Binary64) : Binary64 :=
  ⟨(f (Float.ofBits x.bits) (Float.ofBits y.bits)).toBits⟩

/-- The nearest word to the sum. -/
def add : Binary64 → Binary64 → Binary64 := lift₂ Float.add

/-- The nearest word to the difference. -/
def sub : Binary64 → Binary64 → Binary64 := lift₂ Float.sub

/-- The nearest word to the product. -/
def mul : Binary64 → Binary64 → Binary64 := lift₂ Float.mul

/-- The nearest word to the quotient. -/
def div : Binary64 → Binary64 → Binary64 := lift₂ Float.div

/-- The word with its sign bit turned. -/
def neg (x : Binary64) : Binary64 := ⟨x.bits ^^^ 0x8000000000000000⟩

/-- The word with its sign bit cleared. -/
def abs (x : Binary64) : Binary64 := ⟨x.bits &&& 0x7fffffffffffffff⟩

/-- The quiet not-a-number that invalid operations give. -/
def invalid : Binary64 := ofPattern (Format.double.infinity + Format.double.quiet)

/-- The remainder of the quotient truncated toward zero. It is exact and has the dividend's sign. -/
def rem (x y : Binary64) : Binary64 :=
  match x.datum, y.datum with
  | .nan _ _, _ | _, .nan _ _ | .infinite _, _ => invalid
  | .finite _ _ _, .infinite _ => x
  | .finite s m e, .finite _ n d =>
    if n = 0 then invalid
    else
      let unit := min e d
      let r := m * Nat.pow 2 (e - unit).toNat % (n * Nat.pow 2 (d - unit).toNat)
      ofPattern (Format.double.round s r unit)

/-- Round a finite word to an integer; `up` says of a sign whether the magnitude grows. -/
private def toWhole (up : Bool → Bool) (x : Binary64) : Binary64 :=
  match x.datum with
  | .finite s m e =>
    if e ≥ 0 then x
    else
      let unit := Nat.pow 2 (-e).toNat
      let q := m / unit
      let q := if m % unit ≠ 0 ∧ up s then q + 1 else q
      ofPattern (Format.double.round s q 0)
  | _ => x

/-- The greatest integer that is not above the number. -/
def floor : Binary64 → Binary64 := toWhole id

/-- The least integer that is not below the number. -/
def ceil : Binary64 → Binary64 := toWhole (!·)

/-- The smaller of two numbers. A not-a-number gives way to the other word; of two equal numbers,
such as the two zeros, the second is taken. -/
def minimum (x y : Binary64) : Binary64 :=
  if y.isNan || x.order? y == some .lt then x else y

/-- The greater of two numbers, with the same choices as `minimum`. -/
def maximum (x y : Binary64) : Binary64 :=
  if y.isNan || x.order? y == some .gt then x else y

/-- The square root, correctly rounded. -/
def sqrt : Binary64 → Binary64 := lift₁ Float.sqrt

/-- Sine of an angle in radians. -/
def sin : Binary64 → Binary64 := lift₁ Float.sin

/-- Cosine of an angle in radians. -/
def cos : Binary64 → Binary64 := lift₁ Float.cos

/-- Tangent of an angle in radians. -/
def tan : Binary64 → Binary64 := lift₁ Float.tan

/-- Natural exponential. -/
def exp : Binary64 → Binary64 := lift₁ Float.exp

/-- Natural logarithm. -/
def log : Binary64 → Binary64 := lift₁ Float.log

/-- Power. -/
def pow : Binary64 → Binary64 → Binary64 := lift₂ Float.pow

/-- The greatest natural number whose square is at most `n`, by one bit a step from `2 ^ k` down. -/
private def rootFrom (n : Nat) : Nat → Nat → Nat
  | 0, r => r
  | k + 1, r =>
    let next := r + Nat.pow 2 k
    rootFrom n k (if next * next ≤ n then next else r)

/-- The nearest word to `√(m * 2 ^ (2 * e))`. Extra low bits are appended before the integer root is
taken and an inexact root is marked by a last bit, so that rounding sees on which side it lies. -/
private def rootOf (m : Nat) (e : Int) : Binary64 :=
  let n := m * Nat.pow 2 128
  let r := rootFrom n (n.log2 / 2 + 1) 0
  let sticky := if r * r = n then 0 else 1
  ofPattern (Format.double.round false (2 * r + sticky) (e - 65))

/-- The length of the hypotenuse over two legs, correctly rounded. An infinite leg decides over a
not-a-number. -/
def hypot (x y : Binary64) : Binary64 :=
  match x.datum, y.datum with
  | .infinite _, _ | _, .infinite _ => ofPattern Format.double.infinity
  | .nan _ _, _ | _, .nan _ _ => invalid
  | .finite _ m e, .finite _ n d =>
    let unit := min e d
    let a := m * Nat.pow 2 (e - unit).toNat
    let b := n * Nat.pow 2 (d - unit).toNat
    rootOf (a * a + b * b) unit

end Binary64

end Kernelwright.Ieee
