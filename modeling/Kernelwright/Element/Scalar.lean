import Kernelwright.Decimal.Layout
import Kernelwright.Element.Kind
import Kernelwright.Ieee.Word

/-!
# Scalars

A scalar is a word of its kind: integers wrap in their own width and floating-point numbers are bit
patterns. Conversion between kinds goes through one of two views, the sixty-four bit integer
`asInt64` and the sixty-four bit floating-point number `asFloat`, as a cast in C does.
-/

namespace Kernelwright

open Ieee

/-- A number of one of the eight kinds. -/
inductive Scalar where
  | byte (v : Int8)
  | char (v : UInt8)
  | short (v : Int16)
  | int (v : Int32)
  | long (v : Int64)
  | float (v : Binary32)
  | double (v : Binary64)
  | boolean (v : Bool)
deriving DecidableEq, Repr, Inhabited

namespace Scalar

def kind : Scalar → ScalarKind
  | byte _ => .byte
  | char _ => .char
  | short _ => .short
  | int _ => .int
  | long _ => .long
  | float _ => .float
  | double _ => .double
  | boolean _ => .boolean

/-- The zero of a kind; of booleans, `false`. -/
def zero : ScalarKind → Scalar
  | .byte => byte 0
  | .char => char 0
  | .short => short 0
  | .int => int 0
  | .long => long 0
  | .float => float ⟨0⟩
  | .double => double ⟨0⟩
  | .boolean => boolean false

@[simp] theorem kind_zero (k : ScalarKind) : (zero k).kind = k := by cases k <;> rfl

/-! ### Views -/

/-- The number as a sixty-four bit floating-point word. -/
def asFloat : Scalar → Binary64
  | byte v => .ofInt v.toInt
  | char v => .ofInt v.toNat
  | short v => .ofInt v.toInt
  | int v => .ofInt v.toInt
  | long v => .ofInt v.toInt
  | float v => v.widen
  | double v => v
  | boolean v => .ofInt v.toNat

/-- The number as a sixty-four bit integer; floating-point numbers are truncated toward zero. -/
def asInt64 : Scalar → Int64
  | byte v => .ofInt v.toInt
  | char v => .ofNat v.toNat
  | short v => .ofInt v.toInt
  | int v => .ofInt v.toInt
  | long v => v
  | float v => v.widen.truncate
  | double v => v.truncate
  | boolean v => .ofNat v.toNat

/-- Whether the number differs from zero. -/
def asBool : Scalar → Bool
  | boolean v => v
  | float v => v.widen.isNonzero
  | double v => v.isNonzero
  | s => s.asInt64 != 0

def isFloating (s : Scalar) : Bool := s.kind.isFloating

/-! ### Conversion -/

/-- The scalar of an integral kind with the low bits of a sixty-four bit integer; of the other
kinds, the number nearest to it. -/
def ofInt64 (k : ScalarKind) (v : Int64) : Scalar :=
  match k with
  | .byte => byte v.toInt8
  | .char => char (UInt8.ofInt v.toInt)
  | .short => short v.toInt16
  | .int => int v.toInt32
  | .long => long v
  | .float => float (Binary64.ofInt v.toInt).narrow
  | .double => double (.ofInt v.toInt)
  | .boolean => boolean (v != 0)

/-- The number in another kind, as a C cast converts it. -/
def cast (s : Scalar) (k : ScalarKind) : Scalar :=
  if s.kind = k then s
  else match k with
    | .float => float s.asFloat.narrow
    | .double => double s.asFloat
    | .boolean => boolean s.asBool
    | k => ofInt64 k s.asInt64

theorem kind_ofInt64 (k : ScalarKind) (v : Int64) : (ofInt64 k v).kind = k := by
  cases k <;> rfl

@[simp] theorem kind_cast (s : Scalar) (k : ScalarKind) : (s.cast k).kind = k := by
  unfold cast
  split
  · assumption
  · cases k <;> rfl

@[simp] theorem cast_kind (s : Scalar) : s.cast s.kind = s := by simp [cast]

/-! ### Comparison -/

/-- Equality as numbers within one kind: a not-a-number differs from itself and the two zeros are
equal. -/
def sameNumber : Scalar → Scalar → Bool
  | float a, float b => a.sameNumber b
  | double a, double b => a.sameNumber b
  | a, b => a == b

/-! ### Text -/

/-- Displayed floating-point numbers are positional from `0.0001` up to sixteen digits before the
point, their exponents have no plus sign, and of two equally near decimals the greater is shown. -/
def display : Decimal.Layout where
  low := -4
  high := 15
  plus := false
  tie := .away
  nan := "NaN"
  infinity := "inf"
  negativeInfinity := "-inf"

def text : Scalar → String
  | byte v => toString v.toInt
  | char v => toString v.toNat
  | short v => toString v.toInt
  | int v => toString v.toInt
  | long v => toString v.toInt
  | float v => display.text .single v.datum
  | double v => display.text .double v.datum
  | boolean v => if v then "true" else "false"

end Scalar

end Kernelwright
