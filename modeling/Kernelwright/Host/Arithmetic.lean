import Kernelwright.Element.Value
import Kernelwright.Graph.Operator

/-!
# Arithmetic on the host

The operators of kernel graphs on host values. Integers are computed in 64 bits and brought back to
the width of the result; floating-point numbers are computed in double precision and rounded once to
the kind of the result.
-/

namespace Kernelwright

open Ieee

/-- Why an operator has no result. -/
inductive ArithmeticError where
  | onBooleans (op : BinaryOp)
  | onFloats (op : BinaryOp)
  | divisionByZero
deriving DecidableEq, Repr

def ArithmeticError.message : ArithmeticError → String
  | onBooleans op => "operator `" ++ op.symbol ++ "` on booleans"
  | onFloats op => "operator `" ++ op.symbol ++ "` on floating values"
  | divisionByZero => "integer division by zero"

namespace Host

/-! ### One operand -/

/-- A 64-bit integer in the kind of another value; a tuple counts as `long`. -/
def inKindOf (v : Value) (n : Int64) : Value :=
  .scalar ((Scalar.long n).cast (v.kind?.getD .long))

/-- An operator of one operand. The result has the operand's own kind. -/
def unary (op : UnaryOp) (x : Value) : Value :=
  match op, x with
  | .neg, .scalar (.float v) => .scalar (.float v.neg)
  | .neg, .scalar (.double v) => .scalar (.double v.neg)
  | .neg, v => inKindOf v (-v.asInt64)
  | .not, .scalar (.boolean b) => .scalar (.boolean !b)
  | .not, v => inKindOf v (~~~v.asInt64)

/-! ### Two operands -/

/-- An operator on truth values. -/
def onBooleans (op : BinaryOp) (x y : Bool) : Except ArithmeticError Bool :=
  match op with
  | .and => .ok (x && y)
  | .or => .ok (x || y)
  | .xor => .ok (x ^^ y)
  | op => .error (.onBooleans op)

/-- An operator on floating-point numbers. -/
def onFloats (op : BinaryOp) (x y : Binary64) : Except ArithmeticError Binary64 :=
  match op with
  | .add => .ok (x.add y)
  | .sub => .ok (x.sub y)
  | .mul => .ok (x.mul y)
  | .div => .ok (x.div y)
  | .rem => .ok (x.rem y)
  | op => .error (.onFloats op)

/-- The width in which integers of a kind are computed. -/
inductive Width where
  | word
  | long
deriving DecidableEq, Repr

/-- Only `long` is wider than a word. -/
def Width.ofKind (k : ScalarKind) : Width := if k = .long then .long else .word

/-- The amount of a shift, taken modulo the width. -/
def Width.shiftAmount (w : Width) (y : Int64) : Int64 :=
  match w with
  | word => y &&& 31
  | long => y &&& 63

/-- A shift to the right that fills up with zeros from the width on. -/
def Width.shiftUnsigned (w : Width) (x amount : Int64) : Int64 :=
  match w with
  | word => (x.toInt32.toUInt32 >>> amount.toInt32.toUInt32).toUInt64.toInt64
  | long => (x.toUInt64 >>> amount.toUInt64).toInt64

/-- Bring a result back to the width. -/
def Width.wrap (w : Width) (x : Int64) : Int64 :=
  match w with
  | word => x.toInt32.toInt64
  | long => x

/-- An operator on integers of a width, before the result is brought back to it. -/
def onIntegers (op : BinaryOp) (w : Width) (x y : Int64) : Except ArithmeticError Int64 :=
  match op with
  | .add => .ok (x + y)
  | .sub => .ok (x - y)
  | .mul => .ok (x * y)
  | .div => if y = 0 then .error .divisionByZero else .ok (x / y)
  | .rem => if y = 0 then .error .divisionByZero else .ok (x % y)
  | .and => .ok (x &&& y)
  | .or => .ok (x ||| y)
  | .xor => .ok (x ^^^ y)
  | .shl => .ok (x <<< w.shiftAmount y)
  | .shr => .ok (x >>> w.shiftAmount y)
  | .ushr => .ok (w.shiftUnsigned x (w.shiftAmount y))

/-- An operator whose result has the given kind. -/
def binary (op : BinaryOp) (kind : ScalarKind) (a b : Value) : Except ArithmeticError Value :=
  if kind = .boolean then
    (onBooleans op a.asBool b.asBool).map fun r => .scalar (.boolean r)
  else if kind.isFloating then
    (onFloats op a.asFloat b.asFloat).map fun r => .scalar ((Scalar.double r).cast kind)
  else
    let w := Width.ofKind kind
    (onIntegers op w a.asInt64 b.asInt64).map fun r => .scalar ((Scalar.long (w.wrap r)).cast kind)

/-! ### Comparison -/

def isFloating (v : Value) : Bool := v.kind?.elim false ScalarKind.isFloating

/-- The order of two values: as floating-point numbers if one of them is one, else as integers. -/
def order? (a b : Value) : Option Ordering :=
  if isFloating a || isFloating b then a.asFloat.order? b.asFloat
  else some (compare a.asInt64.toInt b.asInt64.toInt)

/-- Whether an order satisfies a comparison. Numbers without an order are unequal. -/
def holds (op : CompareOp) (o : Option Ordering) : Bool :=
  match op with
  | .eq => o == some .eq
  | .ne => o != some .eq
  | .lt => o == some .lt
  | .le => o == some .lt || o == some .eq
  | .gt => o == some .gt
  | .ge => o == some .gt || o == some .eq

def satisfies (op : CompareOp) (a b : Value) : Bool := holds op (order? a b)

/-- Minus one, zero or one; values without an order give one. -/
def sign (a b : Value) : Int32 :=
  if satisfies .lt a b then -1 else if satisfies .eq a b then 0 else 1

/-! ### Functions -/

/-- A mathematical function. Arguments that are not given are zero. -/
def math (op : MathOp) (args : List Binary64) : Binary64 :=
  let x := args[0]?.getD .zero
  let y := args[1]?.getD .zero
  match op with
  | .sqrt => x.sqrt
  | .sin => x.sin
  | .cos => x.cos
  | .tan => x.tan
  | .exp => x.exp
  | .log => x.log
  | .fabs => x.abs
  | .floor => x.floor
  | .ceil => x.ceil
  | .pow => x.pow y
  | .fmin => x.minimum y
  | .fmax => x.maximum y
  | .hypot => x.hypot y

/-- The magnitude of an integer; the least one is its own magnitude. -/
def magnitude (x : Int64) : Int64 := if x < 0 then -x else x

/-- A function that kernel text has built in. The first argument has to be a scalar; of two
arguments that are alike it is the one returned. -/
def builtin? (name : String) (args : List Value) : Option Value :=
  match args with
  | [] | .tuple _ :: _ => none
  | .scalar x :: rest =>
    match name, rest with
    | "min", [b] => some (if satisfies .le (.scalar x) b then .scalar x else b)
    | "max", [b] => some (if satisfies .ge (.scalar x) b then .scalar x else b)
    | "abs", [] =>
      if x.isFloating then some (.scalar ((Scalar.double x.asFloat.abs).cast x.kind))
      else some (.scalar ((Scalar.long (magnitude x.asInt64)).cast x.kind))
    | _, _ => none

end Host

end Kernelwright
