/-!
# Operators

The operators of kernel graphs with their spelling in kernel text and their tags. Two shifts to the
right share one spelling: which of them is meant is decided by the operand's type.
-/

namespace Kernelwright

/-- Arithmetic, bitwise and shift operators. -/
inductive BinaryOp where
  | add
  | sub
  | mul
  | div
  | rem
  | and
  | or
  | xor
  | shl
  | shr
  | ushr
deriving DecidableEq, Repr, Inhabited

namespace BinaryOp

/-- Every operator. -/
def all : List BinaryOp := [add, sub, mul, div, rem, and, or, xor, shl, shr, ushr]

/-- The operator in kernel text. -/
def symbol : BinaryOp → String
  | add => "+"
  | sub => "-"
  | mul => "*"
  | div => "/"
  | rem => "%"
  | and => "&"
  | or => "|"
  | xor => "^"
  | shl => "<<"
  | shr | ushr => ">>"

def tag : BinaryOp → String
  | add => "Add"
  | sub => "Sub"
  | mul => "Mul"
  | div => "Div"
  | rem => "Rem"
  | and => "And"
  | or => "Or"
  | xor => "Xor"
  | shl => "Shl"
  | shr => "Shr"
  | ushr => "UShr"

def ofTag? (s : String) : Option BinaryOp := all.find? (·.tag == s)

theorem ofTag?_tag (op : BinaryOp) : ofTag? op.tag = some op := by cases op <;> decide

def isShift : BinaryOp → Bool
  | shl | shr | ushr => true
  | _ => false

def isBitwise : BinaryOp → Bool
  | and | or | xor => true
  | _ => false

end BinaryOp

/-- Operators of one operand. -/
inductive UnaryOp where
  | neg
  | not
deriving DecidableEq, Repr, Inhabited

namespace UnaryOp

def tag : UnaryOp → String
  | neg => "Neg"
  | not => "Not"

def ofTag? (s : String) : Option UnaryOp := [neg, not].find? (·.tag == s)

theorem ofTag?_tag (op : UnaryOp) : ofTag? op.tag = some op := by cases op <;> decide

end UnaryOp

/-- Comparisons. -/
inductive CompareOp where
  | eq
  | ne
  | lt
  | le
  | gt
  | ge
deriving DecidableEq, Repr, Inhabited

namespace CompareOp

def symbol : CompareOp → String
  | eq => "=="
  | ne => "!="
  | lt => "<"
  | le => "<="
  | gt => ">"
  | ge => ">="

def tag : CompareOp → String
  | eq => "Eq"
  | ne => "Ne"
  | lt => "Lt"
  | le => "Le"
  | gt => "Gt"
  | ge => "Ge"

def ofTag? (s : String) : Option CompareOp := [eq, ne, lt, le, gt, ge].find? (·.tag == s)

theorem ofTag?_tag (op : CompareOp) : ofTag? op.tag = some op := by cases op <;> decide

end CompareOp

/-- Mathematical functions that kernel text has built in. -/
inductive MathOp where
  | sqrt
  | sin
  | cos
  | tan
  | exp
  | log
  | fabs
  | floor
  | ceil
  | pow
  | fmin
  | fmax
  | hypot
deriving DecidableEq, Repr, Inhabited

namespace MathOp

/-- Every function. -/
def all : List MathOp :=
  [sqrt, sin, cos, tan, exp, log, fabs, floor, ceil, pow, fmin, fmax, hypot]

def name : MathOp → String
  | sqrt => "sqrt"
  | sin => "sin"
  | cos => "cos"
  | tan => "tan"
  | exp => "exp"
  | log => "log"
  | fabs => "fabs"
  | floor => "floor"
  | ceil => "ceil"
  | pow => "pow"
  | fmin => "fmin"
  | fmax => "fmax"
  | hypot => "hypot"

def tag : MathOp → String
  | sqrt => "Sqrt"
  | sin => "Sin"
  | cos => "Cos"
  | tan => "Tan"
  | exp => "Exp"
  | log => "Log"
  | fabs => "Fabs"
  | floor => "Floor"
  | ceil => "Ceil"
  | pow => "Pow"
  | fmin => "Fmin"
  | fmax => "Fmax"
  | hypot => "Hypot"

def ofTag? (s : String) : Option MathOp := all.find? (·.tag == s)

theorem ofTag?_tag (op : MathOp) : ofTag? op.tag = some op := by cases op <;> decide

/-- The number of arguments. -/
def arity : MathOp → Nat
  | pow | fmin | fmax | hypot => 2
  | _ => 1

end MathOp

/-- Nodes that only relabel their operand. -/
inductive Relabel where
  | pi
  | box
  | unbox
  | checkCast
  | valueProxy
deriving DecidableEq, Repr, Inhabited

namespace Relabel

def tag : Relabel → String
  | pi => "Pi"
  | box => "Box"
  | unbox => "Unbox"
  | checkCast => "CheckCast"
  | valueProxy => "ValueProxy"

def ofTag? (s : String) : Option Relabel :=
  [pi, box, unbox, checkCast, valueProxy].find? (·.tag == s)

theorem ofTag?_tag (op : Relabel) : ofTag? op.tag = some op := by cases op <;> decide

end Relabel

end Kernelwright
