import Kernelwright.Element.Scalar

/-!
# The meaning of kernel text

Functions of kernel text without loops and calls, as a block-structured program in C. Integers wrap,
operands are brought to a common type before an operator is applied, and the amount of a shift
counts modulo the width of what is shifted.

The value of a variable that has not been assigned and the result of a division by zero are not
specified. An execution is given what they turn out to be, in the order in which they are met.
-/

namespace Kernelwright.Program

/-! ### Types and values -/

/-- The type of a variable or of an expression. -/
inductive Ty where
  | bool
  | char
  | uchar
  | short
  | int
  | uint
  | long
  | ulong
deriving DecidableEq, Repr, Inhabited

namespace Ty

/-- The number of bits in which values of a type are shifted. -/
def width : Ty → Nat
  | bool | char | uchar | short | int | uint => 32
  | long | ulong => 64

/-- The type to which the operands of an operator are brought: the wider one, of two of the same
width the unsigned one, and never less than a word. -/
def common (a b : Ty) : Ty :=
  if a = ulong ∨ b = ulong then ulong
  else if a = long ∨ b = long then long
  else if a = uint ∨ b = uint then uint
  else int

/-- The type to which a single operand is brought. -/
def promoted (a : Ty) : Ty := common a a

end Ty

/-- A value. -/
inductive Val where
  | bool (b : Bool)
  | char (n : Int8)
  | uchar (n : UInt8)
  | short (n : Int16)
  | int (n : Int32)
  | uint (n : UInt32)
  | long (n : Int64)
  | ulong (n : UInt64)
deriving DecidableEq, Repr, Inhabited

namespace Val

/-- The type of a value. -/
def ty : Val → Ty
  | bool _ => .bool
  | char _ => .char
  | uchar _ => .uchar
  | short _ => .short
  | int _ => .int
  | uint _ => .uint
  | long _ => .long
  | ulong _ => .ulong

/-- A value as a number. -/
def toInt : Val → Int
  | bool b => if b then 1 else 0
  | char n => n.toInt
  | uchar n => n.toNat
  | short n => n.toInt
  | int n => n.toInt
  | uint n => n.toNat
  | long n => n.toInt
  | ulong n => n.toNat

/-- The value of a type that a number wraps to; any number but zero is true. -/
def ofInt : Ty → Int → Val
  | .bool, n => bool (n != 0)
  | .char, n => char (.ofInt n)
  | .uchar, n => uchar (.ofInt n)
  | .short, n => short (.ofInt n)
  | .int, n => int (.ofInt n)
  | .uint, n => uint (.ofInt n)
  | .long, n => long (.ofInt n)
  | .ulong, n => ulong (.ofInt n)

def convert (t : Ty) (v : Val) : Val := ofInt t v.toInt

def isTrue (v : Val) : Bool := v.toInt != 0

/-- The value of a scalar that is a truth value or an integer. The other kinds have no variables;
they count as the integer that they stand for. -/
def ofScalar : Scalar → Val
  | .boolean b => bool b
  | .byte n => char n
  | .char n => uchar n
  | .short n => short n
  | .int n => int n
  | s => long s.asInt64

@[simp] theorem ty_ofInt (t : Ty) (n : Int) : (ofInt t n).ty = t := by cases t <;> rfl

@[simp] theorem ty_convert (t : Ty) (v : Val) : (v.convert t).ty = t := ty_ofInt t v.toInt

@[simp] theorem convert_ty (v : Val) : v.convert v.ty = v := by
  cases v with
  | bool b => cases b <;> rfl
  | char n => exact congrArg char (Int8.ofInt_toInt n)
  | uchar n =>
    have hn := n.toNat_lt
    have hwrap : UInt8.ofInt n.toNat = n := by
      rw [UInt8.ofInt, Int.emod_eq_of_lt (by omega) (by omega), Int.toNat_natCast,
        UInt8.ofNat_toNat]
    exact congrArg uchar hwrap
  | short n => exact congrArg short (Int16.ofInt_toInt n)
  | int n => exact congrArg int (Int32.ofInt_toInt n)
  | uint n =>
    have hn := n.toNat_lt
    have hwrap : UInt32.ofInt n.toNat = n := by
      rw [UInt32.ofInt, Int.emod_eq_of_lt (by omega) (by omega), Int.toNat_natCast,
        UInt32.ofNat_toNat]
    exact congrArg uint hwrap
  | long n => exact congrArg long (Int64.ofInt_toInt n)
  | ulong n =>
    have hn := n.toNat_lt
    have hwrap : UInt64.ofInt n.toNat = n := by
      rw [UInt64.ofInt, Int.emod_eq_of_lt (by omega) (by omega), Int.toNat_natCast,
        UInt64.ofNat_toNat]
    exact congrArg ulong hwrap

theorem convert_ofInt (t : Ty) (n : Int) : (ofInt t n).convert t = ofInt t n := by
  have h := convert_ty (ofInt t n)
  rwa [ty_ofInt] at h

end Val

/-! ### Expressions -/

/-- Operators in front of their operand. -/
inductive Sign where
  | neg
  | not
  | complement
deriving DecidableEq, Repr, Inhabited

/-- Operators between two operands. -/
inductive Operator where
  | mul
  | div
  | rem
  | add
  | sub
  | shl
  | shr
  | less
  | greater
  | lessEqual
  | greaterEqual
  | equal
  | unequal
  | and
  | xor
  | or
deriving DecidableEq, Repr, Inhabited

/-- An expression. -/
inductive Expr where
  | literal (v : Val)
  | var (x : String)
  | sign (op : Sign) (e : Expr)
  | cast (t : Ty) (e : Expr)
  | binary (op : Operator) (a b : Expr)
  | select (condition onTrue onFalse : Expr)
deriving DecidableEq, Repr, Inhabited

/-- What unspecified results turn out to be, in the order in which they are met. -/
abbrev Unknown := Nat → Int

/-- An evaluation; `none` where an expression or a statement has no meaning. -/
abbrev Eval := StateT Unknown Option

def unspecified (t : Ty) : Eval Val := fun u => some (.ofInt t (u 0), fun n => u (n + 1))

namespace Sign

def resultType : Sign → Ty → Ty
  | neg, t | complement, t => t.promoted
  | not, _ => .int

/-- The operator applied to a value. -/
def apply : Sign → Val → Val
  | neg, v => .ofInt v.ty.promoted (-(v.convert v.ty.promoted).toInt)
  | complement, v => .ofInt v.ty.promoted (-(v.convert v.ty.promoted).toInt - 1)
  | not, v => .ofInt .int (if v.isTrue then 0 else 1)

end Sign

namespace Operator

def isShift : Operator → Bool
  | shl | shr => true
  | _ => false

def isComparison : Operator → Bool
  | less | greater | lessEqual | greaterEqual | equal | unequal => true
  | _ => false

def operandType (op : Operator) (a b : Ty) : Ty := if op.isShift then a.promoted else a.common b

def resultType (op : Operator) (a b : Ty) : Ty :=
  if op.isComparison then .int else op.operandType a b

def truth (b : Bool) : Int := if b then 1 else 0

/-- A bitwise operator on numbers that fit sixty-four bits. -/
def bitwise (f : BitVec 64 → BitVec 64 → BitVec 64) (x y : Int) : Int :=
  (f (.ofInt 64 x) (.ofInt 64 y)).toInt

/-- The operator on numbers, before the result wraps; `none` where the result is unspecified. -/
def onInts? (op : Operator) (width : Nat) (x y : Int) : Option Int :=
  match op with
  | mul => some (x * y)
  | div => if y = 0 then none else some (x.tdiv y)
  | rem => if y = 0 then none else some (x.tmod y)
  | add => some (x + y)
  | sub => some (x - y)
  | shl => some (x <<< (y % width).toNat)
  | shr => some (x >>> (y % width).toNat)
  | less => some (truth (x < y))
  | greater => some (truth (x > y))
  | lessEqual => some (truth (x ≤ y))
  | greaterEqual => some (truth (x ≥ y))
  | equal => some (truth (x = y))
  | unequal => some (truth (x ≠ y))
  | and => some (bitwise (· &&& ·) x y)
  | xor => some (bitwise (· ^^^ ·) x y)
  | or => some (bitwise (· ||| ·) x y)

def apply (op : Operator) (a b : Val) : Eval Val :=
  let t := op.operandType a.ty b.ty
  let y := if op.isShift then b.toInt else (b.convert t).toInt
  match op.onInts? t.width (a.convert t).toInt y with
  | some n => return .ofInt (op.resultType a.ty b.ty) n
  | none => unspecified t

end Operator

/-! ### Variables -/

/-- The variables in scope, the latest first. -/
abbrev Vars := List (String × Val)

/-- Assign a variable; the value is brought to its type. -/
def Vars.set? (x : String) (v : Val) : Vars → Option Vars
  | [] => none
  | (y, w) :: vars =>
    if y = x then some ((y, v.convert w.ty) :: vars) else (set? x v vars).map ((y, w) :: ·)

namespace Expr

def type? (vars : Vars) : Expr → Option Ty
  | literal v => some v.ty
  | var x => (vars.lookup x).map Val.ty
  | sign op e => (e.type? vars).map op.resultType
  | cast t _ => some t
  | binary op a b => do return op.resultType (← a.type? vars) (← b.type? vars)
  | select _ t f => do return (← t.type? vars).common (← f.type? vars)

/-- The value of an expression. Of a choice, only the chosen side is evaluated. -/
def eval (vars : Vars) : Expr → Eval Val
  | literal v => return v
  | var x => liftM (vars.lookup x)
  | sign op e => return op.apply (← e.eval vars)
  | cast t e => return (← e.eval vars).convert t
  | binary op a b => do op.apply (← a.eval vars) (← b.eval vars)
  | select c t f => do
    let type ← liftM ((select c t f).type? vars)
    let v ← if (← c.eval vars).isTrue then t.eval vars else f.eval vars
    return v.convert type

end Expr

/-! ### Statements -/

/-- A statement. -/
inductive Stmt where
  | declare (t : Ty) (x : String) (value : Option Expr)
  | assign (x : String) (value : Expr)
  | ret (value : Expr)
  | branch (condition : Expr) (onTrue onFalse : List Stmt)
deriving Repr, Inhabited

/-- Where an execution leads. -/
inductive Outcome where
  | running (vars : Vars)
  | returned (v : Val)
deriving DecidableEq, Repr

mutual

/-- Execute a statement. The variables of an arm end with it. -/
def Stmt.exec (vars : Vars) : Stmt → Eval Outcome
  | .declare t x none => return .running ((x, ← unspecified t) :: vars)
  | .declare t x (some e) => return .running ((x, (← e.eval vars).convert t) :: vars)
  | .assign x e => return .running (← liftM (Vars.set? x (← e.eval vars) vars))
  | .ret e => return .returned (← e.eval vars)
  | .branch c t f => do
    match ← if (← c.eval vars).isTrue then execAll vars t else execAll vars f with
    | .running inner => return .running (inner.drop (inner.length - vars.length))
    | .returned v => return .returned v

/-- Execute statements one after the other, up to the first return. -/
def execAll (vars : Vars) : List Stmt → Eval Outcome
  | [] => return .running vars
  | s :: ss => do
    match ← s.exec vars with
    | .running vars => execAll vars ss
    | .returned v => return .returned v

end

/-! ### Functions -/

/-- A parameter; what a pointer leads to is no part of this language. -/
inductive Param where
  | value (t : Ty) (name : String)
  | pointer (name : String)
deriving DecidableEq, Repr, Inhabited

/-- A function. -/
structure Function where
  result : Ty
  name : String
  params : List Param
  body : List Stmt
deriving Repr, Inhabited

/-- The variables that a function starts with: one for each parameter that takes a value. -/
def bindParams : List Param → List Val → Option Vars
  | [], [] => some []
  | .value t x :: ps, v :: vs => (bindParams ps vs).map ((x, v.convert t) :: ·)
  | .pointer _ :: ps, vs => bindParams ps vs
  | _, _ => none

/-- Run a function on the values of its parameters. A function that ends without a return has no
result. -/
def Function.run (f : Function) (args : List Val) (unknown : Unknown) : Option Val := do
  let vars ← bindParams f.params args
  match ← execAll vars f.body unknown with
  | (.returned v, _) => some (v.convert f.result)
  | (.running _, _) => none

end Kernelwright.Program
