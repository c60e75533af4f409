import Kernelwright.Code.Statement
import Kernelwright.Host.Arithmetic

/-!
# The execution of kernels

What the statements of a kernel do when one work item runs them. Variables are of the scalar kinds,
and arrays in global memory are reached through pointers, different ones in different memory. What
the lambdas compute and the index metadata are given from outside. Structs and private buffers are
left out: a statement that needs them has no meaning here.

A loop is given a number of rounds within which it has to end.
-/

namespace Kernelwright.Code

open Ieee

/-! ### Numbers -/

/-- The number that a literal spells. What is not a finite number is spelled in single precision. -/
def Literal.value : Literal → Scalar
  | int n => if -2147483648 ≤ n ∧ n < 2147483648 then .int (.ofInt n) else .long (.ofInt n)
  | long n => .long n
  | byte n => .byte n
  | char n => .char n
  | short n => .short n
  | float x => .float x
  | double x => .double x
  | nan => .float ⟨0x7fc00000⟩
  | infinity => .float ⟨0x7f800000⟩
  | negativeInfinity => .float ⟨0xff800000⟩
  | bool b => .boolean b

/-- A sum or a product in the kind that both operands are brought to, by its computation on integers
and on floating-point numbers. -/
def combine (onIntegers : Int64 → Int64 → Int64) (onFloats : Binary64 → Binary64 → Binary64)
    (a b : Scalar) : Scalar :=
  let k := a.kind.promote b.kind
  if k.isFloating then (Scalar.double (onFloats (a.cast k).asFloat (b.cast k).asFloat)).cast k
  else .ofInt64 k (onIntegers a.asInt64 b.asInt64)

/-- The sum of a number and a multiple of another. -/
def multipleAbove (start stride index : Scalar) : Scalar :=
  combine (· + ·) Binary64.add start (combine (· * ·) Binary64.mul stride index)

/-- The index into a progression that a rule makes of an element's index. An index is a word, and
the amount of a shift counts modulo its width. -/
def IndexRule.index : IndexRule → Nat → Nat
  | shift amount, i => i >>> (amount % 32)
  | divide bound, i => i / bound.toNat
  | mask bits, i => i &&& bits.toNat
  | modulo bound, i => i % bound.toNat

/-- The position that an integer counts, if it is not negative. -/
def position? : Scalar → Option Nat
  | .int i => if 0 ≤ i.toInt then some i.toInt.toNat else none
  | _ => none

/-! ### Memory -/

/-- An array in global memory. All its cells are of one kind. -/
structure Region where
  kind : ScalarKind
  cells : List Scalar
  kind_of_mem : ∀ c ∈ cells, c.kind = kind

namespace Region

/-- Write a cell; the number is brought to the kind of the array. -/
def set (r : Region) (i : Nat) (v : Scalar) : Region where
  kind := r.kind
  cells := r.cells.set i (v.cast r.kind)
  kind_of_mem c hc := by
    rcases List.mem_or_eq_of_mem_set hc with hc | rfl
    · exact r.kind_of_mem c hc
    · exact v.kind_cast r.kind

/-- Write a cell that the array has. -/
def set? (r : Region) (i : Nat) (v : Scalar) : Option Region :=
  if i < r.cells.length then some (r.set i v) else none

end Region

/-- What a kernel is run with. -/
structure Device where
  /-- The index metadata of an array: its length and the offset of its first element. -/
  metadata : Name → List Int32
  /-- What a function gives for the values of its call. The parameters of the kernel and the flag,
  which are passed besides, are the same in every call. -/
  call : String → List Scalar → Scalar
  /-- The position of the work item. -/
  globalId : Int32

/-- The state of a kernel. -/
structure State where
  /-- The variables in scope, the latest first. -/
  vars : List (Name × Scalar)
  /-- The arrays whose dimension variables have been declared. -/
  dimensions : List Name
  memory : Name → Option Region
  /-- The deoptimization flag. -/
  flag : Int32

namespace State

variable (d : Device) (s : State)

/-- The value of a name: a literal, or a variable in scope. -/
def value? : Name → Option Scalar
  | .literal l => some l.value
  | x => s.vars.lookup x

def declare (x : Name) (v : Scalar) : State := { s with vars := (x, v) :: s.vars }

def backTo (outer : State) : State :=
  { s with vars := s.vars.drop (s.vars.length - outer.vars.length) }

/-- An entry of the index metadata of an array, reached by its dimension variable. -/
def metadata? (array : Name) (entry : Nat) : Option Int32 :=
  if array ∈ s.dimensions then (d.metadata array)[entry]? else none

/-- The array that a place is in, and its position there. -/
def address? : Place → Option (Name × Nat)
  | .cell array index => do return (array, ← position? (← s.value? index))
  | .offsetCell array metadata index => do
    let offset ← s.metadata? d metadata 1
    let i ← position? (← s.value? index)
    return (array, ← position? (.int (offset + .ofNat i)))
  | _ => none

def read (place : Place) : Option Scalar :=
  match place with
  | .name x => s.value? x
  | _ => do
    let (array, i) ← s.address? d place
    (← s.memory array).cells[i]?

/-- The state with another array behind a pointer. -/
def store (array : Name) (r : Region) : State :=
  { s with memory := fun a => if a = array then some r else s.memory a }

/-- Give a variable another value, of its own kind. -/
def assignVar (x : Name) (v : Scalar) : List (Name × Scalar) → Option (List (Name × Scalar))
  | [] => none
  | (y, w) :: vars =>
    if y = x then some ((y, v.cast w.kind) :: vars) else (assignVar x v vars).map ((y, w) :: ·)

def write (place : Place) (v : Scalar) : Option State :=
  match place with
  | .name x => (assignVar x v s.vars).map fun vars => { s with vars := vars }
  | _ => do
    let (array, i) ← s.address? d place
    let region ← (← s.memory array).set? i v
    return s.store array region

/-- The values that a call passes, without the parameters of the kernel and the flag. -/
def arguments : List Argument → Option (List Scalar)
  | [] => some []
  | .name (.parameter _) :: args | .withMetadata _ :: args | .deoptFlag :: args => arguments args
  | .name x :: args => do return (← s.value? x) :: (← arguments args)
  | .place p :: args => do return (← s.read d p) :: (← arguments args)

end State

/-! ### Expressions -/

def Expr.eval (d : Device) (s : State) : Expr → Option Scalar
  | .place p => s.read d p
  | .compare op x y => do
    return .boolean (Host.satisfies op (.scalar (← s.value? x)) (.scalar (← s.value? y)))
  | .call f args => do return d.call f (← s.arguments d args)
  | .length array => (s.metadata? d array 0).map .int
  | .globalId => some (.int d.globalId)
  | .progressionIndex rule x => do
    return .int (.ofNat (rule.index (← position? (← s.value? x))))
  | .progression start stride x | .linearProgression start stride x => do
    return multipleAbove start.value stride.value (← s.value? x)
  | _ => none

/-! ### Statements -/

/-- How a statement ends. -/
inductive Flow where
  | next
  /-- The innermost loop is left. -/
  | left
  /-- The kernel has returned. -/
  | stopped
deriving DecidableEq, Repr

/-- Repeat a round as long as a test holds, for at most some rounds. -/
def repeatWhile (test : State → Option Bool) (round : State → Option (Flow × State)) :
    Nat → State → Option (Flow × State)
  | 0, _ => none
  | rounds + 1, s => do
    if ← test s then
      match ← round s with
      | (.next, s') => repeatWhile test round rounds s'
      | (.left, s') => return (.next, s')
      | (.stopped, s') => return (.stopped, s')
    else return (.next, s)

def isBelow (counter bound : Name) (s : State) : Option Bool := do
  return Host.satisfies .lt (.scalar (← s.value? counter)) (.scalar (← s.value? bound))

def increment (counter : Name) (s : State) : Option State := do
  let v ← s.value? counter
  (State.assignVar counter (combine (· + ·) Binary64.add v (.int 1)) s.vars).map fun vars =>
    { s with vars := vars }

def countRound (counter : Name) (body : State → Option (Flow × State)) (s : State) :
    Option (Flow × State) := do
  match ← body s with
  | (.next, s') => return (.next, ← increment counter (s'.backTo s))
  | (flow, s') => return (flow, s'.backTo s)

def countUp (counter bound : Name) (init : Scalar) (body : State → Option (Flow × State))
    (rounds : Nat) (s : State) : Option (Flow × State) := do
  let (flow, s') ← repeatWhile (isBelow counter bound) (countRound counter body) rounds
    (s.declare counter (init.cast .int))
  return (flow, s'.backTo s)

mutual

/-- Execute a statement, with at most `rounds` rounds of each loop. -/
def Stmt.exec (d : Device) (rounds : Nat) (s : State) : Stmt → Option (Flow × State)
  | .mark .. | .failed .. | .globalSize => some (.next, s)
  | .declare (.scalar k) x e _ => do return (.next, s.declare x ((← e.eval d s).cast k))
  | .dimension array => some (.next, { s with dimensions := array :: s.dimensions })
  | .clearFlag => some (.next, { s with flag := 0 })
  | .raiseFlag => some (.next, { s with flag := d.globalId })
  | .assign target e => do return (.next, ← s.write d target (← e.eval d s))
  | .ret none => some (.stopped, s)
  | .leave => some (.left, s)
  | .branch c onTrue onFalse => do
    let (flow, s') ← if (← s.value? c).asBool then execAll d rounds s onTrue
      else execAll d rounds s onFalse
    return (flow, s'.backTo s)
  | .loop .parallel body => do
    let (flow, s') ← execAll d rounds s body
    return (flow, s'.backTo s)
  | .loop .forever body =>
    repeatWhile (fun _ => some true) (fun s => do
      let (flow, s') ← execAll d rounds s body
      return (flow, s'.backTo s)) rounds s
  | .loop (.reduction init bound) body => do
    countUp .reductionIndex bound (← s.value? init) (execAll d rounds · body) rounds s
  | .loop (.counted index bound) body =>
    countUp index bound (.int 0) (execAll d rounds · body) rounds s
  | _ => none

/-- Execute statements in order, up to the first that does not go on. -/
def execAll (d : Device) (rounds : Nat) (s : State) : List Stmt → Option (Flow × State)
  | [] => some (.next, s)
  | stmt :: stmts => do
    match ← stmt.exec d rounds s with
    | (.next, s') => execAll d rounds s' stmts
    | (flow, s') => return (flow, s')

end

def Function.run (f : Function) (d : Device) (rounds : Nat) (memory : Name → Option Region) :
    Option State :=
  (execAll d rounds ⟨[], [], memory, 0⟩ f.body).map Prod.snd

end Kernelwright.Code
