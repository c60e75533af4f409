import Kernelwright.Host.MapReduce
import Kernelwright.Request.Basic

/-!
# Sample computations

Three small computations with inputs for them: the product of the two fields of a pair, an integer
times two, and the sum of floating-point numbers.
-/

namespace Kernelwright.Sample

open Ieee

/-- The type of single-precision numbers. -/
def float : ElementType := .scalar .float

def floatPair : ElementType := .record [float, float]

/-! ### Lambdas -/

/-- The product of the two fields of a pair. -/
def mulFields : Graph := .ofOperations "mul" [.parameter 0 (.tuple floatPair),
  .invoke (.tupleField 2 0) [1] float, .invoke (.tupleField 2 1) [1] float, .binary .mul 2 3]

/-- An integer times two, in double precision. -/
def double : Graph := .ofOperations "double" [.parameter 0 (.scalar .int),
  .constant (.scalar (.double (.ofInt 2))), .binary .mul 1 2]

def sum : Graph := .ofOperations "sum" [.parameter 0 (.scalar .float),
  .parameter 1 (.scalar .float), .binary .add 1 2]

/-! ### Requests -/

/-- Map `mulFields` over pairs. -/
def mapMul : Request := .ofLambda mulFields ⟨floatPair, float, .map⟩

/-- Map `double` over integers. -/
def mapDouble : Request := .ofLambda double ⟨.scalar .int, .scalar .double, .map⟩

/-- Reduce with `sum`. -/
def reduceSum : Request := .ofLambda sum ⟨float, float, .reduce⟩

/-! ### Inputs -/

/-- The pair of a number and the number two above it. -/
def pair (i : Nat) : Value :=
  let x := Binary32.ofInt i
  .tuple [.scalar (.float x), .scalar (.float (x.widen.add (.ofInt 2)).narrow)]

/-- The pairs of the numbers below `n`. -/
def pairs (n : Nat) : Except ArrayError PortableArray :=
  PortableArray.ofValues floatPair .default ((List.range n).map pair)

/-- The integers below `n`, as far as `n` is an integer of thirty-two bits. -/
def integers (n : Nat) : Except ArrayError PortableArray :=
  PortableArray.ofValues (.scalar .int) .default
    ((List.range (Int32.ofNat n).toInt.toNat).map fun i => .scalar (.int (Int32.ofNat i)))

/-! ### Results -/

def products (input : PortableArray) : Except HostError PortableArray :=
  Host.map [mulFields] Host.defaultFuel mulFields.name [] input float

/-- Each integer times two. -/
def doubles (input : PortableArray) : Except HostError PortableArray :=
  Host.map [double] Host.defaultFuel double.name [] input (.scalar .double)

def sumOfProducts (input : PortableArray) : Except HostError PortableArray := do
  Host.reduce [sum] Host.defaultFuel sum.name [] (← products input) (.zero float)

end Kernelwright.Sample
