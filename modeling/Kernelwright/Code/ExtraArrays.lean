/-!
# Extra arrays

When an array of tuples is passed to a kernel as one array a field, each of these takes a parameter
of its own. They are recorded here, inputs and outputs apart, for the caller that has to fill them.
-/

namespace Kernelwright.Code

/-- A pointer parameter that stands for a field, counted from zero, of a tuple. -/
structure ExtraArray where
  name : String
  field : Nat
  type : String
deriving DecidableEq, Repr, Inhabited

/-- The extra arrays of a kernel, in order. -/
structure ExtraArrays where
  inputs : List ExtraArray
  outputs : List ExtraArray
deriving DecidableEq, Repr, Inhabited

namespace ExtraArrays

def empty : ExtraArrays := ⟨[], []⟩

def addInput (e : ExtraArrays) (a : ExtraArray) : ExtraArrays :=
  { e with inputs := e.inputs ++ [a] }

def addOutput (e : ExtraArrays) (a : ExtraArray) : ExtraArrays :=
  { e with outputs := e.outputs ++ [a] }

def latest? (arrays : List ExtraArray) (field : Nat) : Option ExtraArray :=
  arrays.reverse.find? (·.field == field)

def input? (e : ExtraArrays) (field : Nat) : Option ExtraArray := latest? e.inputs field

def output? (e : ExtraArrays) (field : Nat) : Option ExtraArray := latest? e.outputs field

def isEmpty (e : ExtraArrays) : Bool := e.inputs.isEmpty && e.outputs.isEmpty

end ExtraArrays

end Kernelwright.Code
