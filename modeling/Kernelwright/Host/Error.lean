import Kernelwright.Graph.Error
import Kernelwright.Host.Arithmetic
import Kernelwright.Storage.Error

/-!
# Host errors

What a lambda is given and gives back on the host, and the causes for which an evaluation stops.
-/

namespace Kernelwright

/-- What a lambda takes and returns. -/
inductive HostValue where
  | value (v : Value)
  | array (items : List Value)
  | void
deriving DecidableEq, Repr, Inhabited

def HostValue.text : HostValue → String
  | value v => "Value(" ++ v.tagged ++ ")"
  | array vs => "Array([" ++ ", ".intercalate (vs.map Value.tagged) ++ "])"
  | void => "Void"

/-- Why an evaluation stopped. -/
inductive HostError where
  | noLambda (name : String)
  | callDepth (lambda : String)
  | notElement (lambda : String) (result : HostValue)
  | noValue (node : NodeId)
  | noArray (node : NodeId)
  | missingArgument (index : UInt64) (lambda : String)
  | unassignedPhi (node : NodeId)
  | noScalarKind (node : NodeId)
  | arithmetic (cause : ArithmeticError) (node : NodeId)
  | loadOutOfRange (index : Int64) (node : NodeId)
  | storeOutOfRange (index : Int64) (node : NodeId)
  | storeOnScalar (node : NodeId)
  | fieldOutOfRange (field : UInt64) (node : NodeId)
  | componentOutOfRange (component : UInt64) (node : NodeId)
  | unknownBuiltin (name : String) (node : NodeId)
  | fusedResult (lambda : String)
  | guardFailed (node : NodeId)
  | deoptimized (node : NodeId)
  | noSemantics (name : String) (node : NodeId)
  /-- A new array is longer than there is room for. -/
  | noRoom (length : UInt64) (node : NodeId)
  /-- A handle that belongs to no array. -/
  | dangling (handle : Nat)
  /-- The evaluation was not finished within its fuel. -/
  | outOfFuel
  /-- A fault of a graph. -/
  | graph (cause : KernelError)
  /-- A fault of the array that is read or made. -/
  | array (cause : ArrayError)
  /-- A value that has no type. -/
  | type (cause : TypeError)
deriving DecidableEq, Repr

namespace HostError

def reason : HostError → String
  | noLambda name => "lambda `" ++ name ++ "` is not available"
  | callDepth lambda => "call depth exceeded in `" ++ lambda ++ "`"
  | notElement lambda result =>
    "lambda `" ++ lambda ++ "` returned " ++ result.text ++ ", expected an element value"
  | noValue node => "node " ++ node.text ++ " does not produce an element value"
  | noArray node => "node " ++ node.text ++ " does not produce an array"
  | missingArgument index lambda =>
    "missing argument " ++ toString index.toNat ++ " of `" ++ lambda ++ "`"
  | unassignedPhi node => "phi " ++ node.text ++ " read before assignment"
  | noScalarKind node => "binary node " ++ node.text ++ " has no scalar kind"
  | arithmetic cause node => cause.message ++ " at " ++ node.text
  | loadOutOfRange index node =>
    "load index " ++ toString index.toInt ++ " out of range at " ++ node.text
  | storeOutOfRange index node =>
    "store index " ++ toString index.toInt ++ " out of range at " ++ node.text
  | storeOnScalar node => "field store on a non-tuple at " ++ node.text
  | fieldOutOfRange field node =>
    "field " ++ toString field.toNat ++ " out of range at " ++ node.text
  | componentOutOfRange component node =>
    "component " ++ toString component.toNat ++ " out of range at " ++ node.text
  | unknownBuiltin name node => "unknown builtin `" ++ name ++ "` at " ++ node.text
  | fusedResult lambda => "fused lambda `" ++ lambda ++ "` did not return an element"
  | guardFailed node => "guard " ++ node.text ++ " failed"
  | deoptimized node => "deoptimization point " ++ node.text ++ " reached"
  | noSemantics name node => "no host semantics for `" ++ name ++ "` (" ++ node.text ++ ")"
  | noRoom length node =>
    "no room for " ++ toString length.toNat ++ " elements at " ++ node.text
  | dangling handle => "no array " ++ toString handle
  | outOfFuel => "out of fuel"
  | graph cause => cause.message
  | array cause => cause.message
  | type cause => cause.message

def message : HostError → String
  | graph cause => cause.message
  | array cause => cause.message
  | type cause => cause.message
  | e => "host evaluation failed: " ++ e.reason

end HostError

end Kernelwright
