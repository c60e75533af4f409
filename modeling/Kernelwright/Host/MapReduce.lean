import Kernelwright.Host.Call
import Kernelwright.PortableArray.Sequence

/-!
# Map and reduce on the host

A lambda applied to each element that an array stands for, and an array folded from the left. The
results are new arrays.
-/

namespace Kernelwright.Host

/-- The elements that an array stands for. -/
def logicalValues (a : PortableArray) : Except HostError (List Value) :=
  let values :=
    if a.isSequence then a.decodeRange? 0 a.logicalLength else a.toList?
  match values with
  | some vs => .ok vs
  | none => .error (.array .indexOutOfRange)

def callElement (lambdas : List Graph) (fuel : Nat) (name : String) (args : List HostValue) :
    Except HostError Value := do
  match ← call lambdas fuel name args with
  | .value v => .ok v
  | r => .error (.notElement name r)

def ofResults (type : ElementType) (values : List Value) : Except HostError PortableArray :=
  (PortableArray.ofValues type .nativeBuffers values).mapError .array

def map (lambdas : List Graph) (fuel : Nat) (name : String) (scope : List HostValue)
    (input : PortableArray) (output : ElementType) : Except HostError PortableArray := do
  let values ← logicalValues input
  let results ← values.mapM fun v =>
    (callElement lambdas fuel name (scope ++ [.value v])).map (·.castTo output)
  ofResults output results

/-- Fold the elements from the left into one; no elements give the identity. -/
def reduce (lambdas : List Graph) (fuel : Nat) (name : String) (scope : List HostValue)
    (input : PortableArray) (identity : Value) : Except HostError PortableArray := do
  match identity.typeOf with
  | .error n => .error (.type (.unsupportedArity n))
  | .ok type =>
    let values ← logicalValues input
    let result ← values.foldlM (fun acc v =>
      (callElement lambdas fuel name (scope ++ [.value acc, .value v])).map (·.castTo type))
      identity
    ofResults type [result.castTo type]

end Kernelwright.Host
