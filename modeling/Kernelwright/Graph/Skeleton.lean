import Kernelwright.Graph.Validate

/-!
# Skeletons

A skeleton drives a lambda over an array. It is a graph like the lambda itself, with the input array
as parameter zero and the output array as parameter one:

* `map` stores `f(in[i])` in `out[i]` for every `i` from zero;
* `reduce` stores `f(in[0], in[i])` in `out[0]` and back in `in[0]` for every `i` from one.

The loop carries the length of the input as its bound.
-/

namespace Kernelwright

/-- The shape of a computation. -/
inductive Computation where
  | map
  | reduce
deriving DecidableEq, Repr, Inhabited

namespace Computation

def tag : Computation → String
  | map => "map"
  | reduce => "reduce"

def ofTag? (s : String) : Option Computation := [map, reduce].find? (·.tag == s)

/-- The number of arguments of the lambda; parameters of a lambda beyond them are values of the
surrounding scope. -/
def lambdaArity : Computation → Nat
  | map => 1
  | reduce => 2

end Computation

namespace Skeleton

def inputParameter : UInt64 := 0

def outputParameter : UInt64 := 1

def kernelName (g : Graph) : String := g.name ++ "Kernel"

def map (lambda : String) (input output : ElementType) : Graph :=
  .ofKinds "map" [
    .start 1,
    .loopHead 2 (some 9),
    .branch 14 3 6,
    .region 4,
    .control (.storeIndexed 8 12 16 5),
    .backEdge 1,
    .loopExit 1 17,
    .operation (.parameter inputParameter (.array input)),
    .operation (.parameter outputParameter (.array output)),
    .operation (.arrayLength 7),
    .int 0,
    .int 1,
    .phi 1 [10, 13],
    .binary .add 12 11,
    .compare .lt 12 9,
    .operation (.loadIndexed 7 12),
    .operation (.invoke (.lambda lambda) [15] output),
    .ret none]

/-- The skeleton that folds a lambda over the elements. -/
def reduce (lambda : String) (input output : ElementType) : Graph :=
  .ofKinds "reduce" [
    .start 1,
    .loopHead 2 (some 10),
    .branch 15 3 7,
    .region 4,
    .control (.storeIndexed 9 11 18 5),
    .control (.storeIndexed 8 11 19 6),
    .backEdge 1,
    .loopExit 1 20,
    .operation (.parameter inputParameter (.array input)),
    .operation (.parameter outputParameter (.array output)),
    .operation (.arrayLength 8),
    .int 0,
    .int 1,
    .phi 1 [12, 14],
    .binary .add 13 12,
    .compare .lt 13 10,
    .operation (.loadIndexed 8 11),
    .operation (.loadIndexed 8 13),
    .operation (.invoke (.lambda lambda) [16, 17] output),
    .operation (.loadIndexed 9 11),
    .ret none]

def ofComputation (c : Computation) (lambda : String) (input output : ElementType) : Graph :=
  match c with
  | .map => map lambda input output
  | .reduce => reduce lambda input output

end Skeleton

end Kernelwright
