import Kernelwright.Digest.Sha256
import Kernelwright.Graph.Json
import Kernelwright.Json.Reader
import Kernelwright.Json.Writer
import Kernelwright.Lowering.Kernel
import Kernelwright.Sequence.Json

/-!
# Kernel requests

A request is everything that a caller hands over for one kernel. It has a form in JSON. Its identity
is the one it carries, or else the digest of its compact JSON form.
-/

namespace Kernelwright

/-- The element types of a request and the shape of its computation. -/
structure TypeInfo where
  input : ElementType
  output : ElementType
  computation : Computation
deriving DecidableEq, Repr

/-- A request for a kernel. -/
structure Request where
  /-- The identity, where the caller chooses one. -/
  id : Option String
  /-- The skeleton, where it is not the one of the computation. -/
  skeleton : Option Graph
  lambda : Graph
  nested : List Graph
  types : TypeInfo
  /-- The layout of the input, where that is a sequence. -/
  sequence : Option SequenceLayout
  /-- The length of the input, for the offsets of several devices. -/
  totalSize : Option UInt64
deriving DecidableEq, Repr

namespace Request

def ofLambda (lambda : Graph) (types : TypeInfo) : Request :=
  ⟨none, none, lambda, [], types, none, none⟩

def withNested (r : Request) (nested : List Graph) : Request := { r with nested := nested }

def withSequence (r : Request) (layout : SequenceLayout) (total : Nat) : Request :=
  { r with sequence := some layout, totalSize := some (UInt64.ofNat total) }

def skeletonGraph (r : Request) : Graph :=
  r.skeleton.getD
    (Skeleton.ofComputation r.types.computation r.lambda.name r.types.input r.types.output)

def kernelInput (r : Request) : Lowering.KernelInput where
  skeleton := r.skeletonGraph
  lambda := r.lambda
  nested := r.nested
  computation := r.types.computation
  input := r.types.input
  output := r.types.output
  sequence := r.sequence

def generate (r : Request) (session : Lowering.Session) :
    Except KernelError (Lowering.Kernel × Lowering.Session) :=
  Lowering.generate r.kernelInput session

/-! ### JSON -/

/-- A member that is left out when there is no value. -/
def member? (name : String) (f : α → Json) (a : Option α) : List (String × Json) :=
  (a.map fun a => (name, f a)).toList

def typesToJson (t : TypeInfo) : Json := .members
  [("input", t.input.toJson), ("output", t.output.toJson), ("computation", t.computation.toJson)]

/-- A request as JSON; what the caller did not give is left out. -/
def toJson (r : Request) : Json := .members (
  member? "id" Json.text r.id
  ++ member? "skeleton" Graph.toJson r.skeleton
  ++ [("lambda", r.lambda.toJson)]
  ++ (if r.nested.isEmpty then [] else [("nested", .array (r.nested.map Graph.toJson))])
  ++ [("types", typesToJson r.types)]
  ++ member? "sequence" SequenceLayout.toJson r.sequence
  ++ member? "total_size" (fun n => Json.nat n.toNat) r.totalSize)

def typesOfJson : Decode TypeInfo := .record ["input", "output", "computation"] fun room fs => do
  return ⟨← fs.required "input" ElementType.ofJson room,
    ← fs.required "output" ElementType.ofJson room,
    ← fs.required "computation" Computation.ofJson room⟩

def ofJson : Decode Request :=
  .record ["id", "skeleton", "lambda", "nested", "types", "sequence", "total_size"]
    fun room fs => do
    return {
      id := ← fs.withDefault "id" none (.option .string) room
      skeleton := ← fs.withDefault "skeleton" none (.option Graph.ofJson) room
      lambda := ← fs.required "lambda" Graph.ofJson room
      nested := ← fs.withDefault "nested" [] (.list Graph.ofJson) room
      types := ← fs.required "types" typesOfJson room
      sequence := ← fs.withDefault "sequence" none (.option SequenceLayout.ofJson) room
      totalSize := ← fs.withDefault "total_size" none (.option .uint64) room }

/-- How deep the containers of a request may nest. -/
def maxNesting : Nat := 127

def parse? (text : String) : Option Request := (Json.parse? text).bind (ofJson .listed maxNesting)

/-- The JSON text of a request, laid out for reading. -/
def text (r : Request) : String := r.toJson.pretty

def identity (r : Request) : String := r.id.getD (Digest.hexDigest r.toJson.compact)

end Request

end Kernelwright
