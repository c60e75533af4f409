import Kernelwright.PortableArray.Slice
import Kernelwright.Request.Offload
import Kernelwright.Sample

/-!
# Operations within the room there is

Arrays, chunks and kernels are described by numbers, and a number can ask for more than any block of
memory holds. Each operation here looks at that first and is otherwise the operation of the same
name; `noRoom` says that the numbers ask for too much. Where an operation has causes of its own to
refuse, the one that comes first on the way decides.
-/

namespace Kernelwright.Bounded

open Memory

/-- An operation that does not depend on the room. -/
def unbounded : Except ε α → Except (Limited ε) α
  | .ok a => .ok a
  | .error e => .error (.refused e)

/-- An operation that needs room for a number of items of a size in bytes. -/
def within (count bytes : Nat) (r : Unit → Except ε α) : Except (Limited ε) α :=
  if fits count bytes then unbounded (r ()) else .error .noRoom

/-! ### Storage -/

/-- Storage for copies of a value of any shape. -/
def ofValue (v : Value) (length : Nat) : Except (Limited NoBackend) Storage :=
  within length valueBytes fun _ => .ok (.ofValue v length)

/-- A column of zeros. Where it stores bytes, their number is a word, and so a column can be made
with fewer bytes than its elements have. -/
def allocate (kind : ScalarKind) (mode : StorageMode) (length : Nat) :
    Except (Limited NoBackend) Storage :=
  match Backend.select kind mode with
  | .ok .native => within length kind.byteSize fun _ => .ok (.zeroNative kind length)
  | .ok (.bytes pinned) =>
    let count := product length kind.byteSize
    within count 1 fun _ => .ok (.zeroBytes kind pinned count)
  | .ok .boxed => ofValue (.scalar (.zero kind)) length
  | .error e => .error (.refused e)

/-! ### Arrays -/

mutual

/-- The kinds of the columns of a type, in order. -/
def kinds : ElementType → List ScalarKind
  | .scalar k => [k]
  | .record ts => kindsAll ts

/-- The kinds of the columns of several types, in order. -/
def kindsAll : List ElementType → List ScalarKind
  | [] => []
  | t :: ts => kinds t ++ kindsAll ts

end

def newColumn (mode : StorageMode) (length : Nat) (type : ElementType) :
    Except (Limited ArrayError) Storage :=
  Except.mapError (·.map .noBackend) (match type with
    | .scalar kind => allocate kind mode length
    | .record ts => ofValue (.zero (.record ts)) length)

/-- An array of zeros. A type with a wrong arity is refused before any column is made. -/
def construct (size : Nat) (type : ElementType) (mode : StorageMode) (init : Bool) :
    Except (Limited ArrayError) PortableArray :=
  match type.validate with
  | .ok _ => PortableArray.build (newColumn mode (if init then size else 0)) mode size type
  | .error e => .error (.refused (.type e))

/-- The elements that an array stands for, from an index up to another. -/
def decodeRange? (a : PortableArray) (start stop : Nat) : Option (List Value) :=
  if fits (stop - start) valueBytes then a.decodeRange? start stop else none

/-! ### Chunks -/

def chunkCount (size chunk : Nat) : Nat := if chunk = 0 then 0 else (size + chunk - 1) / chunk

def chunksOfSize (size chunk : Nat) : Except (Limited ArrayError) (List (Nat × Nat)) :=
  within (chunkCount size chunk) chunkBytes fun _ => .ok (Kernelwright.chunksOfSize size chunk)

/-- The start and length of each of a number of chunks. -/
def fixedChunks (size count : Nat) : Except (Limited ArrayError) (List (Nat × Nat)) :=
  within count chunkBytes fun _ => .ok (Kernelwright.fixedChunks size count)

/-- Cut an array into chunks of a size. The slices are made after their bounds and are the
larger. -/
def splitBySize (a : PortableArray) (chunk : Nat) : Except (Limited ArrayError) (List ArraySlice) :=
  within (chunkCount a.size chunk) sliceBytes fun _ => a.splitBySize chunk

/-- Cut an array into a number of chunks. -/
def splitByCount (a : PortableArray) (count : Nat) :
    Except (Limited ArrayError) (List ArraySlice) :=
  within count sliceBytes fun _ => a.splitByCount count

/-! ### The host -/

def map (lambdas : List Graph) (fuel : Nat) (name : String) (scope : List HostValue)
    (input : PortableArray) (output : ElementType) : Except (Limited HostError) PortableArray :=
  within input.logicalLength valueBytes fun _ => Host.map lambdas fuel name scope input output

/-- Fold the elements from the left into one. An identity without a type is refused before the
elements are read. -/
def reduce (lambdas : List Graph) (fuel : Nat) (name : String) (scope : List HostValue)
    (input : PortableArray) (identity : Value) : Except (Limited HostError) PortableArray :=
  match identity.typeOf with
  | .ok _ => within input.logicalLength valueBytes fun _ =>
      Host.reduce lambdas fuel name scope input identity
  | .error n => .error (.refused (.type (.unsupportedArity n)))

/-- The pairs of the numbers below `n`. -/
def pairs (n : Nat) : Except (Limited ArrayError) PortableArray :=
  within n valueBytes fun _ => Sample.pairs n

/-! ### Kernels -/

/-- Compile a request for all devices. A request without a kernel is refused before the kernels of
the devices are made. -/
def serve (o : Offload) (r : Request) : Except (Limited KernelError) Compiled × Offload :=
  if fits o.devices kernelBytes then
    let (c, o) := o.compile r
    (unbounded c, o)
  else
    match r.generate (.start o.options) with
    | .ok _ => (.error .noRoom, o)
    | .error e => (.error (.refused e), o)

/-- Compile a request for a caller that needs the compiler only if there are kernels. -/
def compile (o : Offload) (r : Request) : Except (Limited KernelError) (Compiled × Offload) :=
  let (c, o) := serve o r
  c.map (·, o)

end Kernelwright.Bounded
