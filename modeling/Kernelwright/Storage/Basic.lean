import Kernelwright.Storage.Bytes
import Kernelwright.Storage.Error

/-!
# Storage

The storage of one column: typed cells, bytes, or whole values. Reading beyond the end gives
nothing, and so does writing there. A device can be given the first two, and can give a buffer back
that replaces the storage as a whole.
-/

namespace Kernelwright

/-- The storage of a column. -/
inductive Storage where
  /-- Cells of a kind. -/
  | native (kind : ScalarKind) (cells : Array Scalar)
  /-- Bytes, a fixed number for each element. -/
  | bytes (kind : ScalarKind) (pinned : Bool) (data : Array UInt8)
  /-- Whole values. -/
  | boxed (cells : Array Value)
deriving DecidableEq, Repr, Inhabited

/-- A buffer that comes from a device. -/
inductive DeviceBuffer where
  | native (kind : ScalarKind) (cells : Array Scalar)
  | bytes (kind : ScalarKind) (data : Array UInt8)
deriving DecidableEq, Repr

/-- A cell of a kind, made from a value of any shape. -/
def Scalar.ofValue (k : ScalarKind) (v : Value) : Scalar :=
  match k with
  | .float => .float v.asFloat.narrow
  | .double => .double v.asFloat
  | .boolean => .boolean v.asBool
  | k => .ofInt64 k v.asInt64

def DeviceBuffer.ofValues (k : ScalarKind) (vs : List Value) : DeviceBuffer :=
  .native k (vs.map (.ofValue k)).toArray

def DeviceBuffer.kind : DeviceBuffer → ScalarKind
  | native k _ => k
  | bytes k _ => k

/-- What a device is given to read. -/
inductive BufferView where
  | native (kind : ScalarKind) (cells : Array Scalar)
  | bytes (kind : ScalarKind) (pinned : Bool) (data : Array UInt8)
deriving DecidableEq, Repr

namespace BufferView

def kind : BufferView → ScalarKind
  | native k _ => k
  | bytes k _ _ => k

def byteLength : BufferView → Nat
  | native k cells => cells.size * k.byteSize
  | bytes _ _ data => data.size

end BufferView

namespace Storage

/-! ### Allocation

In a memory without bounds. `Bounded.allocate` counts the bytes in words.
-/

def zeroNative (kind : ScalarKind) (length : Nat) : Storage :=
  native kind (Array.replicate length (.zero kind))

/-- A number of bytes. -/
def zeroBytes (kind : ScalarKind) (pinned : Bool) (count : Nat) : Storage :=
  bytes kind pinned (Array.replicate count 0)

def allocate (kind : ScalarKind) (mode : StorageMode) (length : Nat) :
    Except NoBackend Storage := do
  match ← Backend.select kind mode with
  | .native => return zeroNative kind length
  | .bytes pinned => return zeroBytes kind pinned (length * kind.byteSize)
  | .boxed => return boxed (Array.replicate length (.scalar (.zero kind)))

/-- Storage for copies of a value of any shape. -/
def ofValue (v : Value) (length : Nat) : Storage := boxed (Array.replicate length v)

/-- The storage anew, with another length. Boxed storage is filled with its first value, or with a
zero when it has none. -/
def reallocate (s : Storage) (length : Nat) : Storage :=
  match s with
  | native kind _ => zeroNative kind length
  | bytes kind pinned _ => zeroBytes kind pinned (length * kind.byteSize)
  | boxed cells => ofValue (cells[0]?.getD (.scalar (.int 0))) length

/-! ### Elements -/

/-- The number of elements. -/
def length : Storage → Nat
  | native _ cells => cells.size
  | bytes kind _ data => data.size / kind.byteSize
  | boxed cells => cells.size

def backend : Storage → Backend
  | native .. => .native
  | bytes _ pinned _ => .bytes pinned
  | boxed _ => .boxed

def slot (kind : ScalarKind) (data : Array UInt8) (index : Nat) : List UInt8 :=
  (data.extract (index * kind.byteSize) ((index + 1) * kind.byteSize)).toList

def get? (s : Storage) (index : Nat) : Option Value :=
  match s with
  | native _ cells => cells[index]?.map .scalar
  | bytes kind _ data =>
    if (index + 1) * kind.byteSize ≤ data.size then
      some (.scalar (.ofBytes kind (slot kind data index)))
    else none
  | boxed cells => cells[index]?

/-- All elements. -/
def toList (s : Storage) : List Value := (List.range s.length).filterMap s.get?

def overwrite (data : Array UInt8) (position : Nat) : List UInt8 → Array UInt8
  | [] => data
  | b :: bs => overwrite (data.setIfInBounds position b) (position + 1) bs

/-- Whether a value can be stored at an index: it has to lie inside the storage. Typed cells take no
tuple, so for one the index does not matter. -/
def accepts (s : Storage) (index : Nat) (v : Value) : Bool :=
  match s with
  | native _ cells => v.scalar?.isNone || index < cells.size
  | bytes kind _ data => (index + 1) * kind.byteSize ≤ data.size
  | boxed cells => index < cells.size

/-- Store a value at an index, converted to the kind of the column. A tuple does not change a column
of scalars, except boxed ones, which take whatever does not fit. -/
def put (s : Storage) (index : Nat) (v : Value) : Storage :=
  match s with
  | native kind cells =>
    match v with
    | .tuple _ => native kind cells
    | .scalar x => native kind (cells.setIfInBounds index (x.cast kind))
  | bytes kind pinned data =>
    match v with
    | .tuple _ => bytes kind pinned data
    | .scalar x => bytes kind pinned (overwrite data (index * kind.byteSize) (x.cast kind).toBytes)
  | boxed cells => boxed (cells.modify index fun old => old.kind?.elim v v.cast)

def put? (s : Storage) (index : Nat) (v : Value) : Option Storage :=
  if s.accepts index v then some (s.put index v) else none

/-! ### Devices -/

/-- What a device is given to read; whole values cannot be given. -/
def view? : Storage → Option BufferView
  | native kind cells => some (.native kind cells)
  | bytes kind pinned data => some (.bytes kind pinned data)
  | boxed _ => none

/-- Replace the storage by a buffer of a device with `expected` elements of the same kind. The bytes
that are expected are counted in words. -/
def replace (s : Storage) (buffer : DeviceBuffer) (expected : Nat) : Except ArrayError Storage :=
  match s, buffer with
  | native kind _, .native kind' cells =>
    if kind = kind' ∧ cells.size = expected then .ok (native kind cells)
    else .error (.bufferMismatch (.sized kind expected) (.sized kind' cells.size))
  | bytes kind pinned _, .bytes kind' data =>
    if kind = kind' ∧ data.size = Memory.product expected kind'.byteSize then
      .ok (bytes kind pinned data)
    else
      .error (.bufferMismatch (.sized kind (Memory.product expected kind.byteSize))
        (.sized kind' data.size))
  | boxed _, _ => .error (.noDeviceBuffer .object)
  | s, buffer => .error (.bufferMismatch (.backend s.backend) (.kind buffer.kind))

/-! ### Comparison -/

/-- Whether two columns hold the same: numbers as numbers, bytes as bytes. -/
def same : Storage → Storage → Bool
  | native k as, native k' bs =>
    k == k' && as.size == bs.size && (as.toList.zip bs.toList).all fun (a, b) => a.sameNumber b
  | bytes k p as, bytes k' p' bs => k == k' && p == p' && as == bs
  | boxed as, boxed bs => Value.sameNumbers as.toList bs.toList
  | _, _ => false

end Storage

end Kernelwright
