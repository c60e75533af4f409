import Kernelwright.PortableArray.Device

/-!
# Slices and chunks

A slice is a window on an array. An array is cut into chunks of a size, the last of which takes what
remains, or into a number of chunks of equal size, the last of which takes the rest as well.
-/

namespace Kernelwright

def chunksOfSize (size chunk : Nat) : List (Nat × Nat) :=
  if chunk = 0 ∨ size = 0 then []
  else (List.range ((size + chunk - 1) / chunk)).map fun i =>
    (i * chunk, min chunk (size - i * chunk))

/-- The start and length of each of a number of chunks. -/
def fixedChunks (size count : Nat) : List (Nat × Nat) :=
  let chunk := size / count
  (List.range count).map fun i =>
    (i * chunk, if i + 1 = count then size - i * chunk else chunk)

/-- A window on an array. -/
structure ArraySlice where
  array : PortableArray
  offset : Nat
  length : Nat
deriving Repr

namespace ArraySlice

/-- The element at an index from the start of the window. Elements behind its end can be read. -/
def get? (s : ArraySlice) (index : Nat) : Option Value := s.array.get? (index + s.offset)

/-- The elements of the window. -/
def toList? (s : ArraySlice) : Option (List Value) :=
  PortableArray.readFrom? s.get? [] 0 s.length

theorem toList?_eq_mapM (s : ArraySlice) : s.toList? = (List.range s.length).mapM s.get? := by
  simp [toList?, PortableArray.readFrom?_eq, List.range_eq_range']

/-- What a device is given to read: the buffer of the whole array. -/
def bufferView (s : ArraySlice) (field : Nat) : Except ArrayError BufferView :=
  s.array.bufferView field

/-- The length and the base offset that a kernel is given. -/
def indexMetadata (s : ArraySlice) : Except ArrayError (Nat × Nat) := do
  return (← PortableArray.metadataWord "length" s.length,
    ← PortableArray.metadataWord "offset" s.offset)

/-- An array of its own with the elements of the window. -/
def toArray (s : ArraySlice) : Except ArrayError PortableArray :=
  match s.toList? with
  | some values => PortableArray.ofValues s.array.type s.array.mode values
  | none => .error .indexOutOfRange

end ArraySlice

namespace PortableArray

/-- A window on an array, which has to lie inside it. -/
def slice (a : PortableArray) (start length : Nat) : Except ArrayError ArraySlice :=
  if start + length ≤ a.size then .ok ⟨a, start, length⟩
  else .error (.sliceOutOfRange start length a.size)

/-- Windows on an array, by start and length. -/
def slices (a : PortableArray) (bounds : List (Nat × Nat)) : List ArraySlice :=
  bounds.map fun (start, length) => ⟨a, start, length⟩

def splitBySize (a : PortableArray) (chunk : Nat) : Except ArrayError (List ArraySlice) :=
  if chunk = 0 then .error .zeroChunkSize else .ok (a.slices (chunksOfSize a.size chunk))

/-- Cut an array into a number of chunks. -/
def splitByCount (a : PortableArray) (count : Nat) : Except ArrayError (List ArraySlice) :=
  if count = 0 then .error .zeroChunkCount else .ok (a.slices (fixedChunks a.size count))

end PortableArray

end Kernelwright
