import Kernelwright.PortableArray.Basic

/-!
# Arrays and devices

A device reads and replaces the storage of a single field. Kernels are given the length of an array
and its base offset as two words.
-/

namespace Kernelwright.PortableArray

/-- The storage of a field; of a column, field zero. -/
def fieldStorage (a : PortableArray) (field : Nat) : Except ArrayError Storage :=
  match a with
  | flat _ s => if field = 0 then .ok s else .error (.fieldOutOfRange field a.type.arity)
  | fields _ cs =>
    match cs[field]? with
    | some (flat _ s) => .ok s
    | some (fields ..) => .error (.nestedField field)
    | none => .error (.fieldOutOfRange field a.type.arity)

/-- What a device is given to read of a field. -/
def bufferView (a : PortableArray) (field : Nat) : Except ArrayError BufferView := do
  match (← a.fieldStorage field).view? with
  | some v => .ok v
  | none => .error (.noDeviceBuffer a.mode)

def setStorage (a : PortableArray) (field : Nat) (s : Storage) : PortableArray :=
  match a with
  | flat h _ => flat h s
  | fields h cs => fields h (cs.modify field fun
    | flat h _ => flat h s
    | c => c)

/-- Replace the storage of a field by a buffer of a device, which has as many elements as the
array. -/
def setBuffer (a : PortableArray) (field : Nat) (buffer : DeviceBuffer) :
    Except ArrayError PortableArray := do
  match ← a.fieldStorage field with
  | .boxed _ => .error (.noDeviceBuffer a.mode)
  | s => return a.setStorage field (← s.replace buffer a.size)

/-- A length or an offset as a word of thirty-two bits. -/
def metadataWord (what : String) (value : Nat) : Except ArrayError Nat :=
  if value ≤ Int32.maxValue.toInt.toNat then .ok value else .error (.indexOverflow what value)

/-- The length and the base offset that a kernel is given. -/
def indexMetadata (a : PortableArray) : Except ArrayError (Nat × Nat) := do
  return (← metadataWord "length" a.logicalLength, 0)

end Kernelwright.PortableArray
