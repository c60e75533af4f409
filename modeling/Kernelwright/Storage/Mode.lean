import Kernelwright.Element.Kind

/-!
# Storage modes

A caller asks for a mode of storage; the backend that a column gets follows from the mode and from
the kind of its elements. Byte buffers have no booleans.
-/

namespace Kernelwright

/-- The mode of storage that a caller asks for. -/
inductive StorageMode where
  /-- Byte buffers in pinned memory. -/
  | default
  /-- Typed cells. -/
  | nativeBuffers
  /-- Byte buffers in pinned memory, asked for by name. -/
  | pinnedBytes
  /-- Byte buffers in ordinary memory. -/
  | plainBytes
  /-- Whole values, which no device can be given. -/
  | object
deriving DecidableEq, Repr, Inhabited

namespace StorageMode

def all : List StorageMode := [default, nativeBuffers, pinnedBytes, plainBytes, object]

def isPinned : StorageMode → Bool
  | default | pinnedBytes => true
  | _ => false

def text : StorageMode → String
  | default => "default"
  | nativeBuffers => "native-buffers"
  | pinnedBytes => "opencl-byte-buffer"
  | plainBytes => "byte-buffer"
  | object => "object"

def tag : StorageMode → String
  | default => "Default"
  | nativeBuffers => "NativeBuffers"
  | pinnedBytes => "OpenClByteBuffer"
  | plainBytes => "ByteBuffer"
  | object => "Object"

def ofTag? (s : String) : Option StorageMode := all.find? (·.tag == s)

end StorageMode

/-- How a column is stored. -/
inductive Backend where
  | native
  | bytes (pinned : Bool)
  | boxed
deriving DecidableEq, Repr, Inhabited

/-- A kind of elements that a mode cannot store. -/
structure NoBackend where
  kind : ScalarKind
  mode : StorageMode
deriving DecidableEq, Repr

def NoBackend.message (e : NoBackend) : String :=
  "unsupported element type: " ++ e.kind.name ++ " has no backend in " ++ e.mode.text
    ++ " storage mode"

def Backend.select (kind : ScalarKind) (mode : StorageMode) : Except NoBackend Backend :=
  match mode with
  | .object => .ok .boxed
  | .nativeBuffers => .ok .native
  | mode => if kind = .boolean then .error ⟨kind, mode⟩ else .ok (.bytes mode.isPinned)

end Kernelwright
