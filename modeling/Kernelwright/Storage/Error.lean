import Kernelwright.Element.Error
import Kernelwright.Element.Value
import Kernelwright.Storage.Mode

/-!
# Array errors

The causes for which an operation on an array is refused.
-/

namespace Kernelwright

/-- What is said of a buffer that does not fit. -/
inductive BufferShape where
  | sized (kind : ScalarKind) (length : Nat)
  | backend (b : Backend)
  | kind (k : ScalarKind)
deriving DecidableEq, Repr

def Backend.text : Backend → String
  | native => "Native"
  | bytes pinned => "Bytes \x7b pinned: " ++ (if pinned then "true" else "false") ++ " \x7d"
  | boxed => "Boxed"

def BufferShape.text : BufferShape → String
  | sized k n => "(" ++ k.tag ++ ", " ++ toString n ++ ")"
  | backend b => b.text
  | kind k => k.tag

/-- Why an operation on an array was refused. -/
inductive ArrayError where
  | type (cause : TypeError)
  | noBackend (cause : NoBackend)
  | zeroChunkSize
  | zeroChunkCount
  | sliceOutOfRange (start length size : Nat)
  | fieldOutOfRange (field arity : Nat)
  /-- A field that is a record has no buffer of its own. -/
  | nestedField (field : Nat)
  | noDeviceBuffer (mode : StorageMode)
  | bufferMismatch (expected found : BufferShape)
  | valueMismatch (expected : ElementType) (found : Value)
  | sequenceKind (kind : ScalarKind)
  | boxedSequence
  | indexOverflow (what : String) (value : Nat)
  /-- An index beyond the storage. -/
  | indexOutOfRange
deriving DecidableEq, Repr

def ArrayError.message : ArrayError → String
  | .type cause => cause.message
  | .noBackend cause => cause.message
  | .zeroChunkSize => "chunk size must be positive"
  | .zeroChunkCount => "number of chunks must be positive"
  | .sliceOutOfRange start length size =>
    "slice [" ++ toString start ++ ", " ++ toString start ++ "+" ++ toString length
      ++ ") exceeds array size " ++ toString size
  | .fieldOutOfRange field arity =>
    "field " ++ toString field ++ " out of range for element arity " ++ toString arity
  | .nestedField field =>
    "field " ++ toString field ++ " is itself composite and has no single device buffer"
  | .noDeviceBuffer mode => mode.text ++ " storage has no device buffer"
  | .bufferMismatch expected found =>
    "buffer of kind " ++ found.text ++ " cannot replace storage of kind " ++ expected.text
  | .valueMismatch expected found =>
    "value `" ++ found.text ++ "` does not match element type " ++ expected.text
  | .sequenceKind kind =>
    "sequence encoding needs an integral or floating field, found " ++ kind.name
  | .boxedSequence => "sequence encoding needs per-field storage; boxed tuple arrays have none"
  | .indexOverflow what value =>
    what ++ " " ++ toString value ++ " does not fit the 32-bit index metadata"
  | .indexOutOfRange => "index out of range"

end Kernelwright
