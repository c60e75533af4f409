import Kernelwright.Sequence.Basic
import Kernelwright.Storage.Basic

/-!
# Portable arrays

A portable array has an element type, a mode of storage and a size. An array of scalars is one
column; an array of records is one array for each field, except in the mode that stores whole
values. So the tree of columns follows the tree of the type.
-/

namespace Kernelwright

/-- What every level of an array knows of itself. -/
structure ArrayHeader where
  type : ElementType
  mode : StorageMode
  /-- The number of elements stored. -/
  size : Nat
  marks : SequenceMarks
  /-- The number of elements that a sequence stands for. -/
  total : Option Nat
deriving DecidableEq, Repr, Inhabited

/-- An array. -/
inductive PortableArray where
  /-- A column of scalars, or of whole values. -/
  | flat (header : ArrayHeader) (storage : Storage)
  /-- An array for each field. -/
  | fields (header : ArrayHeader) (columns : List PortableArray)
deriving Repr, Inhabited

namespace PortableArray

/-! ### Facts -/

def header : PortableArray → ArrayHeader
  | flat h _ => h
  | fields h _ => h

def type (a : PortableArray) : ElementType := a.header.type

def mode (a : PortableArray) : StorageMode := a.header.mode

/-- The number of elements stored. -/
def size (a : PortableArray) : Nat := a.header.size

def marks (a : PortableArray) : SequenceMarks := a.header.marks

def isSequence (a : PortableArray) : Bool := a.marks.sequence

/-- The number of elements that the array stands for. -/
def logicalLength (a : PortableArray) : Nat :=
  if a.isSequence then a.header.total.getD a.size else a.size

def isSplit : PortableArray → Bool
  | flat .. => false
  | fields .. => true

def columns : PortableArray → List PortableArray
  | flat .. => []
  | fields _ cs => cs

def column? (a : PortableArray) (field : Nat) : Option PortableArray := a.columns[field]?

def withHeader (a : PortableArray) (h : ArrayHeader) : PortableArray :=
  match a with
  | flat _ s => flat h s
  | fields _ cs => fields h cs

/-- Record the number of elements that a sequence stands for. -/
def setTotal (a : PortableArray) (total : Nat) : PortableArray :=
  a.withHeader { a.header with total := some total }

/-! ### Construction -/

def newHeader (type : ElementType) (mode : StorageMode) (size : Nat) : ArrayHeader :=
  ⟨type, mode, size, .none, none⟩

/-- What a column of a type starts with: zeros, in the storage that the mode selects for them. -/
def newColumn (mode : StorageMode) (length : Nat) : ElementType → Except ArrayError Storage
  | .scalar kind => (Storage.allocate kind mode length).mapError .noBackend
  | .record ts => .ok (.ofValue (.zero (.record ts)) length)

mutual

/-- An array of a type whose arities are in order, one column after the other. -/
def build (column : ElementType → Except ε Storage) (mode : StorageMode) (size : Nat) :
    ElementType → Except ε PortableArray
  | .scalar kind => do
    return flat (newHeader (.scalar kind) mode size) (← column (.scalar kind))
  | .record ts => do
    if mode = .object then
      return flat (newHeader (.record ts) mode size) (← column (.record ts))
    else
      return fields (newHeader (.record ts) mode size) (← buildAll column mode size ts)

/-- An array for each of several types. -/
def buildAll (column : ElementType → Except ε Storage) (mode : StorageMode) (size : Nat) :
    List ElementType → Except ε (List PortableArray)
  | [] => return []
  | t :: ts => do
    let c ← build column mode size t
    let cs ← buildAll column mode size ts
    return c :: cs

end

/-- An array of zeros. Without `init` its storage is left empty, to be supplied later. -/
def construct (size : Nat) (type : ElementType) (mode : StorageMode) (init : Bool) :
    Except ArrayError PortableArray :=
  match type.validate with
  | .ok _ => build (newColumn mode (if init then size else 0)) mode size type
  | .error e => .error (.type e)

/-! ### Elements -/

mutual

/-- The element at an index; `none` beyond the storage. -/
def get? (index : Nat) : PortableArray → Option Value
  | flat _ s => s.get? index
  | fields _ cs => (getAll? index cs).map .tuple

def getAll? (index : Nat) : List PortableArray → Option (List Value)
  | [] => some []
  | c :: cs =>
    match get? index c, getAll? index cs with
    | some v, some vs => some (v :: vs)
    | _, _ => none

end

/-- Read at a number of positions from a start on, up to the first at which nothing is. What was
read before stands in `acc`, the last first. -/
def readFrom? (read : Nat → Option Value) (acc : List Value) (start : Nat) :
    Nat → Option (List Value)
  | 0 => some acc.reverse
  | count + 1 =>
    match read start with
    | some v => readFrom? read (v :: acc) (start + 1) count
    | none => none

theorem readFrom?_eq (read : Nat → Option Value) (acc : List Value) (start count : Nat) :
    readFrom? read acc start count =
      ((List.range' start count).mapM read).map (acc.reverse ++ ·) := by
  induction count generalizing acc start with
  | zero => simp [readFrom?]
  | succ n ih =>
    cases h : read start with
    | none => simp [readFrom?, List.range'_succ, h]
    | some v =>
      simp only [readFrom?, h, ih, List.range'_succ, List.mapM_cons]
      cases (List.range' (start + 1) n).mapM read <;> simp

/-- All elements stored; `none` when the storage is shorter than the array. -/
def toList? (a : PortableArray) : Option (List Value) := readFrom? (get? · a) [] 0 a.size

theorem toList?_eq_mapM (a : PortableArray) :
    a.toList? = (List.range a.size).mapM fun i => get? i a := by
  simp [toList?, readFrom?_eq, List.range_eq_range']

def putFlat (h : ArrayHeader) (s : Storage) (index : Nat) (v : Value) :
    PortableArray × Option ArrayError :=
  if s.accepts index v then (flat h (s.put index v), none)
  else (flat h s, some .indexOutOfRange)

/-- Whether a value has the outer shape of an element of a column: a scalar, or a tuple with as many
components as the record has fields. -/
def fits (type : ElementType) : Value → Bool
  | .tuple vs => type.isRecord && vs.length == type.arity
  | .scalar _ => !type.isRecord

mutual

/-- Store a value at an index. Scalars are converted to the kind of their column, and tuples are
taken apart. A refusal comes with what was stored before it. -/
def put (index : Nat) (v : Value) : PortableArray → PortableArray × Option ArrayError
  | flat h s =>
    if fits h.type v then putFlat h s index v else (flat h s, some (.valueMismatch h.type v))
  | fields h cs =>
    match v with
    | .tuple vs =>
      if vs.length = cs.length then
        let (cs, e) := putAll index vs cs
        (fields h cs, e)
      else (fields h cs, some (.valueMismatch h.type v))
    | .scalar _ => (fields h cs, some (.valueMismatch h.type v))

/-- Store values in several arrays, up to the first refusal. -/
def putAll (index : Nat) : List Value → List PortableArray → List PortableArray × Option ArrayError
  | v :: vs, c :: cs =>
    match put index v c with
    | (c, some e) => (c :: cs, some e)
    | (c, none) =>
      let (cs, e) := putAll index vs cs
      (c :: cs, e)
  | _, cs => (cs, none)

end

def putFrom (index : Nat) (a : PortableArray) : List Value → Except ArrayError PortableArray
  | [] => .ok a
  | v :: vs =>
    match put index v a with
    | (a, none) => putFrom (index + 1) a vs
    | (_, some e) => .error e

def ofValues (type : ElementType) (mode : StorageMode) (values : List Value) :
    Except ArrayError PortableArray := do
  putFrom 0 (← construct values.length type mode true) values

/-! ### Comparison -/

mutual

def same : PortableArray → PortableArray → Bool
  | flat h s, flat h' s' => h == h' && s.same s'
  | fields h cs, fields h' cs' => h == h' && sameAll cs cs'
  | _, _ => false

def sameAll : List PortableArray → List PortableArray → Bool
  | [], [] => true
  | c :: cs, c' :: cs' => same c c' && sameAll cs cs'
  | _, _ => false

end

end PortableArray

end Kernelwright
