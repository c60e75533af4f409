import Kernelwright.PortableArray.Basic

/-!
# Sequences as arrays

An array that holds a progression keeps three elements: the start, the stride and the bound. It
stands for as many elements as it had before. For an array of records the three are tuples, and each
field takes its component of them.
-/

namespace Kernelwright.PortableArray

/-! ### Marks -/

mutual

def updateMarks (f : SequenceMarks → SequenceMarks) : PortableArray → PortableArray
  | flat h s => flat { h with marks := f h.marks } s
  | fields h cs => fields { h with marks := f h.marks } (updateMarksAll f cs)

def updateMarksAll (f : SequenceMarks → SequenceMarks) : List PortableArray → List PortableArray
  | [] => []
  | c :: cs => updateMarks f c :: updateMarksAll f cs

end

def setFlag (on : Bool) (a : PortableArray) : PortableArray :=
  updateMarks (fun m => { m with flag := on }) a

def setCompass (on : Bool) (a : PortableArray) : PortableArray :=
  updateMarks (fun m => { m with compass := on }) a

/-- Change the marks of a field; of a column, field zero. -/
def updateFieldMarks (f : SequenceMarks → SequenceMarks) (field : Nat) (a : PortableArray) :
    Except ArrayError PortableArray :=
  match a with
  | flat h s =>
    if field = 0 then .ok (flat { h with marks := f h.marks } s)
    else .error (.fieldOutOfRange field a.type.arity)
  | fields h cs =>
    if field < cs.length then .ok (fields h (cs.modify field (updateMarks f)))
    else .error (.fieldOutOfRange field a.type.arity)

/-- The marks of a field; of a column, field zero. -/
def fieldMarks? (a : PortableArray) (field : Nat) : Option SequenceMarks :=
  match a with
  | flat h _ => if field = 0 then some h.marks else none
  | fields _ cs => cs[field]?.map marks

/-! ### Encoding -/

def sequenceSlots : Nat := 3

def sequenceHeader (a : PortableArray) : ArrayHeader :=
  { a.header with
    size := sequenceSlots
    marks := { a.marks with sequence := true }
    total := some a.logicalLength }

def slots (s : Storage) (start stride bound : Value) : Storage :=
  (((s.reallocate sequenceSlots).put 0 start).put 1 stride).put 2 bound

def component (type : ElementType) (v : Value) (field : Nat) : Except ArrayError Value :=
  match v.field? field with
  | some c => .ok c
  | none => .error (.valueMismatch type v)

mutual

/-- Turn an array into a sequence. Booleans form no sequence, nor do tuples stored as whole
values. -/
def encode (start stride bound : Value) : PortableArray → Except ArrayError PortableArray
  | flat h s =>
    match h.type with
    | .scalar .boolean => .error (.sequenceKind .boolean)
    | .scalar _ => .ok (flat (sequenceHeader (flat h s)) (slots s start stride bound))
    | .record _ => .error .boxedSequence
  | fields h cs =>
    match encodeAll h.type start stride bound 0 cs with
    | .ok cs' => .ok (fields (sequenceHeader (fields h cs)) cs')
    | .error e => .error e

/-- Turn the fields of an array into sequences, from a field on. -/
def encodeAll (type : ElementType) (start stride bound : Value) (field : Nat) :
    List PortableArray → Except ArrayError (List PortableArray)
  | [] => .ok []
  | c :: cs => do
    let c ← encode (← component type start field) (← component type stride field)
      (← component type bound field) c
    let cs ← encodeAll type start stride bound (field + 1) cs
    return c :: cs

end

/-! ### Decoding -/

/-- The index into a progression for the index of an element. A bound of zero changes nothing. -/
def progressionIndex (rule : DecodeRule) (bound : Nat) (index : Nat) : Nat :=
  match rule with
  | .divide => if bound = 0 then index else index / bound
  | .modulo => if bound = 0 then index else index % bound
  | .linear => index

/-- An element of a progression, in the kind of its start. -/
def progressionAt (start stride : Value) (m : Nat) : Value :=
  match start.kind? with
  | none => start
  | some kind =>
    if kind.isFloating then
      let x := start.asFloat.add (stride.asFloat.mul (.ofInt m))
      .scalar ((Scalar.double x).cast kind)
    else
      .scalar ((Scalar.long (start.asInt64 + stride.asInt64 * Int64.ofNat m)).cast kind)

/-- An element of a column that holds a progression. -/
def decodeFlat? (marks : SequenceMarks) (s : Storage) (index : Nat) : Option Value := do
  let start ← s.get? 0
  let stride ← s.get? 1
  let bound := (← s.get? 2).asInt64.toInt.toNat
  return progressionAt start stride (progressionIndex marks.rule bound index)

mutual

def decode? (index : Nat) : PortableArray → Option Value
  | flat h s => if h.marks.sequence then decodeFlat? h.marks s index else s.get? index
  | fields h cs =>
    if h.marks.sequence then (decodeAll? index cs).map .tuple else (getAll? index cs).map .tuple

/-- The elements that several arrays stand for. -/
def decodeAll? (index : Nat) : List PortableArray → Option (List Value)
  | [] => some []
  | c :: cs =>
    match decode? index c, decodeAll? index cs with
    | some v, some vs => some (v :: vs)
    | _, _ => none

end

/-- The elements that the array stands for, from an index up to another. -/
def decodeRange? (a : PortableArray) (start stop : Nat) : Option (List Value) :=
  readFrom? (decode? · a) [] start (stop - start)

/-! ### Layouts -/

def progression? (marks : SequenceMarks) (s : Storage) : Option Progression := do
  return ⟨← s.get? 0, ← s.get? 1, ← s.get? 2, marks.rule⟩

mutual

/-- The progressions of an array; `none` when it is no sequence. -/
def progressions? : PortableArray → Option (List Progression)
  | flat h s => if h.marks.sequence then (progression? h.marks s).map ([·]) else none
  | fields h cs => if h.marks.sequence then progressionsAll? cs else none

/-- The progressions of several arrays, in order. -/
def progressionsAll? : List PortableArray → Option (List Progression)
  | [] => some []
  | c :: cs =>
    match progressions? c, progressionsAll? cs with
    | some ps, some qs => some (ps ++ qs)
    | _, _ => none

end

def sequenceLayout? (a : PortableArray) : Option SequenceLayout := (progressions? a).map (⟨·⟩)

end Kernelwright.PortableArray
