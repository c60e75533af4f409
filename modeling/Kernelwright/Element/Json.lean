import Kernelwright.Element.Value
import Kernelwright.Json.Decode

/-!
# Element types and values in JSON

A kind is its tag, an element type is tagged `Scalar` or `Composite`, and a value is tagged with its
kind or with `Tuple`.
-/

namespace Kernelwright

/-! ### Kinds and types -/

def ScalarKind.toJson (k : ScalarKind) : Json := .text k.tag

def ScalarKind.ofJson : Decode ScalarKind := .enumeration ofTag?

mutual

def ElementType.toJson : ElementType → Json
  | .scalar k => .tagged "Scalar" k.toJson
  | .record fs => .tagged "Composite" (.array (ElementType.toJsonAll fs))

def ElementType.toJsonAll : List ElementType → List Json
  | [] => []
  | t :: ts => t.toJson :: ElementType.toJsonAll ts

end

/-- Read an element type. Records of any number of fields are read. -/
def ElementType.ofJson : Decode ElementType
  | form, room + 2, .object [(some "Composite", .array ts)] =>
    (ts.mapM (ElementType.ofJson form room)).map .record
  | form, room + 1, .object [(some "Scalar", k)] => (ScalarKind.ofJson form room k).map .scalar
  | _, _, _ => none

/-! ### Values -/

namespace Scalar

/-- Floating-point numbers of sixty-four bits in JSON: positional up to sixteen digits before the
point and four zeros after it, a written plus sign, ties to the even digit, `null` where there is no
number. -/
def jsonDouble : Decimal.Layout where
  low := -5
  high := 15
  plus := true
  tie := .even
  nan := "null"
  infinity := "null"
  negativeInfinity := "null"

/-- Floating-point numbers of thirty-two bits in JSON. -/
def jsonFloat : Decimal.Layout := { jsonDouble with low := -6, high := 12 }

/-- A floating-point datum in JSON, `null` where it is no number. -/
def number (l : Decimal.Layout) (f : Ieee.Format) : Ieee.Datum → Json
  | .finite s m e => .number (l.text f (.finite s m e))
  | _ => .null

def payload : Scalar → Json
  | byte v => .int v.toInt
  | char v => .nat v.toNat
  | short v => .int v.toInt
  | int v => .int v.toInt
  | long v => .int v.toInt
  | float v => number jsonFloat .single v.datum
  | double v => number jsonDouble .double v.datum
  | boolean v => .bool v

def ofPayload (k : ScalarKind) : Decode Scalar := fun form room json =>
  let within (low high : Int) := Decode.int low high form room json
  match k with
  | .byte => (within Int8.minValue.toInt Int8.maxValue.toInt).map fun n => byte (.ofInt n)
  | .char => (within 0 (UInt8.size - 1)).map fun n => char (.ofNat n.toNat)
  | .short => (within Int16.minValue.toInt Int16.maxValue.toInt).map fun n => short (.ofInt n)
  | .int => (within Int32.minValue.toInt Int32.maxValue.toInt).map fun n => int (.ofInt n)
  | .long => (within Int64.minValue.toInt Int64.maxValue.toInt).map fun n => long (.ofInt n)
  | .float => (Decode.binary32 form room json).map float
  | .double => (Decode.binary64 form room json).map double
  | .boolean => (Decode.bool form room json).map boolean

end Scalar

mutual

def Value.toJson : Value → Json
  | .scalar s => .tagged s.kind.tag s.payload
  | .tuple vs => .tagged "Tuple" (.array (Value.toJsonAll vs))

def Value.toJsonAll : List Value → List Json
  | [] => []
  | v :: vs => v.toJson :: Value.toJsonAll vs

end

/-- Read a value, given a reader of scalar payloads. -/
def Value.ofJsonWith (scalar : ScalarKind → Decode Scalar) : Decode Value
  | form, room + 2, .object [(some "Tuple", .array vs)] =>
    (vs.mapM (Value.ofJsonWith scalar form room)).map .tuple
  | form, room + 1, .object [(some tag, payload)] => do
    let k ← ScalarKind.ofTag? tag
    (scalar k form room payload).map .scalar
  | _, _, _ => none

def Value.ofJson : Decode Value := Value.ofJsonWith Scalar.ofPayload

end Kernelwright
