import Kernelwright.Json.Numeral
import Kernelwright.Json.Value

/-!
# Typed readings of JSON

A `Decode α` reads a value of type `α` from JSON. It is told how many containers may still be
opened, so that a text cannot nest deeper than its reader allows; values that are passed over are
not opened.

A record is read from an object, in which unknown members are passed over and known ones may stand
only once, or from an array that holds its fields in order. A tagged value is a string (a tag
without payload) or an object with the tag as its only member. The fields of a tag are given by
name; a reader may choose to take them from an array as well, like those of a record.
-/

namespace Kernelwright

/-- How the fields of a tag may be given: by name only, or also listed in order. -/
inductive TagFields where
  | named
  | listed
deriving DecidableEq, Repr

/-- A reader of typed values, given the form of tag fields and how many containers may be opened. -/
abbrev Decode (α : Type) := TagFields → Nat → Json → Option α

namespace Decode

/-! ### Leaves -/

def string : Decode String
  | _, _, .string s => s
  | _, _, _ => none

/-- A truth value. -/
def bool : Decode Bool
  | _, _, .bool b => some b
  | _, _, _ => none

def number : Decode Json.Number
  | _, _, .number lexeme => (Json.Numeral.ofLexeme? lexeme).bind (·.read?)
  | _, _, _ => none

/-- An integer between two bounds. A number written with a fraction or an exponent is none. -/
def int (low high : Int) : Decode Int := fun form room json =>
  match number form room json with
  | some (.nonneg n) => if low ≤ n ∧ n ≤ high then some n else none
  | some (.negative n) => if low ≤ n ∧ n ≤ high then some n else none
  | _ => none

/-- A word of thirty-two bits. -/
def uint32 : Decode UInt32 := fun form room json =>
  (int 0 (UInt32.size - 1) form room json).map fun n => UInt32.ofNat n.toNat

/-- A word of sixty-four bits. -/
def uint64 : Decode UInt64 := fun form room json =>
  (int 0 (UInt64.size - 1) form room json).map fun n => UInt64.ofNat n.toNat

/-- A floating-point number of sixty-four bits; any number will do. -/
def binary64 : Decode Ieee.Binary64 := fun form room json =>
  (number form room json).map fun
    | .nonneg n => .ofInt n
    | .negative n => .ofInt n
    | .real x => x

/-- A floating-point number of thirty-two bits. -/
def binary32 : Decode Ieee.Binary32 := fun form room json =>
  (number form room json).map fun
    | .nonneg n => .ofInt n
    | .negative n => .ofInt n
    | .real x => x.narrow

/-- A value or `null`. -/
def option (d : Decode α) : Decode (Option α) := fun form room json =>
  match json with
  | .null => some none
  | json => (d form room json).map some

/-! ### Containers -/

/-- A list, from an array. -/
def list (item : Decode α) : Decode (List α)
  | form, room + 1, .array items => items.mapM (item form room)
  | _, _, _ => none

/-- The fields found for a record, and the form of tag fields inside them. With `positional` they
come from an array, where a field that is missing is missing for good. -/
structure Fields where
  form : TagFields
  positional : Bool
  found : List (String × Json)

/-- Take the members with known names, each at most once. -/
def known (names : List String) : List (Option String × Json) → Option (List (String × Json))
  | [] => some []
  | (none, _) :: _ => none
  | (some k, v) :: ms =>
    if k ∈ names then
      if ms.any fun m => m.1 == some k then none else (known names ms).map ((k, v) :: ·)
    else known names ms

def Fields.of? (names : List String) (form : TagFields) : Json → Option Fields
  | .object ms => (known names ms).map (⟨form, false, ·⟩)
  | .array items => if items.length ≤ names.length then some ⟨form, true, names.zip items⟩ else none
  | _ => none

def record (names : List String) (read : Nat → Fields → Option α) : Decode α
  | form, room + 1, json => (Fields.of? names form json).bind (read room)
  | _, 0, _ => none

namespace Fields

def required (fs : Fields) (name : String) (d : Decode α) (room : Nat) : Option α :=
  (fs.found.lookup name).bind (d fs.form room)

/-- A field that may be `null`, and in an object also missing. -/
def optional (fs : Fields) (name : String) (d : Decode α) (room : Nat) : Option (Option α) :=
  match fs.found.lookup name with
  | some json => option d fs.form room json
  | none => if fs.positional then none else some none

def withDefault (fs : Fields) (name : String) (value : α) (d : Decode α) (room : Nat) : Option α :=
  match fs.found.lookup name with
  | some json => d fs.form room json
  | none => some value

end Fields

/-! ### Tagged values -/

/-- A tagged value; `read` gets the tag and its payload. -/
def tagged (read : TagFields → Nat → String → Option Json → Option α) : Decode α
  | form, room, .string (some tag) => read form room tag none
  | form, room + 1, .object [(some tag, payload)] => read form room tag (some payload)
  | _, _, _ => none

/-- The fields of a tag, with given names. -/
def tagFields (names : List String) (read : Nat → Fields → Option α) : Decode α
  | .named, _, .array _ => none
  | form, room, json => record names read form room json

/-- The payload of a tag that has none: it is missing or `null`. -/
def unit (a : α) : Option Json → Option α
  | none => some a
  | some .null => some a
  | some _ => none

/-- One of finitely many values without payload, by its tag. -/
def enumeration (ofTag? : String → Option α) : Decode α :=
  tagged fun _ _ tag payload => (ofTag? tag).bind (unit · payload)

end Decode

end Kernelwright
