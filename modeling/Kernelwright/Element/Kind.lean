/-!
# Scalar kinds

The eight kinds of numbers that array elements are made of. A kind has a name in the grammar of
element types, a spelling in kernel text, and a width in device memory.
-/

namespace Kernelwright

/-- The kind of a scalar. -/
inductive ScalarKind where
  | byte
  | char
  | short
  | int
  | long
  | float
  | double
  | boolean
deriving DecidableEq, Repr, Inhabited

namespace ScalarKind

/-- Every kind, in declaration order. -/
def all : List ScalarKind := [byte, char, short, int, long, float, double, boolean]

/-- Bytes an element takes in a byte buffer and on a device. -/
def byteSize : ScalarKind → Nat
  | byte | char | boolean => 1
  | short => 2
  | int | float => 4
  | long | double => 8

theorem byteSize_pos (k : ScalarKind) : 0 < k.byteSize := by cases k <;> decide

/-- The type of the kind in kernel text. -/
def cName : ScalarKind → String
  | byte => "char"
  | char => "uchar"
  | short => "short"
  | int => "int"
  | long => "long"
  | float => "float"
  | double => "double"
  | boolean => "bool"

/-- The name of the kind in the grammar of element types. -/
def name : ScalarKind → String
  | byte => "Byte"
  | char => "Character"
  | short => "Short"
  | int => "Integer"
  | long => "Long"
  | float => "Float"
  | double => "Double"
  | boolean => "Boolean"

/-- The tag of the kind where values and types are written out in full. -/
def tag : ScalarKind → String
  | byte => "Byte"
  | char => "Char"
  | short => "Short"
  | int => "Int"
  | long => "Long"
  | float => "Float"
  | double => "Double"
  | boolean => "Boolean"

def ofName? (s : String) : Option ScalarKind := all.find? (·.name == s)

def ofTag? (s : String) : Option ScalarKind := all.find? (·.tag == s)

theorem ofName?_name (k : ScalarKind) : ofName? k.name = some k := by cases k <;> decide

theorem ofTag?_tag (k : ScalarKind) : ofTag? k.tag = some k := by cases k <;> decide

/-- Whether values of the kind are floating-point numbers. -/
def isFloating : ScalarKind → Bool
  | float | double => true
  | _ => false

def isIntegral (k : ScalarKind) : Bool := !k.isFloating && k != boolean

/-- The kind in which arithmetic on two kinds is done: the wider floating one, else long, else
int. -/
def promote (a b : ScalarKind) : ScalarKind :=
  if a = double ∨ b = double then double
  else if a = float ∨ b = float then float
  else if a = long ∨ b = long then long
  else int

end ScalarKind

end Kernelwright
