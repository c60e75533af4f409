import Kernelwright.Element.Type

/-!
# Struct declarations

The structs that kernel text has to declare, each once and in the order in which they were asked
for; the struct of a field comes before the struct that has it. A declaration is determined by its
type, and is found by its name.
-/

namespace Kernelwright.Code

/-- The declared structs, in order, and the position of each name among them. -/
structure Structs where
  types : List ElementType
  index : List (String × Nat)
deriving DecidableEq, Repr, Inhabited

namespace Structs

/-- No declarations. -/
def empty : Structs := ⟨[], []⟩

def names (s : Structs) : List String := s.types.map ElementType.cName

def get? (s : Structs) (name : String) : Option ElementType :=
  (s.index.lookup name).bind (s.types[·]?)

def contains (s : Structs) (name : String) : Bool := (s.index.lookup name).isSome

/-- Declare a struct after all others. -/
def declare (s : Structs) (t : ElementType) : Structs :=
  ⟨s.types ++ [t], (t.cName, s.types.length) :: s.index⟩

mutual

/-- Declare the struct of a type, after those of its fields. Scalars and records of one field need
none. -/
def register (s : Structs) (t : ElementType) : Structs :=
  if !t.needsStruct || s.contains t.cName then s
  else match t with
    | .scalar _ => s
    | .record fs => (registerAll s fs).declare (.record fs)

def registerAll (s : Structs) : List ElementType → Structs
  | [] => s
  | t :: ts => registerAll (register s t) ts

end

/-- Declare everything that another list declares. -/
def merge (s other : Structs) : Structs := registerAll s other.types

end Structs

/-! ### Text -/

namespace StructDecl

def fieldTypes (t : ElementType) : List String := t.fields.map ElementType.cName

/-- The type of a field, counted from one. -/
def fieldType? (t : ElementType) (position : Nat) : Option String :=
  match position with
  | 0 => none
  | i + 1 => (fieldTypes t)[i]?

/-- The name of the accessor of a field, counted from one. -/
def accessor (t : ElementType) (position : Nat) : String :=
  "_" ++ t.cName ++ toString position

def fieldText (type : String) (position : Nat) : String :=
  "\n\t" ++ type ++ " _" ++ toString position ++ "; "

def accessorText (t : ElementType) (type : String) (position : Nat) : String :=
  "inline " ++ type ++ " " ++ accessor t position ++ "(" ++ t.cName ++ " p) \x7b return p._"
    ++ toString position ++ "; \x7d \n"

/-- A declaration that can be included more than once, with an accessor for each field. -/
def text (t : ElementType) : String :=
  let guard := t.cName ++ "_DEFINED"
  let fields := (fieldTypes t).zipIdx 1
  "#ifndef " ++ guard ++ "\n#define " ++ guard ++ "\ntypedef struct \x7b "
    ++ String.join (fields.map fun (type, i) => fieldText type i)
    ++ "\n\x7d " ++ t.cName ++ ";\n"
    ++ String.join (fields.map fun (type, i) => accessorText t type i)
    ++ "#endif\n"

end StructDecl

/-- All declarations, in order. -/
def Structs.text (s : Structs) : String := String.join (s.types.map StructDecl.text)

end Kernelwright.Code
