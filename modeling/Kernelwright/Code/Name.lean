import Kernelwright.Element.Value

/-!
# Names and literals of kernel text

A value of a graph stands in kernel text as a name: a parameter, a fresh variable, a literal or one
of a few names made from others. Distinct names have distinct spellings, so names can be compared
instead of their texts.
-/

namespace Kernelwright.Code

open Ieee

/-! ### Literals -/

/-- A literal. The two precisions share the spelling of what is not a finite number. -/
inductive Literal where
  | int (n : Int)
  | long (n : Int64)
  | byte (n : Int8)
  | char (n : UInt8)
  | short (n : Int16)
  | float (x : Binary32)
  | double (x : Binary64)
  | nan
  | infinity
  | negativeInfinity
  | bool (b : Bool)
deriving DecidableEq, Repr, Inhabited

namespace Literal

/-- What is not a finite number, else the literal of the finite number. -/
def ofDatum (finite : Literal) : Datum → Literal
  | .nan .. => nan
  | .infinite false => infinity
  | .infinite true => negativeInfinity
  | .finite .. => finite

def ofScalar : Scalar → Literal
  | .byte v => byte v
  | .char v => char v
  | .short v => short v
  | .int v => int v.toInt
  | .long v => long v
  | .float v => ofDatum (float v) v.datum
  | .double v => ofDatum (double v) v.datum
  | .boolean v => bool v

/-- The literal of a value; a tuple has none. -/
def ofValue? (v : Value) : Option Literal := v.scalar?.map ofScalar

def text : Literal → String
  | int n => toString n
  | long n => toString n.toInt ++ "L"
  | byte n => "(char) " ++ toString n.toInt
  | char n => "(uchar) " ++ toString n.toNat
  | short n => "(short) " ++ toString n.toInt
  | float x => Scalar.display.text .single x.datum ++ "f"
  | double x => Scalar.display.text .double x.datum
  | nan => "NAN"
  | infinity => "INFINITY"
  | negativeInfinity => "(-INFINITY)"
  | bool b => if b then "true" else "false"

end Literal

/-! ### Names -/

/-- What a fresh variable is for; its name starts with it. -/
inductive Role where
  | loop
  | condition
  | cast
  | phi
  | result
  | callResult
  | element
  | parameter
  | field
  | thread
deriving DecidableEq, Repr, Inhabited

/-- How the names of a role start. -/
def Role.text : Role → String
  | loop => "loop"
  | condition => "cond"
  | cast => "cast"
  | phi => "phi"
  | result => "result"
  | callResult => "fnresult"
  | element => "array_elem_val"
  | parameter => "param"
  | field => "field"
  | thread => "thread"

def Role.numbered (role : Role) (n : Nat) : String := role.text ++ "_" ++ toString n

/-- A name in kernel text. -/
inductive Name where
  | parameter (n : Nat)
  | fresh (role : Role) (n : Nat)
  | literal (l : Literal)
  /-- The length of an array in global memory. -/
  | length (array : Name)
  /-- The length of the buffer of a fused map. -/
  | bufferLength (buffer : Name)
  /-- The loop variable of a reduction. -/
  | reductionIndex
  /-- What stands for a value of undetermined kind. -/
  | illegal
deriving DecidableEq, Repr, Inhabited

namespace Name

def text : Name → String
  | parameter n => "p" ++ toString n
  | fresh role n => role.numbered n
  | literal l => l.text
  | length array => array.text ++ "_len_dim_1"
  | bufferLength buffer => buffer.text ++ "_len"
  | reductionIndex => "reductionIndex"
  | illegal => "ILLEGAL"

def metadata (array : Name) : String := array.text ++ "_index_data"

/-- The dimension variable of an array in global memory. -/
def dimension (array : Name) : String := array.text ++ "_dim_1"

def listText (names : List Name) : String := ", ".intercalate (names.map text)

end Name

def functionName (lambda : String) : String :=
  String.ofList ("lambda_".toList ++
    lambda.toList.map fun c => if c.isAlphanum then c else '_')

end Kernelwright.Code
