import Kernelwright.Code.Name
import Kernelwright.Graph.Node
import Kernelwright.Sequence.Basic

/-!
# Statements of kernel text

Kernel text as a tree: functions hold statements, and branches and loops hold statements in turn.
Every expression is over names, since the value of each node is given a name first. A mark records
which node the following statements come from.
-/

namespace Kernelwright.Code

/-! ### Types -/

/-- A type that a variable or a result can have. -/
inductive CType where
  | scalar (kind : ScalarKind)
  | struct (type : ElementType)
  | void
deriving DecidableEq, Repr, Inhabited

namespace CType

/-- The type of a value kind; arrays and illegal values have none. -/
def ofKind? : ValueKind → Option CType
  | .scalar k => some (scalar k)
  | .struct t => some (struct t)
  | .void => some void
  | .array _ => none
  | .illegal => none

def text : CType → String
  | scalar k => k.cName
  | struct t => t.cName
  | void => "void"

end CType

/-! ### Expressions -/

/-- A place that can be read and written. -/
inductive Place where
  | name (n : Name)
  /-- A field of a struct, counted from one. -/
  | field (object : Name) (position : Nat)
  | cell (array index : Name)
  /-- A cell of an array whose elements start at the base offset in some index metadata. -/
  | offsetCell (array metadata index : Name)
deriving DecidableEq, Repr, Inhabited

/-- An argument of a call. -/
inductive Argument where
  | name (n : Name)
  /-- An array in global memory with its index metadata. -/
  | withMetadata (array : Name)
  | place (p : Place)
  | deoptFlag
deriving DecidableEq, Repr, Inhabited

/-- How the index of a progression is made from an element's index. -/
inductive IndexRule where
  | shift (amount : Nat)
  | divide (bound : Int)
  | mask (bits : Int)
  | modulo (bound : Int)
deriving DecidableEq, Repr, Inhabited

/-- An expression. -/
inductive Expr where
  | place (p : Place)
  | neg (x : Name)
  | not (x : Name)
  | complement (x : Name)
  | binary (op : BinaryOp) (x y : Name)
  | remainder (x y : Name)
  /-- A shift of the operand's unsigned bits; `wide` for sixty-four of them. -/
  | unsignedShift (result : ScalarKind) (wide : Bool) (x y : Name)
  | compare (op : CompareOp) (x y : Name)
  | sign (x y : Name)
  | select (condition onTrue onFalse : Name)
  | cast (target : ScalarKind) (x : Name)
  /-- A built-in mathematical function; an argument may be cast first. -/
  | math (op : MathOp) (args : List (Option ScalarKind × Name))
  | builtin (function : String) (args : List Name)
  | call (function : String) (args : List Argument)
  | length (array : Name)
  /-- The length of an array as its metadata starts with it. -/
  | firstLength (array : Name)
  | globalId
  | minimum (x : Expr) (capacity : Nat)
  /-- The index of a progression. -/
  | progressionIndex (rule : IndexRule) (index : Name)
  /-- An element of a progression, by an index of its own. -/
  | progression (start stride : Literal) (index : Name)
  /-- An element of a progression, by the element's index on this device. -/
  | linearProgression (start stride : Literal) (index : Name)
deriving DecidableEq, Repr, Inhabited

/-! ### Statements -/

/-- A remark behind a declaration. -/
inductive Remark where
  | none
  | loopBegin
  | initialValue
deriving DecidableEq, Repr, Inhabited

/-- The head of a loop. -/
inductive LoopHead where
  /-- No loop at all: each work item runs the body for its own index. -/
  | parallel
  | forever
  | reduction (init bound : Name)
  | counted (index bound : Name)
deriving DecidableEq, Repr, Inhabited

/-- A statement. -/
inductive Stmt where
  /-- The node that the following statements come from. -/
  | mark (kind : String) (node : NodeId)
  | declare (type : CType) (name : Name) (value : Expr) (remark : Remark)
  | reserve (type : CType) (name : Name)
  | reserveArray (type : CType) (name : Name) (capacity : Nat)
  | dimension (array : Name)
  | globalSize
  | clearFlag
  | raiseFlag
  /-- Raise the deoptimization flag if a condition fails, or if `negated` holds. -/
  | guard (condition : Name) (negated : Bool)
  | assign (target : Place) (value : Expr)
  | ret (value : Option Name)
  | leave
  /-- A node that could not be lowered. -/
  | failed (name : String) (node : NodeId)
  | branch (condition : Name) (onTrue onFalse : List Stmt)
  | loop (head : LoopHead) (body : List Stmt)
deriving Repr, Inhabited

namespace Stmt

def isMark : Stmt → Bool
  | mark .. => true
  | _ => false

def last? (reversed : List Stmt) : Option Stmt := reversed.find? fun s => !s.isMark

end Stmt

/-! ### Functions -/

/-- A parameter of a function. -/
inductive Parameter where
  | pointer (element : CType) (name : Name)
  /-- The index metadata of an array. -/
  | metadata (array : Name)
  | byValue (type : CType) (name : Name)
  | deoptFlag
deriving DecidableEq, Repr, Inhabited

/-- What a function is called as. -/
inductive Entry where
  | kernel (name : String)
  | function (result : CType) (name : String)
deriving DecidableEq, Repr, Inhabited

def Entry.name : Entry → String
  | kernel name => name
  | function _ name => name

/-- A function of kernel text. -/
structure Function where
  entry : Entry
  parameters : List Parameter
  body : List Stmt
deriving Repr, Inhabited

def Function.name (f : Function) : String := f.entry.name

end Kernelwright.Code
