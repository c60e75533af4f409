import Kernelwright.Element.Kind

/-!
# Element types

The type of an array element is a scalar kind or a record of further element types. A record has
between one and eleven fields; `validate` checks that at every level, since a type may also arrive
from outside the library.

In kernel text a record is a struct. Its name is built from the names of its fields; a nested record
contributes its arity as well, so that differently nested records differ in name. A record of one
field is no struct of its own: it stands for its field.
-/

namespace Kernelwright

/-- The type of an array element. -/
inductive ElementType where
  | scalar (kind : ScalarKind)
  | record (fields : List ElementType)
deriving Repr, Inhabited

namespace ElementType

/-! ### Equality -/

mutual

def decideEq : (a b : ElementType) → Decidable (a = b)
  | .scalar j, .scalar k =>
    if h : j = k then isTrue (by rw [h]) else isFalse (by intro e; cases e; exact h rfl)
  | .scalar _, .record _ => isFalse (by intro e; cases e)
  | .record _, .scalar _ => isFalse (by intro e; cases e)
  | .record as, .record bs =>
    match decideEqAll as bs with
    | isTrue h => isTrue (by rw [h])
    | isFalse h => isFalse (by intro e; cases e; exact h rfl)

def decideEqAll : (as bs : List ElementType) → Decidable (as = bs)
  | [], [] => isTrue rfl
  | [], _ :: _ => isFalse (by intro e; cases e)
  | _ :: _, [] => isFalse (by intro e; cases e)
  | a :: as, b :: bs =>
    match decideEq a b, decideEqAll as bs with
    | isTrue h, isTrue t => isTrue (by rw [h, t])
    | isFalse h, _ => isFalse (by intro e; cases e; exact h rfl)
    | _, isFalse t => isFalse (by intro e; cases e; exact t rfl)

end

instance : DecidableEq ElementType := decideEq

/-! ### Shape -/

/-- The greatest number of fields of a record. -/
def maxArity : Nat := 11

/-- Whether a record may have `n` fields. -/
def arityOk (n : Nat) : Bool := 1 ≤ n && n ≤ maxArity

def isRecord : ElementType → Bool
  | scalar _ => false
  | record _ => true

def scalarKind? : ElementType → Option ScalarKind
  | scalar k => some k
  | record _ => none

/-- The number of fields; a scalar counts as one. -/
def arity : ElementType → Nat
  | scalar _ => 1
  | record fields => fields.length

/-- The fields of a record; a scalar has none. -/
def fields : ElementType → List ElementType
  | scalar _ => []
  | record fs => fs

/-- Whether kernel text declares a struct for the type. -/
def needsStruct : ElementType → Bool
  | scalar _ => false
  | record fs => 1 < fs.length

mutual

/-- The first arity, from the outside in and from left to right, that no record may have. -/
def badArity? : ElementType → Option Nat
  | scalar _ => none
  | record fs => if arityOk fs.length then badArityIn? fs else some fs.length

/-- The first bad arity among the fields of a record. -/
def badArityIn? : List ElementType → Option Nat
  | [] => none
  | t :: ts => match badArity? t with
    | some n => some n
    | none => badArityIn? ts

end

/-! ### Written forms -/

mutual

/-- The form of a type in the grammar of element types, always with the fields spelled out. -/
def text : ElementType → String
  | scalar k => k.name
  | record fs => "Tuple" ++ toString fs.length ++ "<" ++ textOfFields fs ++ ">"

/-- The fields of a record, with commas between them. -/
def textOfFields : List ElementType → String
  | [] => ""
  | [t] => text t
  | t :: ts => text t ++ "," ++ textOfFields ts

end

mutual

/-- The part that a type contributes to the name of a struct it is a field of. -/
def nameToken : ElementType → String
  | scalar k => k.cName
  | record [t] => nameToken t
  | record fs => "Tuple" ++ toString fs.length ++ nameTokens fs

/-- The parts of several fields, each after an underscore. -/
def nameTokens : List ElementType → String
  | [] => ""
  | t :: ts => "_" ++ nameToken t ++ nameTokens ts

end

def cName (t : ElementType) : String :=
  match t with
  | record fs => if 1 < fs.length then "Tuple" ++ nameTokens fs else nameToken t
  | scalar _ => nameToken t

end ElementType

end Kernelwright
