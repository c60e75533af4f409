import Kernelwright.Element.Scalar
import Kernelwright.Element.Type

/-!
# Host values

An element as the host sees it: a scalar, or a tuple of values.
-/

namespace Kernelwright

open Ieee

/-- A scalar or a positional tuple. -/
inductive Value where
  | scalar (s : Scalar)
  | tuple (items : List Value)
deriving Repr, Inhabited

namespace Value

/-! ### Equality -/

mutual

/-- Decide whether two values are equal, bit for bit. -/
def decideEq : (a b : Value) → Decidable (a = b)
  | .scalar s, .scalar t =>
    if h : s = t then isTrue (by rw [h]) else isFalse (by intro e; cases e; exact h rfl)
  | .scalar _, .tuple _ => isFalse (by intro e; cases e)
  | .tuple _, .scalar _ => isFalse (by intro e; cases e)
  | .tuple as, .tuple bs =>
    match decideEqAll as bs with
    | isTrue h => isTrue (by rw [h])
    | isFalse h => isFalse (by intro e; cases e; exact h rfl)

def decideEqAll : (as bs : List Value) → Decidable (as = bs)
  | [], [] => isTrue rfl
  | [], _ :: _ => isFalse (by intro e; cases e)
  | _ :: _, [] => isFalse (by intro e; cases e)
  | a :: as, b :: bs =>
    match decideEq a b, decideEqAll as bs with
    | isTrue h, isTrue t => isTrue (by rw [h, t])
    | isFalse h, _ => isFalse (by intro e; cases e; exact h rfl)
    | _, isFalse t => isFalse (by intro e; cases e; exact t rfl)

end

instance : DecidableEq Value := decideEq

mutual

/-- Equality in which floating-point leaves are compared as numbers. -/
def sameNumber : Value → Value → Bool
  | scalar s, scalar t => s.sameNumber t
  | tuple as, tuple bs => sameNumbers as bs
  | _, _ => false

def sameNumbers : List Value → List Value → Bool
  | [], [] => true
  | a :: as, b :: bs => sameNumber a b && sameNumbers as bs
  | _, _ => false

end

/-! ### Views -/

def scalar? : Value → Option Scalar
  | scalar s => some s
  | tuple _ => none

def kind? (v : Value) : Option ScalarKind := v.scalar?.map Scalar.kind

/-- The number as a floating-point word; a tuple counts as zero. -/
def asFloat : Value → Binary64
  | scalar s => s.asFloat
  | tuple _ => .zero

/-- The number as an integer; a tuple counts as zero. -/
def asInt64 : Value → Int64
  | scalar s => s.asInt64
  | tuple _ => 0

/-- Whether the number differs from zero; a tuple counts as zero. -/
def asBool : Value → Bool
  | scalar s => s.asBool
  | tuple _ => false

/-- A scalar converted to a kind; a tuple is left as it is. -/
def cast (v : Value) (k : ScalarKind) : Value :=
  match v with
  | scalar s => scalar (s.cast k)
  | tuple items => tuple items

/-- Component `i` of a tuple. A scalar is its own component zero. -/
def field? (v : Value) (i : Nat) : Option Value :=
  match v with
  | tuple items => items[i]?
  | scalar s => if i = 0 then some (scalar s) else none

/-! ### Values and types -/

mutual

/-- The zero of a type: zeros and `false` at the leaves. -/
def zero : ElementType → Value
  | .scalar k => scalar (.zero k)
  | .record fs => tuple (zeros fs)

def zeros : List ElementType → List Value
  | [] => []
  | t :: ts => zero t :: zeros ts

end

mutual

/-- Convert a value to a type, leaf by leaf. A value that is no tuple becomes the single field of a
one-field record; any other difference in shape leaves the value as it is. -/
def castTo (v : Value) : ElementType → Value
  | .scalar k => v.cast k
  | .record fs => match v with
    | tuple items =>
      if fs.length = items.length then tuple (castAll items fs)
      else match fs with
        | [t] => tuple [castTo v t]
        | _ => v
    | scalar s => match fs with
      | [t] => tuple [castTo (scalar s) t]
      | _ => v

/-- Convert values to types position by position. -/
def castAll : List Value → List ElementType → List Value
  | v :: vs, t :: ts => castTo v t :: castAll vs ts
  | _, _ => []

end

mutual

/-- The type of a value, or the arity of a tuple that no record can have. -/
def typeOf : Value → Except Nat ElementType
  | scalar s => .ok (.scalar s.kind)
  | tuple items => match typesOf items with
    | .error n => .error n
    | .ok ts => if ElementType.arityOk ts.length then .ok (.record ts) else .error ts.length

/-- The types of several values, up to the first that has none. -/
def typesOf : List Value → Except Nat (List ElementType)
  | [] => .ok []
  | v :: vs => match typeOf v with
    | .error n => .error n
    | .ok t => match typesOf vs with
      | .error n => .error n
      | .ok ts => .ok (t :: ts)

end

/-! ### Text -/

mutual

def text : Value → String
  | scalar s => s.text
  | tuple items => "(" ++ textOfItems items ++ ")"

/-- The components of a tuple, with commas between them. -/
def textOfItems : List Value → String
  | [] => ""
  | [v] => text v
  | v :: vs => text v ++ ", " ++ textOfItems vs

end

mutual

/-- The form of a value that shows the kind of every leaf. -/
def tagged : Value → String
  | scalar s => s.kind.tag ++ "(" ++ s.text ++ ")"
  | tuple items => "Tuple([" ++ taggedItems items ++ "])"

/-- Several values with their kinds, with commas between them. -/
def taggedItems : List Value → String
  | [] => ""
  | [v] => tagged v
  | v :: vs => tagged v ++ ", " ++ taggedItems vs

end

end Value

end Kernelwright
