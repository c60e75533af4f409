import Kernelwright.Element.Type

/-!
# Value kinds

What a value of a kernel graph is in kernel text: a scalar, a struct held by value, an array in
global memory, nothing, or `illegal` when that cannot be told. An illegal value is left out of the
text wherever it can be.
-/

namespace Kernelwright

/-- What a value is in kernel text. -/
inductive ValueKind where
  | scalar (kind : ScalarKind)
  | struct (type : ElementType)
  | array (element : ElementType)
  | void
  | illegal
deriving DecidableEq, Repr, Inhabited

namespace ValueKind

/-- The kind of a value of an element type; a record of one field is that field. -/
def ofType : ElementType → ValueKind
  | .scalar k => scalar k
  | .record [] => illegal
  | .record [t] => ofType t
  | .record (a :: b :: fs) => struct (.record (a :: b :: fs))

/-- The type in kernel text; of an array, that of its elements. -/
def cType? : ValueKind → Option String
  | scalar k => some k.cName
  | struct t => some t.cName
  | array t => some t.cName
  | void => some "void"
  | illegal => none

def scalar? : ValueKind → Option ScalarKind
  | scalar k => some k
  | _ => none

def isIllegal : ValueKind → Bool
  | illegal => true
  | _ => false

end ValueKind

end Kernelwright
