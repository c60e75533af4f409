import Kernelwright.Proofs.Code.Contents
import Kernelwright.Proofs.Code.Scoping

/-!
# The vocabulary of a text

What a statement says by itself, apart from the statements in it: what it declares and uses, and the
words that come from outside, which are the names of functions and of nodes that could not be
lowered.
-/

namespace Kernelwright.Code

/-- Whether a name stands for a value; a name that is made from an illegal one does not. -/
def Name.isLegal : Name → Bool
  | illegal => false
  | length array => array.isLegal
  | bufferLength buffer => buffer.isLegal
  | _ => true

/-- Whether what is declared or used stands for a value. -/
def Ident.isLegal : Ident → Bool
  | var x | metadata x | dimension x => x.isLegal
  | deoptFlag => true

def Stmt.idents : Stmt → List Ident
  | loop head _ => head.declares ++ head.uses
  | s => s.declares ++ s.uses

/-- The names of functions in an expression. -/
def Expr.words : Expr → List String
  | builtin f _ | call f _ => [f]
  | minimum x _ => x.words
  | _ => []

/-- The names of functions and nodes in a statement. -/
def Stmt.words : Stmt → List String
  | declare _ _ value _ | assign _ value => value.words
  | failed name _ => [name]
  | _ => []

/-- Whether a statement declares a loop variable without a value to start from. -/
def Stmt.isBlind : Stmt → Bool
  | declare _ _ (.place (.name .illegal)) .loopBegin => true
  | _ => false

@[simp] theorem Ident.isLegal_var (x : Name) : (var x).isLegal = x.isLegal := rfl

@[simp] theorem Ident.isLegal_metadata (x : Name) : (metadata x).isLegal = x.isLegal := rfl

@[simp] theorem Ident.isLegal_dimension (x : Name) : (dimension x).isLegal = x.isLegal := rfl

@[simp] theorem Ident.isLegal_deoptFlag : deoptFlag.isLegal = true := rfl

@[simp] theorem Name.uses_legal_iff {x : Name} :
    (∀ i ∈ x.uses, i.isLegal = true) ↔ x.isLegal = true := by
  cases x <;> simp [uses, isLegal]

end Kernelwright.Code
