import Kernelwright.Element.Grammar.Parser

/-!
# Type errors

The ways in which an element type can be refused, and checked constructions that refuse.
-/

namespace Kernelwright

/-- Why an element type was refused. -/
inductive TypeError where
  | unsupportedArity (arity : Nat)
  | malformed (input : String) (fault : Grammar.Fault)
  /-- A record with more fields than there is room for. -/
  | noRoom (arity : Nat)
deriving DecidableEq, Repr

def TypeError.message : TypeError → String
  | .unsupportedArity n => "unsupported tuple arity " ++ toString n ++ "; expected 1..=11"
  | .malformed input fault => "malformed type grammar `" ++ input ++ "`: " ++ fault.message
  | .noRoom n => "no room for " ++ toString n ++ " fields"

namespace ElementType

def parse (source : String) : Except TypeError ElementType :=
  (Grammar.parse source).mapError fun
    | .noRoom n => .noRoom n
    | fault => .malformed source fault

/-- A record of given fields, if a record may have that many. -/
def ofFields (fs : List ElementType) : Except TypeError ElementType :=
  if arityOk fs.length then .ok (.record fs) else .error (.unsupportedArity fs.length)

/-- A record that repeats one kind. The copies are made before they are counted. -/
def uniform (k : ScalarKind) (arity : Nat) : Except TypeError ElementType :=
  if arityOk arity then .ok (.record (List.replicate arity (.scalar k)))
  else if Memory.fits arity Memory.typeBytes then .error (.unsupportedArity arity)
  else .error (.noRoom arity)

/-- Check the arity of every record in a type. -/
def validate (t : ElementType) : Except TypeError Unit :=
  match t.badArity? with
  | some n => .error (.unsupportedArity n)
  | none => .ok ()

end ElementType

end Kernelwright
