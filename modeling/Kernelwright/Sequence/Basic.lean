import Kernelwright.Element.Value

/-!
# Sequences

An array whose elements form an arithmetic progression needs three numbers a field: the start, the
stride and an auxiliary bound. How an index enters the progression is chosen by two marks: as it is,
divided by the bound, or modulo the bound.
-/

namespace Kernelwright

/-- How an index enters a progression. -/
inductive DecodeRule where
  | linear
  | divide
  | modulo
deriving DecidableEq, Repr, Inhabited

def DecodeRule.tag : DecodeRule → String
  | linear => "linear"
  | divide => "divide"
  | modulo => "modulo"

def DecodeRule.ofTag? (s : String) : Option DecodeRule :=
  [linear, divide, modulo].find? (·.tag == s)

/-- The marks of a field: whether it holds a progression at all, and the two that choose the
rule. -/
structure SequenceMarks where
  sequence : Bool
  compass : Bool
  flag : Bool
deriving DecidableEq, Repr, Inhabited

/-- The marks of an array that holds its elements one by one. -/
def SequenceMarks.none : SequenceMarks := ⟨false, false, false⟩

/-- The rule that the marks choose; `flag` goes before `compass`. -/
def SequenceMarks.rule (m : SequenceMarks) : DecodeRule :=
  if m.flag then .divide else if m.compass then .modulo else .linear

/-- The numbers of one field of a sequence. -/
structure Progression where
  start : Value
  stride : Value
  bound : Value
  rule : DecodeRule
deriving DecidableEq, Repr, Inhabited

/-- The progressions of an array, one for each scalar field. -/
structure SequenceLayout where
  fields : List Progression
deriving DecidableEq, Repr, Inhabited

end Kernelwright
