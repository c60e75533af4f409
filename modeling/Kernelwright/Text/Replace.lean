/-!
# Replacing text

Every occurrence of a pattern is replaced, from the left and without overlaps. What replaces it is
not searched again.
-/

namespace Kernelwright.Text

/-- Replace a pattern in a list of characters, of which the first `skip` belong to an occurrence
that is replaced already. -/
def replaceFrom (pattern replacement : List Char) : Nat → List Char → List Char
  | _, [] => []
  | skip + 1, _ :: cs => replaceFrom pattern replacement skip cs
  | 0, c :: cs =>
    if pattern.isPrefixOf (c :: cs) then
      replacement ++ replaceFrom pattern replacement (pattern.length - 1) cs
    else c :: replaceFrom pattern replacement 0 cs

@[simp] theorem replaceFrom_nil (pattern replacement : List Char) (skip : Nat) :
    replaceFrom pattern replacement skip [] = [] := by
  cases skip <;> rfl

/-- An occurrence at the front is replaced as a whole. -/
theorem replaceFrom_skip (pattern replacement front rest : List Char) :
    replaceFrom pattern replacement front.length (front ++ rest) =
      replaceFrom pattern replacement 0 rest := by
  induction front with
  | nil => rfl
  | cons c front ih => simpa [replaceFrom] using ih

/-- Replace a pattern, which is not empty, wherever it occurs. -/
def replace (text pattern replacement : String) : String :=
  String.ofList (replaceFrom pattern.toList replacement.toList 0 text.toList)

end Kernelwright.Text
