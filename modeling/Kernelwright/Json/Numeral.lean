import Kernelwright.Ieee.Word

/-!
# JSON numerals

The parts of a written number, and what it is read as. A numeral without fraction and exponent that
fits a sixty-four bit word is an integer; everything else is a floating-point number.

A floating-point numeral is read by scaling: its leading digits, as many as fit a sixty-four bit
word, are taken as one integer, that integer is rounded to a floating-point number, and the result
is multiplied or divided by the power of ten that the point and the exponent ask for. Up to fifteen
digits and exponents up to twenty-two the two roundings are exact; beyond that the result may differ
from the nearest number in the last place.
-/

namespace Kernelwright.Json

open Ieee

/-- The sign written in front of an exponent. -/
inductive ExponentSign where
  | absent
  | plus
  | minus
deriving DecidableEq, Repr

/-- A written number. The digits of `whole` have no superfluous zero in front; `fraction` is empty
when there is no point. -/
structure Numeral where
  negative : Bool
  whole : List Char
  fraction : List Char
  exponent : Option (ExponentSign × List Char)
deriving DecidableEq, Repr

/-- What a numeral is read as. -/
inductive Number where
  | nonneg (n : Nat)
  | negative (n : Int)
  | real (x : Binary64)
deriving DecidableEq, Repr

def digitValue (c : Char) : Nat := c.toNat - '0'.toNat

/-- Digits are collected in a word of sixty-four bits. -/
def wordLimit : Nat := UInt64.size

/-- Append digits to a word while the result fits; the word, how many digits were appended, and how
many are left. -/
def collect (word count : Nat) : List Char → Nat × Nat × Nat
  | [] => (word, count, 0)
  | d :: ds =>
    let next := 10 * word + digitValue d
    if next < wordLimit then collect next (count + 1) ds else (word, count, ds.length + 1)

/-- The power of ten nearest to `10 ^ k`. -/
def powerOfTen (k : Nat) : Binary64 := .ofInt (Nat.pow 10 k)

/-- The greatest exponent of ten in the format. -/
def topPower : Nat := 308

/-- Scale a number by a power of ten. A result beyond the format is refused; below it the scaling
is done in steps, which may end at zero. -/
def scale? (x : Binary64) (e : Int) : Option Binary64 :=
  if e.natAbs ≤ topPower then
    if e ≥ 0 then
      let y := x.mul (powerOfTen e.natAbs)
      if y.bits = (Binary64.ofPattern Format.double.infinity).bits then none else some y
    else some (x.div (powerOfTen e.natAbs))
  else if !x.isNonzero then some x
  else if e ≥ 0 then none
  else scale? (x.div (powerOfTen topPower)) (e + topPower)
termination_by (-e).toNat
decreasing_by
  unfold topPower at *
  omega

/-- The written exponent, `none` when it is beyond thirty-two bits. -/
def exponentValue? (digits : List Char) : Option Nat :=
  let n := digits.foldl (fun n d => 10 * n + digitValue d) 0
  if n ≤ Int32.maxValue.toInt.toNat then some n else none

/-- The leading digits as an integer, and the exponent of ten that belongs to it. -/
def Numeral.parts (n : Numeral) : Nat × Int :=
  let (word, _, dropped) := collect 0 0 n.whole
  let (word, placed, _) := collect word 0 n.fraction
  (word, (dropped : Int) - placed)

/-- The magnitude of a numeral that is read as a floating-point number. -/
def Numeral.magnitude? (n : Numeral) : Option Binary64 :=
  let (word, e) := n.parts
  match n.exponent with
  | none => scale? (.ofInt word) e
  | some (sign, digits) =>
    match exponentValue? digits with
    | some k => scale? (.ofInt word) (if sign = .minus then e - k else e + k)
    | none => if word ≠ 0 ∧ sign ≠ .minus then none else some .zero

/-- What a numeral is read as; `none` when it is beyond every format. -/
def Numeral.read? (n : Numeral) : Option Number :=
  let (word, _, dropped) := collect 0 0 n.whole
  if n.fraction.isEmpty ∧ n.exponent.isNone ∧ dropped = 0 then
    if !n.negative then some (.nonneg word)
    else if 0 < word ∧ word ≤ Int64.minValue.toInt.natAbs then some (.negative (-(word : Int)))
    else some (.real (Binary64.ofInt word).neg)
  else n.magnitude?.map fun x => .real (if n.negative then x.neg else x)

/-! ### Splitting a numeral off a text -/

def isDigit (c : Char) : Bool := '0' ≤ c && c ≤ '9'

/-- The whole part: digits, with no zero in front of another digit. -/
def scanWhole? (cs : List Char) : Option (List Char × List Char) :=
  match cs.takeWhile isDigit with
  | [] => none
  | '0' :: _ :: _ => none
  | ds => some (ds, cs.dropWhile isDigit)

/-- The fraction: a point and at least one digit, or nothing. -/
def scanFraction? : List Char → Option (List Char × List Char)
  | '.' :: cs => match cs.takeWhile isDigit with
    | [] => none
    | ds => some (ds, cs.dropWhile isDigit)
  | cs => some ([], cs)

def scanSign : List Char → ExponentSign × List Char
  | '+' :: cs => (.plus, cs)
  | '-' :: cs => (.minus, cs)
  | cs => (.absent, cs)

def scanExponentDigits? (cs : List Char) :
    Option (Option (ExponentSign × List Char) × List Char) :=
  let (sign, rest) := scanSign cs
  match rest.takeWhile isDigit with
  | [] => none
  | ds => some (some (sign, ds), rest.dropWhile isDigit)

/-- The exponent: a mark, perhaps a sign, and at least one digit, or nothing. -/
def scanExponent? : List Char → Option (Option (ExponentSign × List Char) × List Char)
  | 'e' :: cs => scanExponentDigits? cs
  | 'E' :: cs => scanExponentDigits? cs
  | cs => some (none, cs)

def scanUnsigned? (negative : Bool) (cs : List Char) : Option (Numeral × List Char) := do
  let (whole, cs) ← scanWhole? cs
  let (fraction, cs) ← scanFraction? cs
  let (exponent, cs) ← scanExponent? cs
  return (⟨negative, whole, fraction, exponent⟩, cs)

/-- A numeral at the front of a text, and what follows it. -/
def scanNumeral? : List Char → Option (Numeral × List Char)
  | '-' :: cs => scanUnsigned? true cs
  | cs => scanUnsigned? false cs

def Numeral.ofLexeme? (s : String) : Option Numeral :=
  match scanNumeral? s.toList with
  | some (n, []) => some n
  | _ => none

end Kernelwright.Json
