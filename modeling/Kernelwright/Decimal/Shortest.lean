import Kernelwright.Ieee.Format

/-!
# The fewest decimal digits that read back

A finite datum is the nearest one to a whole interval of real numbers, and any decimal in that
interval reads back as the datum. `shortest?` looks for such a decimal on coarser grids first: for
`1, 2, …` digits it tests the two neighbours of the exact value on the grid with that many digits,
the first grid with a hit wins, and of two hits the nearer one. If any point of a grid lies in the
interval then so does a neighbour of the value, so no shorter decimal is missed.

The arithmetic is exact, on fractions of natural numbers.
-/

namespace Kernelwright.Decimal

open Kernelwright.Ieee

/-- Which of two equally near decimals is taken. -/
inductive Tie where
  | away
  | even
deriving DecidableEq, Repr

/-- The decimal `digits * 10 ^ (exponent + 1 - length of digits)`: `exponent` is that of its leading
digit. -/
structure Scientific where
  digits : Nat
  exponent : Int
deriving DecidableEq, Repr

/-- How many decimal digits a positive number has; zero has none. -/
def digitCount (n : Nat) : Nat :=
  if h : n = 0 then 0 else digitCount (n / 10) + 1
termination_by n
decreasing_by omega

/-- The exponent of the leading decimal digit of the positive fraction `num / den`. -/
def leadingExponent (num den : Nat) : Int :=
  if den ≤ num then digitCount (num / den) - 1
  else
    let t := digitCount (den / num) - 1
    if num * Nat.pow 10 t = den then -(t : Int) else -(t : Int) - 1

/-- The value and the two ends of the interval that rounds to it, over one denominator. -/
structure Interval where
  low : Nat
  value : Nat
  high : Nat
  den : Nat
  closed : Bool

/-- The interval of the datum `m * 2 ^ e` of a format. Neighbours are one unit away, except that
below a power of two they are half a unit away. The ends belong to it when `m` is even. -/
def Interval.of (f : Format) (m : Nat) (e : Int) : Interval :=
  let below := if m = Nat.pow 2 f.fraction ∧ e > f.least then 1 else 2
  let scale := Nat.pow 2 (e - 2).toNat
  { low := (4 * m - below) * scale
    value := 4 * m * scale
    high := (4 * m + 2) * scale
    den := Nat.pow 2 (2 - e).toNat
    closed := m % 2 == 0 }

/-- Whether the fraction `num / den` lies in the interval. -/
def Interval.holds (i : Interval) (num den : Nat) : Bool :=
  let low := i.low * den
  let high := i.high * den
  let x := num * i.den
  if i.closed then low ≤ x && x ≤ high else low < x && x < high

/-- The hit on the grid of `count` digits, if there is one, in units of the grid. -/
def Interval.hit? (i : Interval) (tie : Tie) (lead : Int) (count : Nat) : Option Nat :=
  let place := lead + 1 - count
  let up := Nat.pow 10 place.toNat
  let down := Nat.pow 10 (-place).toNat
  let q := i.value * down / (i.den * up)
  let r := i.value * down % (i.den * up)
  match i.holds (q * up) down, i.holds ((q + 1) * up) down with
  | true, true =>
    if 2 * r < i.den * up then some q
    else if 2 * r > i.den * up then some (q + 1)
    else match tie with
      | .away => some (q + 1)
      | .even => if q % 2 = 0 then some q else some (q + 1)
  | true, false => some q
  | false, true => some (q + 1)
  | false, false => none

/-- The first hit on grids of `count, count + 1, …` digits, at most `tries` of them. -/
def Interval.search? (i : Interval) (tie : Tie) (lead : Int) : Nat → Nat → Option (Nat × Nat)
  | 0, _ => none
  | tries + 1, count =>
    match i.hit? tie lead count with
    | some d => some (d, count)
    | none => i.search? tie lead tries (count + 1)

/-- The shortest decimal that reads back as the positive datum `m * 2 ^ e`, the nearest of those.
Seventeen digits always suffice for the formats in use. A hit that carries to `10 ^ count` is the
digit one, one place up. -/
def shortest? (f : Format) (tie : Tie) (m : Nat) (e : Int) : Option Scientific :=
  let i := Interval.of f m e
  let lead := leadingExponent i.value i.den
  (i.search? tie lead 17 1).map fun (d, count) =>
    if d = Nat.pow 10 count then ⟨1, lead + 1⟩ else ⟨d, lead⟩

end Kernelwright.Decimal
