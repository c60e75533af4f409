import Kernelwright.Decimal.Shortest

/-!
# Laying out decimal digits

The digits of a number are chosen in `Decimal/Shortest`; a `Layout` records every decision about
how they are set: between which exponents the point is placed positionally, how an exponent is
marked, and how the two signs of zero and the words that are no finite number look.
-/

namespace Kernelwright.Decimal

open Kernelwright.Ieee

/-- The decisions of one written form of floating-point numbers. Positional notation always has a
digit after the point. -/
structure Layout where
  /-- Least leading exponent written positionally. -/
  low : Int
  /-- Greatest leading exponent written positionally. -/
  high : Int
  /-- Whether a positive exponent carries a plus sign. -/
  plus : Bool
  /-- Which of two equally near decimals is written. -/
  tie : Tie
  /-- Text of a not-a-number. -/
  nan : String
  /-- Text of positive infinity. -/
  infinity : String
  /-- Text of negative infinity. -/
  negativeInfinity : String

/-- The digits with a point after the first, and the exponent marked. -/
def Layout.exponential (l : Layout) (digits : List Char) (exponent : Int) : List Char :=
  let mantissa := match digits with
    | [] => []
    | [d] => [d]
    | d :: rest => d :: '.' :: rest
  let sign := if l.plus ∧ exponent ≥ 0 then ['+'] else []
  mantissa ++ 'e' :: sign ++ (toString exponent).toList

/-- The digits with the point where the exponent puts it, filled up with zeros. -/
def positional (digits : List Char) (exponent : Int) : List Char :=
  if exponent < 0 then
    '0' :: '.' :: List.replicate (-exponent - 1).toNat '0' ++ digits
  else
    let whole := exponent.toNat + 1
    let padded := digits ++ List.replicate (whole - digits.length) '0'
    let rest := padded.drop whole
    padded.take whole ++ '.' :: (if rest.isEmpty then ['0'] else rest)

/-- The text of a decimal. -/
def Layout.render (l : Layout) (d : Scientific) : List Char :=
  let digits := (toString d.digits).toList
  if l.low ≤ d.exponent ∧ d.exponent ≤ l.high then positional digits d.exponent
  else l.exponential digits d.exponent

/-- The text of a datum of format `f`. -/
def Layout.text (l : Layout) (f : Format) : Datum → String
  | .nan _ _ => l.nan
  | .infinite s => if s then l.negativeInfinity else l.infinity
  | .finite s m e =>
    let sign := if s then ['-'] else []
    let body := if m = 0 then ['0', '.', '0']
      else match shortest? f l.tie m e with
        | some d => l.render d
        | none => []
    String.ofList (sign ++ body)

end Kernelwright.Decimal
