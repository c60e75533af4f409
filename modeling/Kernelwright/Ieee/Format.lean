/-!
# Binary floating-point formats

A format is given by the widths of its two stored fields. A bit pattern is *decoded* to a
`Datum`, the number it stands for, and a number `m * 2 ^ e` is *rounded* to the bit pattern of the
nearest datum, a tie going to the even one. Conversions and the exact operations of this library
are compositions of the two, so each rounds once:

    bits ──decode──▶ Datum ──(exact integer arithmetic)──▶ m * 2 ^ e ──round──▶ bits

Everything here is on natural numbers; the fixed-width words appear in `Ieee/Word`.
-/

namespace Kernelwright.Ieee

/-- A binary interchange format: how many bits of the significand and of the exponent it stores. -/
structure Format where
  fraction : Nat
  exponent : Nat
deriving DecidableEq, Repr

/-- The number a bit pattern stands for. A finite datum is `significand * 2 ^ exponent`; a
not-a-number keeps its stored fraction. -/
inductive Datum where
  | nan (negative : Bool) (payload : Nat)
  | infinite (negative : Bool)
  | finite (negative : Bool) (significand : Nat) (exponent : Int)
deriving DecidableEq, Repr

namespace Format

/-- Thirty-two bit format. -/
def single : Format := ⟨23, 8⟩

/-- Sixty-four bit format. -/
def double : Format := ⟨52, 11⟩

/-- The exponent of the least positive datum, which is also the unit of all subnormal ones. -/
def least (f : Format) : Int := 2 - (Nat.pow 2 (f.exponent - 1) : Int) - f.fraction

/-- The exponent field of infinities and not-a-numbers. -/
def topExponent (f : Format) : Nat := Nat.pow 2 f.exponent - 1

/-- The bit pattern of positive infinity; every greater magnitude is a not-a-number. -/
def infinity (f : Format) : Nat := f.topExponent * Nat.pow 2 f.fraction

/-- The bit that makes a not-a-number quiet. -/
def quiet (f : Format) : Nat := Nat.pow 2 (f.fraction - 1)

def signWeight (f : Format) : Nat := Nat.pow 2 (f.fraction + f.exponent)

def signed (f : Format) (negative : Bool) (magnitude : Nat) : Nat :=
  if negative then f.signWeight + magnitude else magnitude

/-- The number that a bit pattern stands for. -/
def decode (f : Format) (bits : Nat) : Datum :=
  let negative := bits / f.signWeight % 2 == 1
  let field := bits / Nat.pow 2 f.fraction % Nat.pow 2 f.exponent
  let stored := bits % Nat.pow 2 f.fraction
  if field = f.topExponent then
    if stored = 0 then .infinite negative else .nan negative stored
  else if field = 0 then .finite negative stored f.least
  else .finite negative (stored + Nat.pow 2 f.fraction) (f.least + (field - 1 : Nat))

/-- `m / 2 ^ s` to the nearest natural number, a tie going to the even one. -/
def shiftNearest (m s : Nat) : Nat :=
  let unit := Nat.pow 2 s
  let q := m / unit
  let r := m % unit
  if 2 * r > unit ∨ (2 * r = unit ∧ q % 2 = 1) then q + 1 else q

/-- The magnitude bits of the datum nearest to `m * 2 ^ e`. The unit in the last place is fixed by
the size of the number; counting units from the least one, a carry out of the significand runs
into the exponent field by itself. -/
def roundMagnitude (f : Format) (m : Nat) (e : Int) : Nat :=
  if m = 0 then 0
  else
    let unit := max f.least (m.log2 + 1 + e - (f.fraction + 1))
    let q := if e ≥ unit then m * Nat.pow 2 (e - unit).toNat else shiftNearest m (unit - e).toNat
    min f.infinity ((unit - f.least).toNat * Nat.pow 2 f.fraction + q)

/-- The bit pattern of the datum nearest to `± m * 2 ^ e`. -/
def round (f : Format) (negative : Bool) (m : Nat) (e : Int) : Nat :=
  f.signed negative (f.roundMagnitude m e)

/-- The bit pattern nearest to an integer. -/
def ofInt (f : Format) (n : Int) : Nat := f.round (n < 0) n.natAbs 0

/-- The bit pattern in format `g` nearest to the datum of `bits` in format `f`. A not-a-number keeps
the leading bits of its payload and becomes quiet. -/
def convert (f g : Format) (bits : Nat) : Nat :=
  match f.decode bits with
  | .nan s p =>
    let payload := p * Nat.pow 2 g.fraction / Nat.pow 2 f.fraction
    g.signed s (g.infinity + (payload ||| g.quiet))
  | .infinite s => g.signed s g.infinity
  | .finite s m e => g.round s m e

end Format

namespace Datum

def isNan : Datum → Bool
  | .nan _ _ => true
  | _ => false

/-- The integer part, toward zero, clamped to a closed range; not-a-number gives zero. -/
def truncateWithin (low high : Int) : Datum → Int
  | .nan _ _ => 0
  | .infinite s => if s then low else high
  | .finite s m e =>
    let whole : Nat := if e ≥ 0 then m * Nat.pow 2 e.toNat else m / Nat.pow 2 (-e).toNat
    max low (min high (if s then -(whole : Int) else whole))

/-- The order of two numbers; `none` when one of them is not a number. Both zeros are equal. -/
def order? : Datum → Datum → Option Ordering
  | .nan _ _, _ | _, .nan _ _ => none
  | .infinite s, .infinite t => some (compare (if s then 0 else 1) (if t then 0 else 1 : Nat))
  | .infinite s, .finite _ _ _ => some (if s then .lt else .gt)
  | .finite _ _ _, .infinite t => some (if t then .gt else .lt)
  | .finite s m e, .finite t n d =>
    let unit := min e d
    let x : Int := m * (Nat.pow 2 (e - unit).toNat : Int)
    let y : Int := n * (Nat.pow 2 (d - unit).toNat : Int)
    some (compare (if s then -x else x) (if t then -y else y))

end Datum

end Kernelwright.Ieee
