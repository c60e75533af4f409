/-!
# Hexadecimal text

Digits are written in lower case and read in either case. A byte is two digits, the higher one
first.
-/

namespace Kernelwright.Text.Hex

/-- The digit of a number below sixteen. -/
def digit (n : Nat) : Char := "0123456789abcdef".toList.getD n '0'

def value? (c : Char) : Option Nat :=
  if '0' ≤ c ∧ c ≤ '9' then some (c.toNat - '0'.toNat)
  else if 'a' ≤ c ∧ c ≤ 'f' then some (c.toNat - 'a'.toNat + 10)
  else if 'A' ≤ c ∧ c ≤ 'F' then some (c.toNat - 'A'.toNat + 10)
  else none

theorem value?_digit {n : Nat} (h : n < 16) : value? (digit n) = some n := by
  have all : ∀ n : Fin 16, value? (digit n) = some n.val := by decide
  exact all ⟨n, h⟩

def byteDigits (b : UInt8) : List Char := [digit (b.toNat / 16), digit (b.toNat % 16)]

def ofBytes (bs : List UInt8) : String := String.ofList (bs.flatMap byteDigits)

/-- The bytes of digits, which come in pairs. -/
def bytesOf? : List Char → Option (List UInt8)
  | [] => some []
  | [_] => none
  | a :: b :: cs => do
    let hi ← value? a
    let lo ← value? b
    return UInt8.ofNat (16 * hi + lo) :: (← bytesOf? cs)

def toBytes? (s : String) : Option (List UInt8) := bytesOf? s.toList

/-- The text of a number in at least `width` digits. -/
def ofNat (width n : Nat) : String :=
  let digits := Nat.toDigits 16 n
  String.ofList (List.replicate (width - digits.length) '0' ++ digits)

/-- The number of a text of digits. -/
def toNat? (s : String) : Option Nat :=
  s.toList.foldlM (fun n c => (value? c).map (16 * n + ·)) 0

end Kernelwright.Text.Hex
