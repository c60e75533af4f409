/-!
# Room in memory

Items that lie side by side in memory form one block, and the length of a block in bytes has to be a
number that a signed word of 64 bits can hold. A number that asks for more than that cannot be met,
whatever the machine.
-/

namespace Kernelwright

/-- What may stop an operation that makes a block of a size it is given. -/
inductive Limited (ε : Type) where
  /-- The block is longer than any block can be. -/
  | noRoom
  /-- A cause of the operation itself. -/
  | refused (cause : ε)
deriving DecidableEq, Repr

def Limited.map (f : ε → δ) : Limited ε → Limited δ
  | noRoom => noRoom
  | refused e => refused (f e)

namespace Memory

/-- The length in bytes of the longest block. -/
def maxBlock : Nat := Int64.maxValue.toInt.toNat

def fits (count bytes : Nat) : Bool := count * bytes ≤ maxBlock

/-- The product of two words. What exceeds a word is lost, unless the program is built to stop
there. -/
def product (m n : Nat) : Nat := m * n % UInt64.size

theorem product_of_lt {m n : Nat} (h : m * n < UInt64.size) : product m n = m * n :=
  Nat.mod_eq_of_lt h

/-! ### The sizes of items in bytes -/

def typeBytes : Nat := 24

def valueBytes : Nat := 24

def chunkBytes : Nat := 16

def sliceBytes : Nat := 24

def kernelBytes : Nat := 56

end Memory

end Kernelwright
