import Kernelwright.Storage.Basic

/-!
# Columns

What storing a scalar does to a column of its kind: the element is the scalar converted to the kind,
and every other element is as it was. For cells this is how arrays behave. For bytes it rests on two
facts: a scalar is read back from the bytes it is written as, and the bytes of different elements do
not overlap.
-/

namespace Kernelwright

/-! ### Scalars and their bytes -/

namespace Scalar

theorem pattern_lt (s : Scalar) : s.pattern < Nat.pow 256 s.kind.byteSize := by
  cases s with
  | byte v => exact v.toUInt8.toNat_lt
  | char v => exact v.toNat_lt
  | short v => exact v.toUInt16.toNat_lt
  | int v => exact v.toUInt32.toNat_lt
  | long v => exact v.toUInt64.toNat_lt
  | float v | double v => exact v.bits.toNat_lt
  | boolean v => cases v <;> decide

theorem ofBytes_toBytes (s : Scalar) : ofBytes s.kind s.toBytes = s := by
  rw [ofBytes, toBytes, ofLittleEndian_littleEndian, Nat.mod_eq_of_lt s.pattern_lt]
  exact s.ofPattern_pattern

theorem ofBytes_replicate_zero (k : ScalarKind) :
    ofBytes k (List.replicate k.byteSize 0) = zero k := by
  cases k <;> rfl

end Scalar

namespace Storage

/-! ### Overwriting bytes -/

@[simp] theorem size_overwrite (data : Array UInt8) (position : Nat) (bytes : List UInt8) :
    (overwrite data position bytes).size = data.size := by
  induction bytes generalizing data position with
  | nil => rfl
  | cons b bs ih => rw [overwrite, ih, Array.size_setIfInBounds]

/-- A byte of an overwritten block: inside the written range it is the byte written there, outside
of it the one that was there. -/
theorem getElem?_overwrite (data : Array UInt8) (position q : Nat) (bytes : List UInt8)
    (h : position + bytes.length ≤ data.size) :
    (overwrite data position bytes)[q]? =
      if position ≤ q ∧ q < position + bytes.length then bytes[q - position]? else data[q]? := by
  induction bytes generalizing data position with
  | nil =>
    have hout : ¬(position ≤ q ∧ q < position + ([] : List UInt8).length) := by
      simp only [List.length_nil]
      omega
    rw [overwrite, if_neg hout]
  | cons b bs ih =>
    rw [List.length_cons] at h
    rw [overwrite, ih _ _ (by simpa using by omega), Array.getElem?_setIfInBounds, List.length_cons]
    by_cases hq : position = q
    · subst hq
      have hlt : position < data.size := by omega
      have hbefore : ¬(position + 1 ≤ position ∧ position < position + 1 + bs.length) := by omega
      rw [if_neg hbefore, if_pos rfl, if_pos hlt, if_pos (by omega), Nat.sub_self]
      rfl
    · by_cases hin : position + 1 ≤ q ∧ q < position + 1 + bs.length
      · have hin' : position ≤ q ∧ q < position + (bs.length + 1) := by omega
        obtain ⟨d, hd⟩ : ∃ d, q - position = d + 1 := ⟨q - position - 1, by omega⟩
        have hd' : q - (position + 1) = d := by omega
        rw [if_pos hin, if_pos hin', hd, hd', List.getElem?_cons_succ]
      · have hout : ¬(position ≤ q ∧ q < position + (bs.length + 1)) := by omega
        rw [if_neg hin, if_neg hout, if_neg hq]

/-! ### Slots -/

theorem slot_disjoint {i j width q : Nat} (h : j ≠ i) (hq : j * width ≤ q)
    (hq' : q < (j + 1) * width) :
    ¬(i * width ≤ q ∧ q < i * width + width) := by
  rintro ⟨h₁, h₂⟩
  rw [Nat.succ_mul] at hq'
  rcases Nat.lt_or_gt_of_ne h with hlt | hlt <;>
  · have := Nat.mul_le_mul_right width hlt
    rw [Nat.succ_mul] at this
    omega

theorem getElem?_slot (kind : ScalarKind) (data : Array UInt8) (index n : Nat)
    (h : (index + 1) * kind.byteSize ≤ data.size) :
    (slot kind data index)[n]? =
      if n < kind.byteSize then data[index * kind.byteSize + n]? else none := by
  rw [Nat.succ_mul] at h
  rw [slot, Array.getElem?_toList, Array.getElem?_extract, Nat.succ_mul]
  congr 1
  rw [Nat.min_eq_left h, Nat.add_sub_cancel_left]

theorem slot_overwrite {kind : ScalarKind} {data : Array UInt8} {index other : Nat}
    {bytes : List UInt8} (hlen : bytes.length = kind.byteSize)
    (h : (index + 1) * kind.byteSize ≤ data.size) (h' : (other + 1) * kind.byteSize ≤ data.size) :
    slot kind (overwrite data (index * kind.byteSize) bytes) other =
      if other = index then bytes else slot kind data other := by
  have hroom : index * kind.byteSize + bytes.length ≤ data.size := by
    rw [Nat.succ_mul] at h
    omega
  apply List.ext_getElem?
  intro n
  rw [getElem?_slot _ _ _ _ (by rwa [size_overwrite]), getElem?_overwrite _ _ _ _ hroom]
  by_cases ho : other = index
  · subst ho
    rw [if_pos rfl]
    by_cases hn : n < kind.byteSize
    · rw [if_pos hn, if_pos (by omega), Nat.add_sub_cancel_left]
    · rw [if_neg hn, List.getElem?_eq_none (by omega)]
  · rw [if_neg ho, getElem?_slot _ _ _ _ h']
    by_cases hn : n < kind.byteSize
    · rw [if_pos hn, if_pos hn, hlen,
        if_neg (slot_disjoint ho (by omega) (by rw [Nat.succ_mul]; omega))]
    · rw [if_neg hn, if_neg hn]

/-! ### Columns of a kind -/

/-- The storage is the one that the mode gives a column of the kind, and holds `size` elements. -/
def IsColumn (kind : ScalarKind) (mode : StorageMode) (size : Nat) : Storage → Prop
  | native k cells => Backend.select kind mode = .ok .native ∧ k = kind ∧ cells.size = size
  | bytes k pinned data =>
    Backend.select kind mode = .ok (.bytes pinned) ∧ k = kind ∧ data.size = size * kind.byteSize
  | boxed _ => False

variable {kind : ScalarKind} {mode : StorageMode} {size index : Nat} {s : Storage}

theorem slot_le {width : Nat} (h : index < size) : (index + 1) * width ≤ size * width :=
  Nat.mul_le_mul_right width h

section

variable (hs : s.IsColumn kind mode size)
include hs

theorem IsColumn.accepts (hi : index < size) (x : Scalar) : s.accepts index (.scalar x) = true := by
  cases s with
  | native k cells =>
    obtain ⟨-, rfl, rfl⟩ := hs
    simp [Storage.accepts, hi]
  | bytes k pinned data =>
    obtain ⟨-, rfl, hdata⟩ := hs
    rw [Storage.accepts, hdata, decide_eq_true_eq]
    exact slot_le hi
  | boxed cells => exact hs.elim

theorem IsColumn.put (x : Scalar) : (s.put index (.scalar x)).IsColumn kind mode size := by
  cases s with
  | native | bytes => simpa [Storage.put, IsColumn] using hs
  | boxed cells => exact hs.elim

/-- A stored scalar is read back, converted to the kind of the column, and every other element is
left alone. -/
theorem IsColumn.get?_put (hi : index < size) (x : Scalar) (j : Nat) :
    (s.put index (.scalar x)).get? j = if j = index then some (.scalar (x.cast kind)) else
    s.get? j := by
  cases s with
  | native k cells =>
    obtain ⟨-, rfl, rfl⟩ := hs
    by_cases hj : j = index
    · simp [Storage.put, Storage.get?, hj, hi]
    · simp [Storage.put, Storage.get?, hj, Ne.symm hj]
  | bytes k pinned data =>
    obtain ⟨-, rfl, hdata⟩ := hs
    have hroom : (index + 1) * k.byteSize ≤ data.size := by
      rw [hdata]
      exact slot_le hi
    have hlen : (x.cast k).toBytes.length = k.byteSize := by simp
    have hread : Scalar.ofBytes k (x.cast k).toBytes = x.cast k := by
      have := (x.cast k).ofBytes_toBytes
      rwa [Scalar.kind_cast] at this
    simp only [Storage.put, Storage.get?, size_overwrite]
    by_cases hj : (j + 1) * k.byteSize ≤ data.size
    · rw [if_pos hj, if_pos hj, slot_overwrite hlen hroom hj]
      split
      · rw [hread]
      · rfl
    · have hne : j ≠ index := fun h => hj (h ▸ hroom)
      rw [if_neg hj, if_neg hj, if_neg hne]
  | boxed cells => exact hs.elim

theorem IsColumn.get?_put_self (hi : index < size) (x : Scalar) :
    (s.put index (.scalar x)).get? index = some (.scalar (x.cast kind)) := by
  rw [hs.get?_put hi, if_pos rfl]

theorem IsColumn.get?_put_of_ne (hi : index < size) (x : Scalar)
    {other : Nat} (hne : other ≠ index) : (s.put index (.scalar x)).get? other = s.get? other := by
  rw [hs.get?_put hi, if_neg hne]

end

/-! ### New columns -/

theorem select_ne_boxed (hmode : mode ≠ .object) : Backend.select kind mode ≠ .ok .boxed := by
  intro hb
  cases mode with
  | object => exact hmode rfl
  | nativeBuffers => cases hb
  | _ => simp only [Backend.select] at hb; split at hb <;> cases hb

theorem allocate_eq_ok (hmode : mode ≠ .object) {b : Backend}
    (hb : Backend.select kind mode = .ok b) (size : Nat) :
    ∃ s, allocate kind mode size = .ok s ∧ s.IsColumn kind mode size ∧
      ∀ i < size, s.get? i = some (.scalar (.zero kind)) := by
  cases b with
  | native =>
    refine ⟨zeroNative kind size, by rw [allocate, hb]; rfl, ⟨hb, rfl, by simp⟩, ?_⟩
    intro i hi
    simp [zeroNative, get?, hi]
  | bytes pinned =>
    refine ⟨zeroBytes kind pinned (size * kind.byteSize), by rw [allocate, hb]; rfl,
      ⟨hb, rfl, by simp⟩, ?_⟩
    intro i hi
    have hroom : (i + 1) * kind.byteSize
        ≤ (Array.replicate (size * kind.byteSize) (0 : UInt8)).size := by
      rw [Array.size_replicate]
      exact slot_le hi
    have hslot : slot kind (Array.replicate (size * kind.byteSize) 0) i
        = List.replicate kind.byteSize 0 := by
      apply List.ext_getElem?
      intro n
      rw [Array.size_replicate, Nat.succ_mul] at hroom
      rw [getElem?_slot _ _ _ _ (by rwa [Array.size_replicate, Nat.succ_mul]),
        List.getElem?_replicate, Array.getElem?_replicate]
      by_cases hn : n < kind.byteSize
      · rw [if_pos hn, if_pos hn, if_pos (by omega)]
      · rw [if_neg hn, if_neg hn]
    simp only [zeroBytes, get?, hroom, if_true, hslot, Scalar.ofBytes_replicate_zero]
  | boxed => exact absurd hb (select_ne_boxed hmode)

end Storage

end Kernelwright
