import Kernelwright.Proofs.Storage.Column

/-!
# Leaves

The column at a leaf of an array has a kind, a backend that follows from the kind and the mode, and
a number of elements. Nothing that is done to a column changes them but allocating it anew, which
gives it another number of elements. Below that number every element can be read and stored.
-/

namespace Kernelwright.Storage

variable {kind : ScalarKind} {mode : StorageMode} {size i : Nat} {s s' : Storage}
variable {pinned : Bool} {data : Array UInt8}

/-- The storage of a leaf: `size` elements in the backend that the mode selects for the kind. What a
device is given of it, if anything, is of that kind and just as long. -/
structure IsLeaf (kind : ScalarKind) (mode : StorageMode) (size : Nat) (s : Storage) : Prop where
  length : s.length = size
  backend : Backend.select kind mode = .ok s.backend
  view : ∀ v, s.view? = some v → v.kind = kind ∧ v.byteLength = size * kind.byteSize

theorem length_bytes (h : data.size = size * kind.byteSize) :
    (bytes kind pinned data).length = size := by
  simp only [length, h]
  exact Nat.mul_div_cancel size kind.byteSize_pos

theorem isLeaf_zeroNative (h : Backend.select kind mode = .ok .native) (size : Nat) :
    (zeroNative kind size).IsLeaf kind mode size := by
  refine ⟨by simp [zeroNative, Storage.length], h, ?_⟩
  rintro v ⟨⟩
  simp [BufferView.kind, BufferView.byteLength]

theorem isLeaf_zeroBytes (h : Backend.select kind mode = .ok (.bytes pinned)) (size : Nat) :
    (zeroBytes kind pinned (size * kind.byteSize)).IsLeaf kind mode size := by
  refine ⟨length_bytes (by simp), h, ?_⟩
  rintro v ⟨⟩
  simp [BufferView.kind, BufferView.byteLength]

theorem isLeaf_boxed (h : Backend.select kind mode = .ok .boxed) {cells : Array Value}
    (hsize : cells.size = size) : (boxed cells).IsLeaf kind mode size :=
  ⟨hsize, h, nofun⟩

theorem IsLeaf.of_allocate (h : allocate kind mode size = .ok s) : s.IsLeaf kind mode size := by
  unfold allocate at h
  cases hb : Backend.select kind mode with
  | error e =>
    rw [hb] at h
    cases h
  | ok b =>
    rw [hb] at h
    cases b <;> cases h
    · exact isLeaf_zeroNative hb size
    · exact isLeaf_zeroBytes hb size
    · exact isLeaf_boxed hb (by simp)

theorem length_put (s : Storage) (i : Nat) (v : Value) : (s.put i v).length = s.length := by
  cases s with
  | boxed cells => simp [put, length]
  | native | bytes => cases v <;> simp [put, length]

theorem backend_put (s : Storage) (i : Nat) (v : Value) : (s.put i v).backend = s.backend := by
  cases s with
  | boxed cells => rfl
  | native | bytes => cases v <;> rfl

theorem IsLeaf.put (h : s.IsLeaf kind mode size) (i : Nat) (v : Value) :
    (s.put i v).IsLeaf kind mode size := by
  refine ⟨by rw [length_put, h.length], by rw [backend_put, h.backend], ?_⟩
  intro w hw
  cases s with
  | boxed cells => cases hw
  | native | bytes =>
    have hview := h.view _ rfl
    cases v with
    | tuple vs =>
      cases hw
      exact hview
    | scalar x =>
      cases hw
      simpa [BufferView.kind, BufferView.byteLength] using hview

theorem IsLeaf.reallocate (h : s.IsLeaf kind mode size) (length : Nat) :
    (s.reallocate length).IsLeaf kind mode length := by
  cases s with
  | boxed cells => exact isLeaf_boxed h.backend (by simp)
  | native k cells =>
    obtain ⟨rfl, -⟩ := h.view _ rfl
    exact isLeaf_zeroNative h.backend length
  | bytes k pinned data =>
    obtain ⟨rfl, -⟩ := h.view _ rfl
    exact isLeaf_zeroBytes h.backend length

theorem IsLeaf.replace (h : s.IsLeaf kind mode size) {buffer : DeviceBuffer}
    (hword : ∀ pinned, Backend.select kind mode = .ok (.bytes pinned) →
      size * kind.byteSize < UInt64.size)
    (hreplace : s.replace buffer size = .ok s') : s'.IsLeaf kind mode size := by
  cases s with
  | boxed cells => cases hreplace
  | native k cells =>
    obtain ⟨rfl, -⟩ := h.view _ rfl
    cases buffer with
    | bytes k' data => cases hreplace
    | native k' cells' =>
      simp only [Storage.replace] at hreplace
      split at hreplace
      · rename_i hfits
        obtain ⟨rfl, hsize⟩ := hfits
        cases hreplace
        refine ⟨hsize, h.backend, ?_⟩
        rintro v ⟨⟩
        exact ⟨rfl, by rw [BufferView.byteLength, hsize]; rfl⟩
      · cases hreplace
  | bytes k pinned data =>
    obtain ⟨rfl, -⟩ := h.view _ rfl
    cases buffer with
    | native k' cells' => cases hreplace
    | bytes k' data' =>
      simp only [Storage.replace] at hreplace
      split at hreplace
      · rename_i hfits
        obtain ⟨rfl, hsize⟩ := hfits
        replace hsize := hsize.trans (Memory.product_of_lt (hword _ h.backend))
        cases hreplace
        refine ⟨length_bytes hsize, h.backend, ?_⟩
        rintro v ⟨⟩
        exact ⟨rfl, hsize⟩
      · cases hreplace

/-! ### Access to a column -/

theorem slot_le_of_lt_length (h : i < (bytes kind pinned data).length) :
    (i + 1) * kind.byteSize ≤ data.size :=
  (Nat.le_div_iff_mul_le kind.byteSize_pos).1 h

theorem get?_isSome (h : i < s.length) : (s.get? i).isSome := by
  cases s with
  | native | boxed => simpa [get?, length] using h
  | bytes k pinned data => simp [get?, slot_le_of_lt_length h]

theorem accepts_of_lt (h : i < s.length) (v : Value) : s.accepts i v = true := by
  cases s with
  | native k cells => simp [accepts, show i < cells.size from h]
  | boxed cells => simpa [accepts, length] using h
  | bytes k pinned data => simpa [accepts] using slot_le_of_lt_length h

end Kernelwright.Storage
