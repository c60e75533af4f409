import Kernelwright.Proofs.PortableArray.Refusals
import Kernelwright.Proofs.PortableArray.Windows

/-!
# Buffers of devices

In the modes that store bytes a device is given the bytes of a field, and may give others back.
Scalars and their bytes determine each other, boolean values apart, which these modes do not store.
So the bytes of a field are those of its elements in order, and a field that takes a buffer over
holds just what the buffer says. How many bytes it takes is counted in words; a field that is too
long for that takes fewer.
-/

namespace Kernelwright

variable {data : Array UInt8} {pinned : Bool}

/-! ### Bytes and numbers -/

theorem ofLittleEndian_lt (bs : List UInt8) : ofLittleEndian bs < Nat.pow 256 bs.length := by
  induction bs with
  | nil => exact Nat.one_pos
  | cons b bs ih =>
    have hwider : Nat.pow 256 (bs.length + 1) = 256 * Nat.pow 256 bs.length := Nat.mul_comm _ _
    have hb := b.toNat_lt
    rw [ofLittleEndian, List.length_cons, hwider]
    omega

theorem littleEndian_ofLittleEndian (bs : List UInt8) :
    littleEndian bs.length (ofLittleEndian bs) = bs := by
  induction bs with
  | nil => rfl
  | cons b bs ih =>
    have hb := b.toNat_lt
    have hrest : (b.toNat + 256 * ofLittleEndian bs) / 256 = ofLittleEndian bs := by omega
    have hfirst : UInt8.ofNat (b.toNat + 256 * ofLittleEndian bs) = b := by
      apply UInt8.toNat_inj.1
      rw [UInt8.toNat_ofNat']
      omega
    rw [ofLittleEndian, List.length_cons, littleEndian, hrest, hfirst, ih]

namespace Scalar

variable {k : ScalarKind}

theorem pattern_ofPattern (hk : k ≠ .boolean) {n : Nat} (h : n < Nat.pow 256 k.byteSize) :
    (ofPattern k n).pattern = n := by
  cases k with
  | boolean => exact absurd rfl hk
  | _ => simpa [ofPattern, pattern, ScalarKind.byteSize] using h

theorem toBytes_ofBytes (hk : k ≠ .boolean) {bs : List UInt8} (h : bs.length = k.byteSize) :
    (ofBytes k bs).toBytes = bs := by
  rw [toBytes, ofBytes, kind_ofPattern, pattern_ofPattern hk (h ▸ ofLittleEndian_lt bs), ← h,
    littleEndian_ofLittleEndian]

end Scalar

/-- The mode stores bytes. -/
def StorageMode.StoresBytes (mode : StorageMode) : Prop := mode ≠ .object ∧ mode ≠ .nativeBuffers

namespace Storage

variable {kind : ScalarKind} {mode : StorageMode} {size : Nat} {s : Storage}

theorem slot_eq (kind : ScalarKind) (data : Array UInt8) (i : Nat) :
    slot kind data i = (data.toList.drop (i * kind.byteSize)).take kind.byteSize := by
  rw [slot, Array.toList_extract, List.extract_eq_take_drop, Nat.succ_mul, Nat.add_sub_cancel_left]

/-- The scalars whose bytes stand one after the other. -/
def scalars (kind : ScalarKind) (data : Array UInt8) (size : Nat) : List Scalar :=
  (List.range size).map fun i => .ofBytes kind (slot kind data i)

theorem flatMap_scalars (hkind : kind ≠ .boolean) (hdata : data.size = size * kind.byteSize) :
    (scalars kind data size).flatMap Scalar.toBytes = data.toList := by
  have hslots : (scalars kind data size).flatMap Scalar.toBytes =
      ((List.range size).map fun i => slot kind data i).flatten := by
    rw [scalars, List.flatMap_def, List.map_map]
    congr 1
    refine List.map_congr_left fun i hi => Scalar.toBytes_ofBytes hkind ?_
    have hroom : (i + 1) * kind.byteSize ≤ size * kind.byteSize := slot_le (List.mem_range.1 hi)
    rw [Nat.succ_mul] at hroom
    rw [slot_eq, List.length_take, List.length_drop, Array.length_toList, hdata]
    omega
  have hside : Contiguous (size * kind.byteSize) (0 * kind.byteSize)
      ((List.range size).map fun i => (i * kind.byteSize, kind.byteSize)) :=
    contiguous_of_edges (e := (· * kind.byteSize)) fun i _ => ⟨rfl, (Nat.succ_mul i _).symm⟩
  have hwhole := hside.flatten data.toList
  rw [List.map_map, Nat.zero_mul, Nat.sub_zero, List.drop_zero, ← hdata, ← Array.length_toList,
    List.take_length] at hwhole
  rw [hslots, ← hwhole]
  simp only [slot_eq, Function.comp_def]

theorem get?_bytes (hdata : data.size = size * kind.byteSize) (i : Nat) :
    (bytes kind pinned data).get? i = (scalars kind data size)[i]?.map .scalar := by
  rw [get?, scalars, List.getElem?_map, hdata]
  by_cases hi : i < size
  · rw [if_pos (slot_le hi), List.getElem?_range hi]
    rfl
  · have hout : ¬ (i + 1) * kind.byteSize ≤ size * kind.byteSize :=
      fun hle => hi (Nat.le_of_mul_le_mul_right hle kind.byteSize_pos)
    rw [if_neg hout, List.getElem?_eq_none (by simpa using hi)]
    rfl

theorem IsLeaf.bytes (h : s.IsLeaf kind mode size) (hmode : mode.StoresBytes) :
    kind ≠ .boolean ∧ ∃ data, s = .bytes kind mode.isPinned data ∧
      data.size = size * kind.byteSize := by
  have hselect : kind ≠ .boolean ∧ s.backend = .bytes mode.isPinned := by
    have hbackend := h.backend
    unfold Backend.select at hbackend
    split at hbackend
    · exact absurd rfl hmode.1
    · exact absurd rfl hmode.2
    · split at hbackend
      · cases hbackend
      · exact ⟨‹_›, (Except.ok.inj hbackend).symm⟩
  refine ⟨hselect.1, ?_⟩
  cases s with
  | native k cells => cases hselect.2
  | boxed cells => cases hselect.2
  | bytes k pinned data =>
    obtain ⟨rfl, hsize⟩ := h.view _ rfl
    cases hselect.2
    exact ⟨data, rfl, hsize⟩

end Storage

/-! ### Fields -/

/-- The kind of a field that is a scalar; a scalar type is its own field zero. -/
def ElementType.fieldKind? : ElementType → Nat → Option ScalarKind
  | scalar k, field => if field = 0 then some k else none
  | record ts, field => ts[field]?.bind ElementType.scalarKind?

namespace PortableArray

variable {mode : StorageMode} {t : ElementType} {k : ScalarKind} {a : PortableArray} {field : Nat}
  {h : ArrayHeader} {s : Storage}

/-- A field reads as scalars: there is one at each index below their number, and nothing else. -/
def FieldReads (a : PortableArray) (field : Nat) (xs : List Scalar) : Prop :=
  ∃ c, a.fieldArray? field = some c ∧ ∀ i, get? i c = xs[i]?.map .scalar

theorem header_setStorage (a : PortableArray) (field : Nat) (s : Storage) :
    (a.setStorage field s).header = a.header := by
  cases a <;> rfl

theorem fieldArray?_setStorage (hfield : a.fieldArray? field = some (flat h s)) (s' : Storage)
    (other : Nat) : (a.setStorage field s').fieldArray? other =
      if other = field then some (flat h s') else a.fieldArray? other := by
  cases a with
  | flat hd s₀ =>
    by_cases hzero : field = 0
    · subst hzero
      cases hfield
      simp only [setStorage, fieldArray?]
      split <;> rfl
    · rw [fieldArray?, if_neg hzero] at hfield
      cases hfield
  | fields hd cs =>
    rw [fieldArray?] at hfield
    simp only [setStorage, fieldArray?, List.getElem?_modify]
    by_cases hother : field = other
    · subst hother
      simp [hfield]
    · simp [hother, Ne.symm hother]

theorem LaidAll.getElem? : {ts : List ElementType} → {cs : List PortableArray} →
    LaidAll mode ts cs → {i : Nat} → ts[i]? = some t → ∃ c, cs[i]? = some c ∧ Laid mode t c
  | _ :: _, c :: _, h, 0, ht => by
    cases ht
    exact ⟨c, rfl, h.1⟩
  | _ :: _, _ :: _, h, i + 1, ht => by simpa using h.2.getElem? (i := i) (by simpa using ht)
  | [], [], _, _, ht => by simp at ht
  | [], _ :: _, h, _, _ => h.elim
  | _ :: _, [], h, _, _ => h.elim

theorem Laid.fieldArray? (ha : Laid mode t a) (hmode : mode ≠ .object)
    (hkind : t.fieldKind? field = some k) :
    ∃ h s, a.fieldArray? field = some (flat h s) ∧ ∃ size, s.IsLeaf k mode size := by
  cases t with
  | scalar k' =>
    simp only [ElementType.fieldKind?, Option.ite_none_right_eq_some, Option.some.injEq] at hkind
    obtain ⟨rfl, rfl⟩ := hkind
    cases a with
    | flat h s => exact ⟨h, s, rfl, ha.2⟩
    | fields h cs => exact ha.elim
  | record ts =>
    cases a with
    | flat h s => exact absurd ha.1 hmode
    | fields hd cs =>
      obtain ⟨u, hu, hscalar⟩ := Option.bind_eq_some_iff.1 hkind
      obtain ⟨c, hc, hlaid⟩ := ha.2.getElem? hu
      cases u with
      | record us => cases hscalar
      | scalar k' =>
        cases hscalar
        cases c with
        | flat h s => exact ⟨h, s, hc, hlaid.2⟩
        | fields h cs' => exact hlaid.elim

/-! ### Buffers -/

theorem fieldReads_bytes {size : Nat}
    (hfield : a.fieldArray? field = some (flat h (.bytes k pinned data)))
    (hdata : data.size = size * k.byteSize) :
    FieldReads a field (Storage.scalars k data size) ∧
      a.bufferView field = .ok (.bytes k pinned data) := by
  refine ⟨⟨_, hfield, fun i => ?_⟩, ?_⟩
  · rw [get?, Storage.get?_bytes hdata]
  · rw [bufferView, fieldStorage_eq_ok.2 ⟨h, hfield⟩]
    rfl

theorem setBuffer_bytes (hfield : a.fieldArray? field = some (flat h (.bytes k pinned data)))
    (buffer : DeviceBuffer) :
    (∃ data', buffer = .bytes k data' ∧ data'.size = Memory.product a.size k.byteSize ∧
      a.setBuffer field buffer = .ok (a.setStorage field (.bytes k pinned data'))) ∨
    (¬ ∃ data', buffer = .bytes k data' ∧ data'.size = Memory.product a.size k.byteSize) ∧
      ∃ e, a.setBuffer field buffer = .error e := by
  rw [setBuffer, fieldStorage_eq_ok.2 ⟨h, hfield⟩]
  cases buffer with
  | native k' cells => exact .inr ⟨by simp, _, rfl⟩
  | bytes k' data' =>
    by_cases hfits : k = k' ∧ data'.size = Memory.product a.size k'.byteSize
    · obtain ⟨rfl, hsize⟩ := hfits
      refine .inl ⟨data', rfl, hsize, ?_⟩
      simp [Storage.replace, hsize, bind, Except.bind, pure, Except.pure]
    · refine .inr ⟨?_, _, by simp only [Storage.replace, if_neg hfits, bind, Except.bind]; rfl⟩
      rintro ⟨d, hd, hsize⟩
      cases hd
      exact hfits ⟨rfl, hsize⟩

/-- Also the remainder is bytes of whole elements. -/
theorem byteSize_dvd_product (n : Nat) (k : ScalarKind) :
    k.byteSize ∣ Memory.product n k.byteSize :=
  (Nat.dvd_mod_iff (by cases k <;> decide)).2 (Nat.dvd_mul_left _ _)

end PortableArray

end Kernelwright
