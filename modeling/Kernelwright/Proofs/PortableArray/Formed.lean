import Kernelwright.Bounded
import Kernelwright.Proofs.Steps
import Kernelwright.Proofs.Storage.Leaf

/-!
# Well-formed arrays

An array is a tree of columns that has to follow the tree of its type. `Formed` says so: every level
has the size, the mode and the sequence mark of the level above it, and every column at a leaf has
as many elements as the array. No call takes an array out of this state, whether it is refused or
not.

A new array is in this state if the bytes of each of its columns can be counted in words. Otherwise
a column has fewer elements than the array.
-/

namespace Kernelwright

def ArrayHeader.Says (h : ArrayHeader) (type : ElementType) (mode : StorageMode) (size : Nat)
    (sequence : Bool) : Prop :=
  h.type = type ∧ h.mode = mode ∧ h.size = size ∧ h.marks.sequence = sequence

namespace PortableArray

variable {vs : List Value} {field : Nat} {s : Storage}

mutual

/-- The array follows the type: one array a field at every record, but for records stored as whole
values, and a column at every leaf. All levels have the same mode, size and sequence mark. -/
def Formed (mode : StorageMode) (size : Nat) (sequence : Bool) : ElementType → PortableArray → Prop
  | .scalar k, flat h s => h.Says (.scalar k) mode size sequence ∧ s.IsLeaf k mode size
  | .record ts, flat h s =>
    mode = .object ∧ h.Says (.record ts) mode size sequence ∧ s.backend = .boxed ∧ s.length = size
  | .record ts, fields h cs =>
    mode ≠ .object ∧ h.Says (.record ts) mode size sequence ∧ FormedAll mode size sequence ts cs
  | .scalar _, fields .. => False

/-- The arrays follow the types, position by position. -/
def FormedAll (mode : StorageMode) (size : Nat) (sequence : Bool) :
    List ElementType → List PortableArray → Prop
  | [], [] => True
  | t :: ts, c :: cs => Formed mode size sequence t c ∧ FormedAll mode size sequence ts cs
  | _, _ => False

end

/-- The bytes of each column that stores bytes can be counted in words. -/
def InWords (mode : StorageMode) (size : Nat) (t : ElementType) : Prop :=
  ∀ k ∈ Bounded.kinds t, ∀ pinned, Backend.select k mode = .ok (.bytes pinned) →
    size * k.byteSize < UInt64.size

/-- An array of a type in a mode is well-formed: it is formed in its own size and mark, its bytes
can be counted, and a sequence has its three elements. -/
structure WellFormed (t : ElementType) (mode : StorageMode) (a : PortableArray) : Prop where
  formed : Formed mode a.size a.isSequence t a
  words : InWords mode a.size t
  slots : a.isSequence = true → a.size = sequenceSlots

variable {mode : StorageMode} {size : Nat} {sequence : Bool} {t : ElementType} {a b : PortableArray}

theorem Formed.header (h : Formed mode size sequence t a) : a.header.Says t mode size sequence := by
  cases t <;> cases a
  · exact h.1
  · exact h.elim
  · exact h.2.1
  · exact h.2.1

theorem Formed.wellFormed (h : Formed mode size sequence t a) (hwords : InWords mode size t)
    (hslots : sequence = true → size = sequenceSlots) : WellFormed t mode a := by
  obtain ⟨-, -, hsize, hsequence⟩ := h.header
  refine ⟨?_, ?_, ?_⟩
  · rw [isSequence, PortableArray.size, marks, hsize, hsequence]
    exact h
  · rw [PortableArray.size, hsize]
    exact hwords
  · rw [isSequence, PortableArray.size, marks, hsize, hsequence]
    exact hslots

theorem mem_kindsAll {k : ScalarKind} {ts : List ElementType} (ht : t ∈ ts)
    (hk : k ∈ Bounded.kinds t) :
    k ∈ Bounded.kindsAll ts := by
  induction ts with
  | nil => cases ht
  | cons u ts ih =>
    rw [Bounded.kindsAll, List.mem_append]
    obtain rfl | ht := List.mem_cons.1 ht
    · exact .inl hk
    · exact .inr (ih ht)

/-- Small arrays are counted in words: no kind has more than eight bytes. -/
theorem inWords_of_lt (h : size * 8 < UInt64.size) : InWords mode size t := by
  intro k _ _ _
  exact Nat.lt_of_le_of_lt (Nat.mul_le_mul_left size (by cases k <;> decide)) h

theorem FormedAll.getElem? : {ts : List ElementType} → {cs : List PortableArray} →
    FormedAll mode size sequence ts cs → ∀ {i : Nat} {c : PortableArray}, cs[i]? = some c →
      ∃ t, Formed mode size sequence t c
  | [], [], _, _, _, hc => by simp at hc
  | t :: _, _ :: _, h, 0, _, hc => by
    cases hc
    exact ⟨t, h.1⟩
  | _ :: _, _ :: _, h, i + 1, _, hc => h.2.getElem? (i := i) (by simpa using hc)

theorem FormedAll.modify {f : PortableArray → PortableArray} : {ts : List ElementType} →
    {cs : List PortableArray} → FormedAll mode size sequence ts cs → (i : Nat) →
      (∀ t ∈ ts, ∀ c, cs[i]? = some c → Formed mode size sequence t c →
        Formed mode size sequence t (f c)) → FormedAll mode size sequence ts (cs.modify i f)
  | [], [], _, _, _ => by simp [FormedAll]
  | t :: _, c :: _, h, 0, hf => ⟨hf t (.head _) c rfl h.1, h.2⟩
  | _ :: _, _ :: _, h, i + 1, hf =>
    ⟨h.1, h.2.modify i fun t ht c hc => hf t (.tail _ ht) c (by simpa using hc)⟩

/-! ### New arrays -/

/-- What holds of columns and goes from fields to records holds of the arrays that are built. -/
theorem build_induction {ε : Type} {column : ElementType → Except ε Storage}
    {P : ElementType → PortableArray → Prop} {Q : List ElementType → List PortableArray → Prop}
    (hflat : ∀ t s, column t = .ok s → mode = .object ∨ (∃ k, t = .scalar k) →
      P t (flat (newHeader t mode size) s))
    (hfields : ∀ ts cs, mode ≠ .object → Q ts cs →
      P (.record ts) (fields (newHeader (.record ts) mode size) cs))
    (hnil : Q [] []) (hcons : ∀ t c ts cs, P t c → Q ts cs → Q (t :: ts) (c :: cs)) :
    (∀ t a, build column mode size t = .ok a → P t a) ∧
      ∀ ts cs, buildAll column mode size ts = .ok cs → Q ts cs := by
  apply build.mutual_induct mode
  case case1 =>
    intro k a h
    rw [build] at h
    obtain ⟨s, hs, ⟨⟩⟩ := bind_eq_ok.1 h
    exact hflat _ s hs (.inr ⟨k, rfl⟩)
  case case2 =>
    intro ts hmode a h
    rw [build, if_pos hmode] at h
    obtain ⟨s, hs, ⟨⟩⟩ := bind_eq_ok.1 h
    exact hflat _ s hs (.inl hmode)
  case case3 =>
    intro ts hmode ih a h
    rw [build, if_neg hmode] at h
    obtain ⟨cs, hcs, ⟨⟩⟩ := bind_eq_ok.1 h
    exact hfields ts cs hmode (ih cs hcs)
  case case4 =>
    rintro cs ⟨⟩
    exact hnil
  case case5 =>
    intro t ts iht ihts cs h
    rw [buildAll] at h
    obtain ⟨c, hc, h⟩ := bind_eq_ok.1 h
    obtain ⟨cs', hcs, ⟨⟩⟩ := bind_eq_ok.1 h
    exact hcons t c ts cs' (iht c hc) (ihts cs' hcs)

theorem build_formed (h : build (newColumn mode size) mode size t = .ok a) :
    Formed mode size false t a := by
  refine (build_induction (P := Formed mode size false) (Q := FormedAll mode size false)
    (fun t s hs hflat => ?_) (fun ts cs hmode hcs => ⟨hmode, ⟨rfl, rfl, rfl, rfl⟩, hcs⟩) trivial
    fun _ _ _ _ hc hcs => ⟨hc, hcs⟩).1 t a h
  cases t with
  | scalar k => exact ⟨⟨rfl, rfl, rfl, rfl⟩, .of_allocate (mapError_eq_ok.1 hs)⟩
  | record ts =>
    cases hs
    exact ⟨hflat.resolve_right nofun, ⟨rfl, rfl, rfl, rfl⟩, rfl, Array.size_replicate⟩

theorem construct_formed (h : construct size t mode true = .ok a) : Formed mode size false t a := by
  unfold construct at h
  split at h
  · exact build_formed h
  · cases h

/-! ### New arrays in memory -/

section Bounded

variable {length : Nat}

theorem within_eq_ok {ε α : Type} {count bytes : Nat} {r : Except ε α} {x : α}
    (h : Bounded.within count bytes (fun _ => r) = .ok x) : r = .ok x := by
  unfold Bounded.within at h
  split at h
  · cases r with
    | ok y =>
      cases h
      rfl
    | error e => cases h
  · cases h

/-- A column whose bytes are counted in words has all its elements. -/
theorem allocate_of_bounded {k : ScalarKind}
    (hword : ∀ pinned, Backend.select k mode = .ok (.bytes pinned) →
      length * k.byteSize < UInt64.size)
    (h : Bounded.allocate k mode length = .ok s) : Storage.allocate k mode length = .ok s := by
  unfold Bounded.allocate at h
  unfold Storage.allocate
  cases hb : Backend.select k mode with
  | error e =>
    rw [hb] at h
    cases h
  | ok b =>
    rw [hb] at h
    cases b with
    | native | boxed => exact within_eq_ok h
    | bytes pinned =>
      replace h := within_eq_ok h
      rwa [Memory.product_of_lt (hword pinned hb)] at h

/-- An array whose bytes are counted in words is made as in a memory without bounds. -/
theorem construct_of_bounded (hwords : InWords mode size t)
    (h : Bounded.construct size t mode true = .ok a) : construct size t mode true = .ok a := by
  unfold Bounded.construct at h
  unfold construct
  cases hvalid : t.validate with
  | error e =>
    rw [hvalid] at h
    cases h
  | ok u =>
    rw [hvalid] at h
    refine (build_induction
      (P := fun t a => InWords mode size t → build (newColumn mode size) mode size t = .ok a)
      (Q := fun ts cs => (∀ t ∈ ts, InWords mode size t) → buildAll (newColumn mode size) mode
        size ts = .ok cs)
      (fun t s hs hflat hwords => ?_) (fun ts cs hmode hcs hwords => ?_) (fun _ => rfl)
      fun t c ts cs hc hcs hwords => ?_).1 t a h hwords
    · cases t with
      | scalar k =>
        have hs := allocate_of_bounded (hwords k (by simp [Bounded.kinds])) (mapError_eq_ok.1 hs)
        rw [build, newColumn, hs]
        rfl
      | record ts =>
        cases within_eq_ok (mapError_eq_ok.1 hs)
        rw [build, if_pos (hflat.resolve_right nofun)]
        rfl
    · rw [build, if_neg hmode, hcs fun t ht k hk => hwords k (mem_kindsAll ht hk)]
      rfl
    · obtain ⟨ht, hts⟩ := List.forall_mem_cons.1 hwords
      rw [buildAll, hc ht, hcs hts]
      rfl

end Bounded

/-! ### Stores -/

theorem putFlat_error {h : ArrayHeader} {i : Nat} (hi : i < s.length) (v : Value) :
    (putFlat h s i v).2 = none := by
  rw [putFlat, if_pos (Storage.accepts_of_lt hi v)]

mutual

/-- A store keeps the form, also where it stops half-way. Below the size a value is refused only for
its shape. -/
theorem Formed.put_spec (i : Nat) (v : Value) : {t : ElementType} → {a : PortableArray} →
    Formed mode size sequence t a → Formed mode size sequence t (put i v a).1 ∧
      (i < size → (put i v a).2 ≠ some .indexOutOfRange)
  | .scalar k, flat h s, hform => by
    rw [PortableArray.put]
    split
    · refine ⟨?_, fun hi => by simp [putFlat_error (hform.2.length.symm ▸ hi)]⟩
      rw [putFlat]
      split
      · exact ⟨hform.1, hform.2.put i v⟩
      · exact hform
    · exact ⟨hform, by simp⟩
  | .record ts, flat h s, hform => by
    obtain ⟨hmode, hsays, hboxed, hlength⟩ := hform
    rw [PortableArray.put]
    split
    · refine ⟨?_, fun hi => by simp [putFlat_error (hlength.symm ▸ hi)]⟩
      rw [putFlat]
      split
      · exact ⟨hmode, hsays, by rw [Storage.backend_put, hboxed], by
          rw [Storage.length_put, hlength]⟩
      · exact ⟨hmode, hsays, hboxed, hlength⟩
    · exact ⟨⟨hmode, hsays, hboxed, hlength⟩, by simp⟩
  | .record ts, fields h cs, hform => by
    obtain ⟨hmode, hsays, hcs⟩ := hform
    cases v with
    | scalar x => exact ⟨⟨hmode, hsays, hcs⟩, by simp [PortableArray.put]⟩
    | tuple vs =>
      rw [PortableArray.put]
      split
      · obtain ⟨hcs, hinside⟩ := hcs.putAll_spec i vs
        exact ⟨⟨hmode, hsays, hcs⟩, hinside⟩
      · exact ⟨⟨hmode, hsays, hcs⟩, by simp⟩
  | .scalar _, fields _ _, hform => hform.elim

theorem FormedAll.putAll_spec (i : Nat) : (vs : List Value) → {ts : List ElementType} →
    {cs : List PortableArray} → FormedAll mode size sequence ts cs →
      FormedAll mode size sequence ts (putAll i vs cs).1 ∧
        (i < size → (putAll i vs cs).2 ≠ some .indexOutOfRange)
  | [], _, _, hform => by simp [PortableArray.putAll, hform]
  | _ :: _, [], [], _ => ⟨trivial, by simp [PortableArray.putAll]⟩
  | v :: vs, t :: ts, c :: cs, hform => by
    rw [PortableArray.putAll]
    have hfirst := hform.1.put_spec i v
    split
    · rename_i hput
      rw [hput] at hfirst
      exact ⟨⟨hfirst.1, hform.2⟩, hfirst.2⟩
    · rename_i hput
      rw [hput] at hfirst
      obtain ⟨hcs, hinside⟩ := hform.2.putAll_spec i vs
      exact ⟨⟨hfirst.1, hcs⟩, hinside⟩
  | _, [], _ :: _, hform => hform.elim
  | _, _ :: _, [], hform => hform.elim

end

/-- What holds of a new array and is kept by every store holds of an array of values. -/
theorem ofValues_keeps {P : PortableArray → Prop}
    (hnew : ∀ a, construct vs.length t mode true = .ok a → P a)
    (hput : ∀ i v a, P a → P (put i v a).1) (h : ofValues t mode vs = .ok b) : P b := by
  have hfrom {i : Nat} {a : PortableArray} (ha : P a) (hb : putFrom i a vs = .ok b) : P b := by
    clear hnew h
    induction vs generalizing a i with
    | nil =>
      cases hb
      exact ha
    | cons v vs ih =>
      have hfirst := hput i v a ha
      rw [putFrom] at hb
      split at hb
      · rename_i hv
        rw [hv] at hfirst
        exact ih hfirst hb
      · cases hb
  obtain ⟨a, ha, hb⟩ := bind_eq_ok.1 h
  exact hfrom (hnew a ha) hb

theorem ofValues_formed (h : ofValues t mode vs = .ok a) : Formed mode vs.length false t a :=
  ofValues_keeps (fun _ => construct_formed) (fun i v _ ha => (ha.put_spec i v).1) h

/-! ### Marks -/

section Marks

variable {f : SequenceMarks → SequenceMarks}

mutual

theorem Formed.updateMarks (hf : ∀ m, (f m).sequence = m.sequence) : {t : ElementType} →
    {a : PortableArray} → Formed mode size sequence t a →
      Formed mode size sequence t (updateMarks f a)
  | .scalar k, flat h s, hform => by
    obtain ⟨⟨htype, hmode, hsize, hseq⟩, hs⟩ := hform
    exact ⟨⟨htype, hmode, hsize, by rw [hf, hseq]⟩, hs⟩
  | .record ts, flat h s, hform => by
    obtain ⟨hobject, ⟨htype, hmode, hsize, hseq⟩, hs⟩ := hform
    exact ⟨hobject, ⟨htype, hmode, hsize, by rw [hf, hseq]⟩, hs⟩
  | .record ts, fields h cs, hform => by
    obtain ⟨hobject, ⟨htype, hmode, hsize, hseq⟩, hcs⟩ := hform
    exact ⟨hobject, ⟨htype, hmode, hsize, by rw [hf, hseq]⟩, hcs.updateMarksAll hf⟩
  | .scalar _, fields _ _, hform => hform.elim

theorem FormedAll.updateMarksAll (hf : ∀ m, (f m).sequence = m.sequence) :
    {ts : List ElementType} → {cs : List PortableArray} → FormedAll mode size sequence ts cs →
      FormedAll mode size sequence ts (updateMarksAll f cs)
  | [], [], _ => trivial
  | _ :: _, _ :: _, hform => ⟨hform.1.updateMarks hf, hform.2.updateMarksAll hf⟩
  | [], _ :: _, hform => hform.elim
  | _ :: _, [], hform => hform.elim

end

theorem Formed.updateFieldMarks (hf : ∀ m, (f m).sequence = m.sequence)
    (hform : Formed mode size sequence t a) (h : updateFieldMarks f field a = .ok b) :
    Formed mode size sequence t b := by
  cases a with
  | flat hd s =>
    simp only [PortableArray.updateFieldMarks] at h
    split at h
    · cases h
      exact hform.updateMarks hf
    · cases h
  | fields hd cs =>
    simp only [PortableArray.updateFieldMarks] at h
    split at h
    · cases h
      cases t with
      | scalar k => exact hform.elim
      | record ts =>
        obtain ⟨hobject, hsays, hcs⟩ := hform
        exact ⟨hobject, hsays, hcs.modify field fun _ _ _ _ hc => hc.updateMarks hf⟩
    · cases h

end Marks

theorem Formed.setTotal (hform : Formed mode size sequence t a) (total : Nat) :
    Formed mode size sequence t (a.setTotal total) := by
  cases t <;> cases a <;> exact hform

/-! ### Buffers -/

/-- A buffer replaces the storage of a field, but not storage of whole values. -/
theorem setBuffer_eq_ok {buffer : DeviceBuffer} (h : a.setBuffer field buffer = .ok b) :
    ∃ s s', a.fieldStorage field = .ok s ∧ s.backend ≠ .boxed ∧
      s.replace buffer a.header.size = .ok s' ∧ b = a.setStorage field s' := by
  obtain ⟨s, hs, h⟩ := bind_eq_ok.1 h
  cases s with
  | boxed cells => cases h
  | native | bytes =>
    obtain ⟨s', hs', hb⟩ := bind_eq_ok.1 h
    cases hb
    exact ⟨_, s', hs, nofun, hs', rfl⟩

/-- A storage that is read of a field may be replaced by another of its kind, mode and size. -/
theorem Formed.setBuffer (hform : Formed mode size sequence t a) (hwords : InWords mode size t)
    {buffer : DeviceBuffer} (h : a.setBuffer field buffer = .ok b) :
    Formed mode size sequence t b := by
  obtain ⟨s, s', hs, hbacked, hs', rfl⟩ := setBuffer_eq_ok h
  rw [hform.header.2.2.1] at hs'
  cases a with
  | flat hd s₀ =>
    simp only [fieldStorage] at hs
    split at hs
    · cases hs
      cases t with
      | scalar k => exact ⟨hform.1, hform.2.replace (hwords k (by simp [Bounded.kinds])) hs'⟩
      | record ts => exact absurd hform.2.2.1 hbacked
    · cases hs
  | fields hd cs =>
    cases t with
    | scalar k => exact hform.elim
    | record ts =>
      obtain ⟨hobject, hsays, hcs⟩ := hform
      refine ⟨hobject, hsays, hcs.modify field fun t' ht c hc hc' => ?_⟩
      simp only [fieldStorage, hc] at hs
      cases c with
      | fields hd' cs' => cases hs
      | flat hd' s₁ =>
        cases hs
        cases t' with
        | scalar k =>
          exact ⟨hc'.1, hc'.2.replace (hwords k (mem_kindsAll ht (by simp [Bounded.kinds]))) hs'⟩
        | record ts' => exact absurd hc'.2.2.1 hbacked

/-! ### Sequences -/

mutual

theorem Formed.encode : {t : ElementType} → {a b : PortableArray} → {start stride bound : Value} →
    Formed mode size sequence t a → encode start stride bound a = .ok b →
      Formed mode sequenceSlots true t b
  | .scalar k, flat h s, b, _, _, _, hform, hb => by
    obtain ⟨⟨htype, hmode, hsize, hseq⟩, hs⟩ := hform
    rw [PortableArray.encode, htype] at hb
    split at hb
    · cases hb
    · cases hb
      exact ⟨⟨htype, hmode, rfl, rfl⟩, (((hs.reallocate sequenceSlots).put 0 _).put 1 _).put 2 _⟩
    · cases hb
  | .record ts, flat h s, b, _, _, _, hform, hb => by
    obtain ⟨-, ⟨htype, -⟩, -⟩ := hform
    rw [PortableArray.encode, htype] at hb
    cases hb
  | .record ts, fields h cs, b, _, _, _, hform, hb => by
    obtain ⟨hobject, ⟨htype, hmode, hsize, hseq⟩, hcs⟩ := hform
    rw [PortableArray.encode] at hb
    split at hb
    · rename_i hds
      cases hb
      exact ⟨hobject, ⟨htype, hmode, rfl, rfl⟩, hcs.encodeAll hds⟩
    · cases hb
  | .scalar _, fields _ _, _, _, _, _, hform, _ => hform.elim

theorem FormedAll.encodeAll : {ts : List ElementType} → {cs ds : List PortableArray} →
    {type : ElementType} → {start stride bound : Value} → {field : Nat} →
    FormedAll mode size sequence ts cs → encodeAll type start stride bound field cs = .ok ds →
      FormedAll mode sequenceSlots true ts ds
  | [], [], ds, _, _, _, _, _, _, hds => by
    cases hds
    trivial
  | t :: ts, c :: cs, ds, _, _, _, _, _, hform, hds => by
    rw [PortableArray.encodeAll] at hds
    obtain ⟨_, -, hds⟩ := bind_eq_ok.1 hds
    obtain ⟨_, -, hds⟩ := bind_eq_ok.1 hds
    obtain ⟨_, -, hds⟩ := bind_eq_ok.1 hds
    obtain ⟨d, hd, hds⟩ := bind_eq_ok.1 hds
    obtain ⟨ds', hds', hds⟩ := bind_eq_ok.1 hds
    cases hds
    exact ⟨hform.1.encode hd, hform.2.encodeAll hds'⟩
  | [], _ :: _, _, _, _, _, _, _, hform, _ => hform.elim
  | _ :: _, [], _, _, _, _, _, _, hform, _ => hform.elim

end

/-! ### Access -/

theorem exists_slots (h : s.length = sequenceSlots) :
    ∃ start stride bound, s.get? 0 = some start ∧ s.get? 1 = some stride ∧
      s.get? 2 = some bound := by
  have hread {n : Nat} (hn : n < 3) : ∃ v, s.get? n = some v :=
    Option.isSome_iff_exists.1 (Storage.get?_isSome (h.symm ▸ hn))
  obtain ⟨start, hstart⟩ := hread (n := 0) (by decide)
  obtain ⟨stride, hstride⟩ := hread (n := 1) (by decide)
  obtain ⟨bound, hbound⟩ := hread (n := 2) (by decide)
  exact ⟨start, stride, bound, hstart, hstride, hbound⟩

theorem decodeFlat?_isSome (h : s.length = sequenceSlots) (marks : SequenceMarks) (i : Nat) :
    (decodeFlat? marks s i).isSome := by
  obtain ⟨start, stride, bound, hstart, hstride, hbound⟩ := exists_slots h
  simp [decodeFlat?, hstart, hstride, hbound]

theorem progression?_isSome (h : s.length = sequenceSlots) (marks : SequenceMarks) :
    (progression? marks s).isSome := by
  obtain ⟨start, stride, bound, hstart, hstride, hbound⟩ := exists_slots h
  simp [progression?, hstart, hstride, hbound]

theorem flat_access {h : ArrayHeader} (i : Nat) (hmark : h.marks.sequence = sequence)
    (hlength : s.length = size) : (i < size → (get? i (flat h s)).isSome) ∧
      (sequence = true → size = sequenceSlots →
        (decode? i (flat h s)).isSome ∧ (progressions? (flat h s)).isSome) := by
  refine ⟨fun hi => Storage.get?_isSome (hlength.symm ▸ hi), fun hsequence hsize => ?_⟩
  rw [decode?, progressions?, if_pos (hmark.trans hsequence), if_pos (hmark.trans hsequence),
    Option.isSome_map]
  exact ⟨decodeFlat?_isSome (hlength.trans hsize) h.marks i,
    progression?_isSome (hlength.trans hsize) h.marks⟩

mutual

/-- Below the size every element can be read. A sequence can be decoded at every index, and has a
progression at every leaf. -/
theorem Formed.access (i : Nat) : {t : ElementType} → {a : PortableArray} →
    Formed mode size sequence t a → (i < size → (get? i a).isSome) ∧
      (sequence = true → size = sequenceSlots → (decode? i a).isSome ∧ (progressions? a).isSome)
  | .scalar k, flat h s, hform => flat_access i hform.1.2.2.2 hform.2.length
  | .record ts, flat h s, hform => flat_access i hform.2.1.2.2.2 hform.2.2.2
  | .record ts, fields h cs, hform => by
    obtain ⟨hget, hdecode⟩ := hform.2.2.access i
    refine ⟨fun hi => by rw [get?, Option.isSome_map]; exact hget hi, fun hsequence hsize => ?_⟩
    rw [decode?, progressions?, if_pos (hform.2.1.2.2.2.trans hsequence),
      if_pos (hform.2.1.2.2.2.trans hsequence), Option.isSome_map]
    exact hdecode hsequence hsize
  | .scalar _, fields _ _, hform => hform.elim

theorem FormedAll.access (i : Nat) : {ts : List ElementType} → {cs : List PortableArray} →
    FormedAll mode size sequence ts cs → (i < size → (getAll? i cs).isSome) ∧
      (sequence = true → size = sequenceSlots → (decodeAll? i cs).isSome ∧
        (progressionsAll? cs).isSome)
  | [], [], _ => ⟨fun _ => rfl, fun _ _ => ⟨rfl, rfl⟩⟩
  | _ :: _, c :: cs, hform => by
    simp only [Option.isSome_iff_exists]
    obtain ⟨hget, hdecode⟩ := hform.1.access i
    obtain ⟨hgets, hdecodes⟩ := hform.2.access i
    simp only [Option.isSome_iff_exists] at hget hdecode hgets hdecodes
    refine ⟨fun hi => ?_, fun hsequence hsize => ?_⟩
    · obtain ⟨v, hv⟩ := hget hi
      obtain ⟨vs, hvs⟩ := hgets hi
      exact ⟨v :: vs, by rw [getAll?, hv, hvs]⟩
    · obtain ⟨⟨v, hv⟩, ps, hps⟩ := hdecode hsequence hsize
      obtain ⟨⟨vs, hvs⟩, qs, hqs⟩ := hdecodes hsequence hsize
      exact ⟨⟨v :: vs, by rw [decodeAll?, hv, hvs]⟩, ps ++ qs, by rw [progressionsAll?, hps, hqs]⟩
  | [], _ :: _, hform => hform.elim
  | _ :: _, [], hform => hform.elim

end

theorem decode?_of_not_isSequence (h : a.isSequence = false) (i : Nat) :
    decode? i a = get? i a := by
  cases a <;> rw [decode?, if_neg (by simpa [isSequence, marks, header] using h), get?]

/-- The array of a field; a column is its own field zero. -/
def fieldArray? : PortableArray → Nat → Option PortableArray
  | flat h s, field => if field = 0 then some (flat h s) else none
  | fields _ cs, field => cs[field]?

theorem fieldStorage_eq_ok :
    a.fieldStorage field = .ok s ↔ ∃ h, a.fieldArray? field = some (flat h s) := by
  cases a with
  | flat hd s' =>
    simp only [PortableArray.fieldStorage, fieldArray?]
    split <;> simp
  | fields hd cs =>
    simp only [PortableArray.fieldStorage, fieldArray?]
    split <;> simp_all

theorem Formed.fieldStorage (hform : Formed mode size sequence t a)
    (h : a.fieldStorage field = .ok s) :
    s.backend = .boxed ∨ ∃ k, s.IsLeaf k mode size := by
  obtain ⟨hd, hfield⟩ := fieldStorage_eq_ok.1 h
  obtain ⟨t', hc⟩ : ∃ t', Formed mode size sequence t' (flat hd s) := by
    cases a with
    | flat =>
      obtain ⟨-, hflat⟩ := Option.ite_none_right_eq_some.1 hfield
      exact ⟨t, Option.some.inj hflat ▸ hform⟩
    | fields =>
      cases t with
      | scalar k => exact hform.elim
      | record ts => exact hform.2.2.getElem? hfield
  cases t' with
  | scalar k => exact .inr ⟨k, hc.2⟩
  | record ts => exact .inl hc.2.2.1

/-- What can be done with an array without leaving a column: reading and storing below the size,
decoding a sequence, and handing a buffer to a device. -/
structure Safe (a : PortableArray) : Prop where
  get : ∀ i < a.size, (get? i a).isSome
  put : ∀ i < a.size, ∀ v, (put i v a).2 ≠ some .indexOutOfRange
  decode : ∀ i, a.isSequence = true ∨ i < a.size → (decode? i a).isSome
  layout : a.isSequence = true → a.sequenceLayout?.isSome
  view : ∀ field, a.bufferView field ≠ .error .indexOutOfRange ∧
    ∀ v, a.bufferView field = .ok v → v.byteLength = a.size * v.kind.byteSize

theorem fieldStorage_ne_indexOutOfRange (a : PortableArray) (field : Nat) :
    a.fieldStorage field ≠ .error .indexOutOfRange := by
  unfold PortableArray.fieldStorage
  split <;> split <;> simp

theorem WellFormed.safe (h : WellFormed t mode a) : Safe a := by
  have hform := h.formed
  refine ⟨fun i hi => (hform.access i).1 hi, fun i hi v => (hform.put_spec i v).2 hi, ?_, ?_,
    fun field => ⟨?_, ?_⟩⟩
  · intro i hi
    cases hseq : a.isSequence with
    | true => exact ((hform.access i).2 hseq (h.slots hseq)).1
    | false =>
      rw [decode?_of_not_isSequence hseq]
      exact (hform.access i).1 (by simpa [hseq] using hi)
  · intro hseq
    rw [sequenceLayout?, Option.isSome_map]
    exact ((hform.access 0).2 hseq (h.slots hseq)).2
  · unfold bufferView
    cases hs : a.fieldStorage field with
    | error e =>
      rintro ⟨⟩
      exact fieldStorage_ne_indexOutOfRange a field hs
    | ok s => cases s <;> nofun
  · intro v hv
    unfold bufferView at hv
    obtain ⟨s, hs, hv⟩ := bind_eq_ok.1 hv
    obtain hboxed | ⟨k, hleaf⟩ := hform.fieldStorage hs
    · cases s <;> cases hboxed
      cases hv
    · cases hview : s.view? with
      | none =>
        rw [hview] at hv
        cases hv
      | some w =>
        rw [hview] at hv
        cases hv
        obtain ⟨rfl, hlength⟩ := hleaf.view v hview
        exact hlength

/-! ### Calls -/

/-- A call that may change an array. -/
inductive Call where
  | put (index : Nat) (v : Value)
  | setBuffer (field : Nat) (buffer : DeviceBuffer)
  | setFlag (on : Bool)
  | setCompass (on : Bool)
  | setFieldFlag (field : Nat) (on : Bool)
  | setFieldCompass (field : Nat) (on : Bool)
  | setTotal (total : Nat)
  | encode (start stride bound : Value)
deriving DecidableEq, Repr

/-- The changed array, or the old one with the refusal. -/
def orKeep (a : PortableArray) : Except ArrayError PortableArray → PortableArray × Option ArrayError
  | .ok b => (b, none)
  | .error e => (a, some e)

def Call.make (a : PortableArray) : Call → PortableArray × Option ArrayError
  | put i v => PortableArray.put i v a
  | setBuffer field buffer => orKeep a (a.setBuffer field buffer)
  | setFlag on => (PortableArray.setFlag on a, none)
  | setCompass on => (PortableArray.setCompass on a, none)
  | setFieldFlag field on => orKeep a (updateFieldMarks (fun m => { m with flag := on }) field a)
  | setFieldCompass field on => orKeep a
      (updateFieldMarks (fun m => { m with compass := on }) field a)
  | setTotal total => (a.setTotal total, none)
  | encode start stride bound => orKeep a (PortableArray.encode start stride bound a)

/-- The array after calls, some of which may have been refused. -/
def afterCalls (a : PortableArray) (calls : List Call) : PortableArray :=
  calls.foldl (fun a c => (c.make a).1) a

theorem WellFormed.orKeep {r : Except ArrayError PortableArray} (h : WellFormed t mode a)
    (hr : ∀ b, r = .ok b → WellFormed t mode b) : WellFormed t mode (orKeep a r).1 := by
  cases r with
  | error e => exact h
  | ok b => exact hr b rfl

/-- One call keeps an array well-formed, whether it is refused or not. -/
theorem WellFormed.make (h : WellFormed t mode a) (c : Call) : WellFormed t mode (c.make a).1 := by
  have hflag (on : Bool) (m : SequenceMarks) : { m with flag := on }.sequence = m.sequence := rfl
  have hcompass (on : Bool) (m : SequenceMarks) : { m with compass := on }.sequence = m.sequence :=
    rfl
  cases c with
  | put i v => exact (h.formed.put_spec i v).1.wellFormed h.words h.slots
  | setBuffer field buffer =>
    exact h.orKeep fun b hb => (h.formed.setBuffer h.words hb).wellFormed h.words h.slots
  | setFlag on => exact (h.formed.updateMarks (hflag on)).wellFormed h.words h.slots
  | setCompass on => exact (h.formed.updateMarks (hcompass on)).wellFormed h.words h.slots
  | setFieldFlag field on =>
    exact h.orKeep fun b hb => (h.formed.updateFieldMarks (hflag on) hb).wellFormed h.words h.slots
  | setFieldCompass field on =>
    exact h.orKeep fun b hb => (h.formed.updateFieldMarks (hcompass on) hb).wellFormed
      h.words h.slots
  | setTotal total => exact (h.formed.setTotal total).wellFormed h.words h.slots
  | encode start stride bound =>
    exact h.orKeep fun b hb => (h.formed.encode hb).wellFormed (inWords_of_lt (by decide))
      fun _ => rfl

theorem WellFormed.afterCalls (h : WellFormed t mode a) (calls : List Call) :
    WellFormed t mode (a.afterCalls calls) := by
  induction calls generalizing a with
  | nil => exact h
  | cons c calls ih => exact ih (h.make c)

/-- Arrays whose bytes are counted in words, and arrays of values that lie in memory, are
well-formed from the time they are made, and stay so whatever calls are made on them. -/
theorem calls_keep_representation (t : ElementType) (mode : StorageMode) (a : PortableArray)
    (hnew : (∃ size, Bounded.construct size t mode true = .ok a ∧ InWords mode size t) ∨
      ∃ vs, ofValues t mode vs = .ok a ∧ Memory.fits vs.length Memory.valueBytes = true)
    (calls : List Call) :
    WellFormed t mode (a.afterCalls calls) ∧ Safe (a.afterCalls calls) := by
  have hform : ∃ size, Formed mode size false t a ∧ InWords mode size t := by
    obtain ⟨size, hnew, hwords⟩ | ⟨vs, hnew, hfits⟩ := hnew
    · exact ⟨size, construct_formed (construct_of_bounded hwords hnew), hwords⟩
    · refine ⟨vs.length, ofValues_formed hnew, inWords_of_lt ?_⟩
      have hblock : vs.length * 24 ≤ Memory.maxBlock := of_decide_eq_true hfits
      exact Nat.lt_of_le_of_lt (Nat.le_trans (Nat.mul_le_mul_left _ (by decide)) hblock) (by decide)
  obtain ⟨size, hform, hwords⟩ := hform
  have hrun := (hform.wellFormed hwords nofun).afterCalls calls
  exact ⟨hrun, hrun.safe⟩

/-- A store is refused after its first field was written, a buffer is replaced, and then the array
is turned into a sequence. -/
theorem calls_keep_representation_nested :
    let t := ElementType.record [.scalar .int, .record [.scalar .byte, .scalar .long]]
    let num := fun n : Int32 => Value.scalar (.int n)
    let triple := fun n : Int32 => Value.tuple [num n, .tuple [num n, num n]]
    let calls : List Call := [.put 1 (.tuple [num 5, .tuple [num 6]]),
      .setBuffer 0 (.bytes .int (Array.replicate 16 1)), .setFieldFlag 1 true,
      .encode (triple 1) (triple 2) (triple 3)]
    ∃ a, Bounded.construct 4 t .plainBytes true = .ok a ∧ InWords .plainBytes 4 t ∧
      (calls.head?.bind fun c => (c.make a).2).isSome ∧
      WellFormed t .plainBytes (a.afterCalls calls) ∧ Safe (a.afterCalls calls) ∧
      (a.afterCalls calls).size = 3 ∧ decode? 2 (a.afterCalls calls) =
        some (.tuple [num 5, .tuple [.scalar (.byte 1), .scalar (.long 1)]]) := by
  intro t num triple calls
  have hwords : InWords .plainBytes 4 t := inWords_of_lt (by decide)
  refine ⟨_, rfl, hwords, rfl, ?_⟩
  obtain ⟨hform, hsafe⟩ := calls_keep_representation t .plainBytes _ (.inl ⟨4, rfl, hwords⟩) calls
  exact ⟨hform, hsafe, rfl, by decide +kernel⟩

/-- The bytes of so many long numbers cannot be counted: the array is made without an element. And
what is no sequence is not decoded beyond its size. -/
theorem uncounted_array_is_empty :
    (∃ a, Bounded.construct 2305843009213693952 (.scalar .long) .plainBytes true = .ok a ∧
      a.size = 2305843009213693952 ∧ get? 0 a = none ∧
      a.bufferView 0 = .ok (.bytes .long false #[]) ∧ ¬ WellFormed (.scalar .long) .plainBytes a) ∧
    ∃ a, Bounded.construct 2 (.scalar .int) .plainBytes true = .ok a ∧ decode? 2 a = none := by
  refine ⟨⟨_, rfl, rfl, rfl, rfl, fun h => ?_⟩, _, rfl, by decide⟩
  have hlength := h.formed.2.length
  cases hlength

end PortableArray

end Kernelwright
