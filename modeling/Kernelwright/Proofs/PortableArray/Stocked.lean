import Kernelwright.Proofs.PortableArray.Boxed
import Kernelwright.Proofs.PortableArray.Formed

/-!
# Arrays with all their elements

A well-formed array that is no sequence has an element at every index below its size. `Stocked` says
besides that the columns hold nothing that they would not have taken. New arrays are stocked, and
stay so whatever is stored in them. What a stocked array holds can be stored again, and is read back
as it is.
-/

namespace Kernelwright

/-- The cells of a buffer are of its kind. -/
def DeviceBuffer.IsTyped : DeviceBuffer → Prop
  | native kind cells => ∀ (i : Nat) (s : Scalar), cells[i]? = some s → s.kind = kind
  | bytes .. => True

/-! ### What columns hold -/

namespace Storage

/-- The storage of a column of the type holds only what such a column takes. -/
def Holds (t : ElementType) : Storage → Prop
  | native kind cells => t = .scalar kind ∧ ∀ (i : Nat) (s : Scalar), cells[i]? = some s →
    s.kind = kind
  | bytes .. => True
  | boxed cells => ∀ (i : Nat) (v : Value), cells[i]? = some v →
      PortableArray.fits t v = true ∧ v.kind? = t.scalarKind?

variable {t : ElementType} {s s' : Storage} {v : Value}

theorem holds_ofValue (hfits : PortableArray.fits t v = true) (hkind : v.kind? = t.scalarKind?)
    (length : Nat) : (ofValue v length).Holds t := by
  intro i w hw
  obtain ⟨-, rfl⟩ : i < length ∧ v = w := by simpa [Array.getElem?_replicate] using hw
  exact ⟨hfits, hkind⟩

theorem holds_allocate {kind : ScalarKind} {mode : StorageMode} {length : Nat}
    (h : allocate kind mode length = .ok s) : s.Holds (.scalar kind) := by
  obtain ⟨b, -, h⟩ := bind_eq_ok.1 h
  cases b <;> cases h
  · refine ⟨rfl, fun i x hx => ?_⟩
    obtain ⟨-, rfl⟩ : i < length ∧ Scalar.zero kind = x := by
      simpa [Array.getElem?_replicate] using hx
    exact Scalar.kind_zero kind
  · trivial
  · have hkind : (Value.scalar (.zero kind)).kind? = (ElementType.scalar kind).scalarKind? :=
      congrArg some (Scalar.kind_zero kind)
    exact holds_ofValue rfl hkind length

theorem Holds.put (h : s.Holds t) (hfits : PortableArray.fits t v = true) (i : Nat) :
    (s.put i v).Holds t := by
  cases s with
  | bytes kind pinned data => cases v <;> trivial
  | native kind cells =>
    cases v with
    | tuple vs => exact h
    | scalar x =>
      refine ⟨h.1, fun j y hy => ?_⟩
      rw [Array.getElem?_setIfInBounds] at hy
      split at hy
      · split at hy
        · cases hy
          exact Scalar.kind_cast x kind
        · cases hy
      · exact h.2 j y hy
  | boxed cells =>
    intro j w hw
    rw [Array.getElem?_modify] at hw
    split at hw
    · obtain ⟨old, hold, rfl⟩ := Option.map_eq_some_iff.1 hw
      rw [(h _ _ hold).2]
      exact ⟨PortableArray.fits_kept hfits, PortableArray.kind?_kept hfits⟩
    · exact h j w hw

theorem Holds.replace {buffer : DeviceBuffer} {expected : Nat} (h : s.Holds t)
    (hbuffer : buffer.IsTyped) (hs : s.replace buffer expected = .ok s') : s'.Holds t := by
  unfold Storage.replace at hs
  split at hs
  · split at hs
    · rename_i hsame
      cases hs
      obtain rfl := hsame.1
      exact ⟨h.1, hbuffer⟩
    · cases hs
  · split at hs
    · cases hs
      trivial
    · cases hs
  all_goals cases hs

end Storage

namespace PortableArray

open Value

mutual

/-- Every column holds only what it takes. -/
def Holds : PortableArray → Prop
  | flat h s => s.Holds h.type
  | fields _ cs => HoldsAll cs

def HoldsAll : List PortableArray → Prop
  | [] => True
  | c :: cs => Holds c ∧ HoldsAll cs

end

/-- An array of a valid type that is no sequence and has all its elements. -/
structure Stocked (a : PortableArray) : Prop where
  valid : a.type.validate = .ok ()
  formed : Formed a.mode a.size false a.type a
  holds : Holds a

variable {mode : StorageMode} {size : Nat} {sequence : Bool} {t : ElementType} {a b : PortableArray}

theorem Stocked.isSequence (ha : Stocked a) : a.isSequence = false := ha.formed.header.2.2.2

theorem Formed.stocked (hform : Formed mode size false t a) (hvalid : t.validate = .ok ())
    (hholds : Holds a) : Stocked a := by
  obtain ⟨htype, hmode, hsize, -⟩ := hform.header
  subst htype hmode hsize
  exact ⟨hvalid, hform, hholds⟩

/-! ### Arrays that are stocked -/

theorem fits_zero (ts : List ElementType) : fits (.record ts) (.zero (.record ts)) = true := by
  have hlength : (Value.zeros ts).length = ts.length := by
    induction ts with
    | nil => rfl
    | cons t ts ih => rw [Value.zeros, List.length_cons, ih, List.length_cons]
  simp [fits, Value.zero, ElementType.isRecord, ElementType.arity, hlength]

theorem holds_build {length : Nat} (h : build (newColumn mode length) mode size t = .ok a) :
    Holds a := by
  refine (build_induction (P := fun _ => Holds) (Q := fun _ => HoldsAll) (fun t s hs _ => ?_)
    (fun _ _ _ hcs => hcs) trivial fun _ _ _ _ hc hcs => ⟨hc, hcs⟩).1 t a h
  cases t with
  | scalar k => exact Storage.holds_allocate (mapError_eq_ok.1 hs)
  | record ts =>
    cases hs
    exact Storage.holds_ofValue (fits_zero ts) rfl length

mutual

theorem Holds.put (i : Nat) (v : Value) : {a : PortableArray} → Holds a → Holds (put i v a).1
  | flat h s, ha => by
    rw [PortableArray.put]
    split
    · next hfits =>
      rw [putFlat]
      split
      · exact Storage.Holds.put ha hfits i
      · exact ha
    · exact ha
  | fields h cs, ha => by
    cases v with
    | scalar x => exact ha
    | tuple vs =>
      rw [PortableArray.put]
      split
      · exact HoldsAll.putAll i vs ha
      · exact ha

theorem HoldsAll.putAll (i : Nat) : (vs : List Value) → {cs : List PortableArray} → HoldsAll cs →
    HoldsAll (putAll i vs cs).1
  | [], _, h => by simpa [PortableArray.putAll] using h
  | _ :: _, [], _ => trivial
  | v :: vs, c :: cs, h => by
    rw [PortableArray.putAll]
    have hfirst := Holds.put i v h.1
    split
    · rename_i hput
      rw [hput] at hfirst
      exact ⟨hfirst, h.2⟩
    · rename_i hput
      rw [hput] at hfirst
      exact ⟨hfirst, HoldsAll.putAll i vs h.2⟩

end

theorem HoldsAll.modify {f : PortableArray → PortableArray} :
    {cs : List PortableArray} → HoldsAll cs →
    (i : Nat) → (∀ c, cs[i]? = some c → Holds c → Holds (f c)) → HoldsAll (cs.modify i f)
  | [], _, _, _ => by simp [HoldsAll]
  | c :: _, h, 0, hf => ⟨hf c rfl h.1, h.2⟩
  | _ :: _, h, i + 1, hf => ⟨h.1, h.2.modify i fun c hc => hf c (by simpa using hc)⟩

theorem Holds.setBuffer {field : Nat} {buffer : DeviceBuffer} (ha : Holds a)
    (hbuffer : buffer.IsTyped) (h : a.setBuffer field buffer = .ok b) : Holds b := by
  obtain ⟨s, s', hs, -, hs', rfl⟩ := setBuffer_eq_ok h
  cases a with
  | flat hd s₀ =>
    simp only [fieldStorage] at hs
    split at hs
    · cases hs
      exact Storage.Holds.replace ha hbuffer hs'
    · cases hs
  | fields hd cs =>
    refine HoldsAll.modify ha field fun c hc hholds => ?_
    simp only [fieldStorage, hc] at hs
    cases c with
    | fields hd' cs' => cases hs
    | flat hd' s₁ =>
      cases hs
      exact Storage.Holds.replace hholds hbuffer hs'

theorem construct_valid {init : Bool} (h : construct size t mode init = .ok a) :
    t.validate = .ok () ∧ Holds a := by
  unfold construct at h
  split at h
  · exact ⟨‹_›, holds_build h⟩
  · cases h

theorem stocked_construct (h : construct size t mode true = .ok a) : Stocked a := by
  obtain ⟨hvalid, hholds⟩ := construct_valid h
  exact (construct_formed h).stocked hvalid hholds

theorem stocked_ofValues {vs : List Value} (h : ofValues t mode vs = .ok a) : Stocked a := by
  obtain ⟨a₀, hnew, -⟩ := bind_eq_ok.1 h
  refine (ofValues_formed h).stocked (construct_valid hnew).1 ?_
  exact ofValues_keeps (fun _ ha => (construct_valid ha).2) (fun i v _ ha => ha.put i v) h

theorem Stocked.put (ha : Stocked a) (i : Nat) (v : Value) : Stocked (put i v a).1 :=
  (ha.formed.put_spec i v).1.stocked ha.valid (ha.holds.put i v)

theorem Stocked.setBuffer {field : Nat} {buffer : DeviceBuffer} (ha : Stocked a)
    (hwords : InWords a.mode a.size a.type) (hbuffer : buffer.IsTyped)
    (h : a.setBuffer field buffer = .ok b) : Stocked b :=
  (ha.formed.setBuffer hwords h).stocked ha.valid (ha.holds.setBuffer hbuffer h)

/-! ### Elements -/

/-- An element that an array of the type and mode takes and gives back as it is. -/
def Keeps (mode : StorageMode) (t : ElementType) (v : Value) : Prop :=
  if mode = .object then fits t v = true ∧ kept t v = v else IsOf t v

mutual

theorem isOf_of_get? {i : Nat} (hmode : mode ≠ .object) : {t : ElementType} → {a : PortableArray} →
    {v : Value} → Formed mode size sequence t a → Holds a → get? i a = some v → IsOf t v
  | .scalar k, flat h s, v, hform, hholds, hget => by
    obtain ⟨⟨htype, -⟩, hleaf⟩ := hform
    cases s with
    | native kind cells =>
      obtain ⟨s, hs, rfl⟩ := Option.map_eq_some_iff.1 hget
      obtain ⟨hkind, hcells⟩ := hholds
      rw [htype] at hkind
      cases hkind
      exact hcells i s hs
    | bytes kind pinned data =>
      obtain ⟨rfl, -⟩ := hleaf.view _ rfl
      rw [get?, Storage.get?] at hget
      split at hget
      · cases hget
        exact Scalar.kind_ofPattern _ _
      · cases hget
    | boxed cells => exact absurd hleaf.backend (Storage.select_ne_boxed hmode)
  | .record ts, fields h cs, v, hform, hholds, hget => by
    obtain ⟨vs, hvs, rfl⟩ := Option.map_eq_some_iff.1 hget
    exact areOf_of_getAll? hmode hform.2.2 hholds hvs
  | .record ts, flat h s, v, hform, _, _ => absurd hform.1 hmode
  | .scalar _, fields _ _, _, hform, _, _ => hform.elim

theorem areOf_of_getAll? {i : Nat} (hmode : mode ≠ .object) : {ts : List ElementType} →
    {cs : List PortableArray} → {vs : List Value} → FormedAll mode size sequence ts cs →
      HoldsAll cs → getAll? i cs = some vs → AreOf ts vs
  | [], [], _, _, _, hget => by
    cases hget
    trivial
  | t :: ts, c :: cs, vs, hform, hholds, hget => by
    cases hc : get? i c with
    | none => simp [getAll?, hc] at hget
    | some w =>
      cases hcs : getAll? i cs with
      | none => simp [getAll?, hc, hcs] at hget
      | some ws =>
        simp only [getAll?, hc, hcs, Option.some.injEq] at hget
        subst hget
        exact ⟨isOf_of_get? hmode hform.1 hholds.1 hc, areOf_of_getAll? hmode hform.2 hholds.2 hcs⟩
  | [], _ :: _, _, hform, _, _ => hform.elim
  | _ :: _, [], _, hform, _, _ => hform.elim

end

theorem Formed.boxed (hform : Formed .object size sequence t a) :
    ∃ h cells, a = flat h (.boxed cells) ∧ h.type = t := by
  have hboxed {h : ArrayHeader} {s : Storage} (hs : s.backend = .boxed) (htype : h.type = t) :
      ∃ h' cells, flat h s = flat h' (.boxed cells) ∧ h'.type = t := by
    cases s with
    | boxed cells => exact ⟨h, cells, rfl, htype⟩
    | native kind cells => cases hs
    | bytes kind pinned data => cases hs
  cases t with
  | scalar k =>
    cases a with
    | flat h s => exact hboxed (Except.ok.inj hform.2.backend).symm hform.1.1
    | fields h cs => exact hform.elim
  | record ts =>
    cases a with
    | flat h s => exact hboxed hform.2.2.1 hform.2.1.1
    | fields h cs => exact absurd rfl hform.1

theorem kept_of_kind? {v : Value} (h : v.kind? = t.scalarKind?) : kept t v = v := by
  cases t with
  | record ts => rfl
  | scalar k =>
    cases v with
    | tuple vs => cases h
    | scalar s =>
      obtain rfl : s.kind = k := Option.some.inj h
      simp [kept, ElementType.scalarKind?, Value.cast]

theorem Stocked.keeps {i : Nat} {v : Value} (ha : Stocked a) (hget : get? i a = some v) :
    Keeps a.mode a.type v := by
  unfold Keeps
  split
  · rename_i hmode
    have hform := ha.formed
    rw [hmode] at hform
    obtain ⟨h, cells, hflat, htype⟩ := hform.boxed
    have hholds := ha.holds
    rw [hflat] at hholds hget
    obtain ⟨hfits, hkind⟩ := hholds i v hget
    rw [← htype]
    exact ⟨hfits, kept_of_kind? hkind⟩
  · rename_i hmode
    exact isOf_of_get? hmode ha.formed ha.holds hget

theorem Stocked.toList? (ha : Stocked a) : ∃ vs, a.toList? = some vs ∧ vs.length = a.size ∧
    (∀ i, (hi : i < vs.length) → get? i a = some vs[i]) ∧ ∀ v ∈ vs, Keeps a.mode a.type v := by
  obtain ⟨vs, hvs, hlength, hread⟩ := exists_toList? fun i => (ha.formed.access i).1
  refine ⟨vs, hvs, hlength, hread, fun v hv => ?_⟩
  obtain ⟨i, hi, rfl⟩ := List.getElem_of_mem hv
  exact ha.keeps (hread i hi)

end PortableArray

end Kernelwright
