import Kernelwright.Proofs.PortableArray.PutGet

/-!
# Whole values and columns

An array of records can hold its elements as whole values, or as a column for each field. Columns
look at each component and convert each leaf. Whole values are looked at from the outside only. So
the two can be told apart by a tuple that has as many components as the record has fields but is no
value of the type, and by nothing else.
-/

namespace Kernelwright

namespace PortableArray

open Value

variable {t : ElementType} {size i : Nat} {v : Value} {a b : PortableArray}

/-! ### Storing whole values -/

/-- An array of whole values. Each is a scalar of the element type's kind, or a tuple if that is a
record. -/
def IsBoxed (t : ElementType) (size : Nat) (a : PortableArray) : Prop :=
  ∃ (h : ArrayHeader) (cells : Array Value), a = flat h (.boxed cells) ∧ h.type = t ∧
    h.size = size ∧
    cells.size = size ∧ ∀ (i : Nat) (v : Value), cells[i]? = some v → v.kind? = t.scalarKind?

/-- A value as an array of whole values keeps it. -/
def kept (t : ElementType) (v : Value) : Value := t.scalarKind?.elim v v.cast

theorem kind?_kept (hfits : fits t v = true) : (kept t v).kind? = t.scalarKind? := by
  cases t with
  | scalar k =>
    cases v with
    | scalar x => simp [kept, ElementType.scalarKind?, Value.cast, kind?, scalar?]
    | tuple vs => cases hfits
  | record ts =>
    cases v with
    | scalar x => cases hfits
    | tuple vs => rfl

theorem fits_kept (hfits : fits t v = true) : fits t (kept t v) = true := by
  cases t with
  | scalar k =>
    cases v with
    | scalar x => rfl
    | tuple vs => cases hfits
  | record ts => exact hfits

theorem IsBoxed.put_of_fits (ha : IsBoxed t size a) (hi : i < size) (hfits : fits t v = true) :
    ∃ a', put i v a = (a', none) ∧ IsBoxed t size a' ∧ get? i a' = some (kept t v) ∧
      ∀ j, j ≠ i → get? j a' = get? j a := by
  obtain ⟨h, cells, rfl, htype, hsize, hcells, hkinds⟩ := ha
  have hlt : i < cells.size := hcells.symm ▸ hi
  have hstored : (cells.modify i fun old => old.kind?.elim v v.cast) = cells.set i (kept t v) := by
    apply Array.ext_getElem?
    intro j
    rw [Array.getElem?_modify, Array.getElem?_set]
    by_cases hj : i = j
    · subst hj
      rw [if_pos rfl, if_pos rfl, Array.getElem?_eq_getElem hlt, Option.map_some,
        hkinds i _ (Array.getElem?_eq_getElem hlt)]
      rfl
    · rw [if_neg hj, if_neg hj]
  refine ⟨flat h (.boxed (cells.set i (kept t v))), ?_, ⟨h, _, rfl, htype, hsize, ?_, ?_⟩, ?_, ?_⟩
  · rw [PortableArray.put, htype, if_pos hfits, putFlat, Storage.put, hstored, if_pos]
    simpa [Storage.accepts] using hlt
  · simpa using hcells
  · intro j w hw
    rw [Array.getElem?_set] at hw
    split at hw
    · cases hw
      exact kind?_kept hfits
    · exact hkinds j w hw
  · simp [get?, Storage.get?]
  · intro j hj
    simp [get?, Storage.get?, hj.symm]

theorem IsBoxed.put_of_not_fits (ha : IsBoxed t size a) (hfits : fits t v = false) :
    ∃ e, put i v a = (a, some e) := by
  obtain ⟨h, cells, rfl, htype, -⟩ := ha
  exact ⟨.valueMismatch h.type v, by rw [PortableArray.put, htype, hfits]; rfl⟩

theorem Allocated.put_of_not_fits {mode : StorageMode} (hb : Allocated mode size t b)
    (hfits : fits t v = false) : ∃ e, put i v b = (b, some e) := by
  cases t with
  | scalar k =>
    cases b with
    | flat h s => exact ⟨.valueMismatch h.type v, by rw [PortableArray.put, hb.1, hfits]; rfl⟩
    | fields h cs => exact hb.elim
  | record ts =>
    cases b with
    | flat h s => exact hb.elim
    | fields h cs =>
      refine ⟨.valueMismatch h.type v, ?_⟩
      cases v with
      | scalar x => rfl
      | tuple vs =>
        have hlen : vs.length ≠ cs.length := by
          rw [hb.2.2.2.length_eq]
          simpa [fits, ElementType.isRecord, ElementType.arity] using hfits
        rw [PortableArray.put, if_neg hlen]

/-! ### The two side by side -/

/-- An array of whole values and an array of columns that hold the same elements. -/
structure Mirrors (t : ElementType) (size : Nat) (a b : PortableArray) : Prop where
  boxed : IsBoxed t size a
  split : Allocated .nativeBuffers size t b
  same : ∀ i, i < size → ∃ v, get? i a = some v ∧ get? i b = some v

/-- A value that is not told apart: of a record type, a tuple with as many components as there are
fields is a value of the type. -/
def Alike (t : ElementType) (v : Value) : Prop :=
  t.isRecord = true → fits t v = true → IsOf t v

theorem kept_eq_castLeaves (halike : Alike t v) (hfits : fits t v = true) :
    HasShape t v ∧ kept t v = castLeaves t v := by
  cases t with
  | scalar k =>
    cases v with
    | scalar x => exact ⟨trivial, rfl⟩
    | tuple vs => cases hfits
  | record ts =>
    obtain ⟨hshape, hcast⟩ := isOf_iff.1 (halike rfl hfits)
    exact ⟨hshape, hcast.symm⟩

/-- Of a value that is not told apart, both take it or both refuse it, and they hold the same
elements again. -/
theorem Mirrors.put (h : Mirrors t size a b) (hi : i < size) (halike : Alike t v) :
    (PortableArray.put i v a).2.isNone = (PortableArray.put i v b).2.isNone ∧
      Mirrors t size (PortableArray.put i v a).1 (PortableArray.put i v b).1 := by
  cases hfits : fits t v with
  | false =>
    obtain ⟨e, ha⟩ := h.boxed.put_of_not_fits (i := i) hfits
    obtain ⟨e', hb⟩ := h.split.put_of_not_fits (i := i) hfits
    rw [ha, hb]
    exact ⟨rfl, h⟩
  | true =>
    obtain ⟨hshape, hkept⟩ := kept_eq_castLeaves halike hfits
    obtain ⟨a', ha, hboxed, hself, hother⟩ := h.boxed.put_of_fits hi hfits
    obtain ⟨b', hb, hstored⟩ := put_of_hasShape hi t v b h.split hshape
    rw [ha, hb]
    refine ⟨rfl, hboxed, hstored.allocated, fun j hj => ?_⟩
    by_cases hji : j = i
    · subst hji
      exact ⟨kept t v, hself, by rw [hstored.get?_self, hkept]⟩
    · obtain ⟨w, hwa, hwb⟩ := h.same j hj
      exact ⟨w, by rw [hother j hji, hwa], by rw [hstored.get?_other j hji, hwb]⟩

/-! ### What is observed of a run -/

/-- Store values one after the other, and go on after a refusal. The answers say which were
taken. -/
def storeEach (a : PortableArray) : List (Nat × Value) → List Bool × PortableArray
  | [] => ([], a)
  | (i, v) :: ps =>
    let (answers, c) := storeEach (put i v a).1 ps
    ((put i v a).2.isNone :: answers, c)

/-- What is observed of a run: the answers, and the elements afterwards. -/
def observed (a : PortableArray) (ps : List (Nat × Value)) : List Bool × Option (List Value) :=
  ((storeEach a ps).1, (storeEach a ps).2.toList?)

theorem observed_cons (a : PortableArray) (i : Nat) (v : Value) (ps : List (Nat × Value)) :
    observed a ((i, v) :: ps) =
      ((put i v a).2.isNone :: (observed (put i v a).1 ps).1, (observed (put i v a).1 ps).2) := rfl

theorem IsBoxed.size_eq (h : IsBoxed t size a) : a.size = size := by
  obtain ⟨h, cells, rfl, -, hsize, -⟩ := h
  exact hsize

theorem Mirrors.toList?_eq (h : Mirrors t size a b) : a.toList? = b.toList? := by
  rw [toList?_eq_mapM, toList?_eq_mapM, h.boxed.size_eq, h.split.size_eq]
  have hread : ∀ l : List Nat, (∀ i ∈ l, i < size) →
      (l.mapM fun i => get? i a) = l.mapM fun i => get? i b := by
    intro l hl
    induction l with
    | nil => rfl
    | cons i l ih =>
      obtain ⟨v, hva, hvb⟩ := h.same i (hl i List.mem_cons_self)
      rw [List.mapM_cons, List.mapM_cons, hva, hvb, ih fun j hj => hl j (List.mem_cons_of_mem _ hj)]
  exact hread _ fun i hi => List.mem_range.mp hi

theorem Mirrors.observed_eq (ps : List (Nat × Value)) (h : Mirrors t size a b)
    (hps : ∀ p ∈ ps, p.1 < size ∧ Alike t p.2) : observed a ps = observed b ps := by
  induction ps generalizing a b with
  | nil => rw [observed, observed, storeEach, storeEach, h.toList?_eq]
  | cons p ps ih =>
    obtain ⟨i, v⟩ := p
    obtain ⟨hi, halike⟩ := hps (i, v) List.mem_cons_self
    obtain ⟨hanswer, hafter⟩ := h.put hi halike
    rw [observed_cons, observed_cons, hanswer,
      ih hafter fun q hq => hps q (List.mem_cons_of_mem _ hq)]

theorem IsBoxed.get?_isSome (h : IsBoxed t size a) (hi : i < size) : (get? i a).isSome := by
  obtain ⟨h, cells, rfl, -, -, hcells, -⟩ := h
  simpa [get?, Storage.get?, hcells] using hi

/-- A value that is told apart is taken only as a whole, or it is read back with leaves of other
kinds. -/
theorem Mirrors.alike_of_observed_eq (h : Mirrors t size a b) (hi : i < size)
    (hobserved : observed a [(i, v)] = observed b [(i, v)]) : Alike t v := by
  intro hrecord hfits
  obtain ⟨a', ha, hboxed, hself, hother⟩ := h.boxed.put_of_fits hi hfits
  have hsplit := put_eq_none_iff h.split hi v
  simp only [observed, storeEach, ha, Option.isNone_none, Prod.mk.injEq, List.cons.injEq, and_true]
    at hobserved
  obtain ⟨hanswer, hlist⟩ := hobserved
  have hshape : HasShape t v := hsplit.1 (Option.isNone_iff_eq_none.1 hanswer.symm)
  obtain ⟨b', hb, hstored⟩ := put_of_hasShape hi t v b h.split hshape
  rw [hb] at hlist
  have hsome (j : Nat) (hj : j < b'.size) : (get? j b').isSome := by
    by_cases hji : j = i
    · rw [hji, hstored.get?_self]
      rfl
    · obtain ⟨w, -, hw⟩ := h.same j (hstored.allocated.size_eq ▸ hj)
      rw [hstored.get?_other j hji, hw]
      rfl
  -- both took the value, so it is read alike
  obtain ⟨vs, hvs, hlength, hread⟩ :=
    exists_toList? fun j hj => hboxed.get?_isSome (hboxed.size_eq ▸ hj)
  obtain ⟨ws, hws, -, hread'⟩ := exists_toList? hsome
  cases hvs.symm.trans (hlist.trans hws)
  have hlt : i < vs.length := by rwa [hlength, hboxed.size_eq]
  have hsame := (hread i hlt).trans (hread' i hlt).symm
  rw [hself, hstored.get?_self, Option.some.injEq] at hsame
  cases t with
  | scalar k => cases hrecord
  | record ts => exact isOf_iff.2 ⟨hshape, hsame.symm⟩

/-- A run that looks the same after each step has only values that are not told apart. -/
theorem Mirrors.alike_of_prefixes (ps : List (Nat × Value)) (h : Mirrors t size a b)
    (hps : ∀ p ∈ ps, p.1 < size) (hobserved : ∀ qs, qs <+: ps → observed a qs = observed b qs) :
    ∀ p ∈ ps, Alike t p.2 := by
  induction ps generalizing a b with
  | nil => simp
  | cons p ps ih =>
    obtain ⟨i, v⟩ := p
    have hi : i < size := hps (i, v) List.mem_cons_self
    have halike : Alike t v := h.alike_of_observed_eq hi (hobserved [(i, v)] ⟨ps, rfl⟩)
    refine List.forall_mem_cons.2 ⟨halike, ih (h.put hi halike).2
      (fun q hq => hps q (List.mem_cons_of_mem _ hq)) fun qs hqs => ?_⟩
    have hstep := hobserved ((i, v) :: qs) (List.cons_prefix_cons.2 ⟨rfl, hqs⟩)
    rw [observed_cons, observed_cons, Prod.mk.injEq, List.cons.injEq] at hstep
    exact Prod.ext hstep.1.2 hstep.2

/-! ### New arrays -/

theorem build_object (t : ElementType) (size : Nat) :
    ∃ a, build (newColumn .object size) .object size t = .ok a ∧ IsBoxed t size a ∧
      ∀ i < size, get? i a = some (Value.zero t) := by
  have hzeros {h : ArrayHeader} (htype : h.type = t) (hsize : h.size = size) :
      IsBoxed t size (flat h (.boxed (Array.replicate size (Value.zero t)))) := by
    refine ⟨h, _, rfl, htype, hsize, by simp, fun i v hv => ?_⟩
    rw [Array.getElem?_replicate] at hv
    split at hv
    · cases hv
      cases t with
      | scalar k => simp [Value.zero, kind?, scalar?, ElementType.scalarKind?]
      | record ts => rfl
    · cases hv
  have hread {h : ArrayHeader} (i : Nat) (hi : i < size) :
      get? i (flat h (.boxed (Array.replicate size (Value.zero t)))) = some (Value.zero t) := by
    simp [get?, Storage.get?, hi]
  cases t <;> exact ⟨_, by rw [build]; rfl, hzeros rfl rfl, hread⟩

theorem exists_mirrors (hvalid : t.validate = .ok ()) (size : Nat) :
    ∃ a b, construct size t .object true = .ok a ∧ construct size t .nativeBuffers true = .ok b ∧
      Mirrors t size a b := by
  obtain ⟨a, ha, hboxed, hzeroA⟩ := build_object t size
  obtain ⟨b, hb, hsplit, hzeroB⟩ := @build_eq_ok .nativeBuffers size nofun t
    fun k _ => ⟨.native, rfl⟩
  refine ⟨a, b, ?_, ?_, hboxed, hsplit, fun i hi => ⟨_, hzeroA i hi, hzeroB i hi⟩⟩
  · rw [construct, hvalid]
    exact ha
  · rw [construct, hvalid]
    exact hb

/-! ### When the two agree -/

/-- When whole values and columns agree. Store the same values at the same indices in an array of
each. The answers and the elements are the same after every store exactly if, for a record type,
each tuple that has as many components as there are fields is a value of the type. -/
theorem boxed_agrees_iff (t : ElementType) (hvalid : t.validate = .ok ()) (size : Nat)
    (ps : List (Nat × Value)) (hps : ∀ p ∈ ps, p.1 < size) :
    ∃ a b, construct size t .object true = .ok a ∧ construct size t .nativeBuffers true = .ok b ∧
      ((∀ qs, qs <+: ps → observed a qs = observed b qs) ↔ ∀ p ∈ ps, Alike t p.2) := by
  obtain ⟨a, b, ha, hb, hmirrors⟩ := exists_mirrors hvalid size
  refine ⟨a, b, ha, hb, hmirrors.alike_of_prefixes ps hps, fun halike qs hqs => ?_⟩
  refine hmirrors.observed_eq qs fun p hp => ?_
  have hmem : p ∈ ps := hqs.subset hp
  exact ⟨hps p hmem, halike p hmem⟩

/-- Two pairs of integers: a pair is stored twice, and a number in its place is refused. -/
theorem boxed_agrees_pairs :
    let t := ElementType.record [.scalar .int, .scalar .int]
    let v := fun n : Int32 => Value.tuple [.scalar (.int n), .scalar (.int (n + 1))]
    let ps := [(0, v 3), (1, .scalar (.int 4)), (0, v 5)]
    t.validate = .ok () ∧ (∀ p ∈ ps, p.1 < 2) ∧ (∀ p ∈ ps, Alike t p.2) ∧
    ∃ a b, construct 2 t .object true = .ok a ∧ construct 2 t .nativeBuffers true = .ok b ∧
      ∀ qs, qs <+: ps → observed a qs = observed b qs := by
  intro t v ps
  have hbounds : ∀ p ∈ ps, p.1 < 2 := by simp [ps]
  have halike : ∀ p ∈ ps, Alike t p.2 := by
    intro p hp
    simp only [ps, List.mem_cons, List.not_mem_nil, or_false] at hp
    obtain rfl | rfl | rfl := hp
    · exact fun _ _ => ⟨rfl, rfl, trivial⟩
    · exact fun _ hfits => nomatch hfits
    · exact fun _ _ => ⟨rfl, rfl, trivial⟩
  obtain ⟨a, b, ha, hb, hiff⟩ := boxed_agrees_iff t rfl 2 ps hbounds
  exact ⟨rfl, hbounds, halike, a, b, ha, hb, hiff.2 halike⟩

/-- A leaf of another kind is kept by whole values and converted by columns, and a number in place
of a nested pair is taken by whole values only. -/
theorem boxed_differs_from_columns :
    let int := fun n : Int32 => Value.scalar (.int n)
    let pair := ElementType.record [.scalar .int, .scalar .int]
    let nested := ElementType.record [pair, .scalar .int]
    (∃ a b, construct 2 pair .object true = .ok a ∧ construct 2 pair .nativeBuffers true = .ok b ∧
      observed a [(0, .tuple [.scalar (.long 5), int 2])] =
        ([true], some [.tuple [.scalar (.long 5), int 2], .tuple [int 0, int 0]]) ∧
      observed b [(0, .tuple [.scalar (.long 5), int 2])] =
        ([true], some [.tuple [int 5, int 2], .tuple [int 0, int 0]])) ∧
    ∃ a b, construct 1 nested .object true = .ok a ∧ construct 1 nested .nativeBuffers
      true = .ok b ∧
      observed a [(0, .tuple [int 5, int 2])] = ([true], some [.tuple [int 5, int 2]]) ∧
      observed b [(0, .tuple [int 5, int 2])] =
        ([false], some [.tuple [.tuple [int 0, int 0], int 0]]) := by
  intro int pair nested
  exact ⟨⟨_, _, rfl, rfl, by decide +kernel, by decide +kernel⟩,
    ⟨_, _, rfl, rfl, by decide +kernel, by decide +kernel⟩⟩

end PortableArray

end Kernelwright
