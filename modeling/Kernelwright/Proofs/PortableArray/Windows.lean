import Kernelwright.Proofs.PortableArray.Stocked

/-!
# Windows on arrays

A slice of an array can be made an array of its own. Of an array that has all its elements, every
slice can, and it holds the elements of the window. The chunks of a size, one after the other, are
the whole array.
-/

namespace Kernelwright

variable {α : Type}
variable {start stop i length : Nat} {bs : List (Nat × Nat)}

/-! ### Windows side by side -/

/-- Windows, each with its start and length, that lie side by side up to a position. -/
def Contiguous (stop : Nat) : Nat → List (Nat × Nat) → Prop
  | start, [] => start = stop
  | start, b :: bs => b.1 = start ∧ Contiguous stop (start + b.2) bs

theorem Contiguous.inside (h : Contiguous stop start bs) :
    start ≤ stop ∧ ∀ b ∈ bs, b.1 + b.2 ≤ stop := by
  induction bs generalizing start with
  | nil => exact ⟨Nat.le_of_eq h, List.forall_mem_nil _⟩
  | cons b bs ih =>
    obtain ⟨rfl, h⟩ := h
    obtain ⟨hle, hinside⟩ := ih h
    exact ⟨by omega, List.forall_mem_cons.2 ⟨hle, hinside⟩⟩

/-- What is seen through windows side by side is all that lies between the first and the last. -/
theorem Contiguous.flatten (h : Contiguous stop start bs) (xs : List α) :
    (bs.map fun b => (xs.drop b.1).take b.2).flatten = (xs.drop start).take (stop - start) := by
  induction bs generalizing start with
  | nil =>
    cases h
    simp
  | cons b bs ih =>
    obtain ⟨rfl, h⟩ := h
    obtain ⟨n, hn⟩ := Nat.exists_eq_add_of_le h.inside.1
    rw [List.map_cons, List.flatten_cons, ih h, ← List.drop_drop, ← List.take_add]
    congr 1
    omega

theorem contiguous_of_edges {e : Nat → Nat} {f : Nat → Nat × Nat} {n : Nat}
    (h : ∀ i < n, (f i).1 = e i ∧ e i + (f i).2 = e (i + 1)) :
    Contiguous (e n) (e 0) ((List.range n).map f) := by
  induction n generalizing e f with
  | zero => rfl
  | succ n ih =>
    obtain ⟨hstart, hnext⟩ := h 0 (Nat.succ_pos n)
    have hrest : Contiguous (e (n + 1)) (e 1) ((List.range n).map (f ∘ Nat.succ)) :=
      ih (e := e ∘ Nat.succ) fun i hi => h (i + 1) (Nat.succ_lt_succ hi)
    rw [List.range_succ_eq_map, List.map_cons, List.map_map]
    refine ⟨hstart, ?_⟩
    rw [hnext]
    exact hrest

theorem mapM_range_eq_some {read : Nat → Option α} {xs : List α} {count : Nat}
    (hcount : xs.length = count) (h : ∀ i, (hi : i < xs.length) → read i = some xs[i]) :
    (List.range count).mapM read = some xs := by
  subst hcount
  induction xs generalizing read with
  | nil => rfl
  | cons x xs ih =>
    have hrest : (List.range xs.length).mapM (fun i => read (i + 1)) = some xs :=
      ih fun i hi => h (i + 1) (by simpa using hi)
    rw [List.length_cons, List.range_succ_eq_map, List.mapM_cons, h 0 (by simp), List.mapM_map]
    simp [Function.comp_def, hrest]

namespace PortableArray

open Value

variable {mode : StorageMode} {size : Nat} {sequence : Bool} {t : ElementType} {a b : PortableArray}
variable {vs : List Value} {chunk : Nat}

/-! ### Arrays of given elements -/

/-- Values are stored one after the other as soon as each is taken and kept wherever it is
stored. -/
theorem putFrom_of_put {P : PortableArray → Prop} (ha : P a) (hroom : i + vs.length ≤ size)
    (hput : ∀ v ∈ vs, ∀ a j, P a → j < size → ∃ b, put j v a = (b, none) ∧ P b ∧
      get? j b = some v ∧ ∀ l, l ≠ j → get? l b = get? l a) :
    ∃ b, putFrom i a vs = .ok b ∧ P b ∧ (∀ j < i, get? j b = get? j a) ∧
      ∀ j, (hj : j < vs.length) → get? (i + j) b = some vs[j] := by
  induction vs generalizing i a with
  | nil => exact ⟨a, rfl, ha, fun _ _ => rfl, fun j hj => absurd hj (Nat.not_lt_zero j)⟩
  | cons v vs ih =>
    rw [List.length_cons] at hroom
    obtain ⟨c, hfirst, hc, hself, hother⟩ := hput v (.head _) a i ha (by omega)
    obtain ⟨b, hrest, hb, hbefore, hread⟩ :=
      ih hc (i := i + 1) (by omega) fun w hw => hput w (.tail _ hw)
    refine ⟨b, ?_, hb, ?_, ?_⟩
    · rw [putFrom, hfirst]
      exact hrest
    · intro j hj
      rw [hbefore j (by omega), hother j (by omega)]
    · intro j hj
      cases j with
      | zero => rw [Nat.add_zero, hbefore i (by omega), hself]; rfl
      | succ j =>
        rw [← Nat.add_assoc, Nat.add_right_comm, hread j (by simpa using hj)]
        rfl

mutual

theorem Formed.select : {t : ElementType} → {a : PortableArray} → Formed mode size sequence t a →
    ∀ k ∈ Bounded.kinds t, ∃ b, Backend.select k mode = .ok b
  | .scalar k, flat h s, hform => by
    intro k' hk
    obtain rfl : k' = k := by simpa [Bounded.kinds] using hk
    exact ⟨_, hform.2.backend⟩
  | .record ts, flat h s, hform => by
    obtain ⟨rfl, -⟩ := hform
    exact fun _ _ => ⟨.boxed, rfl⟩
  | .record ts, fields h cs, hform => by
    rw [Bounded.kinds]
    exact hform.2.2.select
  | .scalar _, fields _ _, hform => hform.elim

theorem FormedAll.select : {ts : List ElementType} → {cs : List PortableArray} →
    FormedAll mode size sequence ts cs → ∀ k ∈ Bounded.kindsAll ts, ∃ b,
      Backend.select k mode = .ok b
  | [], [], _ => by simp [Bounded.kindsAll]
  | _ :: _, _ :: _, hform => by
    intro k hk
    obtain hk | hk := List.mem_append.1 hk
    · exact hform.1.select k hk
    · exact hform.2.select k hk
  | [], _ :: _, hform => hform.elim
  | _ :: _, [], hform => hform.elim

end

theorem ofValues_of_keeps (hvalid : t.validate = .ok ())
    (hselect : ∀ k ∈ Bounded.kinds t, ∃ b, Backend.select k mode = .ok b)
    (hvs : ∀ v ∈ vs, Keeps mode t v) :
    ∃ b, ofValues t mode vs = .ok b ∧ b.toList? = some vs ∧ b.isSequence = false := by
  have hfilled : ∃ a b, build (newColumn mode vs.length) mode vs.length t = .ok a ∧
    putFrom 0 a vs = .ok b ∧
      ∀ i, (hi : i < vs.length) → get? (0 + i) b = some vs[i] := by
    by_cases hmode : mode = .object
    · subst hmode
      obtain ⟨a, hnew, ha, -⟩ := build_object t vs.length
      have hput : ∀ v ∈ vs, ∀ a j, IsBoxed t vs.length a → j < vs.length →
        ∃ b, put j v a = (b, none) ∧
          IsBoxed t vs.length b ∧ get? j b = some v ∧ ∀ l, l ≠ j → get? l b = get? l a := by
        intro v hv a j ha hj
        obtain ⟨hfits, hkept⟩ : fits t v = true ∧ kept t v = v := hvs v hv
        obtain ⟨b, hput, hb, hself, hother⟩ := ha.put_of_fits hj hfits
        exact ⟨b, hput, hb, by rw [hself, hkept], hother⟩
      obtain ⟨b, hrun, -, -, hread⟩ := putFrom_of_put (i := 0) ha (by omega) hput
      exact ⟨a, b, hnew, hrun, hread⟩
    · obtain ⟨a, hnew, ha, -⟩ := @build_eq_ok mode vs.length hmode t hselect
      have hput : ∀ v ∈ vs, ∀ a j, Allocated mode vs.length t a → j < vs.length →
          ∃ b, put j v a = (b, none) ∧ Allocated mode vs.length t b ∧ get? j b = some v ∧
            ∀ l, l ≠ j → get? l b = get? l a := by
        intro v hv a j ha hj
        have hof : IsOf t v := by simpa [Keeps, hmode] using hvs v hv
        obtain ⟨b, hput, hb⟩ := put_of_hasShape hj t v a ha (isOf_iff.1 hof).1
        exact ⟨b, hput, hb.allocated, by rw [hb.get?_self, (isOf_iff.1 hof).2], hb.get?_other⟩
      obtain ⟨b, hrun, -, -, hread⟩ := putFrom_of_put (i := 0) ha (by omega) hput
      exact ⟨a, b, hnew, hrun, hread⟩
  obtain ⟨a, b, hnew, hrun, hread⟩ := hfilled
  have hb : ofValues t mode vs = .ok b := by
    rw [ofValues, construct, hvalid]
    exact bind_eq_ok.2 ⟨a, hnew, hrun⟩
  obtain ⟨-, -, hsize, hplain⟩ := (ofValues_formed hb).header
  refine ⟨b, hb, ?_, hplain⟩
  rw [toList?_eq_mapM]
  exact mapM_range_eq_some hsize.symm fun i hi => by simpa using hread i hi

/-! ### Slices -/

theorem toList?_window (hlength : vs.length = a.size)
    (hread : ∀ i, (hi : i < vs.length) → get? i a = some vs[i])
    (hinside : start + length ≤ a.size) :
    (ArraySlice.mk a start length).toList? = some ((vs.drop start).take length) := by
  have hlen : ((vs.drop start).take length).length = length := by
    rw [List.length_take, List.length_drop]
    omega
  rw [ArraySlice.toList?_eq_mapM]
  refine mapM_range_eq_some hlen fun i hi => ?_
  rw [hlen] at hi
  rw [ArraySlice.get?, hread (i + start) (by omega), List.getElem_take, List.getElem_drop]
  congr 2
  omega

theorem Stocked.toArray_window (ha : Stocked a) (hvs : a.toList? = some vs)
    (hinside : start + length ≤ a.size) :
    ∃ b, (ArraySlice.mk a start length).toArray = .ok b ∧
      b.toList? = some ((vs.drop start).take length) ∧ b.isSequence = false := by
  obtain ⟨vs', hvs', hlength, hread, hkeeps⟩ := ha.toList?
  obtain rfl : vs' = vs := Option.some.inj (hvs'.symm.trans hvs)
  have hkeeps' : ∀ v ∈ (vs'.drop start).take length, Keeps a.mode a.type v :=
    fun v hv => hkeeps v (List.mem_of_mem_drop (List.mem_of_mem_take hv))
  obtain ⟨b, hb, hlist, hplain⟩ := ofValues_of_keeps ha.valid ha.formed.select hkeeps'
  refine ⟨b, ?_, hlist, hplain⟩
  rw [ArraySlice.toArray, toList?_window hlength hread hinside]
  exact hb

theorem Stocked.slice (ha : Stocked a) (hvs : a.toList? = some vs) (start length : Nat)
    (hinside : start + length ≤ a.size) :
    ∃ s b, a.slice start length = .ok s ∧ s.toArray = .ok b ∧
      b.toList? = some ((vs.drop start).take length) ∧ b.isSequence = false := by
  obtain ⟨b, hb, hlist, hplain⟩ := ha.toArray_window hvs hinside
  exact ⟨⟨a, start, length⟩, b, if_pos hinside, hb, hlist, hplain⟩

/-! ### Chunks -/

theorem mul_lt_of_lt_count (hi : i < (size + chunk - 1) / chunk) : i * chunk < size := by
  have hchunk : 0 < chunk := Nat.pos_of_ne_zero (by rintro rfl; simp at hi)
  have hlast := (Nat.le_div_iff_mul_le hchunk).1 hi
  rw [Nat.succ_mul] at hlast
  omega

theorem chunksOfSize_contiguous (hchunk : 0 < chunk) :
    Contiguous size 0 (chunksOfSize size chunk) := by
  unfold chunksOfSize
  split
  · exact (by omega : 0 = size)
  · have hall : size ≤ (size + chunk - 1) / chunk * chunk := by
      have hdiv := Nat.div_add_mod (size + chunk - 1) chunk
      have hmod := Nat.mod_lt (size + chunk - 1) hchunk
      rw [Nat.mul_comm] at hdiv
      omega
    have hedges := contiguous_of_edges (e := fun i => min (i * chunk) size)
      (f := fun i => (i * chunk, min chunk (size - i * chunk))) (n := (size + chunk - 1) / chunk)
      fun i hi => by
        have hstart := mul_lt_of_lt_count hi
        simp only [Nat.succ_mul]
        omega
    simpa only [Nat.zero_mul, Nat.zero_min, Nat.min_eq_right hall] using hedges

/-- Windows that lie inside an array that has all its elements are arrays of their own. -/
theorem Stocked.toArray_slices (ha : Stocked a) (hvs : a.toList? = some vs)
    {bounds : List (Nat × Nat)} (hinside : ∀ p ∈ bounds, p.1 + p.2 ≤ a.size) :
    ∃ chunks, (a.slices bounds).mapM ArraySlice.toArray = .ok chunks ∧
      chunks.mapM PortableArray.toList? = some (bounds.map fun p => (vs.drop p.1).take p.2) ∧
      ∀ c ∈ chunks, c.isSequence = false := by
  induction bounds with
  | nil => exact ⟨[], rfl, rfl, List.forall_mem_nil _⟩
  | cons p bounds ih =>
    obtain ⟨c, hc, hlist, hplain⟩ := ha.toArray_window hvs (hinside p (.head _))
    obtain ⟨cs, hcs, hlists, hplains⟩ := ih fun q hq => hinside q (.tail _ hq)
    refine ⟨c :: cs, ?_, ?_, List.forall_mem_cons.2 ⟨hplain, hplains⟩⟩
    · rw [slices, List.map_cons, List.mapM_cons]
      exact bind_eq_ok.2 ⟨c, hc, bind_eq_ok.2 ⟨cs, hcs, rfl⟩⟩
    · rw [List.mapM_cons, hlist, hlists]
      rfl

/-- An array that has all its elements can be cut into chunks of any size, which hold its elements
in order. -/
theorem Stocked.splitBySize (ha : Stocked a) (hvs : a.toList? = some vs) (hchunk : 0 < chunk) :
    ∃ slices chunks windows, a.splitBySize chunk = .ok slices ∧
      slices.mapM ArraySlice.toArray = .ok chunks ∧
      chunks.mapM PortableArray.toList? = some windows ∧ windows.flatten = vs ∧
      ∀ c ∈ chunks, c.isSequence = false := by
  have hlength : vs.length = a.size := by
    obtain ⟨vs', hvs', hlength, -⟩ := ha.toList?
    cases hvs.symm.trans hvs'
    exact hlength
  obtain ⟨chunks, harrays, hlists, hplain⟩ :=
    ha.toArray_slices hvs (chunksOfSize_contiguous hchunk).inside.2
  refine ⟨_, chunks, _, if_neg (by omega), harrays, hlists, ?_, hplain⟩
  rw [(chunksOfSize_contiguous hchunk).flatten, ← hlength]
  exact List.take_length

end PortableArray

end Kernelwright
