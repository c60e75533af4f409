import Mathlib.Algebra.Order.Floor.Div
import Kernelwright.Proofs.PortableArray.Windows

/-!
# Chunks cover an array

An array is cut into chunks of a size or into a number of chunks. If there is room for the slices,
they lie side by side from its start to its end, and what is read through them is what the array
holds. Their bounds can be computed with machine words: no product, sum or difference on the way
leaves the range of a word that holds the size.
-/

namespace Kernelwright

variable {limit size chunk count : Nat}

/-! ### Bounds computed with words -/

def word? (limit n : Nat) : Option Nat := if n < limit then some n else none

/-- The difference of two words, which must not be negative. -/
def minus? (m n : Nat) : Option Nat := if n ≤ m then some (m - n) else none

def roundedUp? (limit m n : Nat) : Option Nat :=
  if 0 < m % n then word? limit (m / n + 1) else some (m / n)

/-- The chunks of a size, computed with words below a limit. -/
def chunksOfSize? (limit size chunk : Nat) : Option (List (Nat × Nat)) :=
  if chunk = 0 ∨ size = 0 then some []
  else do
    let count ← roundedUp? limit size chunk
    (List.range count).mapM fun i => do
      let start ← word? limit (i * chunk)
      let rest ← minus? size start
      return (start, min chunk rest)

/-- A number of chunks, computed with words below a limit. -/
def fixedChunks? (limit size count : Nat) : Option (List (Nat × Nat)) :=
  (List.range count).mapM fun i => do
    let start ← word? limit (i * (size / count))
    let next ← word? limit (i + 1)
    let length ← if next = count then minus? size start else some (size / count)
    return (start, length)

theorem word?_of_lt {n : Nat} (h : n < limit) : word? limit n = some n := if_pos h

theorem minus?_of_le {m n : Nat} (h : n ≤ m) : minus? m n = some (m - n) := if_pos h

theorem roundedUp?_eq (hchunk : 0 < chunk) (h : (size + chunk - 1) / chunk < limit) :
    roundedUp? limit size chunk = some ((size + chunk - 1) / chunk) := by
  have hmod := Nat.mod_lt size hchunk
  have hsplit : size + chunk - 1 = chunk * (size / chunk) + (size % chunk + chunk - 1) := by
    have hdiv := Nat.div_add_mod size chunk
    omega
  rw [hsplit, Nat.mul_add_div hchunk] at h ⊢
  unfold roundedUp?
  split
  · have hmore : (size % chunk + chunk - 1) / chunk = 1 := Nat.div_eq_of_lt_le (by omega) (by omega)
    rw [hmore] at h ⊢
    exact word?_of_lt h
  · have hnone : (size % chunk + chunk - 1) / chunk = 0 := Nat.div_eq_of_lt (by omega)
    rw [hnone, Nat.add_zero]

theorem chunksOfSize?_eq (hsize : size < limit) :
    chunksOfSize? limit size chunk = some (chunksOfSize size chunk) := by
  unfold chunksOfSize? chunksOfSize
  split
  · rfl
  · rename_i hpos
    have hchunk : 0 < chunk := by omega
    have hcount : (size + chunk - 1) / chunk ≤ size := by
      by_contra hmore
      have hlast := PortableArray.mul_lt_of_lt_count (Nat.not_le.1 hmore)
      exact absurd (Nat.le_mul_of_pos_right size hchunk) (Nat.not_le.2 hlast)
    rw [roundedUp?_eq hchunk (hcount.trans_lt hsize)]
    refine PortableArray.mapM_eq_some_map fun i hi => ?_
    have hstart := PortableArray.mul_lt_of_lt_count (List.mem_range.1 hi)
    simp [word?_of_lt (hstart.trans hsize), minus?_of_le hstart.le]

theorem mul_div_le_of_lt {i : Nat} (size : Nat) (hi : i < count) : i * (size / count) ≤ size :=
  (Nat.mul_le_mul_right _ hi.le).trans (Nat.mul_div_le size count)

theorem fixedChunks?_eq (hsize : size < limit) (hcount : count < limit) :
    fixedChunks? limit size count = some (fixedChunks size count) := by
  refine PortableArray.mapM_eq_some_map fun i hi => ?_
  have hi := List.mem_range.1 hi
  have hstart := mul_div_le_of_lt size hi
  have hnext : i + 1 < limit := Nat.lt_of_le_of_lt hi hcount
  rw [word?_of_lt (hstart.trans_lt hsize), word?_of_lt hnext]
  by_cases hlast : i + 1 = count
  · simp [hlast, minus?_of_le hstart]
  · simp [hlast]

theorem fixedChunks_contiguous (hcount : 0 < count) :
    Contiguous size 0 (fixedChunks size count) := by
  have hedges := contiguous_of_edges (n := count)
    (e := fun i => if i = count then size else i * (size / count))
    (f := fun i =>
      (i * (size / count), if i + 1 = count then size - i * (size / count) else size / count))
    fun i hi => by
      have hstart := mul_div_le_of_lt size hi
      simp only [if_neg hi.ne, true_and]
      split
      · omega
      · rw [Nat.succ_mul]
  simp only [if_true, if_neg hcount.ne, Nat.zero_mul] at hedges
  exact hedges

/-! ### Slices -/

def ArraySlice.bounds (s : ArraySlice) : Nat × Nat := (s.offset, s.length)

namespace PortableArray

variable {mode : StorageMode} {sequence : Bool} {t : ElementType} {a : PortableArray}

/-- Slices that lie side by side from the start of an array to its end, and through which its
elements are read in order. -/
structure Covers (slices : List ArraySlice) (a : PortableArray) : Prop where
  contiguous : Contiguous a.size 0 (slices.map ArraySlice.bounds)
  elements : ∃ parts, slices.mapM ArraySlice.toList? = some parts ∧ a.toList? = some parts.flatten

theorem bounds_slices (a : PortableArray) (bounds : List (Nat × Nat)) :
    (a.slices bounds).map ArraySlice.bounds = bounds := by
  simp [slices, Function.comp_def, ArraySlice.bounds]

theorem Formed.covers {bounds : List (Nat × Nat)} (ha : Formed mode a.size sequence t a)
    (h : Contiguous a.size 0 bounds) : Covers (a.slices bounds) a := by
  obtain ⟨vs, hvs, hlength, hread⟩ := exists_toList? fun i => (ha.access i).1
  refine ⟨(bounds_slices a bounds).symm ▸ h, bounds.map fun b => (vs.drop b.1).take b.2, ?_, ?_⟩
  · rw [slices, List.mapM_map]
    exact mapM_eq_some_map fun b hb => toList?_window hlength hread (h.inside.2 b hb)
  · rw [hvs, h.flatten, ← hlength]
    exact congrArg some List.take_length.symm

/-- The outcome of cutting an array into a number of chunks: slices of which something holds, if
there is room for so many. -/
def Cuts (r : Except (Limited ArrayError) (List ArraySlice)) (count : Nat)
    (P : List ArraySlice → Prop) : Prop :=
  if Memory.fits count Memory.sliceBytes then ∃ slices, r = .ok slices ∧
    slices.length = count ∧ P slices
  else r = .error .noRoom

theorem cuts_within {r : Except ArrayError (List ArraySlice)} {P : List ArraySlice → Prop}
    (h : ∃ slices, r = .ok slices ∧ slices.length = count ∧ P slices) :
    Cuts (Bounded.within count Memory.sliceBytes fun _ => r) count P := by
  obtain ⟨slices, rfl, h⟩ := h
  unfold Cuts Bounded.within
  split
  · exact ⟨slices, rfl, h⟩
  · rfl

/-- Chunks partition an array. Chunks of a size are as many as the size of the array divided by it
and rounded up; of a number of chunks all but the last have the same length. Either way they cover
the array if there is room for them, and their bounds are computed without leaving the words that
hold them. -/
theorem chunks_cover (ha : Formed mode a.size sequence t a) (hsize : a.size < limit)
    (hchunk : 0 < chunk) (hcount : 0 < count) (hword : count < limit) :
    Cuts (Bounded.splitBySize a chunk) (a.size ⌈/⌉ chunk) (fun slices =>
      (∀ s ∈ slices, 0 < s.length ∧ s.length ≤ chunk) ∧ Covers slices a ∧
      chunksOfSize? limit a.size chunk = some (slices.map ArraySlice.bounds)) ∧
    Cuts (Bounded.splitByCount a count) count fun slices =>
      (∀ s ∈ slices.dropLast, s.length = a.size / count) ∧ Covers slices a ∧
      fixedChunks? limit a.size count = some (slices.map ArraySlice.bounds) := by
  have hnumber : Bounded.chunkCount a.size chunk = a.size ⌈/⌉ chunk := by
    rw [Bounded.chunkCount, if_neg hchunk.ne', Nat.ceilDiv_eq_add_pred_div]
  rw [Bounded.splitBySize, hnumber]
  refine ⟨cuts_within ⟨_, if_neg hchunk.ne', ?_, ?_, ha.covers (chunksOfSize_contiguous hchunk),
    ?_⟩,
    cuts_within ⟨_, if_neg hcount.ne', ?_, ?_, ha.covers (fixedChunks_contiguous hcount), ?_⟩⟩
  · rw [Nat.ceilDiv_eq_add_pred_div, slices, List.length_map, chunksOfSize]
    split
    · rename_i hempty
      rw [List.length_nil, hempty.resolve_left hchunk.ne', Nat.zero_add,
        Nat.div_eq_of_lt (by omega)]
    · simp
  · intro s hs
    obtain ⟨b, hb, rfl⟩ := List.mem_map.1 hs
    unfold chunksOfSize at hb
    split at hb
    · cases hb
    · obtain ⟨i, hi, rfl⟩ := List.mem_map.1 hb
      have hstart := mul_lt_of_lt_count (List.mem_range.1 hi)
      simp only
      omega
  · rw [bounds_slices, chunksOfSize?_eq hsize]
  · simp [slices, fixedChunks]
  · intro s hs
    rw [slices, fixedChunks, List.map_map, ← List.map_dropLast] at hs
    obtain ⟨i, hi, rfl⟩ := List.mem_map.1 hs
    have hbefore : i + 1 ≠ count := by
      obtain ⟨n, rfl⟩ := Nat.exists_eq_succ_of_ne_zero hcount.ne'
      rw [List.range_succ, List.dropLast_concat, List.mem_range] at hi
      omega
    exact if_neg hbefore
  · rw [bounds_slices, fixedChunks?_eq hsize hword]

/-- Five elements in chunks of two, and in seven chunks. -/
theorem chunks_cover_five :
    ∃ a slices slices', construct 5 (.scalar .int) .plainBytes true = .ok a ∧
    Bounded.splitBySize a 2 = .ok slices ∧ slices.length = 3 ∧ Covers slices a ∧
    Bounded.splitByCount a 7 = .ok slices' ∧ slices'.length = 7 ∧ Covers slices' a := by
  obtain ⟨a, ha⟩ : ∃ a, construct 5 (.scalar .int) .plainBytes true = .ok a := ⟨_, rfl⟩
  have hform := construct_formed ha
  have hsize : a.size = 5 := hform.header.2.2.1
  rw [← hsize] at hform
  have hword : a.size < 2 ^ 64 := by omega
  have hseven : 7 < 2 ^ 64 := by decide
  obtain ⟨hcut, hcut'⟩ := chunks_cover hform hword Nat.two_pos (Nat.succ_pos 6) hseven
  rw [hsize, Cuts, if_pos (by decide)] at hcut
  rw [Cuts, if_pos (by decide)] at hcut'
  obtain ⟨slices, hslices, hlength, -, hcovers, -⟩ := hcut
  obtain ⟨slices', hslices', hlength', -, hcovers', -⟩ := hcut'
  exact ⟨a, slices, slices', ha, hslices, hlength, hcovers, hslices', hlength', hcovers'⟩

/-- There is no room for so many chunks of one element. -/
theorem vast_chunks_have_no_room :
    ∃ a, Bounded.construct 1 (.scalar .int) .nativeBuffers true = .ok a ∧
    Bounded.splitByCount a (2 ^ 59) = .error .noRoom :=
  ⟨_, rfl, rfl⟩

end PortableArray

end Kernelwright
